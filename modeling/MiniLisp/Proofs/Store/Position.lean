import MiniLisp.Proofs.Walk.Walks
import Mathlib.Data.Finset.Card

/-!
Positions in a value.  A path through heads and tails leads to what stands at its end
(`Store.follow`), so the paths of a value make up its tree, whatever cells are shared in it.  Where
no cell is inside itself, cells stand no more deeply in a value than there are cells
(`Acyclic.layered`), and induction on that goes down to the values that are no cells.
-/
set_option autoImplicit false

namespace MiniLisp

inductive Side where
  | head | tail
  deriving DecidableEq, Repr

def Cell.side (c : Cell) : Side → Value
  | .head => c.head
  | .tail => c.tail

namespace Store

def follow (s : Store) : List Side → Value → Option Value
  | [], v => some v
  | d :: path, .cell r => s.cells[r]?.bind fun c => s.follow path (c.side d)
  | _ :: _, _ => none

/-- No cell is inside itself. -/
def Acyclic (s : Store) : Prop := ∀ r, ¬ Relation.TransGen s.PartOf r r

def HoldsNaN (s : Store) (v : Value) : Prop := ∃ path, s.follow path v = some (.number .nan)

def FunctionFree (s : Store) (v : Value) : Prop :=
  ∀ path w, s.follow path v = some w → w.isFunction = false

/-- Cells stand no more than `n` deep inside each other in the value.  A function is a leaf. -/
inductive Layered (s : Store) : Nat → Value → Prop where
  | atom {n : Nat} {v : Value} : (∀ r, v ≠ .cell r) → s.Layered n v
  | cell {n : Nat} {r : CellRef} {c : Cell} : s.cells[r]? = some c → s.Layered n c.head →
      s.Layered n c.tail → s.Layered (n + 1) (.cell r)

variable {foreign : Value → Prop} {s t : Store} {v : Value} {r q : CellRef} {c : Cell} {n : Nat}

theorem follow_cell (hc : s.cells[r]? = some c) (d : Side) (path : List Side) :
    s.follow (d :: path) (.cell r) = s.follow path (c.side d) := by
  rw [follow, hc, Option.bind_some]

theorem follow_atom (hv : ∀ r, v ≠ .cell r) (d : Side) (path : List Side) :
    s.follow (d :: path) v = none := by
  cases v with
  | cell r => exact absurd rfl (hv r)
  | _ => rfl

theorem HoldsNaN.of_side (hc : s.cells[r]? = some c) (d : Side) (h : s.HoldsNaN (c.side d)) :
    s.HoldsNaN (.cell r) := by
  obtain ⟨path, hpath⟩ := h
  exact ⟨d :: path, (follow_cell hc d path).trans hpath⟩

theorem not_holdsNaN_atom (hv : ∀ r, v ≠ .cell r) (hnan : v ≠ .number .nan) :
    ¬ s.HoldsNaN v := by
  rintro ⟨path, hpath⟩
  cases path with
  | nil => exact hnan (Option.some.inj hpath)
  | cons d path =>
    rw [follow_atom hv] at hpath
    cases hpath

theorem not_holdsNaN_cell (hc : s.cells[r]? = some c) (hhead : ¬ s.HoldsNaN c.head)
    (htail : ¬ s.HoldsNaN c.tail) : ¬ s.HoldsNaN (.cell r) := by
  rintro ⟨path, hpath⟩
  cases path with
  | nil => cases hpath
  | cons d path =>
    rw [follow_cell hc] at hpath
    cases d with
    | head => exact hhead ⟨path, hpath⟩
    | tail => exact htail ⟨path, hpath⟩

theorem FunctionFree.side (h : s.FunctionFree (.cell r)) (hc : s.cells[r]? = some c) (d : Side) :
    s.FunctionFree (c.side d) := fun path w hw =>
  h (d :: path) w ((follow_cell hc d path).trans hw)

theorem Layered.mono {m n : Nat} (h : s.Layered m v) (hle : m ≤ n) (hk : s.KeepsCells t) :
    t.Layered n v := by
  induction h generalizing n with
  | atom hv => exact .atom hv
  | cell hc _ _ ihh iht =>
    obtain ⟨n, rfl⟩ := Nat.exists_eq_add_of_le' (Nat.le_of_add_left_le hle)
    exact .cell (hk hc) (ihh (by omega)) (iht (by omega))

theorem Leads.lt_size (h : s.Leads v q) (hs : s.Sound foreign) (hv : s.Admits foreign v) :
    q < s.cells.size := by
  induction h with
  | here r => exact hv
  | head hc _ ih => exact ih (hs.cell hc).1
  | tail hc _ ih => exact ih (hs.cell hc).2

theorem Leads.of_side (hc : s.cells[r]? = some c) (d : Side) (h : s.Leads (c.side d) q) :
    s.Leads (.cell r) q := by
  cases d with
  | head => exact .head hc h
  | tail => exact .tail hc h

theorem leads_iff_follow : s.Leads v r ↔ ∃ path, s.follow path v = some (.cell r) := by
  constructor
  · intro h
    induction h with
    | here r => exact ⟨[], rfl⟩
    | head hc _ ih =>
      obtain ⟨path, hpath⟩ := ih
      exact ⟨.head :: path, (follow_cell hc .head path).trans hpath⟩
    | tail hc _ ih =>
      obtain ⟨path, hpath⟩ := ih
      exact ⟨.tail :: path, (follow_cell hc .tail path).trans hpath⟩
  · rintro ⟨path, hpath⟩
    induction path generalizing v with
    | nil =>
      obtain rfl := Option.some.inj hpath
      exact .here r
    | cons d path ih =>
      by_cases hcell : ∃ q, v = .cell q
      · obtain ⟨q, rfl⟩ := hcell
        obtain ⟨c, hc, hrest⟩ := Option.bind_eq_some_iff.1 hpath
        exact .of_side hc d (ih hrest)
      · rw [follow_atom fun q hq => hcell ⟨q, hq⟩] at hpath
        cases hpath

theorem Unfolds.functionFree {d : Datum} (h : s.Unfolds v d) : s.FunctionFree v := by
  intro path w hw
  induction path generalizing v d with
  | nil =>
    obtain rfl := Option.some.inj hw
    cases h <;> rfl
  | cons side path ih =>
    cases h with
    | cell hc hhead htail =>
      rw [follow_cell hc] at hw
      cases side with
      | head => exact ih hhead hw
      | tail => exact ih htail hw
    | _ => cases hw

theorem Leads.inside (h : s.Leads v q) (hc : s.cells[r]? = some c) (hv : c.head = v ∨ c.tail = v) :
    Relation.TransGen s.PartOf q r := by
  induction h generalizing r c with
  | here q => exact .single ⟨c, hc, hv⟩
  | head hd _ ih => exact (ih hd (.inl rfl)).tail ⟨c, hc, hv⟩
  | tail hd _ ih => exact (ih hd (.inr rfl)).tail ⟨c, hc, hv⟩

theorem follow_keepsCells (hs : s.Sound foreign) (hk : s.KeepsCells t) (hv : s.Admits foreign v)
    (path : List Side) : t.follow path v = s.follow path v := by
  induction path generalizing v with
  | nil => rfl
  | cons d path ih =>
    by_cases hcell : ∃ r, v = .cell r
    · obtain ⟨r, rfl⟩ := hcell
      obtain ⟨c, hc⟩ : ∃ c, s.cells[r]? = some c := ⟨_, Array.getElem?_eq_getElem hv⟩
      rw [follow_cell hc, follow_cell (hk hc)]
      cases d with
      | head => exact ih (hs.cell hc).1
      | tail => exact ih (hs.cell hc).2
    · have hatom : ∀ r, v ≠ .cell r := fun r hr => hcell ⟨r, hr⟩
      rw [follow_atom hatom, follow_atom hatom]

theorem Chain.last_ne_cell {items : List Value} {last : Value} (h : s.Chain v items last) :
    ∀ r, last ≠ .cell r := by
  induction h with
  | stop hv => exact hv
  | link _ _ ih => exact ih

theorem Layered.chain (h : s.Layered n v) :
    ∃ items last, s.Chain v items last ∧ ∀ i ∈ items, s.Layered n i := by
  induction h with
  | atom hv => exact ⟨[], _, .stop hv, List.forall_mem_nil _⟩
  | @cell n r c hc hh _ _ iht =>
    obtain ⟨items, last, hchain, hitems⟩ := iht
    have hmono : ∀ {i}, s.Layered n i → s.Layered (n + 1) i := fun hi =>
      hi.mono (Nat.le_succ n) (.refl s)
    exact ⟨c.head :: items, last, .link hc hchain,
      List.forall_mem_cons.2 ⟨hmono hh, fun i hi => hmono (hitems i hi)⟩⟩

theorem Layered.nested (h : s.Layered n v) (hfree : s.FunctionFree v) : s.Nested n v := by
  induction h with
  | @atom n v hv =>
    refine .atom ?_
    have hfunction := hfree [] v rfl
    cases v with
    | cell r => exact absurd rfl (hv r)
    | closure r => cases hfunction
    | _ => rfl
  | cell hc _ _ ihh iht =>
    exact .cell hc (ihh (hfree.side hc .head)) (iht (hfree.side hc .tail))

theorem Layered.side (h : s.Layered n (.cell r)) (hc : s.cells[r]? = some c) (d : Side) :
    ∃ m, n = m + 1 ∧ s.Layered m (c.side d) := by
  cases h with
  | atom hv => exact absurd rfl (hv r)
  | @cell m _ _ hc' hh ht =>
    obtain rfl := Option.some.inj (hc.symm.trans hc')
    cases d with
    | head => exact ⟨m, rfl, hh⟩
    | tail => exact ⟨m, rfl, ht⟩

theorem Layered.of_leads (h : s.Layered n v) (hr : s.Leads v r) : s.Layered n (.cell r) := by
  induction hr generalizing n with
  | here r => exact h
  | head hc _ ih =>
    obtain ⟨m, rfl, hh⟩ := h.side hc .head
    exact (ih hh).mono (Nat.le_succ m) (.refl s)
  | tail hc _ ih =>
    obtain ⟨m, rfl, ht⟩ := h.side hc .tail
    exact (ih ht).mono (Nat.le_succ m) (.refl s)

theorem Layered.not_leads (h : s.Layered n (.cell r)) (hc : s.cells[r]? = some c) (d : Side) :
    ¬ s.Leads (c.side d) r := by
  intro hr
  induction n with
  | zero =>
    obtain ⟨m, hm, -⟩ := h.side hc d
    cases hm
  | succ n ih =>
    obtain ⟨m, hm, hpart⟩ := h.side hc d
    obtain rfl := Nat.succ.inj hm
    exact ih (hpart.of_leads hr)

/-- A value has no more layers than there are cells that it leads to, if none of them leads back to
itself. -/
theorem layered_of_leads {reach : Finset CellRef} (hcard : reach.card ≤ n)
    (hcells : ∀ q, s.Leads v q → q < s.cells.size)
    (hback : ∀ q c d, s.Leads v q → s.cells[q]? = some c → ¬ s.Leads (c.side d) q)
    (hreach : ∀ q, s.Leads v q → q ∈ reach) : s.Layered n v := by
  induction n generalizing v reach with
  | zero =>
    refine .atom fun r hr => ?_
    subst hr
    rw [Finset.card_eq_zero.1 (Nat.le_zero.1 hcard)] at hreach
    exact absurd (hreach r (.here r)) (Finset.notMem_empty r)
  | succ n ih =>
    by_cases hcell : ∃ r, v = .cell r
    · obtain ⟨r, rfl⟩ := hcell
      obtain ⟨c, hc⟩ : ∃ c, s.cells[r]? = some c :=
        ⟨_, Array.getElem?_eq_getElem (hcells r (.here r))⟩
      have hless : (reach.erase r).card ≤ n := by
        rw [Finset.card_erase_of_mem (hreach r (.here r))]
        omega
      have hpart : ∀ d, s.Layered n (c.side d) := by
        intro d
        refine ih hless (fun q hq => hcells q (.of_side hc d hq))
          (fun q _ _ hq => hback q _ _ (.of_side hc d hq)) fun q hq => ?_
        refine Finset.mem_erase.2 ⟨?_, hreach q (.of_side hc d hq)⟩
        rintro rfl
        exact hback q c d (.here q) hc hq
      exact .cell hc (hpart .head) (hpart .tail)
    · exact .atom fun r hr => hcell ⟨r, hr⟩

theorem Acyclic.layered (ha : s.Acyclic) (hs : s.Sound foreign) (hv : s.Admits foreign v) :
    s.Layered s.cells.size v := by
  refine layered_of_leads (Nat.le_of_eq (Finset.card_range _)) (fun q hq => hq.lt_size hs hv)
    (fun q c d _ hc hback => ?_) fun q hq => Finset.mem_range.2 (hq.lt_size hs hv)
  cases d with
  | head => exact ha q (hback.inside hc (.inl rfl))
  | tail => exact ha q (hback.inside hc (.inr rfl))

theorem Layered.within_size (h : s.Layered n v) : s.Layered s.cells.size v := by
  have hlt : ∀ q, s.Leads v q → q < s.cells.size := by
    intro q hq
    cases h.of_leads hq with
    | atom hv => exact absurd rfl (hv q)
    | cell hc _ _ => exact (Array.getElem?_eq_some_iff.1 hc).1
  exact layered_of_leads (Nat.le_of_eq (Finset.card_range _)) hlt
    (fun q c d hq hc => (h.of_leads hq).not_leads hc d) fun q hq => Finset.mem_range.2 (hlt q hq)

theorem Aged.acyclic (hs : s.Aged) : s.Acyclic := fun r hr => Nat.lt_irrefl r (hs.lt_of_partOf hr)

end Store
end MiniLisp
