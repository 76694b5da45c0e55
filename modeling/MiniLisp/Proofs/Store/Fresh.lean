import MiniLisp.Proofs.Eval.Irrelevance
import MiniLisp.Proofs.Rename.Ahead

set_option autoImplicit false

namespace MiniLisp.Store

inductive Spine (s : Store) : Value → CellRef → Prop where
  | first (r : CellRef) : s.Spine (.cell r) r
  | next {r q : CellRef} {c : Cell} : s.cells[r]? = some c → s.Spine c.tail q →
      s.Spine (.cell r) q

def assignAll (s : Store) (changes : List (CellRef × Cell)) : Store :=
  changes.foldl (fun s change => s.setCell change.1 change.2) s

variable {foreign : Value → Prop} {s t : Store} {v last : Value} {items : List Value}

/-- A chain that was there before has not got new cells. -/
theorem Chain.spine (h : s.Chain v items last) (hk : s.KeepsCells t) {r : CellRef}
    (hr : t.Spine v r) : s.Spine v r := by
  induction h with
  | stop hv =>
    cases hr with
    | first => exact absurd rfl (hv r)
    | next _ _ => exact absurd rfl (hv _)
  | link hc _ ih =>
    cases hr with
    | first => exact .first r
    | next hd hr =>
      obtain rfl := Option.some.inj ((hk hc).symm.trans hd)
      exact .next hc (ih hr)

theorem Spine.lt_size (hs : s.Sound foreign) (hv : s.Admits foreign v) {r : CellRef}
    (h : s.Spine v r) : r < s.cells.size := by
  induction h with
  | first r => exact hv
  | next hc _ ih => exact ih (hs.cell hc).2

theorem spine_list (s : Store) (items : List Value) {r : CellRef}
    (h : (s.list items .nil).2.Spine (s.list items .nil).1 r) : s.cells.size ≤ r := by
  induction items with
  | nil => cases h
  | cons x xs ih =>
    obtain ⟨hlist, hkeeps⟩ := list_spec s xs
    -- The tail is made before the cell in front of it, which thus leaves the tail's cells alone.
    cases h with
    | first => exact size_le_of_keepsCells hkeeps
    | next hc hr =>
      obtain rfl := Option.some.inj ((cons_new _ _ _).symm.trans hc)
      exact ih (hlist.spine (keepsCells_cons _ _ _) hr)

theorem list_rest (s : Store) (items : List Value) (tail : Value) :
    (s.list items tail).2 = { s with cells := (s.list items tail).2.cells } := by
  induction items with
  | nil => rfl
  | cons x xs ih =>
    have hcons : (s.list (x :: xs) tail).2 =
      ((s.list xs tail).2.cons x (s.list xs tail).1).2 := rfl
    rw [hcons, Store.cons, ih]

theorem Admits.has {n : Node} (hv : s.Admits foreign v) (hn : v.node? = some n) : s.Has n := by
  cases v with
  | cell r =>
    obtain rfl := Option.some.inj hn
    exact hv
  | closure r =>
    obtain rfl := Option.some.inj hn
    exact hv
  | _ => cases hn

theorem Sound.has_nodes (hs : s.Sound foreign) {n k : Node} (hk : k ∈ s.nodes n) : s.Has k := by
  have hparts : ∀ {vs : List Value}, (∀ v ∈ vs, s.Admits foreign v) →
      k ∈ vs.filterMap Value.node? → s.Has k := by
    intro vs hvs hk
    obtain ⟨v, hv, hnode⟩ := List.mem_filterMap.1 hk
    exact (hvs v hv).has hnode
  cases n with
  | cell r =>
    cases hc : s.cells[r]? with
    | none => simp [nodes, hc] at hk
    | some c =>
      have hcell : k ∈ c.nodes := by simpa [nodes, hc] using hk
      exact hparts (by simpa using hs.cell hc) hcell
  | closure r =>
    cases hc : s.closures[r]? with
    | none => simp [nodes, hc] at hk
    | some c =>
      have hclosure : k ∈ c.nodes := by simpa [nodes, hc] using hk
      obtain ⟨hparameters, hbody, hscope⟩ := hs.closure hc
      rcases List.mem_cons.1 hclosure with rfl | hk
      · exact hscope
      · exact hparts (by simpa using ⟨hparameters, hbody⟩) hk
  | frame r =>
    cases hf : s.frames[r]? with
    | none => simp [nodes, hf] at hk
    | some f =>
      have hr := (Array.getElem?_eq_some_iff.1 hf).1
      have hframe : k ∈ f.nodes := by simpa [nodes, hf] using hk
      rcases List.mem_append.1 hframe with hk | hk
      · obtain ⟨o, ho, rfl⟩ : ∃ o ∈ f.outer, Node.frame o = k := by simpa using hk
        exact Nat.lt_trans (hs.outer hf o ho) hr
      · obtain ⟨b, hb, hnode⟩ := List.mem_filterMap.1 hk
        exact (hs.bound hf b hb).has hnode

/-- What was there before leads to nothing new, as long as only cells have been added. -/
theorem Sound.has_of_reaches (hs : s.Sound foreign) (hk : s.KeepsCells t)
    (ht : t = { s with cells := t.cells }) {n k : Node} (hn : s.Has n) (h : t.Reaches n k) :
    s.Has k := by
  have hnodes : ∀ {n}, s.Has n → t.nodes n = s.nodes n := by
    intro n hn
    rw [ht]
    cases n with
    | cell r =>
      have hr : s.cells[r]? = some s.cells[r] := Array.getElem?_eq_getElem hn
      simp only [nodes, hk hr, hr]
    | _ => rfl
  induction h with
  | refl => exact hn
  | tail _ hstep ih => exact hs.has_nodes (hnodes ih ▸ hstep)

theorem Sound.not_reaches_new (hs : s.Sound foreign) (hk : s.KeepsCells t)
    (ht : t = { s with cells := t.cells }) {n : Node} (hn : s.Has n) {r : CellRef}
    (hr : s.cells.size ≤ r) : ¬ t.Reaches n (.cell r) := fun h =>
  Nat.not_lt.2 hr (hs.has_of_reaches hk ht hn h)

theorem cells_assignAll {changes : List (CellRef × Cell)} {r : CellRef}
    (h : ∀ change ∈ changes, change.1 ≠ r) : (s.assignAll changes).cells[r]? = s.cells[r]? := by
  induction changes generalizing s with
  | nil => rfl
  | cons change changes ih =>
    obtain ⟨hfirst, hrest⟩ := List.forall_mem_cons.1 h
    have hset : (s.setCell change.1 change.2).cells[r]? = s.cells[r]? := by
      rw [setCell, Array.getElem?_setIfInBounds, if_neg hfirst]
    exact (ih hrest).trans hset

theorem Chain.assignAll {changes : List (CellRef × Cell)} (h : s.Chain v items last)
    (hr : ∀ r, s.Spine v r → ∀ change ∈ changes, change.1 ≠ r) :
    (s.assignAll changes).Chain v items last := by
  induction h with
  | stop hv => exact .stop hv
  | link hc _ ih =>
    have hcell := (cells_assignAll (hr _ (.first _))).trans hc
    exact .link hcell (ih fun r hs => hr r (.next hc hs))

end MiniLisp.Store
