import MiniLisp.Proofs.Rename.Reading
import MiniLisp.Proofs.Store.Equality
import MiniLisp.Proofs.Store.Fresh

/-!
Deep copies.  What stands in a copy are the renamed cells of the original and its atoms as they are
(`Copies.follow_eq`).  So a copy has the original's positions and shares cells where that does, and
as all of its cells are new, assigning those of one does not show in the other
(`Copies.deepCopied`).
-/
set_option autoImplicit false

namespace MiniLisp

open Store

/-- A cell stands for a cell, and any other value for itself. -/
inductive Value.Copied : Value → Value → Prop where
  | cells (q r : CellRef) : Copied (.cell q) (.cell r)
  | atom {v : Value} : (∀ r, v ≠ .cell r) → Copied v v

theorem Value.rename_eq_self {v : Value} {ρ : Renaming} (hcell : ∀ r, v ≠ .cell r)
    (hfree : v.isFunction = false) : v.rename ρ = v := by
  cases v with
  | cell r => exact absurd rfl (hcell r)
  | closure r => cases hfree
  | primitive p serial => cases hfree
  | _ => rfl

theorem Cell.side_rename (c : Cell) (ρ : Renaming) (d : Side) :
    (c.rename ρ).side d = (c.side d).rename ρ := by cases d <;> rfl

namespace Store

section

variable {foreign : Value → Prop} {s t : Store} {v : Value} {r : CellRef} {c : Cell} {n : Nat}

theorem follow_assignAll {changes : List (CellRef × Cell)}
    (h : ∀ r, s.Leads v r → ∀ change ∈ changes, change.1 ≠ r) (path : List Side) :
    (s.assignAll changes).follow path v = s.follow path v := by
  induction path generalizing v with
  | nil => rfl
  | cons d path ih =>
    by_cases hcell : ∃ r, v = .cell r
    · obtain ⟨r, rfl⟩ := hcell
      rw [follow, follow, cells_assignAll (h r (.here r))]
      cases hc : s.cells[r]? with
      | none => rfl
      | some c => exact ih fun q hq => h q (.of_side hc d hq)
    · have hatom : ∀ r, v ≠ .cell r := fun r hr => hcell ⟨r, hr⟩
      rw [follow_atom hatom, follow_atom hatom]

end

/-- The cells that the value leads to stand once more in `t`, each under a new name of its own. -/
structure Copies (s : Store) (v : Value) (ρ : Renaming) (t : Store) : Prop where
  free : s.FunctionFree v
  entry : ∀ ⦃r⦄, s.Leads v r → ∃ c, s.cells[r]? = some c ∧ t.cells[ρ.cell r]? = some (c.rename ρ)
  fresh : ∀ ⦃r⦄, s.Leads v r → s.cells.size ≤ ρ.cell r
  injective : ∀ ⦃q r⦄, s.Leads v q → s.Leads v r → ρ.cell q = ρ.cell r → q = r
  keeps : s.KeepsCells t

namespace Copies

variable {foreign : Value → Prop} {s t : Store} {v : Value} {ρ : Renaming} {r : CellRef} {c : Cell}
  {n : Nat}

theorem side (h : s.Copies (.cell r) ρ t) (hc : s.cells[r]? = some c) (d : Side) :
    s.Copies (c.side d) ρ t where
  free := h.free.side hc d
  entry _ hq := h.entry (.of_side hc d hq)
  fresh _ hq := h.fresh (.of_side hc d hq)
  injective _ _ hp hq := h.injective (.of_side hc d hp) (.of_side hc d hq)
  keeps := h.keeps

theorem atom (h : s.Copies v ρ t) (hv : ∀ r, v ≠ .cell r) : v.rename ρ = v :=
  Value.rename_eq_self hv (h.free [] v rfl)

theorem follow_eq (h : s.Copies v ρ t) (path : List Side) :
    t.follow path (v.rename ρ) = (s.follow path v).map (Value.rename ρ) := by
  induction path generalizing v with
  | nil => rfl
  | cons d path ih =>
    by_cases hcell : ∃ r, v = .cell r
    · obtain ⟨r, rfl⟩ := hcell
      obtain ⟨c, hc, hc'⟩ := h.entry (.here r)
      rw [Value.rename, follow_cell hc, follow_cell hc', Cell.side_rename, ih (h.side hc d)]
    · have hatom : ∀ r, v ≠ .cell r := fun r hr => hcell ⟨r, hr⟩
      rw [h.atom hatom, follow_atom hatom, follow_atom hatom]
      rfl

theorem follow_copied (h : s.Copies v ρ t) (path : List Side) :
    Option.Rel Value.Copied (s.follow path v) (t.follow path (v.rename ρ)) := by
  rw [h.follow_eq]
  cases hu : s.follow path v with
  | none => exact .none
  | some u =>
    refine .some ?_
    by_cases hcell : ∃ r, u = .cell r
    · obtain ⟨r, rfl⟩ := hcell
      exact .cells _ _
    · have hatom : ∀ r, u ≠ .cell r := fun r hr => hcell ⟨r, hr⟩
      rw [Value.rename_eq_self hatom (h.free path u hu)]
      exact .atom hatom

theorem follow_eq_cell (h : s.Copies v ρ t) {path : List Side} :
    t.follow path (v.rename ρ) = some (.cell r) ↔
      ∃ q, s.follow path v = some (.cell q) ∧ ρ.cell q = r := by
  rw [h.follow_eq, Option.map_eq_some_iff]
  constructor
  · rintro ⟨u, hu, hr⟩
    cases u with
    | cell q => exact ⟨q, hu, Value.cell.inj hr⟩
    | _ => cases hr
  · rintro ⟨q, hq, rfl⟩
    exact ⟨.cell q, hq, rfl⟩

theorem shared_iff (h : s.Copies v ρ t) (p q : List Side) :
    (∃ r, t.follow p (v.rename ρ) = some (.cell r) ∧ t.follow q (v.rename ρ) = some (.cell r)) ↔
      ∃ r, s.follow p v = some (.cell r) ∧ s.follow q v = some (.cell r) := by
  constructor
  · rintro ⟨r, hp, hq⟩
    obtain ⟨i, hi, hir⟩ := h.follow_eq_cell.1 hp
    obtain ⟨j, hj, hjr⟩ := h.follow_eq_cell.1 hq
    obtain rfl := h.injective (leads_iff_follow.2 ⟨p, hi⟩) (leads_iff_follow.2 ⟨q, hj⟩)
      (hir.trans hjr.symm)
    exact ⟨i, hi, hj⟩
  · rintro ⟨r, hp, hq⟩
    exact ⟨ρ.cell r, h.follow_eq_cell.2 ⟨r, hp, rfl⟩, h.follow_eq_cell.2 ⟨r, hq, rfl⟩⟩

theorem size_le_of_leads (h : s.Copies v ρ t) (hr : t.Leads (v.rename ρ) r) : s.cells.size ≤ r := by
  obtain ⟨path, hpath⟩ := leads_iff_follow.1 hr
  obtain ⟨q, hq, rfl⟩ := h.follow_eq_cell.1 hpath
  exact h.fresh (leads_iff_follow.2 ⟨path, hq⟩)

theorem chain {items : List Value} {last : Value} (h : s.Copies v ρ t)
    (hchain : s.Chain v items last) :
    t.Chain (v.rename ρ) (items.map (Value.rename ρ)) (last.rename ρ) ∧
      (∀ i ∈ items, s.Copies i ρ t) ∧ s.Copies last ρ t := by
  induction hchain with
  | stop hv => exact ⟨.stop (Value.rename_ne_cell hv), List.forall_mem_nil _, h⟩
  | @link r c _ _ hc _ ih =>
    obtain ⟨d, hd, hd'⟩ := h.entry (.here r)
    obtain rfl := Option.some.inj (hc.symm.trans hd)
    obtain ⟨hrest, hitems, hlast⟩ := ih (h.side hc .tail)
    exact ⟨.link hd' hrest, List.forall_mem_cons.2 ⟨h.side hc .head, hitems⟩, hlast⟩

theorem layered (h : s.Copies v ρ t) (hv : s.Layered n v) : t.Layered n (v.rename ρ) := by
  induction hv with
  | atom hv => exact .atom (Value.rename_ne_cell hv)
  | @cell n r c hc _ _ ihh iht =>
    obtain ⟨d, hd, hd'⟩ := h.entry (.here r)
    obtain rfl := Option.some.inj (hc.symm.trans hd)
    exact .cell hd' (ihh (h.side hc .head)) (iht (h.side hc .tail))

theorem write (h : s.Copies v ρ t) (hv : s.Layered n v) (room : Nat) (out : String) :
    t.write room (v.rename ρ) out = s.write room v out := by
  induction room generalizing v out with
  | zero => rw [Store.write, Store.write]
  | succ room ih =>
    by_cases hcell : ∃ r, v = .cell r
    · obtain ⟨r, rfl⟩ := hcell
      obtain ⟨items, last, hchain, hlayers⟩ := hv.chain
      cases hchain with
      | stop hatom => exact absurd rfl (hatom r)
      | @link _ c items _ hc hrest =>
        obtain ⟨d, hd, hd'⟩ := h.entry (.here r)
        obtain rfl := Option.some.inj (hc.symm.trans hd)
        obtain ⟨hhead, hlayers⟩ := List.forall_mem_cons.1 hlayers
        obtain ⟨hrest', hitems, hlast⟩ := (h.side hc .tail).chain hrest
        have hend : s.Layered n last := .atom hrest.last_ne_cell
        have hitem : ∀ out : String, (items.map (Value.rename ρ)).foldlM
            (fun out x => t.write room x (out.push ' ')) out =
              items.foldlM (fun out x => s.write room x (out.push ' ')) out :=
          foldlM_same fun x hx out => ih (hitems x hx) (hlayers x hx) _
        have htail : t.writeTail room (items.map (Value.rename ρ)) (last.rename ρ) =
            s.writeTail room items last := by
          funext out
          simp only [writeTail, hitem, Value.rename_eq_nil_iff, ih hlast hend]
        have hfirst := ih (h.side hc .head) hhead (out.push '(')
        rw [Value.rename, write_cell hd' hrest', write_cell hc hrest, htail]
        exact congrArg (Except.bind · (s.writeTail room items last)) hfirst
    · have hatom : ∀ r, v ≠ .cell r := fun r hr => hcell ⟨r, hr⟩
      rw [h.atom hatom]
      have hfunction := h.free [] v rfl
      cases v with
      | cell r => exact absurd rfl (hatom r)
      | closure r => cases hfunction
      | _ => rfl

theorem not_equals_nan (h : s.Copies v ρ t) (hs : s.Sound foreign) (hv : s.Admits foreign v)
    (hequal : t.Equals (v.rename ρ) v) (path : List Side) :
    s.follow path v ≠ some (.number .nan) := by
  induction path generalizing v with
  | nil =>
    rintro hnan
    obtain rfl := Option.some.inj hnan
    cases hequal with
    | atoms _ _ h => cases h
  | cons d path ih =>
    by_cases hcell : ∃ r, v = .cell r
    · obtain ⟨r, rfl⟩ := hcell
      obtain ⟨c, hc, hc'⟩ := h.entry (.here r)
      have hne : ρ.cell r ≠ r := Nat.ne_of_gt (Nat.lt_of_lt_of_le hv (h.fresh (.here r)))
      rw [Value.rename] at hequal
      generalize ρ.cell r = q at hequal hne hc'
      cases hequal with
      | same _ => exact absurd rfl hne
      | cells _ hd hc₁ hh ht =>
        obtain rfl := Option.some.inj (hc'.symm.trans hd)
        obtain rfl := Option.some.inj ((h.keeps hc).symm.trans hc₁)
        rw [follow_cell hc]
        cases d with
        | head => exact ih (h.side hc .head) (hs.cell hc).1 hh
        | tail => exact ih (h.side hc .tail) (hs.cell hc).2 ht
      | atoms hq _ _ => exact absurd rfl (hq q)
    · rw [follow_atom fun r hr => hcell ⟨r, hr⟩]
      exact (Option.some_ne_none _).symm

theorem equals (h : s.Copies v ρ t) (hs : s.Sound foreign) (hv : s.Admits foreign v)
    (hlayer : s.Layered n v) (hnan : ¬ s.HoldsNaN v) : t.Equals (v.rename ρ) v := by
  induction hlayer with
  | atom hatom =>
    rw [h.atom hatom]
    exact .refl fun hv => hnan ⟨[], congrArg some hv⟩
  | @cell n r c hc _ _ ihh iht =>
    obtain ⟨d, hd, hd'⟩ := h.entry (.here r)
    obtain rfl := Option.some.inj (hc.symm.trans hd)
    have hne : ρ.cell r ≠ r := Nat.ne_of_gt (Nat.lt_of_lt_of_le hv (h.fresh (.here r)))
    exact .cells hne hd' (h.keeps hc)
      (ihh (h.side hc .head) (hs.cell hc).1 fun hn => hnan (hn.of_side hc .head))
      (iht (h.side hc .tail) (hs.cell hc).2 fun hn => hnan (hn.of_side hc .tail))

theorem lt_size_of_leads (h : s.Copies v ρ t) (hs : s.Sound foreign) (hv : s.Admits foreign v)
    {r : CellRef} (hr : t.Leads v r) : r < s.cells.size := by
  obtain ⟨path, hpath⟩ := leads_iff_follow.1 hr
  rw [follow_keepsCells hs h.keeps hv] at hpath
  exact (leads_iff_follow.2 ⟨path, hpath⟩).lt_size hs hv

/-- The copy is printed with more room, which matters only where the original had too little. -/
theorem print_eq (h : s.Copies v ρ t) (hlayer : s.Layered s.cells.size v)
    (hclosures : t.closures = s.closures) : t.print (v.rename ρ) = s.print v := by
  have hsize : s.cells.size ≤ t.cells.size := size_le_of_keepsCells h.keeps
  have hroom : s.ampleRoom ≤ t.ampleRoom := by
    simp only [ampleRoom, hclosures]
    omega
  have hprints := (hlayer.nested h.free).prints.1 (s.cells.size + s.closures.size) ""
    (Nat.le_add_right _ _)
  have hample := (s.deepOrEq_printWithin hroom v).resolve_left (hprints.ne_deep (by simp))
  exact (h.write hlayer _ "").trans hample.symm

theorem equal_or_deep (h : s.Copies v ρ t) (hs : s.Sound foreign) (hv : s.Admits foreign v)
    (hlayer : s.Layered s.cells.size v) (depth : Nat) :
    (∃ same, t.equal depth (v.rename ρ) v = .ok same ∧ (same = true ↔ ¬ s.HoldsNaN v)) ∨
      t.equal depth (v.rename ρ) v = .error .recursionTooDeep ∧
        ∀ n, s.Headed n v → depth < 3 * n := by
  rcases t.equal_or_deep depth (v.rename ρ) v with ⟨same, hfound⟩ | ⟨hdeep, hless⟩
  · refine .inl ⟨same, hfound, ?_⟩
    have hcopied := (h.layered hlayer).mono (size_le_of_keepsCells h.keeps) (.refl t)
    rw [hcopied.equal_iff_equals hfound]
    refine ⟨fun hequal hnan => ?_, h.equals hs hv hlayer⟩
    obtain ⟨path, hpath⟩ := hnan
    exact h.not_equals_nan hs hv hequal path hpath
  · exact .inr ⟨hdeep, fun n hn => hless n (.inr (hn.mono (Nat.le_refl n) h.keeps))⟩

end Copies

section

variable {foreign : Value → Prop} {s : Store} {v : Value}

/-- The copy `w` in `t` has the positions of `v`, with cells shared just as there and all of them
new, and atoms as they are.  It is a list, prints and compares as `v` does, and neither shows what
is assigned to the cells of the other. -/
structure DeepCopied (s : Store) (v : Value) (t : Store) (w : Value) : Prop where
  kept : s.KeepsCells t ∧ t.closures = s.closures ∧ t.frames = s.frames
  positions : ∀ path, Option.Rel Value.Copied (s.follow path v) (t.follow path w)
  shared : ∀ p q, (∃ r, t.follow p w = some (.cell r) ∧ t.follow q w = some (.cell r)) ↔
    ∃ r, s.follow p v = some (.cell r) ∧ s.follow q v = some (.cell r)
  fresh : ∀ r, t.Leads w r → s.cells.size ≤ r
  proper : t.isProperList w = s.isProperList v
  listed : (t.toList? w).map List.length = (s.toList? v).map List.length
  truth : w = .nil ↔ v = .nil
  printed : t.print w = s.print v ∧ ∀ room, t.printWithin room w = s.printWithin room v
  equal : ∀ depth, (∃ same, t.equal depth w v = .ok same ∧ (same = true ↔ ¬ s.HoldsNaN v)) ∨
    t.equal depth w v = .error .recursionTooDeep ∧ ∀ n, s.Headed n v → depth < 3 * n
  identical : (v = .nil ∨ ∃ r, v = .cell r) → (w = v ↔ v = .nil)
  original : ∀ changes : List (CellRef × Cell), (∀ change ∈ changes, s.cells.size ≤ change.1) →
    ∀ path, (t.assignAll changes).follow path v = s.follow path v
  copy : ∀ changes : List (CellRef × Cell), (∀ change ∈ changes, change.1 < s.cells.size) →
    ∀ path, (t.assignAll changes).follow path w = t.follow path w

theorem Copies.deepCopied {t : Store} {ρ : Renaming} (h : s.Copies v ρ t) (hs : s.Sound foreign)
    (ha : s.Acyclic) (hv : s.Admits foreign v)
    (hrest : t.closures = s.closures ∧ t.frames = s.frames) : s.DeepCopied v t (v.rename ρ) := by
  have hlayer := ha.layered hs hv
  obtain ⟨items, last, hchain, -⟩ := hlayer.chain
  have hcopied := (h.chain hchain).1.chain_eq
  exact {
    kept := ⟨h.keeps, hrest⟩
    positions := h.follow_copied
    shared := h.shared_iff
    fresh := fun r => h.size_le_of_leads
    proper := by
      rw [isProperList, isProperList, hcopied, hchain.chain_eq]
      simp only [Value.rename_eq_nil_iff]
    listed := by
      rw [toList?, toList?, hcopied, hchain.chain_eq]
      simp only [Value.rename_eq_nil_iff]
      split
      · exact congrArg Except.ok (List.length_map _)
      · rfl
    truth := Value.rename_eq_nil_iff
    printed := ⟨h.print_eq hlayer hrest.1, fun room => h.write hlayer room ""⟩
    equal := h.equal_or_deep hs hv hlayer
    identical := by
      rintro (rfl | ⟨r, rfl⟩)
      · exact iff_of_true rfl rfl
      · have hnew : s.cells.size ≤ ρ.cell r := h.fresh (.here r)
        refine iff_of_false (fun hsame => ?_) (fun hnil => by cases hnil)
        exact absurd hv (Nat.not_lt.2 (Value.cell.inj hsame ▸ hnew))
    original := fun changes hnew path => by
      rw [follow_assignAll, follow_keepsCells hs h.keeps hv]
      exact fun r hr change hmem =>
        Nat.ne_of_gt (Nat.lt_of_lt_of_le (h.lt_size_of_leads hs hv hr) (hnew change hmem))
    copy := fun changes hbefore path => by
      refine follow_assignAll (fun r hr change hmem => ?_) path
      exact Nat.ne_of_lt (Nat.lt_of_lt_of_le (hbefore change hmem) (h.size_le_of_leads hr)) }

end

end Store
end MiniLisp
