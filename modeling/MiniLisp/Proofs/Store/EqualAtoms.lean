import MiniLisp.Proofs.Number.Rounding
import MiniLisp.Store.Equality

set_option autoImplicit false

namespace MiniLisp

theorem Double.signed_eq_signed {units : Nat} (h : 0 < units) (s t : Bool) :
    signed s units = signed t units ↔ t = s := by
  cases s <;> cases t <;> simp [signed] <;> omega

@[simp] theorem Value.exactUnits?_nan : (number .nan).exactUnits? = none := rfl

@[simp] theorem Value.exactUnits?_infinity (negative : Bool) :
    (number (.infinity negative)).exactUnits? = none := rfl

@[simp] theorem Value.exactUnits?_finite (negative : Bool) (m : Magnitude) :
    (number (.finite negative m)).exactUnits? = some (Double.signed negative m.units) := rfl

theorem Double.eq_eq_true {x y : Double} : x.eq y = true ↔
    (∃ i, (Value.number x).exactUnits? = some i ∧ (Value.number y).exactUnits? = some i) ∨
      (Value.number x).exactUnits? = none ∧ y = x ∧ x ≠ .nan := by
  have hfinite : ∀ (s t : Bool) (m : Magnitude), signed s unitLimit ≠ signed t m.units := by
    intro s t m h
    have hunits := congrArg Int.natAbs h
    rw [natAbs_signed, natAbs_signed] at hunits
    exact Nat.ne_of_gt m.lt_limit hunits
  cases x with
  | nan => simp [Double.eq, compare, position?]
  | infinity s =>
    cases y with
    | nan => simp [Double.eq, compare, position?]
    | infinity t =>
      change (signed s unitLimit == signed t unitLimit) = true ↔ _
      rw [beq_iff_eq, signed_eq_signed unitLimit_pos]
      simp
    | finite t m =>
      exact iff_of_false (fun h => hfinite s t m (beq_iff_eq.1 h)) (by simp)
  | finite s m =>
    cases y with
    | nan => simp [Double.eq, compare, position?]
    | infinity t =>
      exact iff_of_false (fun h => hfinite t s m (beq_iff_eq.1 h).symm) (by simp)
    | finite t n =>
      change (signed s m.units == signed t n.units) = true ↔ _
      rw [beq_iff_eq]
      refine ⟨fun h => .inl ⟨_, rfl, congrArg some h.symm⟩, ?_⟩
      rintro (⟨i, hi, hj⟩ | ⟨hnone, -⟩)
      · exact Option.some.inj (hi.trans hj.symm)
      · cases hnone

theorem Double.ne_eq (x y : Double) : x.ne y = !x.eq y := by
  rw [Double.ne, Double.eq, compare]
  cases x.position? with
  | none => rfl
  | some a =>
    cases y.position? with
    | none => rfl
    | some b => rfl

namespace Value

/-- Values with a finite exact value are equal by that, and others, NaN left aside, to themselves
only. -/
theorem equalAtoms_eq_true {v w : Value} : v.equalAtoms w = true ↔
    (∃ i, v.exactUnits? = some i ∧ w.exactUnits? = some i) ∨
      v.exactUnits? = none ∧ w = v ∧ v ≠ .number .nan := by
  by_cases hnumbers : ∃ x y, v = .number x ∧ w = .number y
  · obtain ⟨x, y, rfl, rfl⟩ := hnumbers
    rw [equalAtoms, Double.eq_eq_true]
    simp
  · have hnan : w = v → v ≠ .number .nan := fun h hv => hnumbers ⟨_, _, hv, h.trans hv⟩
    rw [equalAtoms]
    · cases hv : v.exactUnits? with
      | none =>
        cases hw : w.exactUnits? with
        | none =>
          simp only [decide_eq_true_iff, reduceCtorEq, false_and, exists_false, false_or, true_and]
          exact ⟨fun h => ⟨h.symm, hnan h.symm⟩, fun h => h.1.symm⟩
        | some j =>
          have hne : w ≠ v := fun h => by rw [h, hv] at hw; cases hw
          simp [hne]
      | some i => cases hw : w.exactUnits? <;> simp [eq_comm]
    · exact fun x y hx hy => hnumbers ⟨x, y, hx, hy⟩

theorem differAtoms_eq (v w : Value) : v.differAtoms w = !v.equalAtoms w := by
  by_cases hnumbers : ∃ x y, v = .number x ∧ w = .number y
  · obtain ⟨x, y, rfl, rfl⟩ := hnumbers
    exact x.ne_eq y
  · rw [differAtoms, equalAtoms]
    · cases v.exactUnits? <;> cases w.exactUnits? <;> simp
    · exact fun x y hx hy => hnumbers ⟨x, y, hx, hy⟩
    · exact fun x y hx hy => hnumbers ⟨x, y, hx, hy⟩

theorem equalAtoms_self {v : Value} (h : v ≠ .number .nan) : v.equalAtoms v = true := by
  rw [equalAtoms_eq_true]
  cases hv : v.exactUnits? with
  | none => exact .inr ⟨rfl, rfl, h⟩
  | some i => exact .inl ⟨i, rfl, rfl⟩

theorem equalAtoms_symm {v w : Value} (h : v.equalAtoms w = true) : w.equalAtoms v = true := by
  rw [equalAtoms_eq_true] at h ⊢
  rcases h with ⟨i, hv, hw⟩ | ⟨hv, rfl, hnan⟩
  · exact .inl ⟨i, hw, hv⟩
  · exact .inr ⟨hv, rfl, hnan⟩

theorem equalAtoms_comm (a b : Value) : a.equalAtoms b = b.equalAtoms a :=
  Bool.eq_iff_iff.2 ⟨equalAtoms_symm, equalAtoms_symm⟩

theorem equalAtoms_trans {u v w : Value} (h : u.equalAtoms v = true)
    (h' : v.equalAtoms w = true) : u.equalAtoms w = true := by
  rw [equalAtoms_eq_true] at h h' ⊢
  rcases h with ⟨i, hu, hv⟩ | ⟨-, rfl, -⟩
  · rcases h' with ⟨j, hv', hw⟩ | ⟨hv', -, -⟩
    · exact .inl ⟨i, hu, hw.trans (hv'.symm.trans hv)⟩
    · rw [hv] at hv'
      cases hv'
  · exact h'

theorem equalAtoms_cell {r : CellRef} {v : Value} (hv : ∀ q, v ≠ .cell q) :
    (Value.cell r).equalAtoms v = false ∧ v.equalAtoms (.cell r) = false := by
  have hfalse : ∀ {u w : Value}, (u = .cell r ∧ w = v ∨ u = v ∧ w = .cell r) →
      u.equalAtoms w ≠ true := by
    intro u w huw h
    rcases equalAtoms_eq_true.1 h with ⟨i, hu, hw⟩ | ⟨-, hsame, -⟩
    · rcases huw with ⟨rfl, rfl⟩ | ⟨rfl, rfl⟩
      · cases hu
      · cases hw
    · rcases huw with ⟨rfl, rfl⟩ | ⟨rfl, rfl⟩
      · exact hv r hsame
      · exact hv r hsame.symm
  exact ⟨Bool.eq_false_iff.2 (hfalse (.inl ⟨rfl, rfl⟩)),
    Bool.eq_false_iff.2 (hfalse (.inr ⟨rfl, rfl⟩))⟩

theorem equalAtoms_ne_cell {v w : Value} (hcells : ¬ ∃ q r, v = .cell q ∧ w = .cell r)
    (h : v.equalAtoms w = true) : (∀ r, v ≠ .cell r) ∧ ∀ r, w ≠ .cell r := by
  constructor
  · rintro q rfl
    rw [(equalAtoms_cell fun r hr => hcells ⟨q, r, rfl, hr⟩).1] at h
    cases h
  · rintro r rfl
    rw [(equalAtoms_cell fun q hq => hcells ⟨q, r, hq, rfl⟩).2] at h
    cases h

end Value
end MiniLisp
