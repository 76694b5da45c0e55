import MiniLisp.Proofs.Eval.Depth
import MiniLisp.Proofs.Number.Quotient

/-!
An operation on its own result and further arguments (`Arithmetic.nested`) is the operation on all
of them (`nested_eq_flat`).  Sums and products of numbers depend on their order, but they are folds
from the left, and starting one again at what it has come to changes nothing: a product starts with
one, and a sum, which starts with zero, is never the negative zero that this would turn into the
positive one.
-/
set_option autoImplicit false

namespace MiniLisp

open Store MiniLisp.Action

theorem Magnitude.exists_units {units : Nat} (h : Representable units) (hlt : units < unitLimit) :
    ∃ m : Magnitude, m.units = units := ⟨⟨units, h, hlt⟩, rfl⟩

namespace Double

theorem one_eq : ∃ m : Magnitude, m.units = unitsPerOne ∧ one = .finite false m := by
  have hrepresentable : Representable unitsPerOne := by
    rw [← Nat.one_mul unitsPerOne, unitsPerOne]
    apply representable_mul_pow
    decide
  have hlimit : unitsPerOne < unitLimit := by
    rw [unitsPerOne, unitLimit]
    apply Nat.pow_lt_pow_right
    · decide
    · decide
  obtain ⟨m, hm⟩ := Magnitude.exists_units hrepresentable hlimit
  have h := ofUnits_units false m Nat.one_pos
  rw [Nat.mul_one, hm] at h
  exact ⟨m, hm, h⟩

theorem one_mul (x : Double) : one.mul x = x := by
  obtain ⟨m, hm, hone⟩ := one_eq
  rw [hone]
  cases x with
  | nan => rfl
  | infinity s =>
    have hne : m.units ≠ 0 := hm ▸ Nat.ne_of_gt unitsPerOne_pos
    rw [mul, if_neg hne, Bool.false_bne]
  | finite s n =>
    rw [mul, hm, Nat.mul_comm, ofUnits_units _ n unitsPerOne_pos, Bool.false_bne]

theorem signed_eq_zero {negative : Bool} {units : Nat} : signed negative units = 0 ↔ units = 0 := by
  cases negative <;> simp [signed]

theorem zero_add {x : Double} (h : x ≠ .finite true .zero) : zero.add x = x := by
  cases x with
  | nan => rfl
  | infinity s => rfl
  | finite s m =>
    have hsum : signed false Magnitude.zero.units + signed s m.units = signed s m.units :=
      Int.zero_add _
    simp only [zero, add, hsum, Bool.false_and, signed_eq_zero]
    split
    · rename_i hm
      obtain rfl : m = .zero := Magnitude.ext_units hm
      cases s with
      | false => rfl
      | true => exact absurd rfl h
    · rename_i hm
      have hnegative : decide (signed s m.units < 0) = s := by
        cases s with
        | false => simp [signed]
        | true => simp [signed]; omega
      have hunits := ofUnits_units s m Nat.one_pos
      rw [Nat.mul_one] at hunits
      rw [hnegative, natAbs_signed, hunits]

/-- Terms that cancel out each other leave a positive zero, and so do two of which one is. -/
theorem negative_zero_of_add {x y : Double} (h : x.add y = .finite true .zero) :
    x = .finite true .zero ∧ y = .finite true .zero := by
  cases x with
  | nan => cases h
  | infinity s =>
    cases y with
    | nan => cases h
    | infinity t =>
      rw [add] at h
      split at h <;> cases h
    | finite t n => cases h
  | finite s m =>
    cases y with
    | nan => cases h
    | infinity t => cases h
    | finite t n =>
      simp only [add] at h
      split at h
      · rename_i hsum
        obtain ⟨rfl, rfl⟩ : s = true ∧ t = true := by
          cases s <;> cases t <;> cases h
          exact ⟨rfl, rfl⟩
        simp only [signed, if_true] at hsum
        obtain rfl : m = .zero := Magnitude.ext_units (show m.units = 0 by omega)
        obtain rfl : n = .zero := Magnitude.ext_units (show n.units = 0 by omega)
        exact ⟨rfl, rfl⟩
      · rename_i hsum
        have hrounded := ((ofUnits_eq_finite Nat.one_pos).1 h).2
        have hone := two_pow_le_roundUnits 0 Nat.one_pos
          (show 2 ^ 0 * 1 ≤ (signed s m.units + signed t n.units).natAbs by omega)
        rw [hrounded] at hone
        exact absurd hone (by decide)

end Double

namespace Arithmetic

variable {op : Arithmetic} {x : Double} {xs ys : List Double}

def combine : Arithmetic → Double → Double → Double
  | add => .add
  | sub => .sub
  | mul => .mul
  | div => .div

theorem fold_append (hxs : op = add ∨ op = mul ∨ 2 ≤ xs.length) (ys : List Double) :
    op.fold (xs ++ ys) = ys.foldl op.combine (op.fold xs) := by
  cases op with
  | add => exact List.foldl_append
  | mul => exact List.foldl_append
  | sub | div =>
    match xs, hxs with
    | x :: y :: rest, _ => exact List.foldl_append (l := y :: rest)

theorem fold_cons (hx : op = add → x ≠ .finite true .zero) (hys : ys ≠ []) :
    op.fold (x :: ys) = ys.foldl op.combine x := by
  cases op with
  | add => rw [fold, List.foldl_cons, Double.zero_add (hx rfl), combine]
  | mul => rw [fold, List.foldl_cons, Double.one_mul, combine]
  | sub | div =>
    obtain ⟨y, rest, rfl⟩ := List.exists_cons_of_ne_nil hys
    rfl

theorem foldl_add_ne_negative_zero (hx : x ≠ .finite true .zero) (ys : List Double) :
    ys.foldl .add x ≠ .finite true .zero := by
  induction ys generalizing x with
  | nil => exact hx
  | cons y ys ih => exact ih fun h => hx (Double.negative_zero_of_add h).1

theorem fold_add_ne_negative_zero (xs : List Double) : add.fold xs ≠ .finite true .zero :=
  foldl_add_ne_negative_zero (by decide) xs

theorem fold_fold (hxs : op = add ∨ op = mul ∨ 2 ≤ xs.length) (hys : ys ≠ []) :
    op.fold (op.fold xs :: ys) = op.fold (xs ++ ys) := by
  rw [fold_append hxs, fold_cons ?_ hys]
  rintro rfl
  exact fold_add_ne_negative_zero xs

/-- The operation on its own result for `xs` and on `ys`; `inner` is the room of the inner one. -/
def nested (op : Arithmetic) (inner room : Nat) (xs ys : List Value) : Action Value := do
  let v ← Primitive.run inner (.arithmetic op) xs
  Primitive.run room (.arithmetic op) (v :: ys)

end Arithmetic

section

variable {op : Arithmetic} {s : Store} {room : Nat}

theorem run_arithmetic_ok {args : List Value} {xs : List Double} (hlen : op.minimum ≤ args.length)
    (h : args.mapM (s.number room op.name) = .ok xs) :
    Primitive.run room (.arithmetic op) args s = .ok (.number (op.fold xs)) s :=
  Action.bind_ok (numbers_ok hlen h)

theorem run_arithmetic_error {args : List Value} {e : Error} (hlen : op.minimum ≤ args.length)
    (h : args.mapM (s.number room op.name) = .error e) :
    Primitive.run room (.arithmetic op) args s = .error e s :=
  Action.bind_error (numbers_error hlen h)

theorem minimum_le {xs : List Value} (hxs : op = .add ∨ op = .mul ∨ 2 ≤ xs.length) :
    op.minimum ≤ xs.length := by
  rcases hxs with rfl | rfl | hlen
  · exact Nat.zero_le _
  · exact Nat.zero_le _
  · cases op <;> simp only [Arithmetic.minimum] <;> omega

/-- The leftmost argument that is no number decides in both, if there is one. -/
theorem nested_eq_flat {xs ys : List Value} (hxs : op = .add ∨ op = .mul ∨ 2 ≤ xs.length)
    (hys : ys ≠ []) : op.nested room room xs ys s =
      Primitive.run room (.arithmetic op) (xs ++ ys) s := by
  have hinner := minimum_le hxs
  have hflat : op.minimum ≤ (xs ++ ys).length := by
    rw [List.length_append]
    omega
  have houter (v : Value) : op.minimum ≤ (v :: ys).length := by
    have := List.length_pos_iff.2 hys
    cases op <;> simp only [Arithmetic.minimum, List.length_cons] <;> omega
  have hall : (xs ++ ys).mapM (s.number room op.name) = (do
      let ms ← xs.mapM (s.number room op.name)
      let ns ← ys.mapM (s.number room op.name)
      return ms ++ ns) := List.mapM_append
  have hrest (x : Double) : (Value.number x :: ys).mapM (s.number room op.name) = (do
      let ns ← ys.mapM (s.number room op.name)
      return x :: ns) := List.mapM_cons
  cases hx : xs.mapM (s.number room op.name) with
  | error e =>
    rw [hx] at hall
    rw [run_arithmetic_error hflat hall]
    exact Action.bind_error (run_arithmetic_error hinner hx)
  | ok ms =>
    refine (Action.bind_ok (run_arithmetic_ok hinner hx)).trans ?_
    cases hy : ys.mapM (s.number room op.name) with
    | error e =>
      rw [hx, hy] at hall
      rw [hy] at hrest
      rw [run_arithmetic_error hflat hall, run_arithmetic_error (houter _) (hrest _)]
    | ok ns =>
      rw [hx, hy] at hall
      rw [hy] at hrest
      have hms : op = .add ∨ op = .mul ∨ 2 ≤ ms.length := by
        rwa [← (mapM_eq_ok.1 hx).length_eq]
      have hns : ns ≠ [] := by
        rwa [← List.length_pos_iff, ← (mapM_eq_ok.1 hy).length_eq, List.length_pos_iff]
      rw [run_arithmetic_ok hflat hall, run_arithmetic_ok (houter _) (hrest _),
        Arithmetic.fold_fold hms hns]

theorem ne_negative_zero_of_run_add {args : List Value} {x : Double} {t : Store}
    (h : Primitive.run room (.arithmetic .add) args s = .ok (.number x) t) :
    x ≠ .finite true .zero := by
  have hlen : Arithmetic.add.minimum ≤ args.length := Nat.zero_le _
  cases hargs : args.mapM (s.number room Arithmetic.add.name) with
  | error e =>
    rw [run_arithmetic_error hlen hargs] at h
    cases h
  | ok xs =>
    rw [run_arithmetic_ok hlen hargs] at h
    cases h
    exact Arithmetic.fold_add_ne_negative_zero xs

end

/-- What arithmetic makes of its own result for some arguments and of further ones it makes of all
of them, or it raises the same error; with less room for the inner operation that error may be that
there is too little.  No sum is a negative zero. -/
theorem arithmetic_flattens (op : Arithmetic) {xs ys : List Value}
    (hxs : op = .add ∨ op = .mul ∨ 2 ≤ xs.length) (hys : ys ≠ []) (room : Nat) (s : Store) :
    op.nested room room xs ys s = Primitive.run room (.arithmetic op) (xs ++ ys) s ∧
    (∀ inner ≤ room, op.nested inner room xs ys s =
        Primitive.run room (.arithmetic op) (xs ++ ys) s ∨
      ∃ t, op.nested inner room xs ys s = .error .recursionTooDeep t) ∧
    ∀ (args : List Value) (x : Double) (t : Store),
      Primitive.run room (.arithmetic .add) args s = .ok (.number x) t →
        x ≠ .finite true .zero := by
  have hflat : op.nested room room xs ys s = Primitive.run room (.arithmetic op) (xs ++ ys) s :=
    nested_eq_flat hxs hys
  refine ⟨hflat, fun inner hinner => ?_, fun _ _ _ => ne_negative_zero_of_run_add⟩
  have hagrees : Agrees (op.nested inner room xs ys) (op.nested room room xs ys) :=
    (agrees_primitive hinner (.arithmetic op) xs).bind fun _ => .refl _
  rcases hagrees s with hdeep | heq
  · exact .inr hdeep
  · exact .inl (heq.trans hflat)

/-- `(+ (+ -0) -0)`, a positive zero like `(+ -0 -0)`. -/
theorem arithmetic_flattens_zeros :
    let zero : Value := .number (.finite true .zero)
    ((Arithmetic.add = .add ∨ Arithmetic.add = .mul ∨ 2 ≤ [zero].length) ∧ [zero] ≠ []) ∧
      Arithmetic.add.nested 9 9 [zero] [zero] .empty = .ok (.number .zero) .empty := by
  intro zero
  have hxs : Arithmetic.add = .add ∨ Arithmetic.add = .mul ∨ 2 ≤ [zero].length := .inl rfl
  have hys : [zero] ≠ [] := List.cons_ne_nil _ _
  exact ⟨⟨hxs, hys⟩, (arithmetic_flattens .add hxs hys 9 .empty).1⟩

end MiniLisp
