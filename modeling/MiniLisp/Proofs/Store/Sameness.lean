import MiniLisp.Proofs.Number.Comparison
import MiniLisp.Proofs.Store.Equality

set_option autoImplicit false

namespace MiniLisp

open Store MiniLisp.Action

namespace Value

def Native : Value → Prop
  | integer _ | bool _ => False
  | _ => True

variable {a b : Value}

theorem Native.exists_number {i : Int} (h : a.Native) (hi : a.exactUnits? = some i) :
    ∃ x, a = .number x := by
  cases a with
  | number x => exact ⟨x, rfl⟩
  | integer j => exact h.elim
  | bool b => exact h.elim
  | _ => cases hi

theorem Native.numbers_or_same (ha : a.Native) (hb : b.Native) (h : a.equalAtoms b = true) :
    (∃ x y, a = .number x ∧ b = .number y) ∨ a = b := by
  rcases equalAtoms_eq_true.1 h with ⟨i, hi, hj⟩ | ⟨-, hsame, -⟩
  · obtain ⟨x, hx⟩ := ha.exists_number hi
    obtain ⟨y, hy⟩ := hb.exists_number hj
    exact .inl ⟨x, y, hx, hy⟩
  · exact .inr hsame.symm

end Value

namespace Primitive

variable {a b : Value}

theorem isEq_native (ha : a.Native) (hb : b.Native) :
    isEq a b = .ok (isAtomic a && isAtomic b && a.equalAtoms b) := by
  fun_cases isEq a b with
  | case1 => rfl
  | case2 name name' =>
    refine congrArg Except.ok (Bool.eq_iff_iff.2 ?_)
    rw [decide_eq_true_iff]
    constructor
    · rintro rfl
      exact Value.equalAtoms_self (v := .symbol name) nofun
    · intro h
      rcases ha.numbers_or_same hb h with ⟨x, _, hx, -⟩ | hsame
      · cases hx
      · exact Value.symbol.inj hsame
  | case3 x y => rfl
  | case4 => exact hb.elim
  | case5 => exact ha.elim
  | case6 => exact ha.elim
  | case7 _ _ hnil hsymbol hnumber =>
    refine congrArg Except.ok (Bool.eq_false_iff.2 fun h => ?_).symm
    obtain ⟨hatomic, hequal⟩ := Bool.and_eq_true_iff.1 h
    rcases ha.numbers_or_same hb hequal with ⟨x, y, hx, hy⟩ | rfl
    · exact hnumber x y hx hy
    · cases a with
      | nil => exact hnil rfl rfl
      | symbol name => exact hsymbol name name rfl rfl
      | number x => exact hnumber x x rfl rfl
      | integer i => exact ha.elim
      | _ => cases hatomic

theorem isEq_of_not_atomic (h : isAtomic a = false ∨ isAtomic b = false) :
    isEq a b = .ok false := by
  fun_cases isEq a b with
  | case7 => rfl
  | _ => rcases h with h | h <;> cases h

theorem not_isAtomic (h : (∃ r, a = .cell r) ∨ a.isFunction = true) : isAtomic a = false := by
  rcases h with ⟨r, rfl⟩ | h
  · rfl
  · cases a with
    | primitive p serial => rfl
    | hook h => rfl
    | closure r => rfl
    | _ => cases h

theorem isAtomic_ne_cell (h : isAtomic a = true) : ∀ r, a ≠ .cell r := by
  rintro r rfl
  cases h

end Primitive

namespace Store

/-- A structure in which some of the places that `a` stands at are taken by `b`. -/
inductive Replaced (s : Store) (a b : Value) : Value → Value → Prop where
  | here : s.Replaced a b a b
  | kept (v : Value) : s.Replaced a b v v
  | cell {q r : CellRef} {c d : Cell} : s.cells[q]? = some c → s.cells[r]? = some d →
      s.Replaced a b c.head d.head → s.Replaced a b c.tail d.tail →
      s.Replaced a b (.cell q) (.cell r)

variable {s : Store} {a b v w : Value} {n : Nat}

theorem Replaced.equals (h : s.Replaced a b v w) (hab : s.Equals a b) (hnan : ¬ s.HoldsNaN v) :
    s.Equals v w := by
  induction h with
  | here => exact hab
  | kept v => exact .refl fun hv => hnan ⟨[], congrArg some hv⟩
  | @cell q r c d hc hd _ _ ihh iht =>
    by_cases hqr : q = r
    · exact hqr ▸ .same q
    · exact .cells hqr hc hd (ihh fun h => hnan (h.of_side hc .head))
        (iht fun h => hnan (h.of_side hc .tail))

theorem Replaced.equal (h : s.Replaced a b v w) (hab : s.Equals a b) (hv : s.Layered n v)
    (hnan : ¬ s.HoldsNaN v) (room : Nat) : s.equal room v w = .ok true ∨
      s.equal room v w = .error .recursionTooDeep ∧ ∀ m, s.Headed m v → room < 3 * m := by
  rcases s.equal_or_deep room v w with ⟨same, hfound⟩ | ⟨hdeep, hless⟩
  · have hsame := (hv.within_size.equal_iff_equals hfound).2 (h.equals hab hnan)
    exact .inl (hfound.trans (congrArg Except.ok hsame))
  · exact .inr ⟨hdeep, fun m hm => hless m (.inl hm)⟩

end Store

section

variable {a b : Value} {c : Bool}

theorem run_eq_ok (h : Primitive.isEq a b = .ok c) (room : Nat) (s : Store) :
    Primitive.run room .eq [a, b] s = .ok (.truth c) s := by
  have htest : check (fun _ => Primitive.isEq a b) s = .ok c s := by
    rw [check, h]
  exact Action.bind_ok htest

theorem run_eq_numbers (x y : Double) (room : Nat) (s : Store) :
    Primitive.run room .eq [.number x, .number y] s =
      Primitive.run room (.comparison .eq) [.number x, .number y] s := by
  have hcomparison : Primitive.run room (.comparison .eq) [.number x, .number y] s =
      .ok (.truth (Comparison.eq.holds [x, y])) s :=
    Action.bind_ok (numbers_ok (Nat.le_refl 2) (mapM_number_eq_ok.2 rfl))
  -- A comparison holds the later argument against the first one, so the other way round.
  have hholds : Comparison.eq.holds [x, y] = x.eq y := by
    rw [Comparison.holds, List.all_cons, List.all_nil, Bool.and_true]
    exact Value.equalAtoms_comm (.number y) (.number x)
  rw [hcomparison, hholds]
  exact run_eq_ok (a := .number x) (b := .number y) rfl room s

theorem eq_confirms_iff (ha : a.Native) (hb : b.Native) (room : Nat) (s : Store) :
    Primitive.eq.Confirms room [a, b] s ↔
      Primitive.isAtomic a = true ∧ Primitive.isAtomic b = true ∧ a.equalAtoms b = true := by
  rw [Primitive.Confirms, run_eq_ok (Primitive.isEq_native ha hb)]
  simp [Value.truth_eq_symbol, and_assoc]

theorem isAtom_confirms_iff (a : Value) (room : Nat) (s : Store) :
    Primitive.isAtom.Confirms room [a] s ↔ Primitive.isAtomic a = true := by
  rw [Primitive.Confirms, show Primitive.run room .isAtom [a] s =
    .ok (.truth (Primitive.isAtomic a)) s from rfl]
  simp [Value.truth_eq_symbol]

end

/-- Of the values of programs `eq` takes those atoms for the same that are equal, and nothing else,
not even a cell or function for itself.  With NaN left out this is an equivalence of atoms, which
structures respect. -/
structure SamenessLaws (room : Nat) (s : Store) : Prop where
  equality : ∀ (a b : Value) (depth : Nat), a.Native → b.Native →
    (Primitive.eq.Confirms room [a, b] s ↔ Primitive.isAtom.Confirms room [a] s ∧
      Primitive.isAtom.Confirms room [b] s ∧ s.equal depth a b = .ok true)
  answers : ∀ a b : Value, a.Native → b.Native → Primitive.eq.Confirms room [a, b] s ∨
    Primitive.run room .eq [a, b] s = .ok .nil s
  numbers : ∀ x y : Double, Primitive.run room .eq [.number x, .number y] s =
    Primitive.run room (.comparison .eq) [.number x, .number y] s
  never : ∀ a b : Value, (∃ r, a = .cell r) ∨ a.isFunction = true →
    Primitive.run room .eq [a, b] s = .ok .nil s ∧ Primitive.run room .eq [b, a] s = .ok .nil s
  symm : ∀ a b : Value, a.Native → b.Native →
    Primitive.run room .eq [a, b] s = Primitive.run room .eq [b, a] s
  trans : ∀ a b c : Value, a.Native → b.Native → c.Native → Primitive.eq.Confirms room [a, b] s →
    Primitive.eq.Confirms room [b, c] s → Primitive.eq.Confirms room [a, c] s
  refl : ∀ a : Value, a.Native → (Primitive.eq.Confirms room [a, a] s ↔
    Primitive.isAtom.Confirms room [a] s ∧ a ≠ .number .nan)
  replaced : ∀ (a b v w : Value) (n : Nat), a.Native → b.Native →
    Primitive.eq.Confirms room [a, b] s → s.Layered n v → ¬ s.HoldsNaN v → s.Replaced a b v w →
      ∀ depth, s.equal depth w v = s.equal depth v w ∧ (s.equal depth v w = .ok true ∨
        s.equal depth v w = .error .recursionTooDeep ∧ ∀ m, s.Headed m v → depth < 3 * m)

theorem sameness_laws (room : Nat) (s : Store) : SamenessLaws room s := by
  have hconfirms := fun {a b : Value} (ha : a.Native) (hb : b.Native) =>
    eq_confirms_iff ha hb room s
  have hatom := fun a => isAtom_confirms_iff a room s
  refine ⟨fun a b depth ha hb => ?_, fun a b ha hb => ?_, fun x y => ?_, fun a b h => ?_,
    fun a b ha hb => ?_, fun a b c ha hb hc h h' => ?_, fun a ha => ?_,
    fun a b v w n ha hb h hv hnan hw depth => ?_⟩
  · rw [hconfirms ha hb, hatom, hatom]
    refine and_congr_right fun hatomic => ?_
    rw [equal_atom (Primitive.isAtomic_ne_cell hatomic), Except.ok.injEq]
  · rw [Primitive.Confirms, run_eq_ok (Primitive.isEq_native ha hb)]
    cases Primitive.isAtomic a && Primitive.isAtomic b && a.equalAtoms b with
    | false => exact .inr rfl
    | true => exact .inl rfl
  · exact run_eq_numbers x y room s
  · have hatomic := Primitive.not_isAtomic h
    exact ⟨run_eq_ok (Primitive.isEq_of_not_atomic (.inl hatomic)) room s,
      run_eq_ok (Primitive.isEq_of_not_atomic (.inr hatomic)) room s⟩
  · rw [run_eq_ok (Primitive.isEq_native ha hb), run_eq_ok (Primitive.isEq_native hb ha),
      Value.equalAtoms_comm, Bool.and_comm (Primitive.isAtomic a)]
  · rw [hconfirms ha hb] at h
    rw [hconfirms hb hc] at h'
    rw [hconfirms ha hc]
    exact ⟨h.1, h'.2.1, Value.equalAtoms_trans h.2.2 h'.2.2⟩
  · rw [hconfirms ha ha, hatom]
    refine and_congr_right fun hatomic => ⟨?_, fun hnan => ⟨hatomic, Value.equalAtoms_self hnan⟩⟩
    rintro ⟨-, hself⟩ rfl
    cases hself
  · obtain ⟨hatomic, hatomic', hsame⟩ := (hconfirms ha hb).1 h
    exact ⟨s.equal_comm depth w v, hw.equal (.atoms (Primitive.isAtomic_ne_cell hatomic)
      (Primitive.isAtomic_ne_cell hatomic') hsame) hv hnan depth⟩

/-- The list of zero, and that with the negative one in its place. -/
theorem sameness_laws_zeros :
    let s := ((Store.empty.cons (.number .zero) .nil).2.cons (.number (.finite true .zero)) .nil).2
    SamenessLaws 9 s ∧ s.equal 3 (.cell 0) (.cell 1) = .ok true := by
  intro s
  have hsame : Primitive.eq.Confirms 9 [.number .zero, .number (.finite true .zero)] s := rfl
  have hlayered : s.Layered 1 (.cell 0) := .cell rfl (.atom nofun) (.atom nofun)
  have hheaded : s.Headed 1 (.cell 0) := hlayered.headed
  have hnan : ¬ s.HoldsNaN (.cell 0) :=
    not_holdsNaN_cell (c := ⟨.number .zero, .nil⟩) rfl (not_holdsNaN_atom nofun nofun)
      (not_holdsNaN_atom nofun nofun)
  have hreplaced : s.Replaced (.number .zero) (.number (.finite true .zero)) (.cell 0) (.cell 1) :=
    .cell rfl rfl .here (.kept .nil)
  have hequal := ((sameness_laws 9 s).replaced (.number .zero) (.number (.finite true .zero)) _ _ 1
    trivial trivial hsame hlayered hnan hreplaced 3).2
  exact ⟨sameness_laws 9 s, hequal.resolve_right fun hdeep => Nat.lt_irrefl 3 (hdeep.2 1 hheaded)⟩

/-- The lists of these lists, where there is room for one call only. -/
theorem sameness_laws_nested :
    let s := ((((Store.empty.cons (.number .zero) .nil).2.cons (.cell 0) .nil).2.cons
      (.number (.finite true .zero)) .nil).2.cons (.cell 2) .nil).2
    Primitive.eq.Confirms 9 [.number .zero, .number (.finite true .zero)] s ∧
      ¬ s.HoldsNaN (.cell 1) ∧ s.FunctionFree (.cell 1) ∧
      s.Replaced (.number .zero) (.number (.finite true .zero)) (.cell 1) (.cell 3) ∧
      s.equal 5 (.cell 1) (.cell 3) = .error .recursionTooDeep := by
  intro s
  have hlist : s.Unfolds (.cell 1) (.list [.list [.number .zero] .nil] .nil) :=
    .cell rfl (.cell rfl (.number .zero) .nil) .nil
  have hnan : ¬ s.HoldsNaN (.cell 0) :=
    not_holdsNaN_cell (c := ⟨.number .zero, .nil⟩) rfl (not_holdsNaN_atom nofun nofun)
      (not_holdsNaN_atom nofun nofun)
  have hnested : ¬ s.HoldsNaN (.cell 1) :=
    not_holdsNaN_cell (c := ⟨.cell 0, .nil⟩) rfl hnan (not_holdsNaN_atom nofun nofun)
  exact ⟨rfl, hnested, hlist.functionFree,
    .cell rfl rfl (.cell rfl rfl .here (.kept .nil)) (.kept .nil), rfl⟩

end MiniLisp
