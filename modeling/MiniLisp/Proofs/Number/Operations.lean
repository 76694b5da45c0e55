import MiniLisp.Proofs.Walk.Texts

set_option autoImplicit false

namespace MiniLisp

open Store MiniLisp.Action

inductive Value.IsNumber : Value → Prop where
  | number (x : Double) : (Value.number x).IsNumber
  | integer (i : Int) : (Value.integer i).IsNumber

namespace Primitive

inductive Requires : Primitive → Nat → Prop where
  | add : Requires (.arithmetic .add) 0
  | mul : Requires (.arithmetic .mul) 0
  | sub : Requires (.arithmetic .sub) 1
  | div : Requires (.arithmetic .div) 1
  | comparison (op : Comparison) : Requires (.comparison op) 2

inductive ResultsIn : Primitive → Value → Prop where
  | number (op : Arithmetic) (x : Double) : ResultsIn (.arithmetic op) (.number x)
  | yes (op : Comparison) : ResultsIn (.comparison op) (.symbol "T")
  | no (op : Comparison) : ResultsIn (.comparison op) .nil

variable {p : Primitive} {least : Nat}

theorem resultsIn_truth (op : Comparison) (b : Bool) : ResultsIn (.comparison op) (.truth b) := by
  cases b with
  | false => exact .no op
  | true => exact .yes op

theorem Requires.run_eq (h : p.Requires least) : ∃ result : List Double → Value,
    (∀ xs, p.ResultsIn (result xs)) ∧
      ∀ room args, p.run room args =
        numbers room p.name least args >>= fun xs => pure (result xs) := by
  cases h with
  | comparison op =>
    exact ⟨fun xs => .truth (op.holds xs), fun _ => resultsIn_truth op _, fun _ _ => rfl⟩
  | add => exact ⟨fun xs => .number (Arithmetic.add.fold xs), fun _ => .number _ _, fun _ _ => rfl⟩
  | mul => exact ⟨fun xs => .number (Arithmetic.mul.fold xs), fun _ => .number _ _, fun _ _ => rfl⟩
  | sub => exact ⟨fun xs => .number (Arithmetic.sub.fold xs), fun _ => .number _ _, fun _ _ => rfl⟩
  | div => exact ⟨fun xs => .number (Arithmetic.div.fold xs), fun _ => .number _ _, fun _ _ => rfl⟩

end Primitive

namespace Store

variable {foreign : Value → Prop} {s : Store} {a : Value}

theorem number_ok (hf : Presentable foreign) (ha : s.Admits foreign a) (hnumber : a.IsNumber)
    (room : Nat) (operation : String) : ∃ x, s.number room operation a = .ok x := by
  cases hnumber with
  | number x => exact ⟨x, rfl⟩
  | integer i =>
    obtain ⟨x, hx⟩ := Option.isSome_iff_exists.1 (hf i ha)
    exact ⟨x, by rw [number, ofInteger_eq, hx]; rfl⟩

theorem number_refused (s : Store) (hnumber : ¬ a.IsNumber) (room : Nat) (operation : String) :
    ∃ e, s.number room operation a = .error e ∧
      Quotes (s.printWithin room a) (.notNumber operation) e := by
  have h := @exists_quotes Double (s.printWithin room a) (.notNumber operation)
  cases a with
  | number x => exact absurd (.number x) hnumber
  | integer i => exact absurd (.integer i) hnumber
  | _ => exact h

/-- The error holds the text of what is no number, or that is nested too deeply to print. -/
theorem notNumber_or_deep {n room : Nat} {operation : String} {e : Error}
    (h : Quotes (s.printWithin room a) (.notNumber operation) e) (hf : Presentable foreign)
    (hs : s.Sound foreign) (ha : s.Admits foreign a) (hn : s.Nested n a) :
    (∃ t, s.printWithin room a = .ok t ∧ e = .notNumber operation t ∧
      e.message = operation ++ ": expected number, but got " ++ t) ∨
    room ≤ n ∧ e = .recursionTooDeep := by
  cases h with
  | text ht => exact .inl ⟨_, ht, rfl, rfl⟩
  | failed he =>
    rcases hn.printWithin_or_deep hf hs ha room with ⟨t, ht⟩ | ⟨hroom, hdeep⟩
    · rw [ht] at he
      cases he
    · rw [hdeep] at he
      cases he
      exact .inr ⟨hroom, rfl⟩

end Store

/-- An operation that has too few arguments says so.  Otherwise its leftmost argument that is no
number is refused in its name, and where there is none it has a result.  The store stays as it is
in each case. -/
theorem run_numeric {foreign : Value → Prop} (hf : Presentable foreign) {p : Primitive}
    {least : Nat} (hp : p.Requires least) {s : Store} (hs : s.Sound foreign) {args : List Value}
    (ha : ∀ a ∈ args, s.Admits foreign a) (room : Nat) :
    (args.length < least →
      p.run room args s = .error (.arityAtLeast p.name least args.length) s) ∧
    (least ≤ args.length → ∀ before a after, args = before ++ a :: after →
      (∀ b ∈ before, b.IsNumber) → ¬ a.IsNumber → ∃ e, p.run room args s = .error e s ∧
        Quotes (s.printWithin room a) (.notNumber p.name) e ∧
        ∀ n, s.Nested n a →
          (∃ t, s.printWithin room a = .ok t ∧ e = .notNumber p.name t ∧
            e.message = p.name ++ ": expected number, but got " ++ t) ∨
          room ≤ n ∧ e = .recursionTooDeep) ∧
    (least ≤ args.length → (∀ a ∈ args, a.IsNumber) →
      ∃ v, p.run room args s = .ok v s ∧ p.ResultsIn v) := by
  obtain ⟨result, hresult, hrun⟩ := hp.run_eq
  rw [hrun]
  refine ⟨fun hlen => ?_, ?_, fun hlen hall => ?_⟩
  · rw [Primitive.numbers, if_pos hlen]
    rfl
  · rintro hlen before a after rfl hbefore hnot
    -- All before it are numbers, so the first argument that fails is this one.
    obtain ⟨hbefores, hmem, -⟩ := List.forall_mem_append.1 ha |>.imp_right List.forall_mem_cons.1
    obtain ⟨e, he, hq⟩ := s.number_refused hnot room p.name
    have hleft : (before ++ a :: after).mapM (s.number room p.name) = .error e :=
      mapM_leftmost (fun b hb => number_ok hf (hbefores b hb) (hbefore b hb) room p.name) he
    exact ⟨e, Action.bind_error (numbers_error hlen hleft), hq, fun n hn =>
      notNumber_or_deep hq hf hs hmem hn⟩
  · obtain ⟨xs, hxs⟩ := exists_mapM_ok fun a hmem =>
      number_ok hf (ha a hmem) (hall a hmem) room p.name
    exact ⟨_, Action.bind_ok (numbers_ok hlen hxs), hresult xs⟩

/-- `(< 2 1 True (1))`, where the first two settle the result. -/
theorem run_numeric_settled :
    let s := Store.empty.load (.list [.number .one] .nil) |>.2
    let foreign := fun v => ∃ b, v = .bool b
    let args : List Value := [.number (.ofNat 2), .number .one, .bool true, .cell 0]
    (Presentable foreign ∧ s.Sound foreign ∧ ∀ a ∈ args, s.Admits foreign a) ∧
      Primitive.Requires (.comparison .lt) 2 ∧ s.Nested 0 (.bool true) ∧
      Primitive.run 9 (.comparison .lt) args s = .error (.notNumber "<" "True") s := by
  intro s foreign args
  have hf : Presentable foreign := by
    rintro i ⟨b, hb⟩
    cases hb
  have hs : s.Sound foreign := (Reachable.load _ .empty).sound
  have ha : ∀ a ∈ args, s.Admits foreign a := by
    have hcell : 0 < s.cells.size := by decide
    simp only [args, List.forall_mem_cons]
    exact ⟨trivial, trivial, ⟨true, rfl⟩, hcell, List.forall_mem_nil _⟩
  have hbefore : ∀ b ∈ [Value.number (.ofNat 2), .number .one], b.IsNumber :=
    List.forall_mem_cons.2 ⟨.number _, List.forall_mem_singleton.2 (.number _)⟩
  have hbool : s.Nested 0 (.bool true) := .atom rfl
  obtain ⟨e, hrun, -, htext⟩ := (run_numeric hf (.comparison .lt) hs ha 9).2.1 (by decide) _
    (.bool true) [.cell 0] rfl hbefore (by rintro ⟨⟩)
  refine ⟨⟨hf, hs, ha⟩, .comparison .lt, hbool, hrun.trans ?_⟩
  obtain ⟨t, ht, rfl, -⟩ | ⟨hroom, -⟩ := htext 0 hbool
  · cases ht
    rfl
  · exact absurd hroom (by decide)

/-- `(+ x)` for a pair `x`: no error of type says that it is no number where there is not room for
its text. -/
theorem run_numeric_unprintable :
    Primitive.Requires (.arithmetic .add) 0 ∧ ¬ (Value.cell 0).IsNumber ∧
      Primitive.run 1 (.arithmetic .add) [.cell 0] (dottedPair (.symbol "a")) =
        .error .recursionTooDeep (dottedPair (.symbol "a")) :=
  ⟨.add, by rintro ⟨⟩, rfl⟩

end MiniLisp
