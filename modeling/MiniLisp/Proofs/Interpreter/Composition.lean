import MiniLisp.Proofs.Eval.Raised
import MiniLisp.Proofs.Reader.JoinedText

set_option autoImplicit false

namespace MiniLisp.Interpreter

section

variable {limit : Nat} {frame : FrameRef} {s s' : Store} {ds : List Datum} {values : List Value}

theorem evaluateAll_append_ok (h : evaluateAll limit frame ds s = (⟨values, none⟩, s'))
    (es : List Datum) : evaluateAll limit frame (ds ++ es) s =
      (⟨values ++ (evaluateAll limit frame es s').1.values,
        (evaluateAll limit frame es s').1.error⟩, (evaluateAll limit frame es s').2) := by
  induction ds generalizing s values with
  | nil =>
    cases h
    rfl
  | cons d ds ih =>
    rw [evaluateAll] at h
    rw [List.cons_append, evaluateAll]
    cases hd : evaluate limit frame d s with
    | error e s₁ =>
      rw [hd] at h
      cases h
    | ok v s₁ =>
      rw [hd] at h
      cases hrest : evaluateAll limit frame ds s₁ with
      | mk o s₂ =>
        obtain ⟨vs, error⟩ := o
        simp only [hrest, Prod.mk.injEq, Outcome.mk.injEq] at h
        obtain ⟨⟨rfl, rfl⟩, rfl⟩ := h
        simp only [ih hrest, List.cons_append]

theorem evaluateAll_append_error {e : Error}
    (h : evaluateAll limit frame ds s = (⟨values, some e⟩, s')) (es : List Datum) :
    evaluateAll limit frame (ds ++ es) s = (⟨values, some e⟩, s') := by
  induction ds generalizing s values with
  | nil => cases h
  | cons d ds ih =>
    rw [evaluateAll] at h
    rw [List.cons_append, evaluateAll]
    cases hd : evaluate limit frame d s with
    | error e' s₁ =>
      rw [hd] at h
      exact h
    | ok v s₁ =>
      rw [hd] at h
      cases hrest : evaluateAll limit frame ds s₁ with
      | mk o s₂ =>
        obtain ⟨vs, error⟩ := o
        simp only [hrest, Prod.mk.injEq, Outcome.mk.injEq] at h
        obtain ⟨⟨rfl, rfl⟩, rfl⟩ := h
        simp only [ih hrest]

theorem ofEvaluation_of_evaluateAll {e : Error}
    (h : (evaluateAll limit frame ds s).1.error = some e) : e.OfEvaluation := by
  induction ds generalizing s with
  | nil => cases h
  | cons d ds ih =>
    rw [evaluateAll] at h
    cases hd : evaluate limit frame d s with
    | error e' s₁ =>
      rw [hd] at h
      cases h
      exact raises_evaluate limit frame d s e s₁ hd
    | ok v s₁ =>
      rw [hd] at h
      exact ih h

end

/-- A reading evaluated, and its error counted last. -/
def evaluateReading (limit : Nat) (frame : FrameRef) (r : Reading) (s : Store) : Outcome × Store :=
  let (o, s) := evaluateAll limit frame r.data s
  ({ o with error := o.error.or r.error }, s)

section

variable (limit : Nat) (frame : FrameRef) (s : Store)

theorem feed_eq (source : String) :
    feed limit frame source s = evaluateReading limit frame (readAll limit source) s := rfl

variable {limit frame s} in
theorem evaluateReading_append {ds : List Datum} {values : List Value} {s' : Store}
    (h : evaluateAll limit frame ds s = (⟨values, none⟩, s')) (more : Reading) :
    evaluateReading limit frame { more with data := ds ++ more.data } s =
      (⟨values ++ (evaluateReading limit frame more s').1.values,
        (evaluateReading limit frame more s').1.error⟩,
        (evaluateReading limit frame more s').2) := by
  simp only [evaluateReading, evaluateAll_append_ok h]

/-- The second of two texts is read as it is alone, but that more tokens stand in front. -/
theorem evaluateReading_shift (r : Reading) (n : Nat) :
    evaluateReading limit frame (r.shift n) s =
      (⟨(evaluateReading limit frame r s).1.values,
        (evaluateReading limit frame r s).1.error.map (·.shift n)⟩,
        (evaluateReading limit frame r s).2) := by
  cases h : evaluateAll limit frame r.data s with
  | mk o s' =>
    obtain ⟨values, error⟩ := o
    simp only [evaluateReading, Reading.shift, h]
    cases error with
    | none => rfl
    | some e =>
      have hruntime : e.OfEvaluation := ofEvaluation_of_evaluateAll (by rw [h])
      simp only [Option.some_or, Option.map_some, hruntime.shift_eq]

/-- What is fed first does not depend on the text after it, and what comes after it is fed to the
store it leaves; the place of a paren alone counts from where the whole text begins. -/
theorem feed_joined (a b : String) {w : String} (hw : w ≠ "")
    (hb : ∀ c ∈ w.toList, Text.isBlank c = true) :
    ((feed limit frame a s).1.error = none →
      feed limit frame (a ++ w ++ b) s =
        (⟨(feed limit frame a s).1.values ++
            (feed limit frame b (feed limit frame a s).2).1.values,
          (feed limit frame b (feed limit frame a s).2).1.error.map
            (·.shift (tokenize a).length)⟩,
          (feed limit frame b (feed limit frame a s).2).2)) ∧
    ∀ e, (feed limit frame a s).1.error = some e → ¬ e.IsIncomplete →
      feed limit frame (a ++ w ++ b) s = feed limit frame a s := by
  obtain ⟨more, hall, hmore⟩ := readAll_followedBy limit (tokenize b) (.start (tokenize a))
  have hjoined : readAll limit (a ++ w ++ b) =
      { more with data := (readAll limit a).data ++ more.data } := by
    rw [readAll, tokenize_joined hw hb]
    exact hall
  simp only [feed_eq, hjoined]
  rw [show Cursor.readAll limit (.start (tokenize a)) = readAll limit a from rfl] at hmore
  cases hfirst : evaluateAll limit frame (readAll limit a).data s with
  | mk o s' =>
    obtain ⟨values, error⟩ := o
    cases error with
    | some e =>
      have halone : evaluateReading limit frame (readAll limit a) s =
          (⟨values, some e⟩, s') := by simp only [evaluateReading, hfirst, Option.some_or]
      refine ⟨fun h => ?_, fun _ _ _ => ?_⟩
      · rw [halone] at h
        cases h
      · rw [halone]
        simp only [evaluateReading, evaluateAll_append_error hfirst, Option.some_or]
    | none =>
      have halone : evaluateReading limit frame (readAll limit a) s =
          (⟨values, (readAll limit a).error⟩, s') := by
        simp only [evaluateReading, hfirst, Option.none_or]
      rw [evaluateReading_append hfirst, halone]
      refine ⟨fun (h : (readAll limit a).error = none) => ?_,
        fun e (h : (readAll limit a).error = some e) he => ?_⟩
      · rw [h] at hmore
        have hsecond : more = (readAll limit b).shift (tokenize a).length :=
          hmore.trans (readAll_shift limit (tokenize a).length (.start (tokenize b)))
        rw [hsecond, evaluateReading_shift]
      · rw [h] at hmore
        rw [hmore he, h]
        simp only [evaluateReading, evaluateAll, List.append_nil, Option.none_or]

end

theorem feed_joined_define :
    let s := Store.empty.addGlobal.2
    let first := feed 100 0 "(define x 'y) x" s
    let second := feed 100 0 "x )" first.2
    let failed := feed 100 0 "(define x 'y) z" s
    (" \n" ≠ "" ∧ ∀ c ∈ " \n".toList, Text.isBlank c = true) ∧
    (first.1.error = none ∧ second.1.error = some (.unexpectedClose 1) ∧
      feed 100 0 ("(define x 'y) x" ++ " \n" ++ "x )") s =
        (⟨first.1.values ++ second.1.values, some (.unexpectedClose 8)⟩, second.2)) ∧
    (failed.1.error = some (.unbound "z") ∧
      feed 100 0 ("(define x 'y) z" ++ " \n" ++ "x )") s = failed) := by
  intro s first second failed
  have hw : " \n" ≠ "" := by decide
  have hb : ∀ c ∈ " \n".toList, Text.isBlank c = true :=
    List.all_eq_true.1 (show " \n".toList.all Text.isBlank = true by cbv)
  have hfirst : first.1.error = none := by decide +kernel
  have hsecond : second.1.error = some (.unexpectedClose 1) := by decide +kernel
  have hfailed : failed.1.error = some (.unbound "z") := by decide +kernel
  have hplace : second.1.error.map (·.shift (tokenize "(define x 'y) x").length) =
      some (.unexpectedClose 8) := by decide +kernel
  have hjoined := (feed_joined 100 0 s "(define x 'y) x" "x )" hw hb).1 hfirst
  refine ⟨⟨hw, hb⟩, ⟨hfirst, hsecond, hjoined.trans ?_⟩, hfailed, ?_⟩
  · rw [hplace]
  · refine (feed_joined 100 0 s "(define x 'y) z" "x )" hw hb).2 _ hfailed ?_
    rintro (h | h) <;> cases h

end MiniLisp.Interpreter
