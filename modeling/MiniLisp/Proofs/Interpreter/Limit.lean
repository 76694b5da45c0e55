import MiniLisp.Proofs.Eval.Limit
import MiniLisp.Proofs.Interpreter.Composition
import MiniLisp.Proofs.Interpreter.Session
import MiniLisp.Proofs.Reader.Progress

set_option autoImplicit false

namespace MiniLisp

open Store MiniLisp.Action

namespace Interpreter

section

variable {limit limit' : Nat} (h : limit ≤ limit') (frame : FrameRef)

include h

theorem agrees_evaluate (d : Datum) :
    Agrees (evaluate limit frame d) (evaluate limit' frame d) :=
  (Agrees.refl _).bind fun v => Eval.agrees_evalBelow h 0 v frame

theorem evaluateAll_eq_or_deep (ds : List Datum) (s : Store) :
    evaluateAll limit' frame ds s = evaluateAll limit frame ds s ∨
      (evaluateAll limit frame ds s).1.error = some .recursionTooDeep := by
  induction ds generalizing s with
  | nil => exact .inl rfl
  | cons d ds ih =>
    rw [evaluateAll, evaluateAll]
    rcases agrees_evaluate h frame d s with ⟨s', hdeep⟩ | heq
    · rw [hdeep]
      exact .inr rfl
    · rw [← heq]
      cases evaluate limit frame d s with
      | error e s₁ => exact .inl rfl
      | ok v s₁ =>
        rcases ih s₁ with heq | hdeep
        · exact .inl (by simp only [heq])
        · exact .inr hdeep

theorem texts_evaluateAll_isPrefix {s : Store} {w : Scopes} (hm : s.Mirrors w)
    (ds es : List Datum) :
    ((evaluateAll limit frame ds s).1.report (evaluateAll limit frame ds s).2).texts <+:
      ((evaluateAll limit' frame (ds ++ es) s).1.report
        (evaluateAll limit' frame (ds ++ es) s).2).texts := by
  induction ds generalizing s w with
  | nil => exact List.nil_prefix
  | cons d ds ih =>
    have hd := alike_evaluate limit frame hm d
    rw [List.cons_append, evaluateAll, evaluateAll]
    rcases agrees_evaluate h frame d s with ⟨s', hdeep⟩ | heq
    · rw [hdeep]
      exact List.nil_prefix
    · rw [← heq]
      generalize evaluate limit frame d s = x at hd
      generalize Tree.evalBelow limit 0 (.ofDatum d) frame w = y at hd
      cases hd with
      | excused he => exact he.elim
      | error _ _ => exact List.nil_prefix
      | @ok v t s₁ w₁ hst hv =>
        have hm := hst.2
        -- Both go on from here, where the value has its text.
        have hprint : ∀ {s₂ : Store}, s₁.Retains s₂ → s₂.print v = .ok t.print :=
          fun hk => (hv.mono hk).print_eq
        have hleft := hprint (answers_evaluateAll limit frame hm ds).retains
        have hright := hprint (answers_evaluateAll limit' frame hm (ds ++ es)).retains
        simp only [Outcome.report, List.map_cons, hleft, hright]
        exact List.prefix_cons_inj _ |>.2 (ih hm)

theorem feed_eq_or_deep (source : String) (s : Store) :
    feed limit' frame source s = feed limit frame source s ∨
      (feed limit frame source s).1.kind? = some .recursion := by
  rw [feed_eq, feed_eq, evaluateReading, evaluateReading]
  have hdeep : ∀ {r : Reading}, (evaluateAll limit frame r.data s).1.error =
      some .recursionTooDeep → (evaluateReading limit frame r s).1.kind? = some .recursion := by
    intro r he
    simp only [evaluateReading, Outcome.kind?, he, Option.some_or]
    rfl
  rcases readAll_mono h (.start (tokenize source)) with heq | ⟨hnested, ds, hds⟩
  · rw [readAll, heq, ← readAll]
    rcases evaluateAll_eq_or_deep h frame (readAll limit source).data s with heq | he
    · exact .inl (by rw [heq])
    · exact .inr (hdeep he)
  · -- Reading stopped too early, which counts unless evaluation failed before.
    rcases evaluateAll_eq_or_deep h frame (readAll limit source).data s with heq | he
    · cases hp : evaluateAll limit frame (readAll limit source).data s with
      | mk o s' =>
        obtain ⟨values, error⟩ := o
        cases error with
        | none =>
          refine .inr ?_
          simp only [Outcome.kind?, Option.none_or]
          rw [readAll, hnested]
          rfl
        | some e =>
          refine .inl ?_
          have hmore : evaluateAll limit' frame (readAll limit' source).data s =
              (⟨values, some e⟩, s') := by
            rw [readAll, hds]
            exact evaluateAll_append_error (heq.trans hp) ds
          simp only [hmore, Option.some_or]
    · exact .inr (hdeep he)

theorem texts_feed_isPrefix {s : Store} {w : Scopes} (hm : s.Mirrors w) (source : String) :
    ((feed limit frame source s).1.report (feed limit frame source s).2).texts <+:
      ((feed limit' frame source s).1.report (feed limit' frame source s).2).texts := by
  have hdata : ∃ ds, (readAll limit' source).data = (readAll limit source).data ++ ds := by
    rcases readAll_mono h (.start (tokenize source)) with heq | ⟨_, hds⟩
    · exact ⟨[], by rw [readAll, heq, List.append_nil, ← readAll]⟩
    · exact hds
  obtain ⟨ds, hds⟩ := hdata
  have hprefix := texts_evaluateAll_isPrefix h frame hm (readAll limit source).data ds
  rw [← hds] at hprefix
  exact hprefix

theorem feedLines_eq {lines : List String} {s : Store}
    (hlines : ∀ p ∈ feedLines limit frame lines s, p.1.kind? ≠ some .recursion) :
    feedLines limit' frame lines s = feedLines limit frame lines s := by
  induction lines generalizing s with
  | nil => rfl
  | cons line rest ih =>
    obtain ⟨hline, hrest⟩ := List.forall_mem_cons.1 hlines
    have heq := (feed_eq_or_deep h frame line s).resolve_right hline
    rw [feedLines, feedLines, heq, ih hrest]

theorem feedLines_eq_append {lines : List String} {s : Store} {w : Scopes} (hm : s.Mirrors w)
    {before after : List (Outcome × Store)} {p : Outcome × Store}
    (hsplit : feedLines limit frame lines s = before ++ p :: after)
    (hbefore : ∀ b ∈ before, b.1.kind? ≠ some .recursion) :
    ∃ q later, feedLines limit' frame lines s = before ++ q :: later ∧
      (p.1.report p.2).texts <+: (q.1.report q.2).texts := by
  induction lines generalizing s w before with
  | nil => simp [feedLines] at hsplit
  | cons line rest ih =>
    rw [feedLines] at hsplit
    cases before with
    | nil =>
      obtain ⟨rfl, -⟩ := List.cons.inj hsplit
      exact ⟨_, _, rfl, texts_feed_isPrefix h frame hm line⟩
    | cons b before =>
      obtain ⟨rfl, hrest⟩ := List.cons.inj hsplit
      obtain ⟨hline, hbefore⟩ := List.forall_mem_cons.1 hbefore
      have heq := (feed_eq_or_deep h frame line s).resolve_right hline
      obtain ⟨q, later, hlater, htexts⟩ :=
        ih (answers_feed limit frame hm line).mirrors hrest hbefore
      exact ⟨q, later, by rw [feedLines, heq, hlater, List.cons_append], htexts⟩

end

/-- Where no outcome is that of too little depth, a greater limit gives the same outcomes and the
same stores, so the same bindings.  Otherwise the lines before the first such outcome have the same
ones, and what that line reports begins with what it reported. -/
theorem session_limit {limit limit' : Nat} (h : limit ≤ limit') (lines : List String) :
    ((∀ p ∈ session limit lines, p.1.kind? ≠ some .recursion) →
      session limit' lines = session limit lines) ∧
    ∀ before p after, session limit lines = before ++ p :: after →
      (∀ b ∈ before, b.1.kind? ≠ some .recursion) → p.1.kind? = some .recursion →
      ∃ q later, session limit' lines = before ++ q :: later ∧
        (p.1.report p.2).texts <+: (q.1.report q.2).texts :=
  ⟨feedLines_eq h 0, fun _ _ _ hsplit hbefore _ =>
    feedLines_eq_append h 0 mirrors_addGlobal hsplit hbefore⟩

/-- The call on the second line needs more than seven levels. -/
theorem session_limit_defun :
    let define := "(defun f (y) (list (list y)))"
    let call := "'a (f 'b)"
    let b := feed 7 0 define Store.empty.addGlobal.2
    let p := feed 7 0 call b.2
    7 ≤ 20 ∧
    ((∀ p ∈ session 7 [define], p.1.kind? ≠ some .recursion) ∧
      session 20 [define] = session 7 [define]) ∧
    (session 7 [define, call] = [b] ++ p :: [] ∧ b.1.kind? ≠ some .recursion ∧
      p.1.kind? = some .recursion) ∧
    ∃ q later, session 20 [define, call] = [b] ++ q :: later ∧
      (p.1.report p.2).texts <+: (q.1.report q.2).texts := by
  intro define call b p
  have hle : 7 ≤ 20 := by decide
  have hdefine : ∀ p ∈ session 7 [define], p.1.kind? ≠ some .recursion := by decide +kernel
  have hb : b.1.kind? ≠ some .recursion := by decide +kernel
  have hp : p.1.kind? = some .recursion := by decide +kernel
  have hbefore : ∀ o ∈ [b], o.1.kind? ≠ some .recursion := List.forall_mem_singleton.2 hb
  exact ⟨hle, ⟨hdefine, (session_limit hle [define]).1 hdefine⟩, ⟨rfl, hb, hp⟩,
    (session_limit hle [define, call]).2 [b] p [] rfl hbefore hp⟩

end Interpreter

end MiniLisp
