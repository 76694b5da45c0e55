import MiniLisp.Proofs.Respell.Evaluation

set_option autoImplicit false

namespace MiniLisp

open Store

namespace Store

theorem counterpart_globalBindings {s s' : Store} (base : FrameRef) :
    List.Forall₂ (fun x y => x.1 = y.1 ∧ s.Counterpart base s' x.2 y.2) globalBindings
      globalBindings := by
  refine List.forall₂_same.2 fun b hb => ⟨rfl, ?_⟩
  rw [globalBindings, List.mem_append, List.mem_map] at hb
  rcases hb with hnil | ⟨p, _, rfl⟩
  · have hb : b.2 = .nil := by
      simp only [List.mem_cons, List.not_mem_nil, or_false] at hnil
      rcases hnil with rfl | rfl <;> rfl
    exact hb ▸ .nil
  · exact ⟨_, _, .primitive p 0, .primitive p 0, .primitive p⟩

theorem parallel_addGlobal (s : Store) :
    s.addGlobal.2.Parallel s.frames.size s.addGlobal.2 := by
  have hempty : s.ParallelFrames s.frames.size s ⟨[], none⟩ ⟨[], none⟩ := ⟨rfl, nofun, .nil⟩
  have hframe := hempty.update (counterpart_globalBindings s.frames.size)
  have hk := retains_addFrame s (Frame.update ⟨[], none⟩ globalBindings)
  refine ⟨by simp [addGlobal, addFrame], rfl, fun r hr => ?_⟩
  rw [addGlobal, addFrame, Array.getElem?_push]
  split
  · exact .some (hframe.mono hk hk)
  · rw [Array.getElem?_eq_none hr]
    exact .none

end Store

namespace Interpreter

/-- Two courses of a program: values of the same texts, the same error but for the form it quotes,
and the same names in the same order in the frame. -/
structure SameCourse (frame : FrameRef) (p q : Outcome × Store) : Prop where
  values : ∃ texts : List String, p.1.values.map p.2.print = texts.map .ok ∧
    q.1.values.map q.2.print = texts.map .ok
  error : p.1.error.map Error.withoutForm = q.1.error.map Error.withoutForm
  kind : p.1.kind? = q.1.kind?
  names : ∃ f f', p.2.frames[frame]? = some f ∧ q.2.frames[frame]? = some f' ∧
    f.bindings.map Prod.fst = f'.bindings.map Prod.fst

structure CoursesTogether (base : FrameRef) (s s' : Store) (p q : Outcome × Store) : Prop where
  retains : s.Retains p.2 ∧ s'.Retains q.2
  parallel : p.2.Parallel base q.2
  values : List.Forall₂ (p.2.Counterpart base q.2) p.1.values q.1.values
  error : p.1.error.map Error.withoutForm = q.1.error.map Error.withoutForm

variable {base : FrameRef}

theorem exists_texts {s s' : Store} {vs vs' : List Value}
    (h : List.Forall₂ (s.Counterpart base s') vs vs') :
    ∃ texts : List String, vs.map s.print = texts.map .ok ∧ vs'.map s'.print = texts.map .ok := by
  induction h with
  | nil => exact ⟨[], rfl, rfl⟩
  | cons hv _ ih =>
    obtain ⟨text, htext, htext'⟩ := hv.print
    obtain ⟨texts, htexts, htexts'⟩ := ih
    exact ⟨text :: texts, congrArg₂ List.cons htext htexts, congrArg₂ List.cons htext' htexts'⟩

theorem CoursesTogether.sameCourse {s s' : Store} {p q : Outcome × Store}
    (h : CoursesTogether base s s' p q) : SameCourse base p q := by
  have hkind : ∀ e : Option Error, e.bind (·.kind?) = (e.map Error.withoutForm).bind (·.kind?) := by
    rintro (_ | e)
    · rfl
    · exact e.kind?_withoutForm.symm
  refine ⟨exists_texts h.values, h.error, ?_, ?_⟩
  · rw [Outcome.kind?, Outcome.kind?, hkind, h.error, ← hkind]
  · have hframe := h.parallel.frame base (Nat.le_refl base)
    have hf := Array.getElem?_eq_getElem h.parallel.low
    rw [hf] at hframe
    generalize hg : q.2.frames[base]? = g at hframe
    cases hframe with
    | some hff => exact ⟨_, _, hf, rfl, hff.names_eq⟩

section

variable {s s' : Store} {limit limit' : Nat} (hl : 2 * limit + 2 ≤ limit')
  (hp : s.Parallel base s') {frame : FrameRef} (hframe : base ≤ frame)

include hl hp hframe

theorem together_evaluate {d d' : Datum} (hd : d.Respells false d') :
    Together base (Counterpart base) s s' (evaluate limit frame d s)
      (evaluate limit' frame d' s') := by
  obtain ⟨hk, hf⟩ := retains_load s d
  obtain ⟨hk', hf'⟩ := retains_load s' d'
  exact (Eval.together_evalBelow base hl 0 .inner _ _ frame _ _ (hp.mono hk hk' hf hf') hframe
    ⟨d, d', unfolds_load s d, unfolds_load s' d', hd⟩).of_keeps hk hk'

theorem together_evaluateAll {ds ds' : List Datum}
    (hds : List.Forall₂ (Datum.Respells false) ds ds') :
    (evaluateAll limit frame ds s).1.error = some .recursionTooDeep ∨
      CoursesTogether base s s' (evaluateAll limit frame ds s)
        (evaluateAll limit' frame ds' s') := by
  induction hds generalizing s s' with
  | nil => exact .inr ⟨⟨.refl s, .refl s'⟩, hp, .nil, rfl⟩
  | @cons d d' ds ds' hd _ ih =>
    have hstep := together_evaluate hl hp hframe hd
    rw [evaluateAll, evaluateAll]
    generalize evaluate limit frame d s = x at hstep
    generalize evaluate limit' frame d' s' = y at hstep
    cases hstep with
    | excused he => exact .inl (congrArg some he)
    | error hst he => exact .inr ⟨⟨hst.1, hst.2.1⟩, hst.2.2, .nil, congrArg some he⟩
    | ok hst hv =>
      obtain ⟨hk, hk', hp⟩ := hst
      refine (ih hp).imp id fun hrest => ?_
      have hkeeps := hrest.retains
      exact ⟨⟨hk.trans hkeeps.1, hk'.trans hkeeps.2⟩, hrest.parallel,
        .cons (hv.mono hkeeps.1 hkeeps.2) hrest.values, hrest.error⟩

end

/-- In a fresh interpreter, a program and the one with its definitions of functions spelled out take
the same course, whichever is run first; the other one is given twice the depth and two levels more.
Nothing is said where the first runs out of depth. -/
theorem evaluateAll_spellOut (s : Store) {limit limit' : Nat} (hl : 2 * limit + 2 ≤ limit')
    (ds : List Datum) :
    let frame := s.addGlobal.1
    let run (limit : Nat) (ds : List Datum) := evaluateAll limit frame ds s.addGlobal.2
    ((run limit ds).1.error = some .recursionTooDeep ∨
      SameCourse frame (run limit ds) (run limit' (ds.map Datum.spellOut))) ∧
    ((run limit (ds.map Datum.spellOut)).1.error = some .recursionTooDeep ∨
      SameCourse frame (run limit (ds.map Datum.spellOut)) (run limit' ds)) := by
  intro frame run
  have hp := parallel_addGlobal s
  have hspelled : List.Forall₂ (Datum.Respells false) ds (ds.map Datum.spellOut) := by
    rw [List.forall₂_map_right_iff]
    exact List.forall₂_same.2 fun d _ => d.respells_spellOut
  have hshort : List.Forall₂ (Datum.Respells false) (ds.map Datum.spellOut) ds :=
    hspelled.flip.imp fun _ _ h => h.symm
  exact ⟨(together_evaluateAll hl hp (Nat.le_refl _) hspelled).imp id (·.sameCourse),
    (together_evaluateAll hl hp (Nat.le_refl _) hshort).imp id (·.sameCourse)⟩

/-- A program whose functions define functions, and whose last expression fails. -/
theorem evaluateAll_spellOut_nested :
    let s := Store.empty.addGlobal.2
    let ds := (readAll 100 "(defun f (x) (begin (defun g (y) (cons y x)) (g x))) (f 'a) (g 'a)").data
    let p := evaluateAll 50 0 ds s
    let q := evaluateAll 50 0 (ds.map Datum.spellOut) s
    2 * 50 + 2 ≤ 102 ∧
    (p.1.values.map p.2.print = [.ok "f", .ok "(a . a)"] ∧ p.1.error = some (.unbound "g")) ∧
    SameCourse 0 p (evaluateAll 102 0 (ds.map Datum.spellOut) s) ∧
    SameCourse 0 q (evaluateAll 102 0 ds s) := by
  intro s ds p q
  have hcourse := @evaluateAll_spellOut Store.empty 50 102 (by decide) ds
  have hp : p.1.error = some (.unbound "g") := by decide +kernel
  have hq : q.1.error ≠ some .recursionTooDeep := by decide +kernel
  have hvalues : p.1.values.map p.2.print = [.ok "f", .ok "(a . a)"] := by decide +kernel
  refine ⟨by decide, ⟨hvalues, hp⟩, hcourse.1.resolve_left ?_, hcourse.2.resolve_left hq⟩
  exact fun hdeep => nomatch hp.symm.trans hdeep

end Interpreter
end MiniLisp
