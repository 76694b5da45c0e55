import MiniLisp.Proofs.Reader.JoinedText
import MiniLisp.Proofs.Tree.Operations

set_option autoImplicit false

namespace MiniLisp

open Store MiniLisp.Action

namespace Eval

def EvaluatorsAlike (ev : Evaluator) (ev' : Tree.Evaluator) : Prop :=
  ∀ (part : Part) (v : Value) (t : Tree) (frame : FrameRef) (s : Store) (w : Scopes),
    s.Mirrors w → s.Stands v t → Alike Stands s (ev part v frame s) (ev' part t frame w)

variable {s : Store} {w : Scopes} {ev : Evaluator} {ev' : Tree.Evaluator}

theorem alike_define (hm : s.Mirrors w) (frame : FrameRef) (name : String) {v : Value} {t : Tree}
    (hv : s.Stands v t) (event : Event) :
    Alike Stands s ((do
      update (·.define frame name v)
      update (·.record event)
      return .symbol name : Action Value) s) (Tree.defineIn frame name t w) := by
  have hrecord := retains_record (s.define frame name v) event
  exact .ok ((retains_define s frame name v).trans hrecord)
    ((hm.define frame name hv).mono hrecord rfl) (.symbol name)

theorem alike_closure (hm : s.Mirrors w) (frame : FrameRef) {parameters body : Value}
    {p b : Tree} (hp : s.Stands parameters p) (hb : s.Stands body b) :
    Alike Stands s (closure parameters body frame s)
      ((return .closure p b frame : Run Tree) w) := by
  have hadd := retains_addClosure s ⟨parameters, body, frame⟩
  have hrecord := retains_record (s.addClosure ⟨parameters, body, frame⟩).2
    (.closureCreated s.closures.size)
  exact .ok (hadd.trans hrecord) (hm.mono (hadd.trans hrecord) rfl)
    ((stands_addClosure (c := ⟨parameters, body, frame⟩) hp hb).mono hrecord)

section

variable (hev : EvaluatorsAlike ev ev') (hm : s.Mirrors w) {xs : List Value} {ts : List Tree}
  (hx : List.Forall₂ s.Stands xs ts) (room : Nat) (frame : FrameRef)

include hm hx

theorem alike_quote : Alike Stands s (special room ev frame .quote xs s)
    (Tree.special room ev' frame .quote ts w) := by
  rcases hx with _ | ⟨h, _ | _⟩
  · exact .error (.refl s) hm nofun
  · exact .ok (.refl s) hm h
  · exact .error (.refl s) hm nofun

theorem alike_lambda : Alike Stands s (special room ev frame .lambda xs s)
    (Tree.special room ev' frame .lambda ts w) := by
  rcases hx with _ | ⟨hp, _ | ⟨hb, _ | _⟩⟩
  · exact .error (.refl s) hm nofun
  · exact .error (.refl s) hm nofun
  · exact alike_closure hm frame hp hb
  · exact .error (.refl s) hm nofun

theorem alike_defun : Alike Stands s (special room ev frame .defun xs s)
    (Tree.special room ev' frame .defun ts w) := by
  -- The first operand is looked at before the number of them.
  rcases hx with _ | ⟨hn, _ | ⟨hp, _ | ⟨hb, _ | _⟩⟩⟩
  · exact .error (.refl s) hm nofun
  · cases hn <;> exact .error (.refl s) hm nofun
  · cases hn <;> exact .error (.refl s) hm nofun
  · cases hn with
    | symbol name =>
      exact (alike_closure hm frame hp hb).bind (g := fun t => Tree.defineIn frame name t)
        fun v t s₁ w₁ _ hm₁ hv => alike_define hm₁ frame name hv _
    | _ => exact .error (.refl s) hm nofun
  · cases hn <;> exact .error (.refl s) hm nofun

include hev

theorem alike_conditional : Alike Stands s (special room ev frame .conditional xs s)
    (Tree.special room ev' frame .conditional ts w) := by
  rcases hx with _ | ⟨htest, _ | ⟨hyes, _ | ⟨hno, _ | _⟩⟩⟩
  · exact .error (.refl s) hm nofun
  · exact .error (.refl s) hm nofun
  · exact .error (.refl s) hm nofun
  · refine (hev .inner _ _ frame s w hm htest).bind fun v t s₁ w₁ hk₁ hm₁ hv => ?_
    by_cases hnil : v = .nil
    · rw [if_neg (not_not.2 hnil), if_neg (not_not.2 (hv.eq_nil_iff.1 hnil))]
      exact hev .inner _ _ frame s₁ w₁ hm₁ (hno.mono hk₁)
    · rw [if_pos hnil, if_pos (mt hv.eq_nil_iff.2 hnil)]
      exact hev .inner _ _ frame s₁ w₁ hm₁ (hyes.mono hk₁)
  · exact .error (.refl s) hm nofun

theorem alike_defineForm : Alike Stands s (special room ev frame .define xs s)
    (Tree.special room ev' frame .define ts w) := by
  rcases hx with _ | ⟨hn, _ | ⟨hx, _ | _⟩⟩
  · exact .error (.refl s) hm nofun
  · cases hn <;> exact .error (.refl s) hm nofun
  · cases hn with
    | symbol name =>
      exact (hev .inner _ _ frame s w hm hx).bind fun v t s₁ w₁ _ hm₁ hv =>
        alike_define hm₁ frame name hv _
    | _ => exact .error (.refl s) hm nofun
  · cases hn <;> exact .error (.refl s) hm nofun

theorem alike_function : Alike Stands s (special room ev frame .function xs s)
    (Tree.special room ev' frame .function ts w) := by
  rcases hx with _ | ⟨hx, _ | _⟩
  · exact .error (.refl s) hm nofun
  · refine (hev .inner _ _ frame s w hm hx).bind fun v t s₁ w₁ _ hm₁ hv => ?_
    rw [hv.isFunction_eq]
    by_cases hf : t.isFunction = true
    · rw [if_pos hf, if_pos hf]
      exact .of_pure hm₁ hv
    · rw [if_neg hf, if_neg hf]
      exact .of_report hm₁ hv room .notFunction fun _ => nofun
  · exact .error (.refl s) hm nofun

theorem alike_special (form : SpecialForm) : Alike Stands s (special room ev frame form xs s)
    (Tree.special room ev' frame form ts w) := by
  cases form with
  | quote => exact alike_quote hm hx room frame
  | conditional => exact alike_conditional hev hm hx room frame
  | define => exact alike_defineForm hev hm hx room frame
  | lambda => exact alike_lambda hm hx room frame
  | defun => exact alike_defun hm hx room frame
  | begin => exact .foldlM (fun v t s w hm hv => hev .inner v t frame s w hm hv) hm hx .nil
  | function => exact alike_function hev hm hx room frame

theorem alike_apply {f : Value} {t : Tree} (hf : s.Stands f t) :
    Alike Stands s (apply room ev f xs frame s) (Tree.apply room ev' t ts w) := by
  have hreport := Alike.of_report (R := Stands) hm hf room .notApplicable fun _ => nofun
  cases hf with
  | primitive p serial => exact alike_primitive hm hx room p
  | @closure r c p b hc hp hb =>
    have hframe : Alike (fun s => s.MirrorsFrame) s (check (·.callFrame room c xs) s)
        (Tree.pureRun (Tree.callScope room p c.scope ts) w) :=
      .of_check hm (endsAlike_callFrame hp room hx)
    have henter : Alike (fun _ => Eq) s (extend room c xs s)
        (Tree.enter room p c.scope ts w) :=
      hframe.bind fun f g s₁ w₁ _ hm₁ hfg =>
        .ok (retains_addFrame s₁ f) (hm₁.addFrame hfg) hm₁.size
    change Alike Stands s (callClosure room ev r xs s) _
    rw [callClosure_eq hc]
    refine henter.bind fun q q' s₁ w₁ hk₁ hm₁ hq => ?_
    subst hq
    have hrecord := retains_record s₁ (.called r xs.length)
    exact .of_update hrecord
      (hev .body _ _ q _ w₁ (hm₁.mono hrecord rfl) ((hb.mono hk₁).mono hrecord))
  | _ => exact hreport

theorem alike_call {head : Value} {t : Tree} (hh : s.Stands head t) :
    Alike Stands s (call room ev frame head xs s) (Tree.call room ev' frame t ts w) := by
  refine (hev .head _ _ frame s w hm hh).bind fun f t s₁ w₁ hk₁ hm₁ hf => ?_
  rw [hf.isFunction_eq]
  by_cases hfun : t.isFunction = true
  · simp only [hfun, Bool.not_true, Bool.false_eq_true, if_false, if_true]
    refine (Alike.mapM (fun v t s w hm hv => hev .operand v t frame s w hm hv) hm₁
      (forall_stands_mono hx hk₁)).bind fun args args' s₂ w₂ hk₂ hm₂ ha => ?_
    exact alike_apply hev hm₂ ha room frame (hf.mono hk₂)
  · simp only [hfun, Bool.not_false, if_true, Bool.false_eq_true, if_false]
    refine (Alike.of_print hm₁ hf room).bind fun text text' s₂ w₂ _ hm₂ heq => ?_
    subst heq
    exact .error (.refl s₂) hm₂ nofun

end

theorem specialForm?_eq {v : Value} {t : Tree} (h : s.Stands v t) :
    specialForm? v = Tree.specialForm? t := by
  cases h <;> rfl

theorem alike_step (hev : EvaluatorsAlike ev ev') (hm : s.Mirrors w) (room : Nat)
    (frame : FrameRef) {v : Value} {t : Tree} (hv : s.Stands v t) :
    Alike Stands s (step room ev v frame s) (Tree.step room ev' t frame w) := by
  have hreport := Alike.of_report (R := Stands) hm hv room .malformedForm fun _ => nofun
  cases hv with
  | symbol name =>
    have hlookup : Alike Stands s (check (·.lookup frame name) s)
        (Tree.pureRun (w.lookup frame name) w) := .of_check hm (hm.lookup frame name)
    exact hlookup
  | @cell r c a d hc ha hd =>
    obtain ⟨items, last, hchain, hitems, hlast⟩ := hd.chain
    by_cases hl : last = .nil
    · subst hl
      have htree := Tree.step_list room ev' a frame (hlast.eq_nil_iff.1 rfl)
      rw [step_list room ev (Chain.link hc hchain).chain_eq, htree, Tree.form, ← specialForm?_eq ha]
      cases specialForm? c.head with
      | some form => exact alike_special hev hm hitems room frame form
      | none => exact alike_call hev hm hitems room frame ha
    · have htree := Tree.step_improper room ev' a frame (mt hlast.eq_nil_iff.2 hl)
      rw [step_malformed room ev (.link hc hchain) hl, htree]
      exact hreport
  | nil => exact .ok (.refl s) hm .nil
  | number x => exact .ok (.refl s) hm (.number x)
  | primitive p serial => exact .ok (.refl s) hm (.primitive p serial)
  | closure hc hp hb => exact .ok (.refl s) hm (.closure hc hp hb)

theorem alike_evalBelow (room : Nat) : ∀ gap : Nat,
    EvaluatorsAlike (fun _ => evalBelow room gap) fun _ => Tree.evalBelow room gap := by
  induction room with
  | zero => exact fun _ _ _ _ _ s _ hm _ => .error (.refl s) hm nofun
  | succ room ih =>
    intro gap
    cases gap with
    | zero =>
      have hparts : EvaluatorsAlike (fun part => evalBelow room part.gap)
          fun part => Tree.evalBelow room part.gap :=
        fun part v t frame s w hm hv => ih part.gap part v t frame s w hm hv
      exact fun _ _ _ frame _ _ hm hv => alike_step hparts hm room frame hv
    | succ gap => exact ih gap

end Eval

theorem kind_of_resume {limit index : Nat} {p : Reader.Pending} {ts : List Token} {e : Error}
    (h : (Reader.resume limit p index ts).1 = .error e) : e.kind? ≠ none := by
  rcases Reader.waits_or_final limit p index ts with ⟨q, hq⟩ | ⟨d, hd⟩ | ⟨e', he, hfinal⟩
  · rw [hq.resume_eq, Except.error.injEq] at h
    have hmissing := Reader.missing_isIncomplete q
    rw [h] at hmissing
    rcases hmissing with rfl | rfl <;> simp [Error.kind?]
  · rw [hd] at h
    cases h
  · obtain rfl := Except.error.inj (he.symm.trans h)
    rcases hfinal with rfl | hwrong
    · nofun
    · cases e' <;> first | exact False.elim hwrong | nofun

theorem kind_of_readAll {limit : Nat} {c : Cursor} {e : Error}
    (h : (c.readAll limit).error = some e) : e.kind? ≠ none := by
  induction hn : c.rest.length using Nat.strongRecOn generalizing c with
  | ind n ih =>
    subst hn
    obtain ⟨index, ts⟩ := c
    cases ts with
    | nil =>
      rw [readAll_end] at h
      cases h
    | cons t ts =>
      cases hread : Cursor.read limit ⟨index, t :: ts⟩ with
      | mk x next =>
        cases x with
        | error e' =>
          rw [readAll_error (by simp) hread] at h
          cases h
          exact kind_of_resume (congrArg Prod.fst hread)
        | ok d =>
          rw [readAll_ok hread] at h
          exact ih _ (Reader.resume_ok_shorter limit _ hread) h rfl

namespace Interpreter

/-- An outcome in the store and one of trees are alike, and so are the frames that they leave. -/
structure Answers (s : Store) (p : Outcome × Store) (q : Tree.Outcome × Scopes) : Prop where
  retains : s.Retains p.2
  mirrors : p.2.Mirrors q.2
  values : List.Forall₂ p.2.Stands p.1.values q.1.values
  error : p.1.error = q.1.error
  kind : ∀ e, p.1.error = some e → e.kind? ≠ none

variable {s : Store} {w : Scopes} (limit : Nat) (frame : FrameRef)

theorem alike_evaluate (hm : s.Mirrors w) (d : Datum) :
    Alike Stands s (evaluate limit frame d s) (Tree.evalBelow limit 0 (.ofDatum d) frame w) := by
  obtain ⟨hk, hframes⟩ := retains_load s d
  exact (Eval.alike_evalBelow limit 0 .inner _ _ frame _ w (hm.mono hk hframes)
    (unfolds_load s d).stands).of_keeps hk

theorem answers_evaluateAll (hm : s.Mirrors w) (ds : List Datum) :
    Answers s (evaluateAll limit frame ds s) (Tree.evaluateAll limit frame ds w) := by
  induction ds generalizing s w with
  | nil => exact ⟨.refl s, hm, .nil, rfl, nofun⟩
  | cons d ds ih =>
    have hd := alike_evaluate limit frame hm d
    rw [evaluateAll, Tree.evaluateAll]
    generalize evaluate limit frame d s = x at hd
    generalize Tree.evalBelow limit 0 (.ofDatum d) frame w = y at hd
    cases hd with
    | excused he => exact he.elim
    | error hst he => exact ⟨hst.1, hst.2, .nil, congrArg some he.1, by rintro _ ⟨⟩; exact he.2⟩
    | ok hst hv =>
      obtain ⟨hk, hm⟩ := hst
      have hrest := ih hm
      exact ⟨hk.trans hrest.retains, hrest.mirrors, .cons (hv.mono hrest.retains) hrest.values,
        hrest.error, hrest.kind⟩

theorem answers_feed (hm : s.Mirrors w) (source : String) :
    Answers s (feed limit frame source s) (Tree.feed limit frame source w) := by
  have hall := answers_evaluateAll limit frame hm (readAll limit source).data
  have herror : (feed limit frame source s).1.error =
      (evaluateAll limit frame (readAll limit source).data s).1.error.or
        (readAll limit source).error := rfl
  have htree : (Tree.feed limit frame source w).1.error =
      (Tree.evaluateAll limit frame (readAll limit source).data w).1.error.or
        (readAll limit source).error := rfl
  refine ⟨hall.retains, hall.mirrors, hall.values, ?_, fun e he => ?_⟩
  · rw [herror, htree, hall.error]
  · rw [herror, Option.or_eq_some_iff] at he
    rcases he with he | ⟨_, he⟩
    · exact hall.kind e he
    · exact kind_of_readAll he

end Interpreter

end MiniLisp
