import MiniLisp.Proofs.Eval.Adequacy
import MiniLisp.Proofs.Rename.Echo

set_option autoImplicit false

namespace MiniLisp

open Store MiniLisp.Action

variable {m : Matching} {s s' : Store}

theorem Store.Code.shown {name : String} (h : s.Code m (.symbol name)) (q : FrameRef) :
    m.hidden q name = false := by
  cases hq : m.hidden q name with
  | false => rfl
  | true => exact absurd .symbol (h.plain q name hq)

/-- The parts of a form are code as the form is, but for the name of a special form. -/
theorem Store.Matches.parts (hm : s.Matches m s') {e head last : Value} {rest : List Value}
    (he : s.Code m e) (hl : s.Chain e (head :: rest) last) :
    (∀ p ∈ rest, s.Code m p) ∧ (Eval.specialForm? head = none → s.Code m head) := by
  obtain ⟨_, hitems, _⟩ := hm.chain hl he.knows
  obtain ⟨hhead, hrest⟩ := List.forall_mem_cons.1 hitems
  refine ⟨fun p hp => ⟨hrest p hp, fun q name hq hmention => ?_⟩,
    fun hform => ⟨hhead, fun q name hq hmention => ?_⟩⟩
  · exact he.plain q name hq (.rest hl (List.mem_cons_of_mem _ hp) hmention)
  · exact he.plain q name hq (.head hl hform hmention)

namespace Eval

def EvaluatorEchoes (m : Matching) (ev : Evaluator) : Prop :=
  ∀ (part : Part) (e : Value) (frame : FrameRef) (s s' : Store), s.Matches m s' → s.Code m e →
    s.Located m frame → Echoes m (Renamed m) s (ev part e frame s)
      (ev part (e.rename m.names) (m.names.frame frame) s')

variable {ev : Evaluator} {frame : FrameRef}

theorem echoes_closure (hm : s.Matches m s') {parameters body : Value}
    (hp : s.Knows m parameters) (hb : s.Code m body) (hf : s.Located m frame) :
    Echoes m (Renamed m) s (closure parameters body frame s)
      (closure (parameters.rename m.names) (body.rename m.names) (m.names.frame frame) s') := by
  obtain ⟨hm', hname, hknows⟩ := hm.addClosure (c := ⟨parameters, body, frame⟩) hp hb hf
  have hadd : Evolves NoHook (fun _ _ => True) s (s.addClosure ⟨parameters, body, frame⟩).2 :=
    .single (.closure hp.admits hb.knows.admits hf.lt)
  have hrecord : ∀ e, Evolves NoHook (fun _ _ => True) (s.addClosure ⟨parameters, body, frame⟩).2
      ((s.addClosure ⟨parameters, body, frame⟩).2.record e) := fun e => .single (.record e)
  exact .ok (hadd.trans (hrecord _)) (hm'.record _ _)
    ⟨congrArg Value.closure hname, hknows.evolves (hrecord _)⟩

theorem echoes_define (hm : s.Matches m s') (frame : FrameRef) {name : String}
    (hname : ∀ q, m.hidden q name = false) {v v' : Value} (hv : Renamed m s v v')
    (event : Event) :
    Echoes m (Renamed m) s ((do
      update (·.define frame name v)
      update (·.record event)
      return .symbol name : Action Value) s) ((do
      update (·.define (m.names.frame frame) name v')
      update (·.record event)
      return .symbol name : Action Value) s') := by
  obtain ⟨rfl, hv⟩ := hv
  have hdefine : Evolves NoHook (fun _ _ => True) s (s.define frame name v) :=
    .single (.define trivial hv.admits)
  exact .ok (hdefine.tail (.record event)) ((hm.define frame hname hv).record event event)
    ⟨rfl, knows_atom trivial rfl⟩

section

variable (hev : EvaluatorEchoes m ev) (hm : s.Matches m s') (hf : s.Located m frame) (room : Nat)

include hev hm hf

theorem echoes_part {t t' : Store} (part : Part) {e : Value} (he : s.Code m e)
    (h : Evolves NoHook (fun _ _ => True) s t) (hm' : t.Matches m t') :
    Echoes m (Renamed m) t (ev part e frame t)
      (ev part (e.rename m.names) (m.names.frame frame) t') :=
  hev part e frame t t' hm' (he.evolves hm.ready.sound h) (hf.evolves h)

theorem echoes_conditional {test yes no : Value} (htest : s.Code m test) (hyes : s.Code m yes)
    (hno : s.Code m no) :
    Echoes m (Renamed m) s (special room ev frame .conditional [test, yes, no] s)
      (special room ev (m.names.frame frame) .conditional
        [test.rename m.names, yes.rename m.names, no.rename m.names] s') := by
  refine (echoes_part hev hm hf .inner htest .refl hm).bind fun v v' t t' h hm' ⟨hv, _⟩ => ?_
  subst hv
  by_cases hnil : v = .nil
  · rw [if_neg (not_not.2 hnil), if_neg (not_not.2 (Value.rename_eq_nil_iff.2 hnil))]
    exact echoes_part hev hm hf .inner hno h hm'
  · rw [if_pos hnil, if_pos (mt Value.rename_eq_nil_iff.1 hnil)]
    exact echoes_part hev hm hf .inner hyes h hm'

theorem echoes_function {x : Value} (hx : s.Code m x) :
    Echoes m (Renamed m) s (special room ev frame .function [x] s)
      (special room ev (m.names.frame frame) .function [x.rename m.names] s') := by
  refine (echoes_part hev hm hf .inner hx .refl hm).bind fun v v' t t' h hm' ⟨hv, hknows⟩ => ?_
  subst hv
  rw [Value.isFunction_rename]
  split
  · exact .of_pure hm' ⟨rfl, hknows⟩
  · exact .of_report hm' hknows room .notFunction

theorem echoes_special (form : SpecialForm) {xs : List Value} (hx : ∀ x ∈ xs, s.Code m x) :
    Echoes m (Renamed m) s (special room ev frame form xs s)
      (special room ev (m.names.frame frame) form (xs.map (Value.rename m.names)) s') := by
  rcases misshapen_or form xs with ⟨err, hshape⟩ | hshape
  · rw [special_misshapen hshape, special_misshapen (hshape.map fun _ _ => Value.rename_eq_symbol_iff)]
    exact .error .refl hm
  · cases form with
    | quote =>
      obtain ⟨x, rfl⟩ := hshape
      exact .of_pure hm ⟨rfl, (hx x (by simp)).knows⟩
    | conditional =>
      obtain ⟨test, yes, no, rfl⟩ := hshape
      exact echoes_conditional hev hm hf room (hx test (by simp)) (hx yes (by simp))
        (hx no (by simp))
    | define =>
      obtain ⟨name, x, rfl⟩ := hshape
      have hname := (hx (.symbol name) (by simp)).shown
      exact (echoes_part hev hm hf .inner (hx x (by simp)) .refl hm).bind
        fun v v' t t' _ hm' hv => echoes_define hm' frame hname hv _
    | lambda =>
      obtain ⟨parameters, body, rfl⟩ := hshape
      exact echoes_closure hm (hx parameters (by simp)).knows (hx body (by simp)) hf
    | defun =>
      obtain ⟨name, parameters, body, rfl⟩ := hshape
      have hname := (hx (.symbol name) (by simp)).shown
      exact (echoes_closure hm (hx parameters (by simp)).knows (hx body (by simp)) hf).bind
        fun v v' t t' _ hm' hv => echoes_define hm' frame hname hv _
    | begin =>
      exact Echoes.foldlM hm (fun x hmem t t' h hm' =>
        echoes_part hev hm hf .inner (hx x hmem) h hm') ⟨rfl, knows_atom trivial rfl⟩
    | function =>
      obtain ⟨x, rfl⟩ := hshape
      exact echoes_function hev hm hf room (hx x (by simp))

end

theorem located_callFrame {c : Closure} (hscope : s.Located m c.scope) {room : Nat}
    {args : List Value} (ha : ∀ a ∈ args, s.Knows m a) {f : Frame}
    (h : s.callFrame room c args = .ok f) :
    (∀ o ∈ f.outer, s.Located m o) ∧ ∀ b ∈ f.bindings, s.Knows m b.2 := by
  obtain ⟨names, _, _, rfl⟩ := callFrame_ok h
  obtain ⟨houter, hbindings⟩ := update_bindings (names.zip args) ⟨[], some c.scope⟩
  refine ⟨fun o ho => ?_, fun b hb => ?_⟩
  · rw [houter] at ho
    obtain rfl := Option.some.inj ho
    exact hscope
  · rcases hbindings b hb with h | ⟨x, hx, h⟩
    · cases h
    · exact h ▸ ha _ (List.of_mem_zip hx).2

section

variable (hev : EvaluatorEchoes m ev) (hm : s.Matches m s') (room : Nat)

include hev hm

theorem echoes_callClosure {r : ClosureRef} (hr : s.Knows m (.closure r)) {args : List Value}
    (ha : ∀ a ∈ args, s.Knows m a) :
    Echoes m (Renamed m) s (callClosure room ev r args s)
      (callClosure room ev (m.names.closure r) (args.map (Value.rename m.names)) s') := by
  obtain ⟨c, hc, hc', hp, hbody, hscope⟩ := hm.exists_closure hr
  have hframe := hm.callFrame room hp args
  cases hf : s.callFrame room c args with
  | error err =>
    rw [callClosure_error hc hf, callClosure_error hc' (hframe.trans (by rw [hf]; rfl))]
    exact .error .refl hm
  | ok f =>
    rw [callClosure_ok hc hf, callClosure_ok hc' (hframe.trans (by rw [hf]; rfl))]
    obtain ⟨houter, hbindings⟩ := located_callFrame hscope ha hf
    obtain ⟨hm', hname, hnew⟩ := hm.addFrame houter hbindings
    have hadd : Evolves NoHook (fun _ _ => True) s (s.addFrame f).2 :=
      .single (.frame (fun o ho => (houter o ho).lt) fun b hb => (hbindings b hb).admits)
    have hcall := hadd.tail (.record (.called r args.length))
    have hrun := hev .body c.body _ _ _ (hm'.record (.called r args.length)
      (.called (m.names.closure r) (args.map (Value.rename m.names)).length))
      (hbody.evolves hm.ready.sound hcall) ⟨hnew.lt, hnew.region⟩
    rw [← hname] at hrun
    exact hrun.of_evolves hcall

theorem echoes_apply {f : Value} (hf : s.Knows m f) {args : List Value}
    (ha : ∀ a ∈ args, s.Knows m a) (frame frame' : FrameRef) :
    Echoes m (Renamed m) s (apply room ev f args frame s)
      (apply room ev (f.rename m.names) (args.map (Value.rename m.names)) frame' s') := by
  have hreport := Echoes.of_report (R := Renamed m) hm hf room .notApplicable
  cases f with
  | closure r => exact echoes_callClosure hev hm room hf ha
  | primitive p serial => exact echoes_primitive hm ha room p
  | hook h => exact absurd rfl (hf.admits h)
  | _ => exact hreport

theorem echoes_call (hf : s.Located m frame) {head : Value} (hh : s.Code m head)
    {xs : List Value} (hx : ∀ x ∈ xs, s.Code m x) :
    Echoes m (Renamed m) s (call room ev frame head xs s)
      (call room ev (m.names.frame frame) (head.rename m.names) (xs.map (Value.rename m.names))
        s') := by
  refine (echoes_part hev hm hf .head hh .refl hm).bind fun f f' t t' h hm' ⟨hrename, hknows⟩ => ?_
  subst hrename
  rw [Value.isFunction_rename]
  by_cases hfun : f.isFunction = true
  · simp only [hfun, Bool.not_true, Bool.false_eq_true, if_false]
    refine (Echoes.mapM hm' fun x hmem t₁ t₁' h₁ hm₁ =>
      echoes_part hev hm hf .operand (hx x hmem) (h.trans h₁) hm₁).bind
        fun args args' t₂ t₂' h₂ hm₂ ⟨hargs, ha⟩ => ?_
    subst hargs
    exact echoes_apply hev hm₂ room (hknows.evolves h₂) ha frame _
  · simp only [hfun, Bool.not_false, if_true]
    refine (Echoes.of_same hm' (hm'.printWithin room hknows)).bind
      fun text text' t₂ t₂' _ hm₂ htext => ?_
    subst htext
    exact .error .refl hm₂

theorem echoes_step (hf : s.Located m frame) {e : Value} (he : s.Code m e) :
    Echoes m (Renamed m) s (step room ev e frame s)
      (step room ev (e.rename m.names) (m.names.frame frame) s') := by
  have hreport := Echoes.of_report (R := Renamed m) hm he.knows room .malformedForm
  cases e with
  | symbol name =>
    obtain ⟨hlookup, hknows⟩ := hm.lookup he.shown hf
    have hrun : Echoes m (Renamed m) s (check (·.lookup frame name) s)
        (check (·.lookup (m.names.frame frame) name) s') :=
      .of_check hm hlookup fun v hv => ⟨rfl, hknows v hv⟩
    exact hrun
  | cell r =>
    obtain ⟨items, last, hl⟩ := hm.ready.chainsEnd r he.knows.admits
    have hl' : s'.Chain (.cell (m.names.cell r)) (items.map (Value.rename m.names))
        (last.rename m.names) := (hm.chain hl he.knows).1
    by_cases hlast : last = .nil
    · subst hlast
      obtain ⟨head, xs, rfl⟩ : ∃ head xs, items = head :: xs := by
        cases hl with
        | link _ _ => exact ⟨_, _, rfl⟩
      obtain ⟨hx, hhead⟩ := hm.parts he hl
      -- The head of a call is code too, but that of a special form need not be.
      cases hform : specialForm? head with
      | some form =>
        obtain rfl := eq_name_of_specialForm? hform
        rw [Value.rename, step_special room ev hl, step_special room ev hl']
        exact echoes_special hev hm hf room form hx
      | none =>
        have hh : ∀ form : SpecialForm, head ≠ .symbol form.name := by
          intro form h
          subst h
          cases form <;> cases hform
        rw [Value.rename, step_call room ev hl hh,
          step_call room ev hl' fun form => mt Value.rename_eq_symbol_iff.1 (hh form)]
        exact echoes_call hev hm room hf (hhead hform) hx
    · rw [step_malformed room ev hl hlast, Value.rename,
        step_malformed room ev hl' (mt Value.rename_eq_nil_iff.1 hlast)]
      exact hreport
  | _ => exact .of_pure hm ⟨rfl, he.knows⟩

end

theorem echoes_evalBelow (m : Matching) (room : Nat) : ∀ gap : Nat,
    EvaluatorEchoes m fun _ => evalBelow room gap := by
  induction room with
  | zero => exact fun _ _ _ _ _ _ hm _ _ => .error .refl hm
  | succ room ih =>
    intro gap
    cases gap with
    | zero =>
      have hparts : EvaluatorEchoes m fun part => evalBelow room part.gap :=
        fun part e frame s s' hm he hf => ih part.gap part e frame s s' hm he hf
      exact fun _ _ _ _ _ hm he hf => echoes_step hparts hm room hf he
    | succ gap => exact ih gap

end Eval

theorem echoes_eval (limit : Nat) (hm : s.Matches m s') {e : Value} (he : s.Code m e)
    {frame : FrameRef} (hf : s.Located m frame) :
    Echoes m (Renamed m) s (eval limit e frame s)
      (eval limit (e.rename m.names) (m.names.frame frame) s') :=
  Eval.echoes_evalBelow m limit 0 .inner e frame s s' hm he hf

theorem echoes_applyFunction (limit : Nat) (hm : s.Matches m s') {f : Value} (hf : s.Knows m f)
    {args : List Value} (ha : ∀ a ∈ args, s.Knows m a) (frame frame' : FrameRef) :
    Echoes m (Renamed m) s (applyFunction limit f args frame s)
      (applyFunction limit (f.rename m.names) (args.map (Value.rename m.names)) frame' s') :=
  Eval.echoes_apply (fun part e frame s s' hm he hf =>
    Eval.echoes_evalBelow m limit part.gap part e frame s s' hm he hf) hm limit hf ha frame frame'

end MiniLisp
