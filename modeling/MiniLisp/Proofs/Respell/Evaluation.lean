import MiniLisp.Proofs.Respell.Together

/-!
Evaluation of code that is spelled in two ways goes together (`together_evalBelow`).  A function that
is spelled out takes a `lambda` two levels further down, and code takes up to twice the depth to
print, so the second run has that much more.
-/
set_option autoImplicit false

namespace MiniLisp

open Store MiniLisp.Action

namespace Store

variable {s s' : Store} {v v' : Value}

theorem Unfolds.eq_symbol_iff {d : Datum} (h : s.Unfolds v d) (name : String) :
    v = .symbol name ↔ d = .symbol name := by
  cases h <;> simp

theorem Unfolds.lists {ds : List Datum} (h : s.Unfolds v (.list ds .nil)) :
    ∃ vs, s.Lists v vs ∧ List.Forall₂ s.Unfolds vs ds := by
  induction ds generalizing v with
  | nil =>
    cases h
    exact ⟨[], .stop (by simp), .nil⟩
  | cons d ds ih =>
    cases h with
    | cell hc ha hd =>
      obtain ⟨vs, hl, hvs⟩ := ih hd
      exact ⟨_, .link hc hl, .cons ha hvs⟩

theorem Unfolds.lambda {parameters body : Datum} (h : s.Unfolds v (.lambda parameters body)) :
    ∃ p b, s.Lists v [.symbol SpecialForm.lambda.name, p, b] ∧ s.Unfolds p parameters ∧ s.Unfolds b body := by
  obtain ⟨vs, hl, hvs⟩ := h.lists
  rcases hvs with _ | ⟨hform, _ | ⟨hp, _ | ⟨hb, _ | _⟩⟩⟩
  cases hform
  exact ⟨_, _, hl, hp, hb⟩

theorem Unfolds.define {name x : Datum} (h : s.Unfolds v (.define name x)) :
    ∃ n y, s.Lists v [.symbol SpecialForm.define.name, n, y] ∧ s.Unfolds n name ∧ s.Unfolds y x := by
  obtain ⟨vs, hl, hvs⟩ := h.lists
  rcases hvs with _ | ⟨hform, _ | ⟨hn, _ | ⟨hy, _ | _⟩⟩⟩
  cases hform
  exact ⟨_, _, hl, hn, hy⟩

theorem Unfolds.defun {name parameters body : Datum}
    (h : s.Unfolds v (.defun name parameters body)) :
    ∃ n p b, s.Lists v [.symbol SpecialForm.defun.name, n, p, b] ∧ s.Unfolds n name ∧ s.Unfolds p parameters ∧
      s.Unfolds b body := by
  obtain ⟨vs, hl, hvs⟩ := h.lists
  rcases hvs with _ | ⟨hform, _ | ⟨hn, _ | ⟨hp, _ | ⟨hb, _ | _⟩⟩⟩⟩
  cases hform
  exact ⟨_, _, _, hl, hn, hp, hb⟩

def ChainsPair (s s' : Store) (R : Value → Value → Prop) (v v' : Value) : Prop :=
  ∃ items last items' last', s.Chain v items last ∧ s'.Chain v' items' last' ∧
    List.Forall₂ R items items' ∧ (last = .nil ↔ last' = .nil)

theorem chainsPair_of_atom {R : Value → Value → Prop} {d : Datum} (hd : ∀ a b, d ≠ .cons a b)
    (h : s.Unfolds v d) (h' : s'.Unfolds v' d) : s.ChainsPair s' R v v' := by
  cases h with
  | cell => exact absurd rfl (hd _ _)
  | _ =>
    cases h'
    exact ⟨[], _, [], _, .stop (by simp), .stop (by simp), .nil, Iff.rfl⟩

theorem chainsPair_twin {d : Datum} (h : s.Unfolds v d) (h' : s'.Unfolds v' d) :
    s.ChainsPair s' (s.Twin s') v v' := by
  induction d generalizing v v' with
  | cons a d _ ihd =>
    cases h with
    | cell hc ha hd =>
      cases h' with
      | cell hc' ha' hd' =>
        obtain ⟨items, last, items', last', hl, hl', hitems, hend⟩ := ihd hd hd'
        exact ⟨_, last, _, last', .link hc hl, .link hc' hl', .cons ⟨a, ha, ha'⟩ hitems, hend⟩
  | _ => exact chainsPair_of_atom (by simp) h h'

theorem chainsPair_respelled {d d' : Datum} (hd : d.Respells true d') (h : s.Unfolds v d)
    (h' : s'.Unfolds v' d') : s.ChainsPair s' (s.Respelled s') v v' := by
  generalize hinside : true = inside at hd
  induction hd generalizing v v' with
  | atom hatom => exact chainsPair_of_atom hatom h h'
  | item ha _ _ ihd =>
    cases h with
    | cell hc hva hvd =>
      cases h' with
      | cell hc' hva' hvd' =>
        obtain ⟨items, last, items', last', hl, hl', hitems, hend⟩ := ihd hvd hvd' rfl
        exact ⟨_, last, _, last', .link hc hl, .link hc' hl', .cons ⟨_, _, hva, hva', ha⟩ hitems,
          hend⟩
  | _ => cases hinside

end Store

namespace Eval

def EvaluatorsTogether (base : FrameRef) (ev ev' : Evaluator) : Prop :=
  ∀ (part : Part) (v v' : Value) (frame : FrameRef) (s s' : Store), s.Parallel base s' →
    base ≤ frame → s.Respelled s' v v' →
    Together base (Counterpart base) s s' (ev part v frame s) (ev' part v' frame s')

section

variable {base : FrameRef} {s s' : Store} (hp : s.Parallel base s') (frame : FrameRef)

include hp

theorem together_define (name : String) {v v' : Value} (hv : s.Counterpart base s' v v')
    (event event' : Event) :
    Together base (Counterpart base) s s'
      ((do
        update (·.define frame name v)
        update (·.record event)
        return .symbol name : Action Value) s)
      ((do
        update (·.define frame name v')
        update (·.record event')
        return .symbol name : Action Value) s') := by
  have hrecord := retains_record (s.define frame name v) event
  have hrecord' := retains_record (s'.define frame name v') event'
  exact .ok ((retains_define s frame name v).trans hrecord)
    ((retains_define s' frame name v').trans hrecord')
    ((hp.define frame name hv).mono hrecord hrecord' rfl rfl) (.symbol name)

theorem together_closure {frame : FrameRef} (hframe : base ≤ frame)
    {parameters parameters' body body' : Value} (hps : s.Twin s' parameters parameters')
    (hb : s.Respelled s' body body') :
    Together base (Counterpart base) s s' (closure parameters body frame s)
      (closure parameters' body' frame s') := by
  obtain ⟨p, hvp, hvp'⟩ := hps
  obtain ⟨b, b', hvb, hvb', hbody⟩ := hb
  have hadd := retains_addClosure s ⟨parameters, body, frame⟩
  have hadd' := retains_addClosure s' ⟨parameters', body', frame⟩
  have hrecord := retains_record (s.addClosure ⟨parameters, body, frame⟩).2
    (.closureCreated s.closures.size)
  have hrecord' := retains_record (s'.addClosure ⟨parameters', body', frame⟩).2
    (.closureCreated s'.closures.size)
  have hv := stands_addClosure (c := ⟨parameters, body, frame⟩) hvp.stands hvb.stands
  have hv' := stands_addClosure (c := ⟨parameters', body', frame⟩) hvp'.stands hvb'.stands
  exact .ok (hadd.trans hrecord) (hadd'.trans hrecord')
    (hp.mono (hadd.trans hrecord) (hadd'.trans hrecord') rfl rfl)
    ⟨_, _, hv.mono hrecord, hv'.mono hrecord', .closure hframe hbody⟩

variable (hframe : base ≤ frame) {room room' : Nat} {ev ev' : Evaluator}

include hframe

theorem together_defun {name name' parameters parameters' body body' : Value}
    (hn : s.Twin s' name name') (hps : s.Twin s' parameters parameters')
    (hb : s.Respelled s' body body') :
    Together base (Counterpart base) s s'
      (special room ev frame .defun [name, parameters, body] s)
      (special room' ev' frame .defun [name', parameters', body'] s') := by
  obtain ⟨d, hvn, hvn'⟩ := hn
  cases hvn with
  | symbol n =>
    cases hvn'
    exact (together_closure hp hframe hps hb).bind fun _ _ _ _ _ _ hp hv =>
      together_define hp frame n hv _ _
  | _ =>
    cases hvn'
    exact .of_throw hp _

variable (hev : EvaluatorsTogether base ev ev')

include hev

theorem together_defineForm {name name' x x' : Value} (hn : s.Twin s' name name')
    (hx : s.Respelled s' x x') :
    Together base (Counterpart base) s s' (special room ev frame .define [name, x] s)
      (special room' ev' frame .define [name', x'] s') := by
  obtain ⟨d, hvn, hvn'⟩ := hn
  cases hvn with
  | symbol n =>
    cases hvn'
    exact (hev .inner _ _ frame s s' hp hframe hx).bind fun _ _ _ _ _ _ hp hv =>
      together_define hp frame n hv _ _
  | _ =>
    cases hvn'
    exact .of_throw hp _

section

variable {xs xs' : List Value} (hx : List.Forall₂ (s.Respelled s') xs xs')

include hx

theorem together_conditional : Together base (Counterpart base) s s'
    (special room ev frame .conditional xs s) (special room' ev' frame .conditional xs' s') := by
  rcases hx with _ | ⟨htest, _ | ⟨hyes, _ | ⟨hno, _ | _⟩⟩⟩
  · exact .of_throw hp _
  · exact .of_throw hp _
  · exact .of_throw hp _
  · refine (hev .inner _ _ frame s s' hp hframe htest).bind fun v v' t t' hk hk' hp hv => ?_
    by_cases hnil : v = .nil
    · rw [if_neg (not_not.2 hnil), if_neg (not_not.2 (hv.eq_nil_iff.1 hnil))]
      exact hev .inner _ _ frame t t' hp hframe (hno.mono hk hk')
    · rw [if_pos hnil, if_pos (mt hv.eq_nil_iff.2 hnil)]
      exact hev .inner _ _ frame t t' hp hframe (hyes.mono hk hk')
  · exact .of_throw hp _

theorem together_begin : Together base (Counterpart base) s s'
    (special room ev frame .begin xs s) (special room' ev' frame .begin xs' s') :=
  .foldlM (fun v v' s s' hp hv => hev .inner v v' frame s s' hp hframe hv) hp hx .nil

variable (hroom : room ≤ room')

include hroom

theorem together_function : Together base (Counterpart base) s s'
    (special room ev frame .function xs s) (special room' ev' frame .function xs' s') := by
  rcases hx with _ | ⟨hx, _ | _⟩
  · exact .of_throw hp _
  · refine (hev .inner _ _ frame s s' hp hframe hx).bind fun v v' t t' _ _ hp hv => ?_
    rw [hv.isFunction_eq]
    by_cases hf : v'.isFunction = true
    · rw [if_pos hf, if_pos hf]
      exact .of_pure hp hv
    · rw [if_neg hf, if_neg hf]
      exact .of_report hroom hp hv .notFunction
  · exact .of_throw hp _

end

theorem together_kept (hroom : room ≤ room') {xs xs' : List Value}
    (hx : List.Forall₂ (s.Twin s') xs xs') (form : SpecialForm) :
    Together base (Counterpart base) s s' (special room ev frame form xs s)
      (special room' ev' frame form xs' s') := by
  have hcode : List.Forall₂ (s.Respelled s') xs xs' := hx.imp fun _ _ h => h.respelled
  cases form with
  | conditional => exact together_conditional hp frame hframe hev hcode
  | begin => exact together_begin hp frame hframe hev hcode
  | function => exact together_function hp frame hframe hev hcode hroom
  | quote =>
    rcases hx with _ | ⟨h, _ | _⟩
    · exact .of_throw hp _
    · exact .of_pure hp h.counterpart
    · exact .of_throw hp _
  | lambda =>
    rcases hx with _ | ⟨hps, _ | ⟨hb, _ | _⟩⟩
    · exact .of_throw hp _
    · exact .of_throw hp _
    · exact together_closure hp hframe hps hb.respelled
    · exact .of_throw hp _
  | define =>
    rcases hx with _ | ⟨⟨d, hn, hn'⟩, _ | ⟨hx, _ | _⟩⟩
    · exact .of_throw hp _
    · cases hn <;> cases hn' <;> exact .of_throw hp _
    · exact together_defineForm hp frame hframe hev ⟨d, hn, hn'⟩ hx.respelled
    · cases hn <;> cases hn' <;> exact .of_throw hp _
  | defun =>
    rcases hx with _ | ⟨⟨d, hn, hn'⟩, _ | ⟨hps, _ | ⟨hb, _ | _⟩⟩⟩
    · exact .of_throw hp _
    · cases hn <;> cases hn' <;> exact .of_throw hp _
    · cases hn <;> cases hn' <;> exact .of_throw hp _
    · exact together_defun hp frame hframe ⟨d, hn, hn'⟩ hps hb.respelled
    · cases hn <;> cases hn' <;> exact .of_throw hp _

variable (hroom : room ≤ room')

include hroom

omit hframe in
theorem together_apply {f f' : Value} (hf : s.Counterpart base s' f f') {args args' : List Value}
    (ha : List.Forall₂ (s.Counterpart base s') args args') :
    Together base (Counterpart base) s s' (apply room ev f args frame s)
      (apply room' ev' f' args' frame s') := by
  have hreport := Together.of_report (R := Counterpart base) hroom hp hf .notApplicable
  cases hf.facing with
  | primitive p _ _ => exact together_primitive hroom hp ha p
  | @closure r r' c c' hc hc' hps hb hscope hbase =>
    have hcallFrame := endsKin_callFrame hroom hps.counterpart hscope hbase ha
    change Together base (Counterpart base) s s' (callClosure room ev r args s)
      (callClosure room' ev' r' args' s')
    generalize hx : s.callFrame room c args = x at hcallFrame
    generalize hy : s'.callFrame room' c' args' = y at hcallFrame
    cases hcallFrame with
    | excused he =>
      subst he
      rw [callClosure_error hc hx]
      exact .deep
    | error he =>
      subst he
      rw [callClosure_error hc hx, callClosure_error hc' hy]
      exact .of_throw hp _
    | @ok f f' hff =>
      rw [callClosure_ok hc hx, callClosure_ok hc' hy, ← hp.size]
      have hk := (retains_addFrame s f).trans
        (retains_record (s.addFrame f).2 (.called r args.length))
      have hk' := (retains_addFrame s' f').trans
        (retains_record (s'.addFrame f').2 (.called r' args'.length))
      have hnew := (hp.addFrame hff).mono (retains_record _ (.called r args.length))
        (retains_record _ (.called r' args'.length)) rfl rfl
      exact (hev .body _ _ _ _ _ hnew (Nat.le_of_lt hp.low) (hb.mono hk hk')).of_keeps hk hk'
  | _ => exact hreport

theorem together_call {head head' : Value} (hh : s.Respelled s' head head') {xs xs' : List Value}
    (hx : List.Forall₂ (s.Respelled s') xs xs') :
    Together base (Counterpart base) s s' (call room ev frame head xs s)
      (call room' ev' frame head' xs' s') := by
  refine (hev .head _ _ frame s s' hp hframe hh).bind fun f f' t t' hk hk' hp hf => ?_
  rw [hf.isFunction_eq]
  by_cases hfun : f'.isFunction = true
  · simp only [hfun, Bool.not_true, Bool.false_eq_true, if_false]
    refine (Together.mapM (fun v v' s s' hp hv => hev .operand v v' frame s s' hp hframe hv) hp
      (hx.imp fun _ _ h => h.mono hk hk')).bind fun args args' u u' hk hk' hp ha => ?_
    exact together_apply hp frame hev hroom (hf.mono hk hk') ha
  · simp only [hfun, Bool.not_false, if_true]
    refine (Together.of_print hroom hp hf).bind fun text text' u u' _ _ hp heq => ?_
    subst heq
    exact .error (.refl u) (.refl u') hp rfl

end

section

variable {s : Store} {frame : FrameRef} {e parameters body : Value}
  (hl : s.Lists e [.symbol SpecialForm.lambda.name, parameters, body])

include hl

theorem within_lambda {room : Nat} (hroom : 2 ≤ room) :
    within room .inner e frame s = closure parameters body frame s := by
  obtain ⟨n, rfl⟩ := Nat.exists_eq_add_of_le' hroom
  exact step_special n (within n) hl

theorem within_lambda_or_deep (frame : FrameRef) (room : Nat) :
    within room .inner e frame s = .error .recursionTooDeep s ∨
      within room .inner e frame s = closure parameters body frame s := by
  rcases Nat.lt_or_ge room 2 with hroom | hroom
  · left
    rcases Nat.le_one_iff_eq_zero_or_eq_one.1 (Nat.le_of_lt_succ hroom) with rfl | rfl <;> rfl
  · exact .inr (within_lambda hl hroom)

end

section

variable {base : FrameRef} {s s' : Store} (hp : s.Parallel base s') {frame : FrameRef}
  {room room' : Nat} {ev ev' : Evaluator} {d d' : Datum} {e e' : Value}

include hp

/-- What is no form is refused together, although it may print in two ways. -/
theorem together_malformed (hroom : 2 * room ≤ room') (hd : d.Respells false d')
    (he : s.Unfolds e d) (he' : s'.Unfolds e' d') :
    Together base (Counterpart base) s s'
      ((do throw (.malformedForm (← check (·.printWithin room e))) : Action Value) s)
      ((do throw (.malformedForm (← check (·.printWithin room' e'))) : Action Value) s') := by
  have hprint : Together base (fun _ _ _ _ => True) s s' (check (·.printWithin room e) s)
      (check (·.printWithin room' e') s') := by
    refine .of_check hp ?_
    have hdepth := hd.depth_le.2
    rw [he.stands.printWithin_eq, he'.stands.printWithin_eq, Tree.printWithin, Tree.printWithin]
    by_cases hfits : (Tree.ofDatum d).depth < room
    · rw [if_pos hfits, if_pos (by omega)]
      exact .ok trivial
    · rw [if_neg hfits]
      exact .deep
  exact hprint.bind fun text text' t t' _ _ hp _ => .error (.refl t) (.refl t') hp rfl

theorem together_form {R : Value → Value → Prop} {head head' rest rest' : Datum}
    (hroom : 2 * room ≤ room') (hd : Datum.Respells false (.cons head rest) (.cons head' rest'))
    (he : s.Unfolds e (.cons head rest)) (he' : s'.Unfolds e' (.cons head' rest'))
    (hrest : ∀ v v', s.Unfolds v rest → s'.Unfolds v' rest' → s.ChainsPair s' R v v')
    (hform : ∀ h h' xs xs', s.Unfolds h head → s'.Unfolds h' head' → s.Lists e (h :: xs) →
      s'.Lists e' (h' :: xs') → List.Forall₂ R xs xs' →
      Together base (Counterpart base) s s' (step room ev e frame s)
        (step room' ev' e' frame s')) :
    Together base (Counterpart base) s s' (step room ev e frame s)
      (step room' ev' e' frame s') := by
  have hmalformed := together_malformed hp hroom hd he he'
  cases he with
  | cell hc hh ht =>
    cases he' with
    | cell hc' hh' ht' =>
      obtain ⟨xs, last, xs', last', hchain, hchain', hxs, hlast⟩ := hrest _ _ ht ht'
      by_cases hl : last = .nil
      · obtain rfl := hl
        obtain rfl := hlast.1 rfl
        exact hform _ _ xs xs' hh hh' (.link hc hchain) (.link hc' hchain') hxs
      · rw [step_malformed room ev (.link hc hchain) hl,
          step_malformed room' ev' (.link hc' hchain') (mt hlast.2 hl)]
        exact hmalformed

section

variable {name : String} {parameters body body' : Datum} (hframe : base ≤ frame)
  (hbody : body.Respells false body')

include hframe hbody

/-- The second side makes the function in a step of its own, for which it has the depth. -/
theorem together_spelledOut (hdeep : 2 ≤ room')
    (he : s.Unfolds e (.defun (.symbol name) parameters body))
    (he' : s'.Unfolds e' (.define (.symbol name) (.lambda parameters body'))) :
    Together base (Counterpart base) s s' (step room ev e frame s)
      (step room' (within room') e' frame s') := by
  obtain ⟨_, _, _, hl, hn, hps, hb⟩ := he.defun
  obtain ⟨_, _, hl', hn', hmake⟩ := he'.define
  obtain ⟨_, _, hmade, hps', hb'⟩ := hmake.lambda
  cases hn
  cases hn'
  rw [step_special room _ hl, step_special room' _ hl']
  have hclosure := together_closure hp hframe ⟨_, hps, hps'⟩ ⟨_, _, hb, hb', hbody⟩
  rw [← within_lambda hmade hdeep] at hclosure
  exact hclosure.bind fun _ _ _ _ _ _ hp hv => together_define hp frame name hv _ _

/-- The first side makes the function in a step of its own, unless there is no depth for that. -/
theorem together_shortened (he : s.Unfolds e (.define (.symbol name) (.lambda parameters body)))
    (he' : s'.Unfolds e' (.defun (.symbol name) parameters body')) :
    Together base (Counterpart base) s s' (step room (within room) e frame s)
      (step room' ev' e' frame s') := by
  obtain ⟨_, x, hl, hn, hmake⟩ := he.define
  obtain ⟨_, _, _, hl', hn', hps', hb'⟩ := he'.defun
  obtain ⟨_, _, hmade, hps, hb⟩ := hmake.lambda
  cases hn
  cases hn'
  rw [step_special room _ hl, step_special room' _ hl']
  have hclosure := together_closure hp hframe ⟨_, hps, hps'⟩ ⟨_, _, hb, hb', hbody⟩
  rcases within_lambda_or_deep hmade frame room with hdeep | hmake
  · have hfail : special room (within room) frame .define [.symbol name, x] s =
        .error .recursionTooDeep s := bind_error hdeep
    rw [hfail]
    exact .deep
  · rw [← hmake] at hclosure
    exact hclosure.bind fun _ _ _ _ _ _ hp hv => together_define hp frame name hv _ _

end

/-- One step of evaluation, with enough depth on the second side to make a function that is spelled
out and to print what is refused. -/
theorem together_step (hframe : base ≤ frame) (hdeep : 2 ≤ room') (hroom : 2 * room ≤ room')
    (hev : EvaluatorsTogether base (within room) (within room')) (h : s.Respelled s' e e') :
    Together base (Counterpart base) s s' (step room (within room) e frame s)
      (step room' (within room') e' frame s') := by
  have hle : room ≤ room' := by omega
  obtain ⟨d, d', he, he', hd⟩ := h
  cases hd with
  | atom hatom =>
    cases he with
    | cell => exact absurd rfl (hatom _ _)
    | symbol name =>
      cases he'
      have hlookup : Together base (Counterpart base) s s' (check (·.lookup frame name) s)
          (check (·.lookup frame name) s') := .of_check hp (hp.lookup hframe name)
      exact hlookup
    | nil =>
      cases he'
      exact .of_pure hp .nil
    | number x =>
      cases he'
      exact .of_pure hp (.number x)
  | @kept form rest =>
    refine together_form hp hroom .kept he he' (fun v v' => chainsPair_twin)
      fun h h' xs xs' hh hh' hl hl' hxs => ?_
    cases hh
    cases hh'
    rw [step_special room _ hl, step_special room' _ hl']
    exact together_kept hp frame hframe hev hle hxs form
  | @evaluated form rest rest' hform hrest =>
    refine together_form hp hroom (.evaluated hform hrest) he he'
      (fun v v' => chainsPair_respelled hrest) fun h h' xs xs' hh hh' hl hl' hxs => ?_
    cases hh
    cases hh'
    rw [step_special room _ hl, step_special room' _ hl']
    rcases hform with rfl | rfl | rfl
    · exact together_conditional hp frame hframe hev hxs
    · exact together_begin hp frame hframe hev hxs
    · exact together_function hp frame hframe hev hxs hle
  | @call head head' rest rest' hnone hhead hrest =>
    refine together_form hp hroom (.call hnone hhead hrest) he he'
      (fun v v' => chainsPair_respelled hrest) fun h h' xs xs' hh hh' hl hl' hxs => ?_
    have hcall : ∀ form : SpecialForm, h ≠ .symbol form.name :=
      fun form heq => hnone form ((hh.eq_symbol_iff _).1 heq)
    have hcall' : ∀ form : SpecialForm, h' ≠ .symbol form.name := fun form heq =>
      hnone form (((hh'.eq_symbol_iff _).1 heq ▸ hhead).eq_symbol)
    rw [step_call room _ hl hcall, step_call room' _ hl' hcall']
    exact together_call hp frame hframe hev hle ⟨_, _, hh, hh', hhead⟩ hxs
  | lambda hbody =>
    obtain ⟨_, _, hl, hps, hb⟩ := he.lambda
    obtain ⟨_, _, hl', hps', hb'⟩ := he'.lambda
    rw [step_special room _ hl, step_special room' _ hl']
    exact together_closure hp hframe ⟨_, hps, hps'⟩ ⟨_, _, hb, hb', hbody⟩
  | define hx =>
    obtain ⟨_, _, hl, hn, hv⟩ := he.define
    obtain ⟨_, _, hl', hn', hv'⟩ := he'.define
    rw [step_special room _ hl, step_special room' _ hl']
    exact together_defineForm hp frame hframe hev ⟨_, hn, hn'⟩ ⟨_, _, hv, hv', hx⟩
  | defun hbody =>
    obtain ⟨_, _, _, hl, hn, hps, hb⟩ := he.defun
    obtain ⟨_, _, _, hl', hn', hps', hb'⟩ := he'.defun
    rw [step_special room _ hl, step_special room' _ hl']
    exact together_defun hp frame hframe ⟨_, hn, hn'⟩ ⟨_, hps, hps'⟩ ⟨_, _, hb, hb', hbody⟩
  | spelledOut hbody => exact together_spelledOut hp hframe hbody hdeep he he'
  | shortened hbody => exact together_shortened hp hframe hbody he he'

end

theorem together_evalBelow (base : FrameRef) {room room' : Nat} (hroom : 2 * room + 2 ≤ room')
    (gap : Nat) :
    EvaluatorsTogether base (fun _ => evalBelow room gap) fun _ => evalBelow room' gap := by
  induction room generalizing room' gap with
  | zero => exact fun _ _ _ _ _ _ _ _ _ => .deep
  | succ room ih =>
    obtain ⟨n, rfl⟩ := Nat.exists_eq_add_of_le' (Nat.le_of_add_left_le hroom)
    have hn : 2 * room + 2 ≤ n + 1 := by omega
    cases gap with
    | succ gap => exact ih hn gap
    | zero =>
      have hparts : EvaluatorsTogether base (within room) (within (n + 1)) :=
        fun part v v' frame s s' hp hframe hv => ih hn part.gap part v v' frame s s' hp hframe hv
      exact fun _ v v' frame s s' hp hframe hv =>
        together_step hp hframe (by omega) (by omega) hparts hv

end Eval

end MiniLisp
