import MiniLisp.Proofs.Eval.Adequacy
import MiniLisp.Proofs.Integer.Lockstep

/-!
A host's integers pass for numbers in evaluation: an expression and the one with numbers in their
place have values, or errors, and bindings that print the same (`integers_pass_for_numbers`).  Each
is evaluated as the widened one is in the widened store (`widens_evalBelow`), and that is the same
for both.
-/
set_option autoImplicit false

namespace MiniLisp

open Store MiniLisp.Action

namespace Eval

def EvaluatorWidens (ev : Evaluator) : Prop :=
  ∀ (part : Part) (e : Value) (frame : FrameRef) (s : Store),
    Widens Value.widen (ev part e frame s) (ev part e.widen frame s.widen)

variable {s : Store} {ev : Evaluator}

theorem widens_closure (parameters body : Value) (frame : FrameRef) :
    Widens Value.widen (closure parameters body frame s)
      (closure parameters.widen body.widen frame s.widen) := by
  have hadd : Widens id (ofStore (·.addClosure ⟨parameters, body, frame⟩) s)
      (ofStore (·.addClosure ⟨parameters.widen, body.widen, frame⟩) s.widen) :=
    .of_store (s.widen_addClosure ⟨parameters, body, frame⟩)
  refine hadd.bind fun r t => ?_
  exact (Widens.of_update (t.widen_record (.closureCreated r))).bind fun _ t =>
    .ok (Value.closure r) t

theorem widens_define (frame : FrameRef) (name : String) (v : Value) (event : Event) :
    Widens Value.widen ((do
      update (·.define frame name v)
      update (·.record event)
      return .symbol name : Action Value) s) ((do
      update (·.define frame name v.widen)
      update (·.record event)
      return .symbol name : Action Value) s.widen) :=
  (Widens.of_update (s.widen_define v frame name)).bind fun _ t =>
    (Widens.of_update (t.widen_record event)).bind fun _ t => .ok (Value.symbol name) t

section

variable (hev : EvaluatorWidens ev) (room : Nat) (frame : FrameRef)

include hev

theorem widens_conditional (test yes no : Value) :
    Widens Value.widen (special room ev frame .conditional [test, yes, no] s)
      (special room ev frame .conditional [test.widen, yes.widen, no.widen] s.widen) := by
  refine (hev .inner test frame s).bind fun v t => ?_
  by_cases hnil : v = .nil
  · rw [if_neg (not_not.2 hnil), if_neg (not_not.2 (Value.widen_eq_nil_iff.2 hnil))]
    exact hev .inner no frame t
  · rw [if_pos hnil, if_pos (mt Value.widen_eq_nil_iff.1 hnil)]
    exact hev .inner yes frame t

theorem widens_function (x : Value) :
    Widens Value.widen (special room ev frame .function [x] s)
      (special room ev frame .function [x.widen] s.widen) := by
  refine (hev .inner x frame s).bind fun v t => ?_
  rw [Value.isFunction_widen]
  split
  · exact .ok v t
  · exact .of_report room v .notFunction

theorem widens_special (form : SpecialForm) (xs : List Value) :
    Widens Value.widen (special room ev frame form xs s)
      (special room ev frame form (xs.map Value.widen) s.widen) := by
  rcases misshapen_or form xs with ⟨err, hshape⟩ | hshape
  · have hshape' := hshape.map fun _ _ => Value.widen_eq_symbol_iff
    rw [special_misshapen hshape, special_misshapen hshape']
    exact .error s rfl
  · cases form with
    | quote =>
      obtain ⟨x, rfl⟩ := hshape
      exact .ok x s
    | conditional =>
      obtain ⟨test, yes, no, rfl⟩ := hshape
      exact widens_conditional hev room frame test yes no
    | define =>
      obtain ⟨name, x, rfl⟩ := hshape
      exact (hev .inner x frame s).bind fun v t => widens_define frame name v (.defined name)
    | lambda =>
      obtain ⟨parameters, body, rfl⟩ := hshape
      exact widens_closure parameters body frame
    | defun =>
      obtain ⟨name, parameters, body, rfl⟩ := hshape
      exact (widens_closure parameters body frame).bind fun v t =>
        widens_define frame name v (.functionDefined name)
    | begin => exact .foldlM (fun x t => hev .inner x frame t) xs .nil
    | function =>
      obtain ⟨x, rfl⟩ := hshape
      exact widens_function hev room frame x

theorem widens_callClosure (r : ClosureRef) (args : List Value) :
    Widens Value.widen (callClosure room ev r args s)
      (callClosure room ev r (args.map Value.widen) s.widen) := by
  cases hc : s.closures[r]? with
  | none =>
    have hc' : s.widen.closures[r]? = none := by rw [closure_widen, hc, Option.map_none]
    rw [callClosure_none hc, callClosure_none hc']
    exact .ok Value.nil s
  | some c =>
    have hc' : s.widen.closures[r]? = some c.widen := by rw [closure_widen, hc, Option.map_some]
    rw [callClosure_eq hc, callClosure_eq hc', List.length_map]
    have hframe : Widens id (extend room c args s)
        (extend room c.widen (args.map Value.widen) s.widen) :=
      (Widens.of_check (s.endsWidened_callFrame room c args)).bind fun f t =>
        .of_store (t.widen_addFrame f)
    refine hframe.bind fun frame t => ?_
    exact (Widens.of_update (t.widen_record _)).bind fun _ t => hev .body c.body frame t

theorem widens_apply (f : Value) (args : List Value) :
    Widens Value.widen (apply room ev f args frame s)
      (apply room ev f.widen (args.map Value.widen) frame s.widen) := by
  have hreport := Widens.of_report (f := Value.widen) (s := s) room f .notApplicable
  rcases f.widen_cases with hf | ⟨i, x, _, rfl, hf⟩
  · rw [hf] at hreport ⊢
    cases f with
    | closure r => exact widens_callClosure hev room r args
    | primitive p serial => exact widens_primitive room p args
    | hook h => exact widens_hook room frame h args
    | _ => exact hreport
  · rw [hf] at hreport ⊢
    exact hreport

theorem widens_call (head : Value) (xs : List Value) :
    Widens Value.widen (call room ev frame head xs s)
      (call room ev frame head.widen (xs.map Value.widen) s.widen) := by
  refine (hev .head head frame s).bind fun f t => ?_
  rw [Value.isFunction_widen]
  by_cases hfun : f.isFunction = true
  · simp only [hfun, Bool.not_true, Bool.false_eq_true, if_false]
    exact (Widens.mapM (fun x t => hev .operand x frame t) xs).bind fun args t =>
      widens_apply hev room frame f args
  · simp only [hfun, Bool.not_false, if_true]
    exact (Widens.of_same (t.printWithin_widen room f)).bind fun text t => .error t rfl

theorem widens_step (e : Value) :
    Widens Value.widen (step room ev e frame s) (step room ev e.widen frame s.widen) := by
  have hatom := Widens.ok (f := Value.widen) e s
  rcases e.widen_cases with he | ⟨i, x, _, rfl, he⟩
  · rw [he]
    cases e with
    | symbol name =>
      have hlookup : Widens Value.widen (check (·.lookup frame name) s)
          (check (·.lookup frame name) s.widen) := .of_check (.of_map (s.lookup_widen frame name))
      exact hlookup
    | cell r =>
      have hreport := Widens.of_report (f := Value.widen) (s := s) room (.cell r) .malformedForm
      have hc' := s.chain_widen (.cell r)
      rw [he] at hc' hreport
      rcases hc : s.chain (.cell r) with ⟨items, last⟩
      rw [hc] at hc'
      by_cases hl : last = .nil
      · subst hl
        cases items with
        | nil => cases lists_iff_chain_eq.2 hc
        | cons head xs =>
          rw [step_list room ev hc, step_list room ev hc', specialForm?_widen]
          cases specialForm? head with
          | some form => exact widens_special hev room frame form xs
          | none => exact widens_call hev room frame head xs
      · rw [step_dotted room ev hc hl, step_dotted room ev hc' (mt Value.widen_eq_nil_iff.1 hl)]
        exact hreport
    | _ =>
      rw [he] at hatom
      exact hatom
  · rw [he] at hatom ⊢
    exact hatom

end

theorem widens_evalBelow (room : Nat) :
    ∀ gap : Nat, EvaluatorWidens fun _ => evalBelow room gap := by
  induction room with
  | zero => exact fun _ _ _ _ s => .error s rfl
  | succ room ih =>
    intro gap
    cases gap with
    | zero =>
      have hparts : EvaluatorWidens fun part => evalBelow room part.gap :=
        fun part e frame s => ih part.gap part e frame s
      exact fun _ e frame s => widens_step hparts room frame e
    | succ gap => exact ih gap

end Eval

/-- An expression as a host builds it, from values of any kind. -/
inductive HostTree where
  | leaf (v : Value)
  | cons (head tail : HostTree)

namespace HostTree

def widen : HostTree → HostTree
  | leaf v => leaf v.widen
  | cons a d => cons a.widen d.widen

theorem widen_widen (e : HostTree) : e.widen.widen = e.widen := by
  induction e with
  | leaf v => rw [widen, widen, v.widen_widen]
  | cons a d iha ihd => rw [widen, widen, iha, ihd]

end HostTree

namespace Store

def build (s : Store) : HostTree → Value × Store
  | .leaf v => (v, s)
  | .cons a d =>
    let p := s.build a
    let q := p.2.build d
    q.2.cons p.1 q.1

theorem widen_build (s : Store) (e : HostTree) :
    s.widen.build e.widen = ((s.build e).1.widen, (s.build e).2.widen) := by
  induction e generalizing s with
  | leaf v => rfl
  | cons a d iha ihd =>
    rw [HostTree.widen, build, iha]
    simp only [ihd]
    exact widen_cons _ _ _

/-- The frames bind the same names, in the same order, to values that print the same. -/
def PrintsAs (s t : Store) : Prop :=
  ∀ r : FrameRef, Option.Rel (fun f g => f.outer = g.outer ∧
    List.Forall₂ (fun b c => b.1 = c.1 ∧ s.print b.2 = t.print c.2) f.bindings g.bindings)
    s.frames[r]? t.frames[r]?

end Store

/-- Both runs have a value, or fail for one cause, and what they leave prints the same. -/
inductive PrintsAlike :
    EStateM.Result Error Store Value → EStateM.Result Error Store Value → Prop where
  | ok {v w : Value} {s t : Store} : s.print v = t.print w → s.PrintsAs t →
      PrintsAlike (.ok v s) (.ok w t)
  | error {e e' : Error} {s t : Store} : e.kind? = e'.kind? →
      e.withoutParameter = e'.withoutParameter → s.PrintsAs t →
      PrintsAlike (.error e s) (.error e' t)

theorem print_of_widen_eq {s t : Store} {v w : Value} (hs : s.widen = t.widen)
    (hv : v.widen = w.widen) : s.print v = t.print w := by
  rw [← s.print_widen v, hs, hv, t.print_widen w]

theorem printsAs_of_widen_eq {s t : Store} (h : s.widen = t.widen) : s.PrintsAs t := by
  intro r
  have hr : s.frames[r]?.map Frame.widen = t.frames[r]?.map Frame.widen := by
    rw [← s.frame_widen, ← t.frame_widen, h]
  generalize s.frames[r]? = x at hr
  generalize t.frames[r]? = y at hr
  cases x <;> cases y <;> first | exact .none | cases hr | skip
  next f g =>
    have hframe : f.widen = g.widen := Option.some.inj hr
    have houter : f.widen.outer = g.widen.outer := congrArg Frame.outer hframe
    have hbindings : List.Forall₂ Eq (f.bindings.map fun b => (b.1, b.2.widen))
        (g.bindings.map fun b => (b.1, b.2.widen)) := by
      rw [List.forall₂_eq_eq_eq]
      exact congrArg Frame.bindings hframe
    have hpairs := List.forall₂_map_right_iff.1 (List.forall₂_map_left_iff.1 hbindings)
    refine .some ⟨houter, hpairs.imp fun b c hbc => ?_⟩
    obtain ⟨hname, hvalue⟩ := Prod.mk.inj hbc
    exact ⟨hname, print_of_widen_eq h hvalue⟩

theorem Widens.printsAlike {x x' y : EStateM.Result Error Store Value}
    (h : Widens Value.widen x y) (h' : Widens Value.widen x' y) : PrintsAlike x x' := by
  cases h with
  | excused he => exact he.elim
  | ok ht hv =>
    cases h' with
    | excused he => exact he.elim
    | ok hu hw =>
      have hstore := ht.symm.trans hu
      exact .ok (print_of_widen_eq hstore (hv.trans hw.symm)) (printsAs_of_widen_eq hstore)
  | @error e _ t _ ht he =>
    cases h' with
    | excused he' => exact he'.elim
    | @error e' _ u _ hu he' =>
      have hsame : e.withoutParameter = e'.withoutParameter := he.symm.trans he'
      have hkind : e.kind? = e'.kind? := by
        rw [← e.kind?_withoutParameter, hsame, e'.kind?_withoutParameter]
      exact .error hkind hsame (printsAs_of_widen_eq (ht.symm.trans hu))

namespace Interpreter

def evaluateTree (limit : Nat) (frame : FrameRef) (e : HostTree) : Action Value := do
  let v ← ofStore (·.build e)
  eval limit v frame

theorem widens_evaluateTree (limit : Nat) (frame : FrameRef) (e : HostTree) (s : Store) :
    Widens Value.widen (evaluateTree limit frame e s) (evaluateTree limit frame e.widen s.widen) :=
  (Widens.of_store (s.widen_build e)).bind fun v t =>
    Eval.widens_evalBelow limit 0 .inner v frame t

/-- An expression and the same with numbers for its integers, evaluated in the same store. -/
theorem integers_pass_for_numbers (limit : Nat) (frame : FrameRef) (e : HostTree) (s : Store) :
    PrintsAlike (evaluateTree limit frame e s) (evaluateTree limit frame e.widen s) := by
  have h := widens_evaluateTree limit frame e s
  have h' := widens_evaluateTree limit frame e.widen s
  rw [e.widen_widen] at h'
  exact h.printsAlike h'

end Interpreter

end MiniLisp
