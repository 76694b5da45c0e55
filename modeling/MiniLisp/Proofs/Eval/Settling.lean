import MiniLisp.Proofs.Eval.BigStep
import MiniLisp.Proofs.Eval.Depth

set_option autoImplicit false

namespace MiniLisp

open Store MiniLisp.Action

def Settles {α : Type} (x : Nat → Action α) (s : Store) (ending : EStateM.Result Error Store α) :
    Prop := ∃ least, ∀ room, least ≤ room → x room s = ending

theorem Reports.eventually {α : Type} {print : Nat → Except Error String} {mk : String → Error}
    {err : Error} (hp : ∀ {m n : Nat}, m ≤ n → DeepOrEq (print m) (print n))
    (h : Reports print mk err) : ∃ least, ∀ room, least ≤ room →
      (do throw (mk (← print room)) : Except Error α) = .error err := by
  cases h with
  | @text room text h =>
    refine ⟨room, fun n hn => ?_⟩
    rcases hp hn with hd | heq
    · rw [h] at hd
      cases hd
    · rw [← heq, h]
      rfl
  | @unprintable room err h he =>
    refine ⟨room, fun n hn => ?_⟩
    rcases hp hn with hd | heq
    · rw [h] at hd
      cases hd
      exact absurd rfl he
    · rw [← heq, h]
      rfl

theorem reports_of_eq {α : Type} {print : Nat → Except Error String} {mk : String → Error}
    {room : Nat} {err : Error} (he : err ≠ .recursionTooDeep)
    (h : (do throw (mk (← print room)) : Except Error α) = .error err) :
    Reports print mk err := by
  cases hp : print room with
  | ok text =>
    rw [hp] at h
    cases h
    exact .text hp
  | error e =>
    rw [hp] at h
    cases h
    exact .unprintable hp he

theorem report_eq {α : Type} (print : Store → Except Error String) (mk : String → Error)
    (s : Store) : (do throw (mk (← check print)) : Action α) s =
      match (do throw (mk (← print s)) : Except Error α) with
      | .ok a => .ok a s
      | .error e => .error e s := by
  cases hp : print s with
  | ok text =>
    have hcheck : check print s = .ok text s := by rw [check, hp]
    exact Action.bind_ok hcheck
  | error e =>
    have hcheck : check print s = .error e s := by rw [check, hp]
    exact Action.bind_error hcheck

namespace Settles

variable {α β : Type} {s s₁ : Store}

theorem of_forall {x : Nat → Action α} {ending : EStateM.Result Error Store α}
    (h : ∀ room, x room s = ending) : Settles x s ending := ⟨0, fun room _ => h room⟩

theorem congr {x y : Nat → Action α} {ending : EStateM.Result Error Store α}
    (h : Settles y s₁ ending) (he : ∀ room, x room s = y room s₁) : Settles x s ending := by
  obtain ⟨least, h⟩ := h
  exact ⟨least, fun room hr => (he room).trans (h room hr)⟩

theorem succ {x y : Nat → Action α} {ending : EStateM.Result Error Store α}
    (h : Settles y s ending) (he : ∀ room, x (room + 1) s = y room s) : Settles x s ending := by
  obtain ⟨least, h⟩ := h
  refine ⟨least + 1, fun room hr => ?_⟩
  obtain ⟨n, rfl⟩ := Nat.exists_eq_add_of_le' (Nat.le_of_add_left_le hr)
  exact (he n).trans (h n (by omega))

theorem bind_ok {x : Nat → Action α} {f : Nat → α → Action β} {a : α}
    {ending : EStateM.Result Error Store β} (h : Settles x s (.ok a s₁))
    (hf : Settles (fun room => f room a) s₁ ending) :
    Settles (fun room => x room >>= f room) s ending := by
  obtain ⟨m, h⟩ := h
  obtain ⟨n, hf⟩ := hf
  refine ⟨max m n, fun room hr => ?_⟩
  exact (Action.bind_ok (h room (by omega))).trans (hf room (by omega))

theorem bind_error {x : Nat → Action α} {f : Nat → α → Action β} {e : Error}
    (h : Settles x s (.error e s₁)) : Settles (fun room => x room >>= f room) s (.error e s₁) := by
  obtain ⟨m, h⟩ := h
  exact ⟨m, fun room hr => Action.bind_error (h room hr)⟩

/-- Where more depth only mends the lack of it, one ending is enough. -/
theorem of_agrees {x : Nat → Action α} {room : Nat}
    (hx : ∀ {m n : Nat}, m ≤ n → Agrees (x m) (x n))
    (hd : ∀ s', x room s ≠ .error .recursionTooDeep s') : Settles x s (x room s) := by
  refine ⟨room, fun n hn => ?_⟩
  rcases hx hn s with ⟨s', h⟩ | h
  · exact absurd h (hd s')
  · exact h.symm

theorem report {print : Store → Nat → Except Error String} {mk : String → Error} {err : Error}
    (hp : ∀ s {m n : Nat}, m ≤ n → DeepOrEq (print s m) (print s n))
    (h : Reports (print s) mk err) :
    Settles (fun room => (do throw (mk (← check (print · room))) : Action α)) s
      (.error err s) := by
  obtain ⟨least, h⟩ := h.eventually (α := α) (hp s)
  refine ⟨least, fun room hr => (report_eq (print · room) mk s).trans ?_⟩
  rw [h room hr]

end Settles

namespace Eval

def within (room : Nat) : Evaluator := fun part => evalBelow room part.gap

theorem evalBelow_gap (room gap : Nat) : evalBelow (room + gap) gap = evalBelow room 0 := by
  induction gap with
  | zero => rfl
  | succ gap ih => exact ih

theorem settles_within {e : Value} {frame : FrameRef} {s : Store} {ending : Ending} (part : Part)
    (h : Settles (fun room => evalBelow room 0 e frame) s ending) :
    Settles (fun room => within room part e frame) s ending := by
  obtain ⟨least, h⟩ := h
  refine ⟨least + part.gap, fun room hr => ?_⟩
  obtain ⟨n, rfl⟩ := Nat.exists_eq_add_of_le' (Nat.le_of_add_left_le hr)
  have hgap : within (n + part.gap) part = evalBelow n 0 := evalBelow_gap n part.gap
  exact (congrFun (congrFun (congrFun hgap e) frame) s).trans (h n (by omega))

theorem settles_step {e : Value} {frame : FrameRef} {s : Store} {ending : Ending}
    (h : Settles (fun room => step room (within room) e frame) s ending) :
    Settles (fun room => evalBelow room 0 e frame) s ending := h.succ fun _ => rfl

section

variable {s : Store} {e : Value} {frame : FrameRef} (room : Nat) (ev : Evaluator)

theorem step_cell (r : CellRef) : step room ev (.cell r) frame s =
      (match s.toList? (.cell r) with
      | .ok [] => pure (.cell r)
      | .ok (head :: operands) =>
        match specialForm? head with
        | some form => special room ev frame form operands
        | none => call room ev frame head operands
      | .error _ => do throw (.malformedForm (← check (·.printWithin room (.cell r)))) :
        Action Value) s := rfl

theorem lists_cell {x : Value} {xs : List Value} (h : s.Lists e (x :: xs)) : ∃ r, e = .cell r := by
  cases h with
  | link _ _ => exact ⟨_, rfl⟩

theorem step_list {r : CellRef} {head : Value} {xs : List Value}
    (h : s.chain (.cell r) = (head :: xs, .nil)) : step room ev (.cell r) frame s =
      (match specialForm? head with
      | some form => special room ev frame form xs
      | none => call room ev frame head xs : Action Value) s := by
  rw [step_cell, toList?_of_chain h, if_pos rfl]

theorem step_special {form : SpecialForm} {xs : List Value}
    (h : s.Lists e (.symbol form.name :: xs)) :
    step room ev e frame s = special room ev frame form xs s := by
  obtain ⟨r, rfl⟩ := lists_cell h
  rw [step_list room ev h.chain_eq]
  cases form <;> rfl

theorem specialForm?_eq_none {head : Value} (h : ∀ form : SpecialForm, head ≠ .symbol form.name) :
    specialForm? head = none := by
  cases hf : specialForm? head with
  | none => rfl
  | some form => exact absurd (eq_name_of_specialForm? hf) (h form)

theorem step_call {head : Value} {xs : List Value} (h : s.Lists e (head :: xs))
    (hh : ∀ form : SpecialForm, head ≠ .symbol form.name) :
    step room ev e frame s = call room ev frame head xs s := by
  obtain ⟨r, rfl⟩ := lists_cell h
  rw [step_list room ev h.chain_eq, specialForm?_eq_none hh]

theorem step_dotted {r : CellRef} {last : Value} {items : List Value}
    (h : s.chain (.cell r) = (items, last)) (hl : last ≠ .nil) :
    step room ev (.cell r) frame s =
      (do throw (.malformedForm (← check (·.printWithin room (.cell r)))) : Action Value) s := by
  rw [step_cell, toList?_of_chain h, if_neg hl]

theorem step_malformed {r : CellRef} {items : List Value} {last : Value}
    (h : s.Chain (.cell r) items last) (hl : last ≠ .nil) : step room ev (.cell r) frame s =
      (do throw (.malformedForm (← check (·.printWithin room (.cell r)))) : Action Value) s :=
  step_dotted room ev h.chain_eq hl

theorem step_atom (h : e.IsAtom) : step room ev e frame s = .ok e s := by
  cases e <;> first | rfl | exact absurd h id

end

section

variable {s : Store} {c : Closure} {names : List String}

def parameterName (s : Store) (room : Nat) : Value → Except Error String
  | .symbol name => pure name
  | p => do throw (.parameterNotSymbol (← s.displayWithin room p))

theorem formals_of_lists (room : Nat) {v : Value} {items : List Value} (h : s.Lists v items) :
    s.formals room v = items.mapM (parameterName s room) := by
  have hname : (fun p => match p with
      | .symbol name => pure name
      | p => do throw (.parameterNotSymbol (← s.displayWithin room p))) =
      parameterName s room := by
    funext p
    cases p <;> rfl
  rw [formals, toList?_eq_ok.2 h]
  exact congrArg items.mapM hname

theorem mapM_names (s : Store) (room : Nat) (names : List String) :
    (names.map Value.symbol).mapM (parameterName s room) = .ok names := by
  induction names with
  | nil => rfl
  | cons n names ih =>
    rw [List.map_cons, List.mapM_cons, ih]
    rfl

theorem formals_ok (room : Nat) (h : s.Lists c.parameters (names.map .symbol)) :
    s.formals room c.parameters = .ok names := by
  rw [formals_of_lists room h, mapM_names]

theorem formals_improper (room : Nat) {v : Value} {items : List Value} {last : Value}
    (h : s.chain v = (items, last)) (hl : last ≠ .nil) : s.formals room v =
      (do throw (.improperParameters (← s.displayWithin room v))) := by
  rw [formals, toList?_of_chain h, if_neg hl]

theorem formals_notSymbol (room : Nat) {p : Value} {rest : List Value}
    (h : s.Lists c.parameters (names.map .symbol ++ p :: rest)) (hp : ∀ n, p ≠ .symbol n) :
    s.formals room c.parameters =
      (do throw (.parameterNotSymbol (← s.displayWithin room p))) := by
  rw [formals_of_lists room h, List.mapM_append, mapM_names, List.mapM_cons]
  cases p with
  | symbol n => exact absurd rfl (hp n)
  | _ => cases hd : s.displayWithin room _ <;> simp only [parameterName, hd] <;> rfl

variable {args : List Value} {room : Nat} {ev : Evaluator} {r : ClosureRef}

theorem callFrame_names (h : s.formals room c.parameters = .ok names)
    (hlen : names.length = args.length) :
    s.callFrame room c args = .ok (Frame.update ⟨[], some c.scope⟩ (names.zip args)) := by
  unfold callFrame
  rw [h]
  simp only [bind, Except.bind, hlen, ne_eq, not_true_eq_false, if_false]
  rfl

theorem callFrame_mismatch (h : s.formals room c.parameters = .ok names)
    (hlen : names.length ≠ args.length) :
    s.callFrame room c args = .error (.argumentMismatch names.length args.length) := by
  unfold callFrame
  rw [h]
  simp only [bind, Except.bind, hlen, ne_eq, not_false_eq_true, if_true]
  rfl

theorem callFrame_error {err : Error} (h : s.formals room c.parameters = .error err) :
    s.callFrame room c args = .error err := by
  unfold callFrame
  rw [h]
  rfl

theorem extend_ok {f : Frame} (h : s.callFrame room c args = .ok f) :
    extend room c args s = .ok s.frames.size (s.addFrame f).2 := by
  have hcheck : check (·.callFrame room c args) s = .ok f s := by rw [check, h]
  exact Action.bind_ok hcheck

theorem extend_error {err : Error} (h : s.callFrame room c args = .error err) :
    extend room c args s = .error err s := by
  have hcheck : check (·.callFrame room c args) s = .error err s := by rw [check, h]
  exact Action.bind_error hcheck

theorem callClosure_eq (hc : s.closures[r]? = some c) : callClosure room ev r args s =
    (do
      let frame ← extend room c args
      update (·.record (.called r args.length))
      ev .body c.body frame : Action Value) s := by
  have hget : (get : Action Store) s = .ok s s := rfl
  unfold callClosure
  rw [Action.bind_ok hget, hc]

theorem callClosure_none (hc : s.closures[r]? = none) :
    callClosure room ev r args s = .ok .nil s := by
  have hget : (get : Action Store) s = .ok s s := rfl
  unfold callClosure
  rw [Action.bind_ok hget, hc]
  rfl

theorem callClosure_ok {f : Frame} (hc : s.closures[r]? = some c)
    (hf : s.callFrame room c args = .ok f) : callClosure room ev r args s =
      ev .body c.body s.frames.size ((s.addFrame f).2.record (.called r args.length)) := by
  rw [callClosure_eq hc]
  exact Action.bind_ok (extend_ok hf)

theorem callClosure_error {err : Error} (hc : s.closures[r]? = some c)
    (hf : s.callFrame room c args = .error err) :
    callClosure room ev r args s = .error err s := by
  rw [callClosure_eq hc]
  exact Action.bind_error (extend_error hf)

theorem callFrame_rejects {err : Error} (h : s.Rejects c args err) :
    ∃ least, ∀ room, least ≤ room → s.callFrame room c args = .error err := by
  cases h with
  | improper hc hl hr =>
    obtain ⟨least, h⟩ := hr.eventually (α := List String) fun hmn => s.deepOrEq_displayWithin hmn _
    exact ⟨least, fun room hroom =>
      callFrame_error ((formals_improper room hc.chain_eq hl).trans (h room hroom))⟩
  | notSymbol hc hp hr =>
    obtain ⟨least, h⟩ := hr.eventually (α := List String) fun hmn => s.deepOrEq_displayWithin hmn _
    exact ⟨least, fun room hroom =>
      callFrame_error ((formals_notSymbol room hc hp).trans (h room hroom))⟩
  | mismatch hc hlen => exact ⟨0, fun room _ => callFrame_mismatch (formals_ok room hc) hlen⟩

end

end Eval

def Task.run (room : Nat) : Task → FrameRef → Action Value
  | .expression e, frame => evalBelow room 0 e frame
  | .sequence last rest, frame => rest.foldlM (fun _ x => Eval.within room .inner x frame) last
  | .operands f done rest, frame => do
    let args ← rest.mapM (Eval.within room .operand · frame)
    Eval.apply room (Eval.within room) f (done ++ args) frame
  | .call f args, frame => Eval.apply room (Eval.within room) f args frame

section

open Eval

theorem settles_special (form : SpecialForm) {e : Value} {xs : List Value} {frame : FrameRef}
    {s : Store} {ending : Ending} (hl : s.Lists e (.symbol form.name :: xs))
    (h : Settles (fun room => special room (within room) frame form xs) s ending) :
    Settles (fun room => evalBelow room 0 e frame) s ending :=
  settles_step (h.congr fun room => step_special room (within room) hl)

theorem settles_call {head : Value} {e : Value} {xs : List Value} {frame : FrameRef}
    {s : Store} {ending : Ending} (hl : s.Lists e (head :: xs))
    (hh : ∀ form : SpecialForm, head ≠ .symbol form.name)
    (h : Settles (fun room => call room (within room) frame head xs) s ending) :
    Settles (fun room => evalBelow room 0 e frame) s ending :=
  settles_step (h.congr fun room => step_call room (within room) hl hh)

theorem special_misshapen {form : SpecialForm} {xs : List Value} {err : Error}
    (h : Misshapen form xs err) (room : Nat) (ev : Evaluator) (frame : FrameRef) (s : Store) :
    special room ev frame form xs s = .error err s := by
  cases h with
  | quote h | conditional h | lambda h | function h =>
    rw [special]
    · rfl
    · intros
      subst_vars
      exact h rfl
  | define h | defun h =>
    rw [special]
    · rfl
    all_goals
      intros
      subst_vars
      exact h rfl
  | defineName h | defunName h =>
    rw [special]
    · rfl
    · intro n hn
      exact h n hn

theorem settles_starts {e p : Value} {frame : FrameRef} {s s₁ : Store} {err : Error}
    (hp : s.Starts e p) (h : Settles (fun room => evalBelow room 0 p frame) s (.error err s₁)) :
    Settles (fun room => evalBelow room 0 e frame) s (.error err s₁) := by
  cases hp with
  | test hl =>
    exact settles_special .conditional hl (settles_within .inner h).bind_error
  | define hl => exact settles_special .define hl (settles_within .inner h).bind_error
  | function hl => exact settles_special .function hl (settles_within .inner h).bind_error
  | head hl hh => exact settles_call hl hh (settles_within .head h).bind_error

/-- An ending that a relation gives is reached by evaluation, and stays. -/
theorem settles_of_evaluates {task : Task} {frame : FrameRef} {s : Store} {ending : Ending}
    (h : Evaluates task frame s ending) : Settles (fun room => task.run room frame) s ending := by
  induction h with
  | symbol h => exact settles_step (.of_forall fun room => by rw [step, check, h])
  | unbound h => exact settles_step (.of_forall fun room => by rw [step, check, h])
  | atom h => exact settles_step (.of_forall fun room => step_atom room (within room) h)
  | malformed hc hl hr =>
    refine settles_step (Settles.congr ?_ fun room => step_malformed room (within room) hc hl)
    exact .report (fun s _ _ h => s.deepOrEq_printWithin h _) hr
  | misshapen hl hm =>
    exact settles_special _ hl (.of_forall fun room => special_misshapen hm room (within room) _ _)
  | startFails hp _ ih => exact settles_starts hp ih
  | quote hl => exact settles_special .quote hl (.of_forall fun _ => rfl)
  | ifTrue hl _ hv _ iht ihy =>
    refine settles_special .conditional hl ((settles_within .inner iht).bind_ok ?_)
    simp only [ne_eq, hv, not_false_eq_true, if_true]
    exact settles_within .inner ihy
  | ifFalse hl _ _ iht ihn =>
    refine settles_special .conditional hl ((settles_within .inner iht).bind_ok ?_)
    simp only [ne_eq, not_true_eq_false, if_false]
    exact settles_within .inner ihn
  | define hl _ ih =>
    refine settles_special .define hl ((settles_within .inner ih).bind_ok ?_)
    exact .of_forall fun _ => rfl
  | lambda hl => exact settles_special .lambda hl (.of_forall fun _ => rfl)
  | defun hl => exact settles_special .defun hl (.of_forall fun _ => rfl)
  | begin hl _ ih => exact settles_special .begin hl ih
  | function hl _ hf ih =>
    refine settles_special .function hl ((settles_within .inner ih).bind_ok ?_)
    simp only [hf, if_true]
    exact .of_forall fun _ => rfl
  | notFunction hl _ hf hr ih =>
    refine settles_special .function hl ((settles_within .inner ih).bind_ok ?_)
    simp only [hf, Bool.false_eq_true, if_false]
    exact .report (fun s _ _ h => s.deepOrEq_printWithin h _) hr
  | call hl hh _ hf _ ihh iho =>
    refine settles_call hl hh ((settles_within .head ihh).bind_ok ?_)
    simp only [hf, Bool.not_true, Bool.false_eq_true, if_false]
    exact iho
  | headNotFunction hl hh _ hf hr ih =>
    refine settles_call hl hh ((settles_within .head ih).bind_ok ?_)
    simp only [hf, Bool.not_false, if_true]
    exact .report (fun s _ _ h => s.deepOrEq_printWithin h _) hr
  | sequenceDone => exact .of_forall fun _ => rfl
  | sequenceNext _ _ ihx ihr =>
    simp only [Task.run, List.foldlM_cons]
    exact (settles_within .inner ihx).bind_ok ihr
  | sequenceFails _ ih =>
    simp only [Task.run, List.foldlM_cons]
    exact (settles_within .inner ih).bind_error
  | operandsDone _ ih =>
    simp only [Task.run, List.mapM_nil, pure_bind, List.append_nil]
    exact ih
  | operandsNext _ _ ihx ihr =>
    simp only [Task.run, List.append_assoc, List.singleton_append] at ihr
    simp only [Task.run, List.mapM_cons, bind_assoc, pure_bind]
    exact (settles_within .operand ihx).bind_ok ihr
  | operandFails _ ih =>
    simp only [Task.run, List.mapM_cons, bind_assoc, pure_bind]
    exact (settles_within .operand ih).bind_error
  | primitive hd =>
    exact .of_agrees (fun hmn => agrees_primitive hmn _ _) fun s' h => hd ⟨s', h⟩
  | hook hd => exact .of_agrees (fun hmn => agrees_hook hmn _ _ _) fun s' h => hd ⟨s', h⟩
  | closure hc hl hlen _ ih =>
    refine (settles_within .body ih).congr fun room => ?_
    exact callClosure_ok hc (callFrame_names (formals_ok room hl) hlen)
  | rejected hc hr =>
    obtain ⟨least, h⟩ := callFrame_rejects hr
    exact ⟨least, fun room hroom => callClosure_error hc (h room hroom)⟩

end
end MiniLisp
