import MiniLisp.Interpreter
import MiniLisp.Proofs.Eval.Runs
import MiniLisp.Proofs.Reader.Continuation

/-!
The errors of evaluation.  Operations and special forms complain neither of how a text is written
nor of a form that is no proper list, whatever their parts evaluate to (`raises_special`,
`raises_call`).  So from whatever store, a datum evaluated never ends in an error of reading
(`raises_evaluate`), and the errors of a text say whether it was read to its end.
-/
set_option autoImplicit false

namespace MiniLisp

namespace Error

/-- The error does not say how a text is written. -/
def OfEvaluation (e : Error) : Prop := e.kind? ≠ some .reading

/-- The error complains neither of a text nor of a form that is no proper list. -/
def OfOperation (e : Error) : Prop := e.OfEvaluation ∧ ∀ form, e ≠ .malformedForm form

/-- There is not room for a value's text, or no number near to an integer in it. -/
def OfPrinting (e : Error) : Prop := e = .recursionTooDeep ∨ e = .integerTooLarge

theorem OfPrinting.ofOperation {e : Error} (h : e.OfPrinting) : e.OfOperation := by
  rcases h with rfl | rfl
  · exact ⟨by simp [OfEvaluation, kind?], nofun⟩
  · exact ⟨nofun, nofun⟩

theorem OfEvaluation.shift_eq {e : Error} (h : e.OfEvaluation) (n : Nat) : e.shift n = e := by
  cases e with
  | unexpectedClose i => exact absurd rfl h
  | _ => rfl

end Error

def FailsWith (p : Error → Prop) {α : Type} (x : Except Error α) : Prop := ∀ e, x = .error e → p e

namespace FailsWith

variable {p q : Error → Prop} {α β γ : Type}

theorem mono {x : Except Error α} (h : FailsWith p x) (hpq : ∀ e, p e → q e) : FailsWith q x :=
  fun e he => hpq e (h e he)

theorem ofOperation {x : Except Error α} (h : FailsWith Error.OfPrinting x) :
    FailsWith Error.OfOperation x := h.mono fun _ => Error.OfPrinting.ofOperation

theorem ok (a : α) : FailsWith p (.ok a) := nofun

theorem error {e : Error} (h : p e) : FailsWith p (.error e : Except Error α) := by
  rintro _ ⟨⟩
  exact h

theorem bind {x : Except Error α} {f : α → Except Error β} (hx : FailsWith p x)
    (hf : ∀ a, FailsWith p (f a)) : FailsWith p (x >>= f) := by
  cases x with
  | ok a => exact hf a
  | error e => exact error (hx e rfl)

theorem map {x : Except Error α} (hx : FailsWith p x) (f : α → β) : FailsWith p (x.map f) := by
  cases x with
  | ok a => exact ok _
  | error e => exact error (hx e rfl)

theorem mapM {f : γ → Except Error α} (hf : ∀ x, FailsWith p (f x)) (xs : List γ) :
    FailsWith p (xs.mapM f) := by
  induction xs with
  | nil => exact ok _
  | cons x xs ih =>
    rw [List.mapM_cons]
    exact (hf x).bind fun _ => ih.bind fun _ => ok _

theorem foldlM {f : α → γ → Except Error α} (hf : ∀ a x, FailsWith p (f a x)) (xs : List γ)
    (init : α) : FailsWith p (xs.foldlM f init) := by
  induction xs generalizing init with
  | nil => exact ok _
  | cons x xs ih =>
    rw [List.foldlM_cons]
    exact (hf init x).bind ih

theorem report {x : Except Error String} (hx : FailsWith Error.OfPrinting x) {mk : String → Error}
    (hmk : ∀ text, (mk text).OfOperation) :
    FailsWith Error.OfOperation (do throw (mk (← x)) : Except Error α) :=
  hx.ofOperation.bind fun text => error (hmk text)

end FailsWith

theorem ofInteger_eq (i : Int) :
    Double.ofInteger i = (Double.ofInt? i).elim (.error .integerTooLarge) .ok := by
  -- Between functions, as a comparison of the values would go on to compute the nearest number.
  have h : Double.ofInteger = fun i => (Double.ofInt? i).elim (.error .integerTooLarge) .ok := by
    delta Double.ofInteger
    funext i
    cases Double.ofInt? i with
    | none => rfl
    | some x => rfl
  exact congrFun h i

theorem failsWith_ofInteger (i : Int) : FailsWith Error.OfPrinting (Double.ofInteger i) := by
  rw [ofInteger_eq]
  cases Double.ofInt? i with
  | none => exact .error (.inr rfl)
  | some x => exact .ok x

namespace Store

variable (s : Store)

theorem failsWith_write (room : Nat) (v : Value) (out : String) :
    FailsWith Error.OfPrinting (s.write room v out) := by
  induction room generalizing v out with
  | zero =>
    rw [write]
    exact .error (.inl rfl)
  | succ room ih =>
    cases v with
    | integer i =>
      rw [write]
      exact (failsWith_ofInteger i).map _
    | closure r =>
      rw [write]
      split
      · exact .ok _
      · split
        · exact .ok _
        · exact (ih _ _).map _
    | cell r =>
      rw [write]
      split
      · exact .ok _
      · refine (ih _ _).bind fun out => ?_
        refine (FailsWith.foldlM (fun out x => ih x _) _ out).bind fun out => ?_
        split
        · exact .ok _
        · exact (ih _ _).map _
    | _ =>
      rw [write]
      exact .ok _

theorem failsWith_printWithin (room : Nat) (v : Value) :
    FailsWith Error.OfPrinting (s.printWithin room v) := s.failsWith_write room v ""

theorem failsWith_displayWithin (room : Nat) (v : Value) :
    FailsWith Error.OfPrinting (s.displayWithin room v) := by
  cases v with
  | number x => exact .ok _
  | integer i => exact .ok _
  | _ => exact s.failsWith_printWithin room _

theorem failsWith_number (room : Nat) (operation : String) (v : Value) :
    FailsWith Error.OfOperation (s.number room operation v) := by
  cases v with
  | number x => exact .ok _
  | integer i => exact (failsWith_ofInteger i).ofOperation
  | _ => exact (s.failsWith_printWithin room _).report fun _ => ⟨nofun, nofun⟩

theorem failsWith_elements (room : Nat) (operation : String) (v : Value) :
    FailsWith Error.OfOperation (s.elements room operation v) := by
  cases v with
  | nil | cell r =>
    dsimp only [elements]
    split
    · exact .ok _
    · exact (s.failsWith_printWithin room _).report fun _ => ⟨nofun, nofun⟩
  | _ => exact (s.failsWith_printWithin room _).report fun _ => ⟨nofun, nofun⟩

theorem failsWith_formals (room : Nat) (parameters : Value) :
    FailsWith Error.OfOperation (s.formals room parameters) := by
  dsimp only [formals]
  split
  · refine .mapM (fun p => ?_) _
    split
    · exact .ok _
    · exact (s.failsWith_displayWithin room _).report fun _ => ⟨nofun, nofun⟩
  · exact (s.failsWith_displayWithin room _).report fun _ => ⟨nofun, nofun⟩

theorem failsWith_callFrame (room : Nat) (c : Closure) (args : List Value) :
    FailsWith Error.OfOperation (s.callFrame room c args) := by
  unfold callFrame
  refine (s.failsWith_formals room _).bind fun names => ?_
  dsimp only
  split
  · exact .error ⟨nofun, nofun⟩
  · exact .ok _

theorem failsWith_lookup (frame : FrameRef) (name : String) :
    FailsWith Error.OfOperation (s.lookup frame name) := by
  have hunbound : (Error.unbound name).OfOperation :=
    ⟨by simp [Error.OfEvaluation, Error.kind?], nofun⟩
  unfold lookup
  split
  · exact .error hunbound
  · split
    · exact .ok _
    · exact .error hunbound

end Store

theorem failsWith_isEq (a b : Value) : FailsWith Error.OfPrinting (Primitive.isEq a b) := by
  unfold Primitive.isEq
  split
  · exact .ok _
  · exact .ok _
  · exact .ok _
  · exact (failsWith_ofInteger _).bind fun _ => .ok _
  · exact (failsWith_ofInteger _).bind fun _ => .ok _
  · exact (failsWith_ofInteger _).bind fun _ => (failsWith_ofInteger _).bind fun _ => .ok _
  · exact .ok _

namespace Action

def Raises (p : Error → Prop) {α : Type} (x : Action α) : Prop :=
  ∀ s e s', x s = .error e s' → p e

namespace Raises

variable {p q : Error → Prop} {α β γ : Type}

theorem mono {x : Action α} (h : Raises p x) (hpq : ∀ e, p e → q e) : Raises q x :=
  fun s e s' he => hpq e (h s e s' he)

theorem pure (a : α) : Raises p (Pure.pure a) := fun _ _ _ => nofun

theorem throw {e : Error} (h : p e) : Raises p (MonadExcept.throw e : Action α) := by
  rintro s _ s' ⟨⟩
  exact h

theorem bind {x : Action α} {f : α → Action β} (hx : Raises p x)
    (hf : ∀ a, Raises p (f a)) : Raises p (x >>= f) := by
  intro s e s' h
  cases hs : x s with
  | ok a s₁ =>
    rw [bind_ok hs] at h
    exact hf a s₁ e s' h
  | error e' s₁ =>
    rw [bind_error hs] at h
    cases h
    exact hx s e s' hs

theorem check {f : Store → Except Error α} (hf : ∀ s, MiniLisp.FailsWith p (f s)) :
    Raises p (Action.check f) := by
  intro s e s' h
  rw [Action.check] at h
  split at h
  · cases h
  · next hs =>
    cases h
    exact hf s e hs

theorem ofStore (f : Store → α × Store) : Raises p (Action.ofStore f) := fun _ _ _ => nofun

theorem update (f : Store → Store) : Raises p (Action.update f) := fun _ _ _ => nofun

theorem get {f : Store → Action α} (hf : ∀ s, Raises p (f s)) :
    Raises p (MonadState.get >>= f) := fun s => hf s s

theorem mapM {f : γ → Action α} (hf : ∀ x, Raises p (f x)) (xs : List γ) :
    Raises p (xs.mapM f) := by
  induction xs with
  | nil => exact pure _
  | cons x xs ih =>
    rw [List.mapM_cons]
    exact (hf x).bind fun _ => ih.bind fun _ => pure _

theorem foldlM {f : α → γ → Action α} (hf : ∀ a x, Raises p (f a x)) (xs : List γ)
    (init : α) : Raises p (xs.foldlM f init) := by
  induction xs generalizing init with
  | nil => exact pure _
  | cons x xs ih =>
    rw [List.foldlM_cons]
    exact (hf init x).bind ih

theorem report {f : Store → Except Error String}
    (hf : ∀ s, MiniLisp.FailsWith Error.OfPrinting (f s)) (hp : ∀ e : Error, e.OfOperation → p e)
    {mk : String → Error} (hmk : ∀ text, p (mk text)) :
    Raises p (do MonadExcept.throw (mk (← Action.check f)) : Action α) :=
  (check fun s => (hf s).ofOperation.mono hp).bind fun text => throw (hmk text)

end Raises

end Action

open MiniLisp.Action

section

variable (room : Nat)

theorem raises_unary (operation : String) {f : Value → Action Value} (args : List Value)
    (hf : ∀ v, Raises Error.OfOperation (f v)) :
    Raises Error.OfOperation (Primitive.unary operation f args) := by
  unfold Primitive.unary
  split
  · exact hf _
  · exact .throw ⟨nofun, nofun⟩

theorem raises_binary (operation : String) {f : Value → Value → Action Value}
    (args : List Value) (hf : ∀ a b, Raises Error.OfOperation (f a b)) :
    Raises Error.OfOperation (Primitive.binary operation f args) := by
  unfold Primitive.binary
  split
  · exact hf _ _
  · exact .throw ⟨nofun, nofun⟩

theorem raises_numbers (operation : String) (minimum : Nat) (args : List Value) :
    Raises Error.OfOperation (Primitive.numbers room operation minimum args) := by
  unfold Primitive.numbers
  split
  · exact .throw ⟨nofun, nofun⟩
  · exact .check fun s => .mapM (s.failsWith_number room operation) args

theorem raises_part (operation : String) (select : Cell → Value) (v : Value) :
    Raises Error.OfOperation (Primitive.part room operation select v) := by
  refine .check fun s => ?_
  cases v with
  | nil => exact .ok _
  | cell r =>
    simp only
    split
    · exact .ok _
    · exact .ok _
  | _ => exact (s.failsWith_printWithin room _).report fun _ => ⟨nofun, nofun⟩

theorem raises_primitive (p : Primitive) (args : List Value) :
    Raises Error.OfOperation (p.run room args) := by
  cases p with
  | arithmetic op => exact (raises_numbers room _ _ args).bind fun _ => .pure _
  | comparison op => exact (raises_numbers room _ _ args).bind fun _ => .pure _
  | cons => exact raises_binary _ args fun _ _ => .ofStore _
  | car => exact raises_unary _ args fun v => raises_part room _ _ v
  | cdr => exact raises_unary _ args fun v => raises_part room _ _ v
  | append =>
    exact (Raises.check fun s => .mapM (s.failsWith_elements room _) args).bind
      fun _ => .ofStore _
  | list => exact .ofStore _
  | length =>
    exact raises_unary _ args fun v =>
      (Raises.check fun s => s.failsWith_elements room _ v).bind fun _ => .pure _
  | eq =>
    exact raises_binary _ args fun a b =>
      (Raises.check fun _ => (failsWith_isEq a b).ofOperation).bind fun _ => .pure _
  | isAtom => exact raises_unary _ args fun _ => .pure _

theorem raises_assign (change : Cell → Value → Cell) (args : List Value) :
    Raises Error.OfOperation (Hook.assign change args) := by
  unfold Hook.assign
  split
  · exact (Raises.update _).bind fun _ => .pure _
  · exact .pure _

theorem raises_hook (frame : FrameRef) (hook : Hook) (args : List Value) :
    Raises Error.OfOperation (hook.run room frame args) := by
  unfold Hook.run
  split
  · have hprint : ∀ s v, FailsWith Error.OfOperation (Store.printWithin s room v) := fun s v =>
      (s.failsWith_printWithin room v).ofOperation
    exact (Raises.check fun s => .mapM (hprint s) args).bind fun _ =>
      (Raises.update _).bind fun _ => .pure _
  · exact raises_assign _ _
  · exact raises_assign _ _
  · exact (Raises.update _).bind fun _ => .pure _
  · exact .pure _

end

namespace Eval

variable {ev : Evaluator}

theorem raises_closure (parameters body : Value) (frame : FrameRef) :
    Raises Error.OfOperation (closure parameters body frame) :=
  (Raises.ofStore _).bind fun _ => (Raises.update _).bind fun _ => .pure _

section

variable {p : Error → Prop} (hp : ∀ e : Error, e.OfOperation → p e)
  (hev : ∀ part e frame, Raises p (ev part e frame)) (room : Nat) (frame : FrameRef)

include hp hev

theorem raises_special (form : SpecialForm) (operands : List Value) :
    Raises p (special room ev frame form operands) := by
  unfold special
  split
  · exact .pure _
  · exact .throw (hp _ ⟨nofun, nofun⟩)
  · refine (hev _ _ _).bind fun v => ?_
    split
    · exact hev _ _ _
    · exact hev _ _ _
  · exact .throw (hp _ ⟨nofun, nofun⟩)
  · exact (hev _ _ _).bind fun _ => (Raises.update _).bind fun _ =>
      (Raises.update _).bind fun _ => .pure _
  · exact .throw (hp _ ⟨nofun, nofun⟩)
  · exact .throw (hp _ ⟨nofun, nofun⟩)
  · exact (raises_closure _ _ _).mono hp
  · exact .throw (hp _ ⟨nofun, nofun⟩)
  · exact ((raises_closure _ _ _).mono hp).bind fun _ => (Raises.update _).bind fun _ =>
      (Raises.update _).bind fun _ => .pure _
  · exact .throw (hp _ ⟨nofun, nofun⟩)
  · exact .throw (hp _ ⟨nofun, nofun⟩)
  · exact .foldlM (fun _ x => hev _ x _) _ _
  · refine (hev _ _ _).bind fun v => ?_
    split
    · exact .pure _
    · exact .report (fun s => s.failsWith_printWithin room v) hp fun _ => hp _ ⟨nofun, nofun⟩
  · exact .throw (hp _ ⟨nofun, nofun⟩)

theorem raises_apply (f : Value) (args : List Value) :
    Raises p (apply room ev f args frame) := by
  unfold apply
  split
  · refine Raises.get fun s => ?_
    split
    · exact .pure _
    · next c _ =>
      have hextend : Raises Error.OfOperation (Store.extend room c args) :=
        (Raises.check fun s => s.failsWith_callFrame room c args).bind fun _ => .ofStore _
      exact (hextend.mono hp).bind fun _ => (Raises.update _).bind fun _ => hev _ _ _
  · exact (raises_primitive room _ args).mono hp
  · exact (raises_hook room frame _ args).mono hp
  · exact .report (fun s => s.failsWith_printWithin room _) hp fun _ => hp _ ⟨nofun, nofun⟩

theorem raises_call (head : Value) (operands : List Value) :
    Raises p (call room ev frame head operands) := by
  refine (hev _ _ _).bind fun f => ?_
  have happly : Raises p (operands.mapM (ev .operand · frame) >>= (apply room ev f · frame)) :=
    (Raises.mapM (fun x => hev _ x _) operands).bind
      fun args => raises_apply hp hev room frame f args
  split
  · refine (Raises.check fun s => (s.failsWith_printWithin room f).ofOperation.mono hp).bind
      fun text => (Raises.throw ?_).bind fun _ => happly
    exact hp _ ⟨nofun, nofun⟩
  · exact happly

theorem raises_step (hform : ∀ form, p (.malformedForm form)) (e : Value) :
    Raises p (step room ev e frame) := by
  unfold step
  split
  · exact .check fun s => (s.failsWith_lookup frame _).mono hp
  · refine Raises.get fun s => ?_
    split
    · exact .pure _
    · split
      · exact raises_special hp hev room frame _ _
      · exact raises_call hp hev room frame _ _
    · exact .report (fun s => s.failsWith_printWithin room _) hp hform
  · exact .pure _

end

theorem raises_evalBelow (room gap : Nat) (e : Value) (frame : FrameRef) :
    Raises Error.OfEvaluation (evalBelow room gap e frame) := by
  induction room generalizing gap e frame with
  | zero => exact .throw nofun
  | succ room ih =>
    cases gap with
    | zero =>
      exact raises_step (fun _ h => h.1) (fun part e frame => ih part.gap e frame) room frame
        (fun _ => nofun) e
    | succ gap => exact ih gap e frame

end Eval

theorem raises_evaluate (limit : Nat) (frame : FrameRef) (d : Datum) :
    Raises Error.OfEvaluation (Interpreter.evaluate limit frame d) :=
  (Raises.ofStore _).bind fun v => Eval.raises_evalBelow limit 0 v frame

end MiniLisp
