import MiniLisp.Primitive

/-!
Evaluation.  One step says how a form is evaluated given the evaluation of its parts; iterating it
bounds how deep evaluations may stand inside each other, and running out is the error of too deep a
recursion.  What an error prints has the depth that is left.
-/
set_option autoImplicit false

namespace MiniLisp

/-- The head symbols that take their operands unevaluated, whatever they are bound to. -/
inductive SpecialForm where
  | quote | conditional | define | lambda | defun | begin | function
  deriving DecidableEq, Repr

def SpecialForm.ofName? : String → Option SpecialForm
  | "quote" => some quote
  | "if" => some conditional
  | "define" => some define
  | "lambda" => some lambda
  | "defun" => some defun
  | "begin" => some begin
  | "function" => some function
  | _ => none

namespace Eval

/-- What a form has evaluated: the head and the operands of a call, an expression inside a special
form, or the body of the function called. -/
inductive Part where
  | head | operand | inner | body
  deriving DecidableEq, Repr

def Part.gap : Part → Nat
  | head => 0
  | operand | inner => 1
  | body => 2

abbrev Evaluator := Part → Value → FrameRef → Action Value

def closure (parameters body : Value) (frame : FrameRef) : Action Value := do
  let r ← Action.ofStore (·.addClosure ⟨parameters, body, frame⟩)
  Action.update (·.record (.closureCreated r))
  return .closure r

def special (room : Nat) (ev : Evaluator) (frame : FrameRef) : SpecialForm → List Value → Action Value
  | .quote, [x] => return x
  | .quote, _ => throw .quoteShape
  | .conditional, [test, yes, no] => do
    if (← ev .inner test frame) ≠ .nil then ev .inner yes frame else ev .inner no frame
  | .conditional, _ => throw .ifShape
  | .define, [.symbol name, x] => do
    let v ← ev .inner x frame
    Action.update (·.define frame name v)
    Action.update (·.record (.defined name))
    return .symbol name
  | .define, [_, _] => throw .defineName
  | .define, _ => throw .defineShape
  | .lambda, [parameters, body] => closure parameters body frame
  | .lambda, _ => throw .lambdaShape
  | .defun, [.symbol name, parameters, body] => do
    let v ← closure parameters body frame
    Action.update (·.define frame name v)
    Action.update (·.record (.functionDefined name))
    return .symbol name
  | .defun, [_, _, _] => throw .defunName
  | .defun, _ => throw .defunShape
  | .begin, xs => xs.foldlM (fun _ x => ev .inner x frame) .nil
  | .function, [x] => do
    let v ← ev .inner x frame
    if v.isFunction then return v
    throw (.notFunction (← Action.check (·.printWithin room v)))
  | .function, _ => throw .functionShape

def callClosure (room : Nat) (ev : Evaluator) (r : ClosureRef) (args : List Value) : Action Value := do
  match (← get).closures[r]? with
  | none => return .nil
  | some c =>
    let frame ← Store.extend room c args
    Action.update (·.record (.called r args.length))
    ev .body c.body frame

def apply (room : Nat) (ev : Evaluator) (f : Value) (args : List Value) (frame : FrameRef) :
    Action Value :=
  match f with
  | .closure r => callClosure room ev r args
  | .primitive p _ => p.run room args
  | .hook h => h.run room frame args
  | v => do throw (.notApplicable (← Action.check (·.printWithin room v)))

def call (room : Nat) (ev : Evaluator) (frame : FrameRef) (head : Value) (operands : List Value) :
    Action Value := do
  let f ← ev .head head frame
  if !f.isFunction then throw (.headNotFunction (← Action.check (·.printWithin room f)))
  let args ← operands.mapM (ev .operand · frame)
  apply room ev f args frame

def specialForm? : Value → Option SpecialForm
  | .symbol name => SpecialForm.ofName? name
  | _ => none

/-- A form must be a proper list before any part of it is evaluated. -/
def step (room : Nat) (ev : Evaluator) (expr : Value) (frame : FrameRef) : Action Value :=
  match expr with
  | .symbol name => Action.check (·.lookup frame name)
  | .cell _ => do
    match (← get).toList? expr with
    | .ok [] => return expr
    | .ok (head :: operands) =>
      match specialForm? head with
      | some form => special room ev frame form operands
      | none => call room ev frame head operands
    | .error _ => throw (.malformedForm (← Action.check (·.printWithin room expr)))
  | v => return v

end Eval

/-- Evaluation with room for so many levels, the first `gap` of which hold no evaluation. -/
def evalBelow : (room gap : Nat) → Value → FrameRef → Action Value
  | 0, _ => fun _ _ => throw .recursionTooDeep
  | room + 1, 0 => Eval.step room (fun part => evalBelow room part.gap)
  | room + 1, gap + 1 => evalBelow room gap

def eval (limit : Nat) : Value → FrameRef → Action Value := evalBelow limit 0

def applyFunction (limit : Nat) : Value → List Value → FrameRef → Action Value :=
  Eval.apply limit (fun part => evalBelow limit part.gap)

end MiniLisp
