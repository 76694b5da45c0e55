import MiniLisp.Eval
import MiniLisp.Reader

/-!
Interpreters.  An interpreter is its frame in a shared store.  Text is read and evaluated one
expression at a time, and the first failure of either ends the text; what was defined before stays.
-/
set_option autoImplicit false

namespace MiniLisp

namespace Store

def globalBindings : List (String × Value) :=
  [("nil", .nil), ("NIL", .nil)] ++ Primitive.all.map (fun p => (p.name, .primitive p 0))

def addGlobal (s : Store) : FrameRef × Store := s.addFrame (Frame.update ⟨[], none⟩ globalBindings)

def hookBindings : List (String × Value) := Hook.all.map (fun h => (h.name, .hook h))

def addHookedGlobal (s : Store) : FrameRef × Store :=
  let (r, s) := s.addGlobal
  (r, s.updateFrame r hookBindings)

end Store

/-- What feeding a text gave: the values up to the first error, and that error. -/
structure Outcome where
  values : List Value
  error : Option Error
  deriving DecidableEq

namespace Outcome

def ok (o : Outcome) : Bool := o.error.isNone
def kind? (o : Outcome) : Option ErrorKind := o.error.bind (·.kind?)
def value (o : Outcome) : Value := o.values.getLastD .nil

/-- An error of no kind concerns the host, which takes it in place of the outcome. -/
def hostError? (o : Outcome) : Option Error := o.error.filter (·.kind?.isNone)

end Outcome

namespace Interpreter

def evaluate (limit : Nat) (frame : FrameRef) (d : Datum) : Action Value := do
  let v ← Action.ofStore (·.load d)
  eval limit v frame

def evaluateAll (limit : Nat) (frame : FrameRef) : List Datum → Store → Outcome × Store
  | [], s => (⟨[], none⟩, s)
  | d :: ds, s =>
    match evaluate limit frame d s with
    | .error e s => (⟨[], some e⟩, s)
    | .ok v s =>
      let (o, s) := evaluateAll limit frame ds s
      ({ o with values := v :: o.values }, s)

/-- Feeds a text.  A reading error counts once all that was read before it has been evaluated. -/
def feed (limit : Nat) (frame : FrameRef) (source : String) (s : Store) : Outcome × Store :=
  let r := readAll limit source
  let (o, s) := evaluateAll limit frame r.data s
  ({ o with error := o.error.or r.error }, s)

/-- The last value of a text, or the error that ended it. -/
def run (limit : Nat) (frame : FrameRef) (source : String) : Action Value := do
  let r := readAll limit source
  let v ← r.data.foldlM (fun _ d => evaluate limit frame d) .nil
  match r.error with
  | some e => throw e
  | none => return v

end Interpreter
end MiniLisp
