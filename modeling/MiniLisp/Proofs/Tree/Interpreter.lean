import MiniLisp.Interpreter

/-!
An interpreter without cells.  A pair is a tree, which has no identity, and a function is the tree
of its code with the frame it was made in; frames are all that is stored.  It reads, evaluates,
prints and fails as the language is defined, with the same bounds on depth (`Tree.feed`).
-/
set_option autoImplicit false

namespace MiniLisp

inductive Tree where
  | nil
  | number (x : Double)
  | symbol (name : String)
  | cons (head tail : Tree)
  | primitive (p : Primitive)
  | closure (parameters body : Tree) (scope : FrameRef)
  deriving DecidableEq

structure Scope where
  bindings : String → Option Tree
  outer : Option FrameRef

abbrev Scopes := Array Scope

abbrev Run (α : Type) := EStateM Error Scopes α

namespace Scope

def define (f : Scope) (name : String) (t : Tree) : Scope :=
  { f with bindings := fun n => if n = name then some t else f.bindings n }

def update (f : Scope) (vars : List (String × Tree)) : Scope :=
  vars.foldl (fun f x => f.define x.1 x.2) f

end Scope

namespace Scopes

def define (w : Scopes) (r : FrameRef) (name : String) (t : Tree) : Scopes :=
  w.modify r (·.define name t)

def lookup (w : Scopes) (r : FrameRef) (name : String) : Except Error Tree :=
  match w[r]? with
  | none => .error (.unbound name)
  | some f =>
    match f.bindings name, f.outer with
    | some t, _ => .ok t
    | none, some o => if o < r then w.lookup o name else .error (.unbound name)
    | none, none => .error (.unbound name)
termination_by r

end Scopes

namespace Tree

def ofDatum : Datum → Tree
  | .nil => .nil
  | .number x => .number x
  | .symbol name => .symbol name
  | .cons a d => .cons (ofDatum a) (ofDatum d)

def truth (b : Bool) : Tree := if b then .symbol "T" else .nil

def isFunction : Tree → Bool
  | primitive _ | closure _ _ _ => true
  | _ => false

def isAtomic : Tree → Bool
  | nil | symbol _ | number _ => true
  | _ => false

def isList : Tree → Bool
  | nil | cons _ _ => true
  | _ => false

def list (items : List Tree) (tail : Tree) : Tree := items.foldr .cons tail

def chain : Tree → List Tree × Tree
  | .cons a d => (a :: d.chain.1, d.chain.2)
  | t => ([], t)

/-- How deep the printed parts of a tree stand inside each other.  The items of a list stand in it
side by side. -/
def depth : Tree → Nat
  | .cons a d => max (a.depth + 1) (if d.isList then d.depth else d.depth + 1)
  | .closure p _ _ => if p = .nil then 0 else p.depth + 1
  | _ => 0

/-- The printed form, and what stands in that of a pair after its head. -/
def forms : Tree → String × String
  | .nil => ("NIL", ")")
  | .number x => atom x.text
  | .symbol name => atom name
  | .primitive p => atom ("<primitive " ++ p.name ++ ">")
  | .closure p _ _ => atom (if p = .nil then "<closure ()>" else "<closure " ++ p.forms.1 ++ ">")
  | .cons a d => ("(" ++ a.forms.1 ++ d.forms.2, " " ++ a.forms.1 ++ d.forms.2)
where
  atom (text : String) : String × String := (text, " . " ++ text ++ ")")

def print (t : Tree) : String := t.forms.1

def printWithin (room : Nat) (t : Tree) : Except Error String :=
  if t.depth < room then .ok t.print else .error .recursionTooDeep

def displayWithin (room : Nat) : Tree → Except Error String
  | .number x => .ok x.pointedText
  | t => t.printWithin room

def toNumber (room : Nat) (operation : String) : Tree → Except Error Double
  | .number x => .ok x
  | t => do throw (.notNumber operation (← t.printWithin room))

def elements (room : Nat) (operation : String) (t : Tree) : Except Error (List Tree) :=
  if t.isList then
    if t.chain.2 = .nil then .ok t.chain.1
    else do throw (.notProperList operation (← t.printWithin room))
  else do throw (.notList operation (← t.printWithin room))

def parameterName (room : Nat) : Tree → Except Error String
  | .symbol name => .ok name
  | t => do throw (.parameterNotSymbol (← t.displayWithin room))

def formals (room : Nat) (parameters : Tree) : Except Error (List String) :=
  if parameters.chain.2 = .nil then parameters.chain.1.mapM (parameterName room)
  else do throw (.improperParameters (← parameters.displayWithin room))

def callScope (room : Nat) (parameters : Tree) (scope : FrameRef) (args : List Tree) :
    Except Error Scope := do
  let names ← parameters.formals room
  if names.length = args.length then
    return Scope.update ⟨fun _ => none, some scope⟩ (names.zip args)
  else throw (.argumentMismatch names.length args.length)

def isEq : Tree → Tree → Bool
  | .nil, .nil => true
  | .symbol a, .symbol b => a = b
  | .number x, .number y => x.eq y
  | _, _ => false

def part (room : Nat) (operation : String) (select : Tree → Tree → Tree) : Tree → Except Error Tree
  | .nil => .ok .nil
  | .cons a d => .ok (select a d)
  | t => do throw (.notList operation (← t.printWithin room))

def unary (operation : String) (f : Tree → Except Error Tree) : List Tree → Except Error Tree
  | [t] => f t
  | args => throw (.arityExactly operation 1 args.length)

def binary (operation : String) (f : Tree → Tree → Except Error Tree) :
    List Tree → Except Error Tree
  | [a, b] => f a b
  | args => throw (.arityExactly operation 2 args.length)

def numbers (room : Nat) (operation : String) (minimum : Nat) (args : List Tree) :
    Except Error (List Double) :=
  if args.length < minimum then throw (.arityAtLeast operation minimum args.length)
  else args.mapM (toNumber room operation)

def runPrimitive (room : Nat) : Primitive → List Tree → Except Error Tree
  | .arithmetic op, args => do return .number (op.fold (← numbers room op.name op.minimum args))
  | .comparison op, args => do return truth (op.holds (← numbers room op.name 2 args))
  | .cons, args => binary "cons" (fun a d => return .cons a d) args
  | .car, args => unary "car" (part room "car" fun a _ => a) args
  | .cdr, args => unary "cdr" (part room "cdr" fun _ d => d) args
  | .append, args => do return list (← args.mapM (elements room "append")).flatten .nil
  | .list, args => return list args .nil
  | .length, args =>
    unary "length" (fun t => do return .number (.ofNat (← elements room "length" t).length)) args
  | .eq, args => binary "eq" (fun a b => return truth (isEq a b)) args
  | .isAtom, args => unary "atom?" (fun t => return truth t.isAtomic) args

def pureRun {α : Type} (x : Except Error α) : Run α := fun w =>
  match x with
  | .ok a => .ok a w
  | .error e => .error e w

def defineIn (frame : FrameRef) (name : String) (t : Tree) : Run Tree := fun w =>
  .ok (.symbol name) (w.define frame name t)

def addScope (f : Scope) : Run FrameRef := fun w => .ok w.size (w.push f)

def enter (room : Nat) (parameters : Tree) (scope : FrameRef) (args : List Tree) :
    Run FrameRef := do
  addScope (← pureRun (callScope room parameters scope args))

abbrev Evaluator := Eval.Part → Tree → FrameRef → Run Tree

def special (room : Nat) (ev : Evaluator) (frame : FrameRef) : SpecialForm → List Tree → Run Tree
  | .quote, [x] => return x
  | .quote, _ => throw .quoteShape
  | .conditional, [test, yes, no] => do
    if (← ev .inner test frame) ≠ .nil then ev .inner yes frame else ev .inner no frame
  | .conditional, _ => throw .ifShape
  | .define, [.symbol name, x] => do defineIn frame name (← ev .inner x frame)
  | .define, [_, _] => throw .defineName
  | .define, _ => throw .defineShape
  | .lambda, [parameters, body] => return .closure parameters body frame
  | .lambda, _ => throw .lambdaShape
  | .defun, [.symbol name, parameters, body] => defineIn frame name (.closure parameters body frame)
  | .defun, [_, _, _] => throw .defunName
  | .defun, _ => throw .defunShape
  | .begin, xs => xs.foldlM (fun _ x => ev .inner x frame) .nil
  | .function, [x] => do
    let t ← ev .inner x frame
    if t.isFunction then return t
    else throw (.notFunction (← pureRun (t.printWithin room)))
  | .function, _ => throw .functionShape

def apply (room : Nat) (ev : Evaluator) : Tree → List Tree → Run Tree
  | .closure parameters body scope, args => do
    ev .body body (← enter room parameters scope args)
  | .primitive p, args => pureRun (runPrimitive room p args)
  | t, _ => do throw (.notApplicable (← pureRun (t.printWithin room)))

def call (room : Nat) (ev : Evaluator) (frame : FrameRef) (head : Tree) (operands : List Tree) :
    Run Tree := do
  let f ← ev .head head frame
  if f.isFunction then apply room ev f (← operands.mapM (ev .operand · frame))
  else throw (.headNotFunction (← pureRun (f.printWithin room)))

def specialForm? : Tree → Option SpecialForm
  | .symbol name => SpecialForm.ofName? name
  | _ => none

def form (room : Nat) (ev : Evaluator) (frame : FrameRef) (head : Tree) (operands : List Tree) :
    Run Tree :=
  match specialForm? head with
  | some form => special room ev frame form operands
  | none => call room ev frame head operands

def step (room : Nat) (ev : Evaluator) (t : Tree) (frame : FrameRef) : Run Tree :=
  match t with
  | .symbol name => fun w => pureRun (w.lookup frame name) w
  | .cons head rest =>
    if rest.chain.2 = .nil then form room ev frame head rest.chain.1
    else do throw (.malformedForm (← pureRun (printWithin room (.cons head rest))))
  | t => return t

section

variable (room : Nat) (ev : Evaluator) (head : Tree) {rest : Tree} (frame : FrameRef)

theorem step_list (h : rest.chain.2 = .nil) :
    step room ev (.cons head rest) frame = form room ev frame head rest.chain.1 := if_pos h

theorem step_improper (h : rest.chain.2 ≠ .nil) : step room ev (.cons head rest) frame =
    (do throw (.malformedForm (← pureRun (printWithin room (.cons head rest))))) := if_neg h

end

def evalBelow : (room gap : Nat) → Tree → FrameRef → Run Tree
  | 0, _ => fun _ _ => throw .recursionTooDeep
  | room + 1, 0 => step room (fun part => evalBelow room part.gap)
  | room + 1, gap + 1 => evalBelow room gap

structure Outcome where
  values : List Tree
  error : Option Error

def evaluateAll (limit : Nat) (frame : FrameRef) : List Datum → Scopes → Outcome × Scopes
  | [], w => (⟨[], none⟩, w)
  | d :: ds, w =>
    match evalBelow limit 0 (ofDatum d) frame w with
    | .error e w => (⟨[], some e⟩, w)
    | .ok t w =>
      let (o, w) := evaluateAll limit frame ds w
      ({ o with values := t :: o.values }, w)

def feed (limit : Nat) (frame : FrameRef) (source : String) (w : Scopes) : Outcome × Scopes :=
  let r := readAll limit source
  let (o, w) := evaluateAll limit frame r.data w
  ({ o with error := o.error.or r.error }, w)

def globalBindings : List (String × Tree) :=
  [("nil", .nil), ("NIL", .nil)] ++ Primitive.all.map (fun p => (p.name, .primitive p))

def globalScopes : Scopes := #[Scope.update ⟨fun _ => none, none⟩ globalBindings]

end Tree
end MiniLisp
