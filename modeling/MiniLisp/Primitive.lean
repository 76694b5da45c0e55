import MiniLisp.Store.Scope

/-!
The operations on evaluated arguments.  Each checks the number of arguments first, then their types
from left to right, and names itself in its errors; `room` is the depth to which those may print a
value.
-/
set_option autoImplicit false

namespace MiniLisp

namespace Store

def number (s : Store) (room : Nat) (operation : String) : Value → Except Error Double
  | .number x => .ok x
  | .integer i => Double.ofInteger i
  | v => do throw (.notNumber operation (← s.printWithin room v))

def elements (s : Store) (room : Nat) (operation : String) (v : Value) : Except Error (List Value) :=
  match v with
  | .nil | .cell _ =>
    match s.toList? v with
    | .ok items => .ok items
    | .error _ => do throw (.notProperList operation (← s.printWithin room v))
  | v => do throw (.notList operation (← s.printWithin room v))

end Store

namespace Arithmetic

def minimum : Arithmetic → Nat
  | add | mul => 0
  | sub | div => 1

/-- Sums and products fold from their neutral number; one argument of the others is negated or
inverted.  A sum is rounded after each addition, as by hosts that make up for nothing lost in that.
-/
def fold : Arithmetic → List Double → Double
  | add, xs => xs.foldl .add .zero
  | mul, xs => xs.foldl .mul .one
  | sub, [x] => x.neg
  | div, [x] => Double.one.div x
  | sub, x :: xs => xs.foldl .sub x
  | div, x :: xs => xs.foldl .div x
  | sub, [] | div, [] => .zero

end Arithmetic

namespace Comparison

def adjacent (test : Double → Double → Bool) : List Double → Bool
  | x :: y :: rest => test x y && adjacent test (y :: rest)
  | _ => true

def holds : Comparison → List Double → Bool
  | eq, x :: xs => xs.all (fun y => y.eq x)
  | eq, [] => true
  | lt, xs => adjacent Double.lt xs
  | gt, xs => adjacent (fun x y => y.lt x) xs
  | le, xs => adjacent Double.le xs
  | ge, xs => adjacent (fun x y => y.le x) xs

end Comparison

namespace Primitive

/-- Whether two atoms are the same; cells and functions never are. -/
def isEq : Value → Value → Except Error Bool
  | .nil, .nil => .ok true
  | .symbol a, .symbol b => .ok (a = b)
  | .number x, .number y => .ok (x.eq y)
  | .number x, .integer j => return x.eq (← Double.ofInteger j)
  | .integer i, .number y => return (← Double.ofInteger i).eq y
  | .integer i, .integer j => do
    let x ← Double.ofInteger i
    return x.eq (← Double.ofInteger j)
  | _, _ => .ok false

def isAtomic : Value → Bool
  | .nil | .symbol _ | .number _ | .integer _ => true
  | _ => false

def part (room : Nat) (operation : String) (select : Cell → Value) (v : Value) : Action Value :=
  Action.check fun s =>
    match v with
    | .nil => .ok .nil
    | .cell r =>
      match s.cells[r]? with
      | some c => .ok (select c)
      | none => .ok .nil
    | v => do throw (.notList operation (← s.printWithin room v))

def unary (operation : String) (f : Value → Action Value) : List Value → Action Value
  | [v] => f v
  | args => throw (.arityExactly operation 1 args.length)

def binary (operation : String) (f : Value → Value → Action Value) : List Value → Action Value
  | [a, b] => f a b
  | args => throw (.arityExactly operation 2 args.length)

def numbers (room : Nat) (operation : String) (minimum : Nat) (args : List Value) :
    Action (List Double) :=
  if args.length < minimum then throw (.arityAtLeast operation minimum args.length)
  else Action.check (fun s => args.mapM (s.number room operation))

def run (room : Nat) : Primitive → List Value → Action Value
  | arithmetic op, args => do return .number (op.fold (← numbers room op.name op.minimum args))
  | comparison op, args => do return .truth (op.holds (← numbers room op.name 2 args))
  | cons, args => binary "cons" (fun a d => Action.ofStore (·.cons a d)) args
  | car, args => unary "car" (part room "car" Cell.head) args
  | cdr, args => unary "cdr" (part room "cdr" Cell.tail) args
  | append, args => do
    let parts ← Action.check (fun s => args.mapM (s.elements room "append"))
    Action.ofStore (·.list parts.flatten .nil)
  | list, args => Action.ofStore (·.list args .nil)
  | length, args =>
    unary "length" (fun v => do
      let items ← Action.check (·.elements room "length" v)
      return .number (.ofNat items.length)) args
  | eq, args => binary "eq" (fun a b => do return .truth (← Action.check (fun _ => isEq a b))) args
  | isAtom, args => unary "atom?" (fun v => return .truth (isAtomic v)) args

end Primitive

namespace Hook

def assign (change : Cell → Value → Cell) : List Value → Action Value
  | [.cell r, v] => do
    Action.update fun s =>
      match s.cells[r]? with
      | some c => s.setCell r (change c v)
      | none => s
    return .cell r
  | _ => return .nil

def run (room : Nat) (frame : FrameRef) : Hook → List Value → Action Value
  | trace, args => do
    let texts ← Action.check (fun s => args.mapM (s.printWithin room))
    Action.update (·.record (.traced texts))
    return args.getLastD .nil
  | setCar, args => assign (fun c v => { c with head := v }) args
  | setCdr, args => assign (fun c v => { c with tail := v }) args
  | defineHere, [.symbol name, v] => do
    Action.update (·.define frame name v)
    return v
  | defineHere, _ => return .nil

end Hook
end MiniLisp
