import MiniLisp.Datum
import MiniLisp.Error

/-!
Values and the store they live in.  Cells, closures and scope frames are entries of growing tables
and a reference is an index, so identity is equality of references.  Primitives have serial numbers
in its place: zero for the one that global frames bind, and one of its own for each copy.  Source
code read into the store is a value like any other.
-/
set_option autoImplicit false

namespace MiniLisp

inductive Arithmetic where
  | add | sub | mul | div
  deriving DecidableEq, Repr

inductive Comparison where
  | eq | lt | gt | le | ge
  deriving DecidableEq, Repr

inductive Primitive where
  | arithmetic (op : Arithmetic)
  | comparison (op : Comparison)
  | cons | car | cdr | append | list | length | eq | isAtom
  deriving DecidableEq, Repr

/-- Operations that a host may add: reporting, assigning a cell in place, and defining a computed
name in the caller's frame. -/
inductive Hook where
  | trace | setCar | setCdr | defineHere
  deriving DecidableEq, Repr

abbrev CellRef := Nat
abbrev ClosureRef := Nat
abbrev FrameRef := Nat

/-- Integers and truth values come from a host only; no source text denotes one. -/
inductive Value where
  | nil
  | number (x : Double)
  | symbol (name : String)
  | integer (i : Int)
  | bool (b : Bool)
  | cell (r : CellRef)
  | primitive (p : Primitive) (serial : Nat)
  | hook (h : Hook)
  | closure (r : ClosureRef)
  deriving DecidableEq

structure Cell where
  head : Value
  tail : Value
  deriving DecidableEq

/-- A function of one body, with the frame it was made in. -/
structure Closure where
  parameters : Value
  body : Value
  scope : FrameRef
  deriving DecidableEq

/-- Names in the order of their first definition. -/
structure Frame where
  bindings : List (String × Value)
  outer : Option FrameRef
  deriving DecidableEq

inductive Event where
  | traced (texts : List String)
  | closureCreated (r : ClosureRef)
  | called (r : ClosureRef) (arguments : Nat)
  | defined (name : String)
  | functionDefined (name : String)
  | failed (error : Error)
  deriving DecidableEq

/-- The journal holds the newest event first.  Serial numbers up to `serials` are in use. -/
structure Store where
  cells : Array Cell
  closures : Array Closure
  frames : Array Frame
  serials : Nat
  journal : List Event
  deriving DecidableEq

abbrev Action (α : Type) := EStateM Error Store α

namespace Arithmetic

def name : Arithmetic → String
  | add => "+"
  | sub => "-"
  | mul => "*"
  | div => "/"

end Arithmetic

namespace Comparison

def name : Comparison → String
  | eq => "="
  | lt => "<"
  | gt => ">"
  | le => "<="
  | ge => ">="

end Comparison

namespace Primitive

def name : Primitive → String
  | arithmetic op => op.name
  | comparison op => op.name
  | cons => "cons"
  | car => "car"
  | cdr => "cdr"
  | append => "append"
  | list => "list"
  | length => "length"
  | eq => "eq"
  | isAtom => "atom?"

def all : List Primitive :=
  [.arithmetic .add, .arithmetic .sub, .arithmetic .mul, .arithmetic .div, .comparison .eq,
    .comparison .lt, .comparison .gt, .comparison .le, .comparison .ge, .cons, .car, .cdr, .append,
    .list, .length, .eq, .isAtom]

theorem mem_all (p : Primitive) : p ∈ all := by
  cases p with
  | arithmetic op => cases op <;> decide
  | comparison op => cases op <;> decide
  | _ => decide

end Primitive

namespace Hook

def name : Hook → String
  | trace => "trace"
  | setCar => "set-car!"
  | setCdr => "set-cdr!"
  | defineHere => "define-here"

def all : List Hook := [.trace, .setCar, .setCdr, .defineHere]

end Hook

def Double.ofInteger (i : Int) : Except Error Double :=
  match ofInt? i with
  | some x => .ok x
  | none => .error .integerTooLarge

namespace Value

/-- The true answer of a predicate; the false one is Nil. -/
def truth (b : Bool) : Value := if b then .symbol "T" else .nil

def isFunction : Value → Bool
  | primitive _ _ | hook _ | closure _ => true
  | _ => false

end Value

namespace Store

def empty : Store := ⟨#[], #[], #[], 0, []⟩

def cons (s : Store) (head tail : Value) : Value × Store :=
  (.cell s.cells.size, { s with cells := s.cells.push ⟨head, tail⟩ })

def list (s : Store) (items : List Value) (tail : Value) : Value × Store :=
  items.foldr (fun x p => p.2.cons x p.1) (tail, s)

def load (s : Store) : Datum → Value × Store
  | .nil => (.nil, s)
  | .number x => (.number x, s)
  | .symbol name => (.symbol name, s)
  | .cons a d =>
    let p := s.load a
    let q := p.2.load d
    q.2.cons p.1 q.1

def setCell (s : Store) (r : CellRef) (c : Cell) : Store :=
  { s with cells := s.cells.setIfInBounds r c }

def addClosure (s : Store) (c : Closure) : ClosureRef × Store :=
  (s.closures.size, { s with closures := s.closures.push c })

def addPrimitive (s : Store) (p : Primitive) : Value × Store :=
  (.primitive p (s.serials + 1), { s with serials := s.serials + 1 })

def record (s : Store) (e : Event) : Store := { s with journal := e :: s.journal }

/-- The items that a chain of at most `fuel` cells puts before those in `items`, newest first, and
what ends it. -/
def chainFrom (s : Store) : (fuel : Nat) → Value → List Value → List Value × Value
  | fuel + 1, .cell r, items =>
    match s.cells[r]? with
    | some c => s.chainFrom fuel c.tail (c.head :: items)
    | none => (items.reverse, .cell r)
  | _, v, items => (items.reverse, v)

/-- The items of the list that starts at a value, and what ends it.  No chain without a cycle is
longer than the table of cells. -/
def chain (s : Store) (v : Value) : List Value × Value := s.chainFrom s.cells.size v []

def isProperList (s : Store) (v : Value) : Bool := (s.chain v).2 = .nil

def toList? (s : Store) (v : Value) : Except Error (List Value) :=
  let (items, last) := s.chain v
  if last = .nil then .ok items else .error .improperList

end Store

namespace Action

def ofStore {α : Type} (f : Store → α × Store) : Action α := fun s => let p := f s; .ok p.1 p.2

def check {α : Type} (f : Store → Except Error α) : Action α := fun s =>
  match f s with
  | .ok a => .ok a s
  | .error e => .error e s

def update (f : Store → Store) : Action Unit := fun s => .ok () (f s)

end Action
end MiniLisp
