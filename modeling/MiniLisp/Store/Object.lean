import MiniLisp.Store.Node

/-!
Objects.  A host copies values as a graph of objects with slots, and knows nothing of Lisp in that.
What it has made is a store again if all its slots hold values; another instance of Nil's class than
Nil is none.
-/
set_option autoImplicit false

namespace MiniLisp

/-- The class of Nil: the instance that it keeps, by number, and how many it has made. -/
structure NilClass where
  kept? : Option Nat
  made : Nat
  deriving DecidableEq

namespace NilClass

/-- A call of the class makes an instance only if none is kept. -/
def call (c : NilClass) : Nat × NilClass :=
  match c.kept? with
  | some number => (number, c)
  | none => (c.made, ⟨some c.made, c.made + 1⟩)

/-- The class and Nil, which is what its first call gives. -/
def first : Nat × NilClass := call ⟨none, 0⟩

/-- An instance that is to be copied gives itself. -/
def copyHook (number : Nat) : Nat := number

end NilClass

/-- An instance of Nil's class, an entry with slots, or a value that has nothing inside. -/
inductive Object where
  | nil (number : Nat)
  | entry (n : Node)
  | atom (v : Value)
  deriving DecidableEq

/-- The class of an entry.  The names of a frame belong to it. -/
inductive Shape where
  | cell
  | closure
  | frame (names : List String)
  deriving DecidableEq

def Value.object : Value → Object
  | nil => .nil NilClass.first.1
  | cell r => .entry (.cell r)
  | closure r => .entry (.closure r)
  | v => .atom v

def Object.value? : Object → Option Value
  | nil number => if number = NilClass.first.1 then some .nil else none
  | entry (.cell r) => some (.cell r)
  | entry (.closure r) => some (.closure r)
  | entry (.frame _) => none
  | atom v => some v

def Cell.slots (c : Cell) : List Object := [c.head.object, c.tail.object]

def Cell.ofSlots? : List Object → Option Cell
  | [head, tail] => do return ⟨← head.value?, ← tail.value?⟩
  | _ => none

def Closure.slots (c : Closure) : List Object :=
  [c.parameters.object, c.body.object, .entry (.frame c.scope)]

def Closure.ofSlots? : List Object → Option Closure
  | [parameters, body, .entry (.frame scope)] =>
    do return ⟨← parameters.value?, ← body.value?, scope⟩
  | _ => none

def Frame.names (f : Frame) : List String := f.bindings.map Prod.fst

def Frame.slots (f : Frame) : List Object :=
  f.bindings.map (·.2.object) ++ f.outer.toList.map (fun r => .entry (.frame r))

def Frame.ofSlots? (names : List String) (slots : List Object) : Option Frame := do
  let values ← (slots.take names.length).mapM Object.value?
  match slots.drop names.length with
  | [] => return ⟨names.zip values, none⟩
  | [.entry (.frame outer)] => return ⟨names.zip values, some outer⟩
  | _ => none

def Store.layout (s : Store) : Node → Shape × List Object
  | .cell r => (.cell, (s.cells[r]?.map Cell.slots).getD [])
  | .closure r => (.closure, (s.closures[r]?.map Closure.slots).getD [])
  | .frame r =>
    (.frame ((s.frames[r]?.map Frame.names).getD []), (s.frames[r]?.map Frame.slots).getD [])

/-- The slots of what has been made beside the entries of a store. -/
structure Made where
  cells : Array (List Object)
  closures : Array (List Object)
  frames : Array (List String × List Object)
  serials : Nat

namespace Made

variable (s : Store)

def start : Made := ⟨#[], #[], #[], s.serials⟩

def create (m : Made) : Shape → Node × Made
  | .cell => (.cell (s.cells.size + m.cells.size), { m with cells := m.cells.push [] })
  | .closure =>
    (.closure (s.closures.size + m.closures.size), { m with closures := m.closures.push [] })
  | .frame names =>
    (.frame (s.frames.size + m.frames.size), { m with frames := m.frames.push (names, []) })

def fill (m : Made) (slots : List Object) : Node → Made
  | .cell r => { m with cells := m.cells.setIfInBounds (r - s.cells.size) slots }
  | .closure r => { m with closures := m.closures.setIfInBounds (r - s.closures.size) slots }
  | .frame r =>
    { m with frames := m.frames.modify (r - s.frames.size) (fun f => (f.1, slots)) }

/-- The primitive once more, under a serial number of its own. -/
def addPrimitive (m : Made) (p : Primitive) : Object × Made :=
  (.atom (.primitive p (m.serials + 1)), { m with serials := m.serials + 1 })

def store? (m : Made) : Option Store := do
  let cells ← m.cells.toList.mapM Cell.ofSlots?
  let closures ← m.closures.toList.mapM Closure.ofSlots?
  let frames ← m.frames.toList.mapM (fun f => Frame.ofSlots? f.1 f.2)
  return { s with
    cells := s.cells ++ cells.toArray
    closures := s.closures ++ closures.toArray
    frames := s.frames ++ frames.toArray
    serials := m.serials }

def value? (m : Made) (o : Object) : Option (Value × Store) := do
  return (← o.value?, ← m.store? s)

end Made
end MiniLisp
