import MiniLisp.Store.Object

/-!
Pickled structures.  A value is written out as instructions by a walk that calls itself for each
slot, tails included, and a machine with a stack makes it anew from them, in a loop.  Both number
what they come by, so that an object is written out once and recalled by its number.
-/
set_option autoImplicit false

namespace MiniLisp

/-- Primitives, instances of Nil's class and entries get the next number as they are made. -/
inductive Instruction where
  | push (v : Value)
  | primitive (p : Primitive)
  | callNil
  | create (shape : Shape)
  | recall (number : Nat)
  | fill (count : Nat)
  deriving DecidableEq

abbrev Writer := StateT (List (Object × Nat)) (Except Error)

namespace Writer

def enter (o : Object) : Writer Unit := modify fun numbers => (o, numbers.length) :: numbers

def once (o : Object) (maker : Instruction) : Writer (List Instruction) := do
  match (← get).lookup o with
  | some number => return [.recall number]
  | none =>
    enter o
    return [maker]

end Writer

structure Loading where
  stack : List Object
  numbered : Array Object
  made : Made
  nilClass : NilClass

namespace Loading

def push (l : Loading) (o : Object) : Loading := { l with stack := o :: l.stack }

def enter (l : Loading) (o : Object) : Loading :=
  { l with stack := o :: l.stack, numbered := l.numbered.push o }

/-- One step of the machine.  There is none where the instructions are not those of a value. -/
def step (s : Store) (l : Loading) : Instruction → Option Loading
  | .push v => some (l.push (.atom v))
  | .primitive p =>
    let (o, made) := l.made.addPrimitive p
    some ({ l with made := made }.enter o)
  | .callNil =>
    let (number, nilClass) := l.nilClass.call
    some ({ l with nilClass := nilClass }.enter (.nil number))
  | .create shape =>
    let (n, made) := l.made.create s shape
    some ({ l with made := made }.enter (.entry n))
  | .recall number => l.numbered[number]?.map l.push
  | .fill count =>
    match l.stack.drop count with
    | .entry n :: rest =>
      some { l with
        stack := .entry n :: rest
        made := l.made.fill s (l.stack.take count).reverse n }
    | _ => none

def run (s : Store) (l : Loading) (code : List Instruction) : Option Loading :=
  code.foldlM (step s) l

end Loading

namespace Store

/-- A call for an entry takes up four levels of the room. -/
def writeObject (s : Store) : (room : Nat) → Object → Writer (List Instruction)
  | _, .nil number => Writer.once (.nil number) .callNil
  | _, .atom (.primitive p serial) => Writer.once (.atom (.primitive p serial)) (.primitive p)
  | _, .atom v => return [.push v]
  | room + 4, .entry n => do
    match (← get).lookup (.entry n) with
    | some number => return [.recall number]
    | none =>
      let (shape, slots) := s.layout n
      Writer.enter (.entry n)
      let parts ← slots.mapM (s.writeObject room)
      return .create shape :: parts.flatten ++ [.fill slots.length]
  | _, .entry _ => throw .recursionTooDeep

def pickled (s : Store) (room : Nat) (v : Value) : Except Error (List Instruction) := do
  let (code, _) ← (s.writeObject room v.object).run []
  return code

def unpickle (s : Store) (code : List Instruction) : Option (Value × Store) := do
  let l ← Loading.run s ⟨[], #[], .start s, NilClass.first.2⟩ code
  match l.stack with
  | [o] => l.made.value? s o
  | _ => none

def pickle (s : Store) (room : Nat) (v : Value) : Except Error (Option (Value × Store)) :=
  (s.pickled room v).map s.unpickle

end Store
end MiniLisp
