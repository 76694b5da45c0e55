import MiniLisp.Store.Object

/-!
Copies of structures.  A shallow copy is one new entry, which shares all it refers to: the copy of a
list has a first cell of its own, and the copy of a function does the same and is another function.
A deep copy makes everything anew that the value leads to, closures with their code and scopes, by
a walk that calls itself for each slot, tails included.  It remembers what it has copied, so what is
shared in the original is shared in the copy.
-/
set_option autoImplicit false

namespace MiniLisp

structure Copying where
  memo : List (Object × Object)
  made : Made

abbrev Copier := StateT Copying (Except Error)

namespace Store

def shallowCopy (s : Store) : Value → Value × Store
  | .cell r =>
    match s.cells[r]? with
    | some c => s.cons c.head c.tail
    | none => (.cell r, s)
  | .closure r =>
    match s.closures[r]? with
    | some c =>
      let (q, s) := s.addClosure c
      (.closure q, s)
    | none => (.closure r, s)
  | .primitive p _ => s.addPrimitive p
  | v => (v, s)

def copyAtom : Value → Copier Object
  | .primitive p serial => do
    let ⟨memo, made⟩ ← get
    match memo.lookup (.atom (.primitive p serial)) with
    | some copy => return copy
    | none =>
      let (copy, made) := made.addPrimitive p
      set (Copying.mk ((.atom (.primitive p serial), copy) :: memo) made)
      return copy
  | v => return .atom v

/-- A call for an entry takes up seven levels of the room.  The copy is remembered before its slots
are copied, so that they may lead back to it. -/
def copyObject (s : Store) : (room : Nat) → Object → Copier Object
  | _, .nil number => return .nil (NilClass.copyHook number)
  | _, .atom v => copyAtom v
  | room + 7, .entry n => do
    let ⟨memo, made⟩ ← get
    match memo.lookup (.entry n) with
    | some copy => return copy
    | none =>
      let (shape, slots) := s.layout n
      let (m, made) := made.create s shape
      set (Copying.mk ((.entry n, .entry m) :: memo) made)
      let slots ← slots.mapM (s.copyObject room)
      modify fun c => { c with made := c.made.fill s slots m }
      return .entry m
  | _, .entry _ => throw .recursionTooDeep

/-- The copy in the store with its entries, if it is a value. -/
def deepCopy (s : Store) (room : Nat) (v : Value) : Except Error (Option (Value × Store)) := do
  let (o, c) ← (s.copyObject room v.object).run ⟨[], .start s⟩
  return c.made.value? s o

end Store
end MiniLisp
