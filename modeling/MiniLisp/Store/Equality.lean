import MiniLisp.Value

/-!
Structural equality.  A cell equals itself, and two cells are equal if their heads and tails are.
Numbers, integers and truth values compare by exact value, with True as one, and functions by
identity.  Values that are no cells have a test of their own for being different; a pair with a cell
in it differs where it is not equal.  Lists are compared in a loop along their tails, which calls
itself for the heads, so where there is room for some calls only, what is nested more deeply in its
heads cannot be compared.
-/
set_option autoImplicit false

namespace MiniLisp

/-- The exact value in units, for values that have a finite one. -/
def Value.exactUnits? : Value → Option Int
  | number (.finite s m) => some (Double.signed s m.units)
  | integer i => some (i * unitsPerOne)
  | bool b => some (if b then unitsPerOne else 0)
  | _ => none

def Value.equalAtoms : Value → Value → Bool
  | number x, number y => x.eq y
  | a, b =>
    match a.exactUnits?, b.exactUnits? with
    | some i, some j => i = j
    | none, none => a = b
    | _, _ => false

/-- NaN differs from every number. -/
def Double.ne (x y : Double) : Bool :=
  match x.position?, y.position? with
  | some a, some b => a != b
  | _, _ => true

def Value.differAtoms : Value → Value → Bool
  | number x, number y => x.ne y
  | a, b =>
    match a.exactUnits?, b.exactUnits? with
    | some i, some j => i ≠ j
    | none, none => a ≠ b
    | _, _ => true

/-- Whether two values differ.  What has a cell in it is left to a test for equality. -/
def Value.differBy (equal : Value → Value → Except Error Bool) : Value → Value → Except Error Bool
  | .cell q, b => (equal (.cell q) b).map (!·)
  | a, .cell r => (equal a (.cell r)).map (!·)
  | a, b => .ok (a.differAtoms b)

namespace Store

/-- The loop along the tails, which compares the heads it comes by with `equal`. -/
def equalAlong (s : Store) (equal : Value → Value → Except Error Bool) :
    (fuel : Nat) → Value → Value → Except Error Bool
  | fuel, .cell q, .cell r =>
    if q = r then .ok true
    else
      match fuel, s.cells[q]?, s.cells[r]? with
      | fuel + 1, some c, some d => do
        if ← Value.differBy equal c.head d.head then return false
        s.equalAlong equal fuel c.tail d.tail
      | _, _, _ => .ok false
  | _, a, b => .ok (a.equalAtoms b)

/-- A call takes up three levels of the room.  No loop without a cycle passes more cells than there
are. -/
def equal (s : Store) : (room : Nat) → Value → Value → Except Error Bool
  | room + 3, a, b => s.equalAlong (s.equal room) s.cells.size a b
  | _, .cell _, .cell _ => .error .recursionTooDeep
  | _, a, b => .ok (a.equalAtoms b)

def differ (s : Store) (room : Nat) : Value → Value → Except Error Bool :=
  Value.differBy (s.equal room)

end Store
end MiniLisp
