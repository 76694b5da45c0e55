import MiniLisp.Number.Double

/-!
Signed decimals and their two passages to binary numbers: the nearest number to a decimal, and the
shortest decimal of a number.  A candidate for the latter is kept only if it reads back to the same
number, and when no short one does, the exact decimal stands in.
-/
set_option autoImplicit false

namespace MiniLisp

/-- Stands for `coefficient * 10 ^ exponent`, negated if `negative`; zero keeps its sign. -/
structure Decimal where
  negative : Bool
  coefficient : Nat
  exponent : Int
  deriving DecidableEq

namespace Double

/-- The nearest number, a half going to the even significand.  A positive exponent above 400 leaves
the range for certain, and so does a decimal below 2^-1080 at the other end, which saves writing out
the power. -/
def ofDecimal (d : Decimal) : Double :=
  if d.coefficient = 0 then .finite d.negative .zero
  else if 400 < d.exponent then .infinity d.negative
  else if (d.coefficient.log2 : Int) + 1 + 3 * d.exponent < -1080 then .finite d.negative .zero
  else .ofUnits d.negative (d.coefficient * 10 ^ d.exponent.toNat * unitsPerOne)
    (10 ^ (-d.exponent).toNat)

end Double

namespace Magnitude

/-- The magnitude in steps of 10^-1074, which is exact since 2^-1074 = 5^1074 / 10^1074. -/
def decimalUnits (m : Magnitude) : Nat := m.units * 5 ^ 1074

def exactDecimal (m : Magnitude) : Decimal := ⟨false, m.decimalUnits, -1074⟩

/-- The neighbours of the magnitude among the multiples of `10 ^ (place - 1074)`, the nearer one
first and of two equally near ones the even one. -/
def neighbours (m : Magnitude) (place : Nat) : List Decimal :=
  let below := m.decimalUnits / 10 ^ place
  let past := 2 * (m.decimalUnits % 10 ^ place)
  let multiple := fun n : Nat => (⟨false, n, (place : Int) - 1074⟩ : Decimal)
  if past < 10 ^ place ∨ past = 10 ^ place ∧ below % 2 = 0 then [multiple below, multiple (below + 1)]
  else [multiple (below + 1), multiple below]

/-- How many decimal digits a count below 2^20000 has.  The factor is log 2 in base ten, rounded up in
the sixth place, so the first guess is off by one at most. -/
def decimalSize (n : Nat) : Nat :=
  let k := n.log2 * 30103 / 100000
  if n < 10 ^ k then k else if n < 10 ^ (k + 1) then k + 1 else k + 2

def readsBack (m : Magnitude) (d : Decimal) : Bool := Double.ofDecimal d = .finite false m

/-- The first grid of 1, 2, … 17 digits with a neighbour that reads back. -/
def shortestAmong (m : Magnitude) : Option Decimal :=
  let size := decimalSize m.decimalUnits
  (List.range 17).findSome? (fun n => (m.neighbours (size - 1 - n)).find? m.readsBack)

end Magnitude

def Decimal.trim (d : Decimal) : Decimal :=
  if h : d.coefficient ≠ 0 ∧ d.coefficient % 10 = 0 then
    Decimal.trim ⟨d.negative, d.coefficient / 10, d.exponent + 1⟩
  else d
termination_by d.coefficient
decreasing_by exact Nat.div_lt_self (Nat.pos_of_ne_zero h.1) (by decide)

def Magnitude.shortest (m : Magnitude) : Decimal :=
  if m.units = 0 then ⟨false, 0, 0⟩ else (m.shortestAmong.getD m.exactDecimal).trim

end MiniLisp
