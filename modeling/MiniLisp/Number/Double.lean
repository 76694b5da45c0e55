/-!
Binary64 numbers with exact integer arithmetic.  A magnitude is a count of the smallest positive
step 2^-1074, so sums are sums of integers and every other result is one rounding of a quotient.
The main statement is `representable_roundUnits`: what rounding yields is again a magnitude of the
format, or lies past its largest one.
-/
set_option autoImplicit false

-- Powers of natural numbers are the built-in ones, also where a monoid gives others.
attribute [instance (high), default_instance (high + 1)] instPowNat

namespace MiniLisp

/-- The binary exponent that the leading bit of a unit count asks for; counts below 2^53 need none. -/
def ulpExponent (units : Nat) : Nat := units.log2 - 52

/-- The first unit count past the largest finite magnitude: 2^1024 in steps of 2^-1074. -/
def unitLimit : Nat := 2 ^ 2098

theorem unitLimit_pos : 0 < unitLimit := by rw [unitLimit]; apply Nat.two_pow_pos

def unitsPerOne : Nat := 2 ^ 1074

/-- At most 53 significant bits, ignoring the range. -/
def Representable (units : Nat) : Prop := 2 ^ ulpExponent units ∣ units

instance (units : Nat) : Decidable (Representable units) := inferInstanceAs (Decidable (_ ∣ _))

structure Magnitude where
  units : Nat
  representable : Representable units
  lt_limit : units < unitLimit
  deriving DecidableEq

inductive Double where
  | nan
  | infinity (negative : Bool)
  | finite (negative : Bool) (magnitude : Magnitude)
  deriving DecidableEq

/-- The integer nearest to `num / den`; a half goes to the even neighbour. -/
def roundHalfEven (num den : Nat) : Nat :=
  let q := num / den
  let r := num % den
  if 2 * r < den then q else if den < 2 * r then q + 1 else q + q % 2

def roundUnits (num den : Nat) : Nat :=
  let e := ulpExponent (num / den)
  roundHalfEven num (den * 2 ^ e) * 2 ^ e

theorem roundHalfEven_le {num den k : Nat} (h : num < den * k) : roundHalfEven num den ≤ k := by
  have hq : num / den < k := Nat.div_lt_of_lt_mul h
  unfold roundHalfEven
  simp only
  split
  · omega
  · split <;> omega

theorem representable_mul_pow {m e : Nat} (h : m ≤ 2 ^ 53) : Representable (m * 2 ^ e) := by
  unfold Representable ulpExponent
  by_cases hm : m = 0
  · subst hm; simp
  have h2 : 2 ^ e ≠ 0 := Nat.ne_of_gt (Nat.two_pow_pos e)
  have hne : m * 2 ^ e ≠ 0 := Nat.mul_ne_zero hm h2
  by_cases hlt : m < 2 ^ 53
  · have hl : (m * 2 ^ e).log2 < 53 + e := by
      rw [Nat.log2_lt hne, Nat.pow_add]
      exact Nat.mul_lt_mul_of_pos_right hlt (Nat.two_pow_pos e)
    exact Nat.dvd_trans (Nat.pow_dvd_pow 2 (by omega)) (Nat.dvd_mul_left _ _)
  · have hm53 : m = 2 ^ 53 := by omega
    subst hm53
    rw [← Nat.pow_add, Nat.log2_two_pow]
    exact Nat.pow_dvd_pow 2 (by omega)

theorem lt_two_pow_ulpExponent (units : Nat) : units < 2 ^ 53 * 2 ^ ulpExponent units := by
  have h : units < 2 ^ (units.log2 + 1) := Nat.lt_log2_self
  have hp : 2 ^ (units.log2 + 1) ≤ 2 ^ (53 + ulpExponent units) :=
    Nat.pow_le_pow_right (by decide) (by unfold ulpExponent; omega)
  rw [← Nat.pow_add]
  exact Nat.lt_of_lt_of_le h hp

theorem representable_roundUnits {num den : Nat} (hd : 0 < den) :
    Representable (roundUnits num den) := by
  unfold roundUnits
  apply representable_mul_pow
  apply roundHalfEven_le
  have h := lt_two_pow_ulpExponent (num / den)
  rw [Nat.div_lt_iff_lt_mul hd] at h
  calc num < 2 ^ 53 * 2 ^ ulpExponent (num / den) * den := h
    _ = den * 2 ^ ulpExponent (num / den) * 2 ^ 53 := by
      rw [Nat.mul_comm, Nat.mul_comm (2 ^ 53), Nat.mul_assoc]

namespace Magnitude

def zero : Magnitude := ⟨0, Nat.dvd_zero _, unitLimit_pos⟩

/-- The magnitude nearest to `num / den` units, none past the largest; a half goes to the even
significand. -/
def nearest? (num den : Nat) : Option Magnitude :=
  if hd : 0 < den then
    if h : roundUnits num den < unitLimit then some ⟨roundUnits num den, representable_roundUnits hd, h⟩
    else none
  else none

end Magnitude

namespace Double

def ofUnits (negative : Bool) (num den : Nat) : Double :=
  match Magnitude.nearest? num den with
  | some m => .finite negative m
  | none => .infinity negative

def zero : Double := .finite false .zero
def one : Double := .ofUnits false unitsPerOne 1

/-- The nearest number to an integer, none when that would be infinite. -/
def ofInt? (i : Int) : Option Double :=
  (Magnitude.nearest? (i.natAbs * unitsPerOne) 1).map (.finite (i < 0))

/-- Exact for every length that a list can have in practice, and rounded beyond. -/
def ofNat (n : Nat) : Double := .ofUnits false (n * unitsPerOne) 1

def signed (negative : Bool) (units : Nat) : Int := if negative then -units else units

/-- The place on the line of unit counts; both zeros share one and NaN has none. -/
def position? : Double → Option Int
  | .nan => none
  | .infinity s => some (signed s unitLimit)
  | .finite s m => some (signed s m.units)

def compare (test : Int → Int → Bool) (x y : Double) : Bool :=
  match x.position?, y.position? with
  | some a, some b => test a b
  | _, _ => false

def eq : Double → Double → Bool := compare (fun a b => a == b)
def lt : Double → Double → Bool := compare (fun a b => a < b)
def le : Double → Double → Bool := compare (fun a b => a ≤ b)

def neg : Double → Double
  | .nan => .nan
  | .infinity s => .infinity !s
  | .finite s m => .finite (!s) m

/-- An exact sum of zero is negative only if both terms are. -/
def add : Double → Double → Double
  | .nan, _ | _, .nan => .nan
  | .infinity s, .infinity t => if s = t then .infinity s else .nan
  | .infinity s, .finite _ _ => .infinity s
  | .finite _ _, .infinity t => .infinity t
  | .finite s a, .finite t b =>
    let sum := signed s a.units + signed t b.units
    if sum = 0 then .finite (s && t) .zero else ofUnits (sum < 0) sum.natAbs 1

def sub (x y : Double) : Double := x.add y.neg

def mul : Double → Double → Double
  | .nan, _ | _, .nan => .nan
  | .infinity s, .infinity t => .infinity (s != t)
  | .infinity s, .finite t b => if b.units = 0 then .nan else .infinity (s != t)
  | .finite s a, .infinity t => if a.units = 0 then .nan else .infinity (s != t)
  | .finite s a, .finite t b => ofUnits (s != t) (a.units * b.units) unitsPerOne

/-- Dividing by a zero gives an infinity, or NaN when the dividend is a zero or NaN. -/
def div : Double → Double → Double
  | .nan, _ | _, .nan => .nan
  | .infinity _, .infinity _ => .nan
  | .infinity s, .finite t _ => .infinity (s != t)
  | .finite s _, .infinity t => .finite (s != t) .zero
  | .finite s a, .finite t b =>
    if b.units = 0 then if a.units = 0 then .nan else .infinity (s != t)
    else ofUnits (s != t) (a.units * unitsPerOne) b.units

end Double
end MiniLisp
