import MiniLisp.Number.Decimal
import MiniLisp.Proofs.Number.Rounding

set_option autoImplicit false

namespace MiniLisp

namespace Decimal

def numerator (d : Decimal) : Nat := d.coefficient * 10 ^ d.exponent.toNat * unitsPerOne

def denominator (d : Decimal) : Nat := 10 ^ (-d.exponent).toNat

theorem denominator_pos (d : Decimal) : 0 < d.denominator := Nat.pow_pos (by decide)

end Decimal

namespace Double

theorem ofUnits_zero (negative : Bool) {den : Nat} (h : 0 < den) :
    ofUnits negative 0 den = .finite negative .zero := ofUnits_of_lt negative h

theorem two_pow_le_ten_pow {k n : Nat} (h : k ≤ 3 * n) : 2 ^ k ≤ 10 ^ n := by
  calc 2 ^ k ≤ 2 ^ (3 * n) := Nat.pow_le_pow_right Nat.two_pos h
    _ = 8 ^ n := by rw [Nat.pow_mul]
    _ ≤ 10 ^ n := Nat.pow_le_pow_left (by decide) n

theorem two_mul_two_pow (a b : Nat) : 2 * (2 ^ a * 2 ^ b) = 2 ^ (a + b + 1) := by
  rw [← Nat.pow_add, Nat.mul_comm, ← Nat.pow_succ]

theorem mul_five_pow_two_pow (u n : Nat) : u * 5 ^ n * 10 ^ 0 * 2 ^ n = u * 10 ^ n := by
  rw [Nat.pow_zero, Nat.mul_one, Nat.mul_assoc, ← Nat.mul_pow]

theorem unitsPerOne_pos : 0 < unitsPerOne := by
  rw [unitsPerOne]
  apply Nat.two_pow_pos

theorem two_pow_split {a b c : Nat} (h : a = b + c) : 2 ^ a = 2 ^ b * 2 ^ c := by
  rw [h, Nat.pow_add]

theorem unitLimit_eq : unitLimit = 2 ^ 1024 * unitsPerOne := by
  rw [unitLimit, unitsPerOne]
  apply two_pow_split
  rfl

theorem ofDecimal_large {d : Decimal} (hc : d.coefficient ≠ 0) (he : 400 < d.exponent) :
    ofUnits d.negative d.numerator d.denominator = .infinity d.negative := by
  have hden : d.denominator = 1 := by
    rw [Decimal.denominator, Int.toNat_of_nonpos (by omega), Nat.pow_zero]
  have hpow : 2 ^ 1024 ≤ 10 ^ d.exponent.toNat := two_pow_le_ten_pow (k := 1024) (by omega)
  apply ofUnits_of_le _ d.denominator_pos
  rw [hden, Nat.mul_one, unitLimit_eq, Decimal.numerator]
  apply Nat.mul_le_mul_right unitsPerOne
  exact Nat.le_trans hpow (Nat.le_mul_of_pos_left _ (Nat.pos_of_ne_zero hc))

theorem ofDecimal_small {d : Decimal}
    (h : (d.coefficient.log2 : Int) + 1 + 3 * d.exponent < -1080) :
    ofUnits d.negative d.numerator d.denominator = .finite d.negative .zero := by
  apply ofUnits_of_lt
  have hn : d.exponent.toNat = 0 := by omega
  have hc : d.coefficient < 2 ^ (d.coefficient.log2 + 1) := Nat.lt_log2_self
  have hpow : 2 ^ (d.coefficient.log2 + 1 + 1074 + 1) ≤ 10 ^ (-d.exponent).toNat :=
    two_pow_le_ten_pow (by omega)
  rw [Decimal.numerator, Decimal.denominator, hn, Nat.pow_zero, Nat.mul_one]
  calc 2 * (d.coefficient * unitsPerOne) < 2 * (2 ^ (d.coefficient.log2 + 1) * unitsPerOne) :=
        Nat.mul_lt_mul_of_pos_left (Nat.mul_lt_mul_of_pos_right hc unitsPerOne_pos) Nat.two_pos
    _ = 2 ^ (d.coefficient.log2 + 1 + 1074 + 1) := by
        rw [unitsPerOne]
        exact two_mul_two_pow (d.coefficient.log2 + 1) 1074
    _ ≤ 10 ^ (-d.exponent).toNat := hpow

theorem ofDecimal_eq_ofUnits (d : Decimal) :
    ofDecimal d = ofUnits d.negative d.numerator d.denominator := by
  unfold ofDecimal
  split
  · rename_i hc
    rw [Decimal.numerator, hc, Nat.zero_mul, Nat.zero_mul, ofUnits_zero _ d.denominator_pos]
  · rename_i hc
    split
    · exact (ofDecimal_large hc (by assumption)).symm
    · split
      · exact (ofDecimal_small (by assumption)).symm
      · rfl

theorem ofDecimal_negative (negative : Bool) {d : Decimal} {m : Magnitude} {s : Bool}
    (h : ofDecimal d = .finite s m) :
    ofDecimal ⟨negative, d.coefficient, d.exponent⟩ = .finite negative m := by
  rw [ofDecimal_eq_ofUnits] at h ⊢
  exact (ofUnits_eq_finite d.denominator_pos).2 ⟨rfl, ((ofUnits_eq_finite d.denominator_pos).1 h).2⟩

/-- The exact decimal of a magnitude is rounded to it: 10^1074 units of one are that many units. -/
theorem ofDecimal_exactDecimal (m : Magnitude) : ofDecimal m.exactDecimal = .finite false m := by
  have hn : m.exactDecimal.numerator = m.units * m.exactDecimal.denominator := by
    have hlarge : m.exactDecimal.exponent.toNat = 0 := rfl
    have hsmall : (-m.exactDecimal.exponent).toNat = 1074 := rfl
    rw [Decimal.numerator, Decimal.denominator, hlarge, hsmall, unitsPerOne]
    exact mul_five_pow_two_pow m.units 1074
  rw [ofDecimal_eq_ofUnits, hn]
  exact ofUnits_units false m m.exactDecimal.denominator_pos

end Double
end MiniLisp
