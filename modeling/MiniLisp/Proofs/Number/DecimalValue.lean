import MiniLisp.Proofs.Number.Quotient
import Mathlib.Algebra.Order.Field.Power
import Mathlib.Data.Rat.Cast.Order
import Mathlib.Tactic.Ring

set_option autoImplicit false

namespace MiniLisp

namespace Decimal

def value (d : Decimal) : ℚ := d.coefficient * 10 ^ d.exponent

theorem value_mul_pow (negative : Bool) (c k : Nat) (e : Int) :
    (⟨negative, c * 10 ^ k, e⟩ : Decimal).value = (⟨negative, c, e + k⟩ : Decimal).value := by
  have h : (10 : ℚ) ^ (e + k) = 10 ^ e * 10 ^ k := by
    rw [zpow_add₀ (by norm_num), zpow_natCast]
  simp only [value, Nat.cast_mul, Nat.cast_pow, Nat.cast_ofNat, h]
  ring

theorem numerator_eq (d : Decimal) :
    (d.numerator : ℚ) = d.value * unitsPerOne * d.denominator := by
  have h : (10 : ℚ) ^ d.exponent.toNat = 10 ^ d.exponent * 10 ^ (-d.exponent).toNat := by
    rw [← zpow_natCast, ← zpow_natCast, ← zpow_add₀ (by norm_num)]
    congr 1
    omega
  simp only [numerator, denominator, value, Nat.cast_mul, Nat.cast_pow, Nat.cast_ofNat, h]
  ring

theorem trim_keeps (d : Decimal) : d.trim.negative = d.negative ∧ d.trim.value = d.value := by
  fun_induction trim d with
  | case1 d h ih =>
    refine ⟨ih.1, ih.2.trans ?_⟩
    have hc : d.coefficient / 10 * 10 ^ 1 = d.coefficient := by
      rw [Nat.pow_one, Nat.div_mul_cancel (Nat.dvd_of_mod_eq_zero h.2)]
    have hv := value_mul_pow d.negative (d.coefficient / 10) 1 d.exponent
    rw [hc] at hv
    exact hv.symm
  | case2 d h => exact ⟨rfl, rfl⟩

end Decimal

namespace Double

theorem ofDecimal_congr {d d' : Decimal} (hs : d.negative = d'.negative) (hv : d.value = d'.value) :
    ofDecimal d = ofDecimal d' := by
  rw [ofDecimal_eq_ofUnits, ofDecimal_eq_ofUnits, hs]
  apply ofUnits_congr _ d.denominator_pos d'.denominator_pos
  have h : (d.numerator : ℚ) * d'.denominator = d'.numerator * d.denominator := by
    rw [Decimal.numerator_eq, Decimal.numerator_eq, hv]
    ring
  exact_mod_cast h

theorem ofDecimal_trim (d : Decimal) : ofDecimal d.trim = ofDecimal d :=
  ofDecimal_congr d.trim_keeps.1 d.trim_keeps.2

end Double

namespace Magnitude

theorem readsBack_shortestAmong {m : Magnitude} {d : Decimal} (h : m.shortestAmong = some d) :
    Double.ofDecimal d = .finite false m := by
  obtain ⟨n, _, hn⟩ := List.exists_of_findSome?_eq_some h
  have hd : m.readsBack d = true := List.find?_some hn
  exact of_decide_eq_true hd

theorem ofDecimal_shortest (m : Magnitude) : Double.ofDecimal m.shortest = .finite false m := by
  unfold shortest
  split
  · rename_i h
    obtain rfl : m = .zero := ext_units h
    rw [Double.ofDecimal, if_pos rfl]
  · rw [Double.ofDecimal_trim]
    cases hs : m.shortestAmong with
    | none => exact Double.ofDecimal_exactDecimal m
    | some d => exact readsBack_shortestAmong hs

end Magnitude
end MiniLisp
