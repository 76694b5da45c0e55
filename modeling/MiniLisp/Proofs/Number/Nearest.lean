import MiniLisp.Proofs.Number.DecimalValue
import Mathlib.Data.Nat.Dist

/-!
Rounding yields the nearest of all magnitudes (`roundUnits_nearest`), hence keeps the order of
quotients (`roundUnits_mono`).  Magnitudes lie so far apart that a relative error below 2^-54 is
rounded away (`roundUnits_near`).  So a decimal is read as the nearest number (`ofDecimal_nearest`),
and all that lie between two that are read alike are read like them (`ofDecimal_between`).
-/
set_option autoImplicit false

namespace MiniLisp

theorem roundHalfEven_cases (num den : Nat) :
    roundHalfEven num den = num / den ∧ 2 * (num % den) ≤ den ∨
      roundHalfEven num den = num / den + 1 ∧ den ≤ 2 * (num % den) := by
  unfold roundHalfEven
  simp only
  split
  · omega
  · split
    · omega
    · rcases Nat.mod_two_eq_zero_or_one (num / den) with h | h <;> omega

theorem roundHalfEven_nearest (num : Nat) {den : Nat} (hd : 0 < den) (k : Nat) :
    Nat.dist num (den * roundHalfEven num den) ≤ Nat.dist num (den * k) := by
  have hnum := Nat.div_add_mod num den
  have hmod := Nat.mod_lt num hd
  have hsucc : den * (num / den + 1) = den * (num / den) + den := Nat.mul_succ ..
  have hside : den * k ≤ den * (num / den) ∨ den * (num / den + 1) ≤ den * k := by
    rcases Nat.lt_or_ge (num / den) k with h | h
    · exact .inr (Nat.mul_le_mul_left den h)
    · exact .inl (Nat.mul_le_mul_left den h)
  unfold Nat.dist
  rcases roundHalfEven_cases num den with ⟨hq, hr⟩ | ⟨hq, hr⟩ <;> rw [hq] <;> omega

theorem ulpExponent_mono {a b : Nat} (h : a ≤ b) : ulpExponent a ≤ ulpExponent b := by
  rcases Nat.eq_zero_or_pos a with rfl | ha
  · simp [ulpExponent]
  · have hb : b ≠ 0 := by omega
    have hlog : a.log2 ≤ b.log2 :=
      (Nat.le_log2 hb).2 (Nat.le_trans (Nat.log2_self_le (Nat.ne_of_gt ha)) h)
    exact Nat.sub_le_sub_right hlog 52

/-- A quotient has a full significand, unless the last place is the smallest there is. -/
theorem le_of_ulpExponent_pos {num den : Nat} (hd : 0 < den) (h : 0 < ulpExponent (num / den)) :
    2 ^ 52 * 2 ^ ulpExponent (num / den) * den ≤ num := by
  have hne : num / den ≠ 0 := by
    intro hzero
    rw [hzero] at h
    exact absurd h (by decide)
  have hlog : 52 + ulpExponent (num / den) = (num / den).log2 := by
    unfold ulpExponent at h ⊢
    omega
  rw [← Nat.pow_add, hlog]
  exact (Nat.le_div_iff_mul_le hd).1 (Nat.log2_self_le hne)

/-- No number of the format is nearer to the quotient; distances are in steps of `1 / den`. -/
theorem roundUnits_nearest (num : Nat) {den : Nat} (hd : 0 < den) {units : Nat}
    (h : Representable units) :
    Nat.dist num (den * roundUnits num den) ≤ Nat.dist num (den * units) := by
  -- Among the multiples of the last place the nearest is taken.
  have hplace : ∀ k, Nat.dist num (den * roundUnits num den) ≤
      Nat.dist num (den * (2 ^ ulpExponent (num / den) * k)) := by
    intro k
    have hpos := Nat.mul_pos hd (Nat.two_pow_pos (ulpExponent (num / den)))
    rw [roundUnits, Nat.mul_comm (roundHalfEven _ _), ← Nat.mul_assoc, ← Nat.mul_assoc]
    exact roundHalfEven_nearest num hpos k
  rcases Nat.lt_or_ge (ulpExponent units) (ulpExponent (num / den)) with hlt | hge
  · -- Finer numbers lie below the least multiple with a full significand, and that one is nearer.
    have hunits : units ≤ 2 ^ ulpExponent (num / den) * 2 ^ 52 := by
      have hbound := lt_two_pow_ulpExponent units
      have hpow : 2 ^ (53 + ulpExponent units) ≤ 2 ^ (ulpExponent (num / den) + 52) :=
        Nat.pow_le_pow_right Nat.two_pos (by omega)
      rw [Nat.pow_add, Nat.pow_add] at hpow
      exact Nat.le_trans (Nat.le_of_lt hbound) hpow
    have hfull := le_of_ulpExponent_pos hd (Nat.zero_lt_of_lt hlt)
    rw [Nat.mul_comm (2 ^ 52), Nat.mul_comm _ den] at hfull
    have hscaled := Nat.mul_le_mul_left den hunits
    refine Nat.le_trans (hplace (2 ^ 52)) ?_
    unfold Nat.dist
    omega
  · obtain ⟨k, hk⟩ := Nat.dvd_trans (Nat.pow_dvd_pow 2 hge) h
    rw [hk]
    exact hplace k

/-- Were the order reversed, each quotient would lie at the middle or on the other's side of it, so
that both are the middle. -/
theorem roundUnits_mono {num num' den den' : Nat} (hd : 0 < den) (hd' : 0 < den')
    (h : num * den' ≤ num' * den) : roundUnits num den ≤ roundUnits num' den' := by
  by_contra hlt
  have hrounded : Representable (roundUnits num den) := representable_roundUnits hd
  have hrounded' : Representable (roundUnits num' den') := representable_roundUnits hd'
  have hnear := roundUnits_nearest num hd hrounded'
  have hnear' := roundUnits_nearest num' hd' hrounded
  have hup : den * roundUnits num' den' < den * roundUnits num den :=
    Nat.mul_lt_mul_of_pos_left (Nat.not_le.1 hlt) hd
  have hup' : den' * roundUnits num' den' < den' * roundUnits num den :=
    Nat.mul_lt_mul_of_pos_left (Nat.not_le.1 hlt) hd'
  have hmiddle : den * (roundUnits num den + roundUnits num' den') ≤ 2 * num := by
    rw [Nat.mul_add]
    unfold Nat.dist at hnear
    omega
  have hmiddle' : 2 * num' ≤ den' * (roundUnits num den + roundUnits num' den') := by
    rw [Nat.mul_add]
    unfold Nat.dist at hnear'
    omega
  have hsame : 2 * (num' * den) ≤ 2 * (num * den') := by
    calc 2 * (num' * den) = 2 * num' * den := (Nat.mul_assoc ..).symm
      _ ≤ den' * (roundUnits num den + roundUnits num' den') * den :=
        Nat.mul_le_mul_right den hmiddle'
      _ = den' * (den * (roundUnits num den + roundUnits num' den')) := by
        rw [Nat.mul_assoc, Nat.mul_comm _ den]
      _ ≤ den' * (2 * num) := Nat.mul_le_mul_left den' hmiddle
      _ = 2 * (num * den') := by rw [Nat.mul_comm, Nat.mul_assoc]
  exact hlt (Nat.le_of_eq (roundUnits_congr hd hd' (by omega)))

theorem Representable.next_le {a b : Nat} (ha : Representable a) (hb : Representable b)
    (hab : a < b) : a + 2 ^ ulpExponent a ≤ b := by
  obtain ⟨j, hj⟩ := ha
  obtain ⟨k, hk⟩ := Nat.dvd_trans (Nat.pow_dvd_pow 2 (ulpExponent_mono (Nat.le_of_lt hab))) hb
  have hjk : j < k := by
    rw [hj, hk] at hab
    exact Nat.lt_of_mul_lt_mul_left hab
  calc a + 2 ^ ulpExponent a = 2 ^ ulpExponent a * (j + 1) := by rw [Nat.mul_succ, ← hj]
    _ ≤ 2 ^ ulpExponent a * k := Nat.mul_le_mul_left _ hjk
    _ = b := hk.symm

/-- Two numbers of the format differ by a 2^53rd part of the larger one at least. -/
theorem Representable.spacing {a b : Nat} (ha : Representable a) (hb : Representable b)
    (h : a < b) : b ≤ (b - a) * 2 ^ 53 := by
  have hnext : a + 2 ^ ulpExponent a ≤ b := ha.next_le hb h
  have hroom : a + 2 ^ ulpExponent a ≤ 2 ^ 53 * 2 ^ ulpExponent a :=
    ha.next_le (representable_mul_pow (Nat.le_refl _)) (lt_two_pow_ulpExponent a)
  omega

theorem roundUnits_near {num den units : Nat} (hu : Representable units)
    (h : Nat.dist num (units * den) * 2 ^ 54 < units * den) : roundUnits num den = units := by
  have hd : 0 < den := Nat.pos_of_mul_pos_left (Nat.zero_lt_of_lt h)
  rw [Nat.mul_comm units] at h
  have hnear := roundUnits_nearest num hd hu
  have hrounded : Representable (roundUnits num den) := representable_roundUnits hd
  generalize roundUnits num den = rounded at hnear hrounded
  unfold Nat.dist at h hnear
  rcases Nat.lt_trichotomy rounded units with hlt | heq | hgt
  · have hgap := Nat.mul_le_mul_left den (hrounded.spacing hu hlt)
    rw [← Nat.mul_assoc, Nat.mul_sub] at hgap
    omega
  · exact heq
  · have hgap := Nat.mul_le_mul_left den (hu.spacing hrounded hgt)
    rw [← Nat.mul_assoc, Nat.mul_sub] at hgap
    omega

theorem cast_dist (a b : Nat) : (Nat.dist a b : ℚ) = |(a : ℚ) - b| := by
  rcases Nat.le_total a b with h | h
  · rw [Nat.dist_eq_sub_of_le h, Nat.cast_sub h, abs_sub_comm, abs_of_nonneg]
    exact sub_nonneg.2 (Nat.cast_le.2 h)
  · rw [Nat.dist_eq_sub_of_le_right h, Nat.cast_sub h, abs_of_nonneg]
    exact sub_nonneg.2 (Nat.cast_le.2 h)

namespace Double

theorem ofDecimal_nearest {d : Decimal} {s : Bool} {m : Magnitude} (h : ofDecimal d = .finite s m)
    (n : Magnitude) :
    |d.value * unitsPerOne - m.units| ≤ |d.value * unitsPerOne - n.units| := by
  have hpos : (0 : ℚ) < d.denominator := Nat.cast_pos.2 d.denominator_pos
  have hdist : ∀ units : Nat, (Nat.dist d.numerator (d.denominator * units) : ℚ) =
      |d.value * unitsPerOne - units| * d.denominator := by
    intro units
    have hfactor : (d.numerator : ℚ) - (d.denominator * units : Nat) =
        (d.value * unitsPerOne - units) * d.denominator := by
      rw [d.numerator_eq, Nat.cast_mul]
      ring
    rw [cast_dist, hfactor, abs_mul, abs_of_pos hpos]
  rw [ofDecimal_eq_ofUnits, ofUnits_eq_finite d.denominator_pos] at h
  have hnear := roundUnits_nearest d.numerator d.denominator_pos n.representable
  rw [h.2] at hnear
  have hscaled : (Nat.dist d.numerator (d.denominator * m.units) : ℚ) ≤
      Nat.dist d.numerator (d.denominator * n.units) := Nat.cast_le.2 hnear
  rw [hdist, hdist] at hscaled
  exact le_of_mul_le_mul_right hscaled hpos

theorem ofDecimal_between {a b c : Decimal} {m : Magnitude} {s t : Bool}
    (ha : ofDecimal a = .finite s m) (hc : ofDecimal c = .finite t m) (hab : a.value ≤ b.value)
    (hbc : b.value ≤ c.value) : ofDecimal b = .finite b.negative m := by
  have hmono : ∀ {x y : Decimal}, x.value ≤ y.value →
      roundUnits x.numerator x.denominator ≤ roundUnits y.numerator y.denominator := by
    intro x y h
    apply roundUnits_mono x.denominator_pos y.denominator_pos
    have hcross : (x.numerator : ℚ) * y.denominator ≤ y.numerator * x.denominator := by
      have hscale : ∀ n : Nat, (0 : ℚ) ≤ n := Nat.cast_nonneg
      rw [x.numerator_eq, y.numerator_eq, mul_right_comm]
      exact mul_le_mul_of_nonneg_right (mul_le_mul_of_nonneg_right
        (mul_le_mul_of_nonneg_right h (hscale _)) (hscale _)) (hscale _)
    exact_mod_cast hcross
  rw [ofDecimal_eq_ofUnits] at ha hc ⊢
  have hma := ((ofUnits_eq_finite a.denominator_pos).1 ha).2
  have hmc := ((ofUnits_eq_finite c.denominator_pos).1 hc).2
  exact (ofUnits_eq_finite b.denominator_pos).2
    ⟨rfl, Nat.le_antisymm (hmc ▸ hmono hbc) (hma ▸ hmono hab)⟩

end Double

end MiniLisp
