import MiniLisp.Proofs.Number.Nearest
import Mathlib.Algebra.Group.Nat.Even
import Mathlib.Tactic.Linarith

/-!
What it is to round: the range is left out first, the number of the format nearest to a rational is
taken, of two equally near ones the one whose significand is even, and what then lies past the
largest magnitude is infinite.  Such a number exists (`isNearest_roundUnits`), there is only one
(`IsNearest.unique`), and a decimal is read as it (`ofDecimal_eq_iff`).
-/
set_option autoImplicit false

namespace MiniLisp

/-- The leading bits, up to 53 of them. -/
def significand (units : Nat) : Nat := units / 2 ^ ulpExponent units

/-- Of the numbers with at most 53 significant bits, of any size, this one is nearest to `q`, and if
another is as near then its own last bit is zero. -/
structure IsNearest (q : ℚ) (units : Nat) : Prop where
  representable : Representable units
  nearest : ∀ n, Representable n → |q - units| ≤ |q - n|
  even : ∀ n, Representable n → n ≠ units → |q - n| = |q - units| → Even (significand units)

inductive Rounds (negative : Bool) (v : ℚ) : Double → Prop
  | finite {m : Magnitude} (h : IsNearest (v * unitsPerOne) m.units) :
    Rounds negative v (.finite negative m)
  | overflow {units : Nat} (h : IsNearest (v * unitsPerOne) units) (hlarge : unitLimit ≤ units) :
    Rounds negative v (.infinity negative)

/-! ### Significands -/

/-- A full significand is at least 2^52, and only the smallest numbers do without one. -/
theorem ulpExponent_mul_pow {k e : Nat} (hk : k < 2 ^ 53) (hfull : e = 0 ∨ 2 ^ 52 ≤ k) :
    ulpExponent (k * 2 ^ e) = e := by
  obtain rfl | hk' := hfull
  · have hlog : k.log2 < 53 := by
      rcases Nat.eq_zero_or_pos k with rfl | hpos
      · decide
      · exact (Nat.log2_lt (Nat.ne_of_gt hpos)).2 hk
    rw [Nat.pow_zero, Nat.mul_one, ulpExponent]
    omega
  · have hpos := Nat.two_pow_pos e
    have hne : k * 2 ^ e ≠ 0 := Nat.mul_ne_zero (by omega) (Nat.ne_of_gt hpos)
    have hlog : (k * 2 ^ e).log2 = 52 + e := by
      rw [Nat.log2_eq_iff hne, Nat.add_right_comm, Nat.pow_add, Nat.pow_add]
      exact ⟨Nat.mul_le_mul_right _ hk', Nat.mul_lt_mul_of_pos_right hk hpos⟩
    rw [ulpExponent, hlog]
    omega

theorem significand_mul_pow {k e : Nat} (hk : k < 2 ^ 53) (hfull : e = 0 ∨ 2 ^ 52 ≤ k) :
    significand (k * 2 ^ e) = k := by
  rw [significand, ulpExponent_mul_pow hk hfull, Nat.mul_div_cancel k (Nat.two_pow_pos e)]

theorem significand_carry (e : Nat) : significand (2 ^ 53 * 2 ^ e) = 2 ^ 52 := by
  rw [Nat.pow_succ 2 52, Nat.mul_assoc, ← Nat.pow_succ']
  exact significand_mul_pow (by decide) (.inr (Nat.le_refl _))

theorem significand_lt (units : Nat) : significand units < 2 ^ 53 :=
  Nat.div_lt_of_lt_mul (Nat.mul_comm .. ▸ lt_two_pow_ulpExponent units)

theorem Representable.significand_mul {units : Nat} (h : Representable units) :
    significand units * 2 ^ ulpExponent units = units := Nat.div_mul_cancel h

theorem significand_full (units : Nat) :
    ulpExponent units = 0 ∨ 2 ^ 52 ≤ significand units := by
  rcases Nat.eq_zero_or_pos (ulpExponent units) with h | h
  · exact .inl h
  · have hfull := @le_of_ulpExponent_pos units 1 Nat.one_pos ((Nat.div_one units).symm ▸ h)
    rw [Nat.div_one, Nat.mul_one] at hfull
    exact .inr ((Nat.le_div_iff_mul_le (Nat.two_pow_pos _)).2 hfull)

theorem representable_iff (units : Nat) :
    Representable units ↔ ∃ k e, k < 2 ^ 53 ∧ k * 2 ^ e = units :=
  ⟨fun h => ⟨_, _, significand_lt units, h.significand_mul⟩,
    fun ⟨_, _, hk, h⟩ => h ▸ representable_mul_pow (Nat.le_of_lt hk)⟩

/-! ### One number at most -/

theorem Representable.next {units : Nat} (h : Representable units) :
    Representable (units + 2 ^ ulpExponent units) := by
  have hnext : (significand units + 1) * 2 ^ ulpExponent units =
      units + 2 ^ ulpExponent units := by
    rw [Nat.add_mul, Nat.one_mul, h.significand_mul]
  exact hnext ▸ representable_mul_pow (significand_lt units)

theorem Representable.even_next {units : Nat} (h : Representable units)
    (heven : Even (significand units)) :
    ¬ Even (significand (units + 2 ^ ulpExponent units)) := by
  have hnext : units + 2 ^ ulpExponent units =
      (significand units + 1) * 2 ^ ulpExponent units := by
    rw [Nat.add_mul, Nat.one_mul, h.significand_mul]
  have hlt := significand_lt units
  have hfull : ulpExponent units = 0 ∨ 2 ^ 52 ≤ significand units + 1 :=
    (significand_full units).imp_right (fun h => Nat.le_succ_of_le h)
  rw [Nat.even_iff] at heven
  rw [hnext, significand_mul_pow (by omega) hfull, Nat.even_iff]
  omega

theorem IsNearest.not_lt {q : ℚ} {a b : Nat} (ha : IsNearest q a) (hb : IsNearest q b) :
    ¬ a < b := by
  intro hab
  have hlt : (a : ℚ) < b := Nat.cast_lt.2 hab
  have htie : |q - a| = |q - b| :=
    le_antisymm (ha.nearest b hb.representable) (hb.nearest a ha.representable)
  have hmiddle : q - a = b - q := by
    rcases abs_eq_abs.1 htie with h | h <;> linarith
  have hstep : (a : ℚ) < (a + 2 ^ ulpExponent a : Nat) :=
    Nat.cast_lt.2 (Nat.lt_add_of_pos_right (Nat.two_pow_pos _))
  -- The numbers strictly between two equally near ones would be nearer, so `b` is the next one.
  have hnext : a + 2 ^ ulpExponent a = b := by
    by_contra hne
    have hbelow : ((a + 2 ^ ulpExponent a : Nat) : ℚ) < b :=
      Nat.cast_lt.2 (Nat.lt_of_le_of_ne (ha.representable.next_le hb.representable hab) hne)
    have hnear := ha.nearest _ ha.representable.next
    have hnearer : |q - (a + 2 ^ ulpExponent a : Nat)| < |q - a| := by
      rw [abs_of_pos (a := q - a) (by linarith), abs_lt]
      constructor <;> linarith
    exact absurd hnear (not_le.2 hnearer)
  have heven : Even (significand a) :=
    ha.even b hb.representable (Nat.ne_of_gt hab) htie.symm
  have heven' : Even (significand b) := hb.even a ha.representable (Nat.ne_of_lt hab) htie
  exact ha.representable.even_next heven (hnext ▸ heven')

theorem IsNearest.unique {q : ℚ} {a b : Nat} (ha : IsNearest q a) (hb : IsNearest q b) : a = b :=
  Nat.le_antisymm (Nat.not_lt.1 (hb.not_lt ha)) (Nat.not_lt.1 (ha.not_lt hb))

theorem Rounds.unique {negative : Bool} {v : ℚ} {x y : Double} (hx : Rounds negative v x)
    (hy : Rounds negative v y) : x = y := by
  cases hx with
  | finite hm =>
    cases hy with
    | finite hn => rw [Magnitude.ext_units (hm.unique hn)]
    | overflow hn hlarge => exact absurd (hm.unique hn ▸ Magnitude.lt_limit _) (Nat.not_lt.2 hlarge)
  | overflow hm hlarge =>
    cases hy with
    | finite hn => exact absurd (hn.unique hm ▸ Magnitude.lt_limit _) (Nat.not_lt.2 hlarge)
    | overflow _ _ => rfl

/-! ### One number at least -/

/-- Two integers are equally near only to the middle between them, where the even one is taken. -/
theorem roundHalfEven_even {num den k : Nat} (hd : 0 < den) (hk : k ≠ roundHalfEven num den)
    (htie : Nat.dist num (den * k) = Nat.dist num (den * roundHalfEven num den)) :
    Even (roundHalfEven num den) := by
  have hnum := Nat.div_add_mod num den
  have hmod := Nat.mod_lt num hd
  have hsucc : den * (num / den + 1) = den * (num / den) + den := Nat.mul_succ ..
  have hside : den * k + den ≤ den * (num / den) ∨ k = num / den ∨ k = num / den + 1 ∨
      den * (num / den + 1) + den ≤ den * k := by
    rcases Nat.lt_trichotomy k (num / den) with hlow | heq | hhigh
    · exact .inl (Nat.mul_succ .. ▸ Nat.mul_le_mul_left den hlow)
    · exact .inr (.inl heq)
    · rcases Nat.lt_or_ge (num / den + 1) k with hhigh | hle
      · exact .inr (.inr (.inr (Nat.mul_succ .. ▸ Nat.mul_le_mul_left den hhigh)))
      · exact .inr (.inr (.inl (by omega)))
  have hhalf : 2 * (num % den) = den := by
    unfold Nat.dist at htie
    rcases roundHalfEven_cases num den with ⟨hq, hr⟩ | ⟨hq, hr⟩ <;> rw [hq] at hk htie <;>
      rcases hside with hlow | rfl | rfl | hhigh <;> omega
  rw [Nat.even_iff]
  simp only [roundHalfEven, hhalf, Nat.lt_irrefl, if_false]
  omega

theorem roundHalfEven_le_carry (num : Nat) {den : Nat} (hd : 0 < den) :
    roundHalfEven num (den * 2 ^ ulpExponent (num / den)) ≤ 2 ^ 53 := by
  apply roundHalfEven_le
  have h := lt_two_pow_ulpExponent (num / den)
  rw [Nat.div_lt_iff_lt_mul hd] at h
  rw [Nat.mul_comm den, Nat.mul_right_comm, Nat.mul_comm (2 ^ _)]
  exact h

theorem le_roundHalfEven_full (num : Nat) {den : Nat} (hd : 0 < den) :
    ulpExponent (num / den) = 0 ∨
      2 ^ 52 ≤ roundHalfEven num (den * 2 ^ ulpExponent (num / den)) := by
  rcases Nat.eq_zero_or_pos (ulpExponent (num / den)) with h | h
  · exact .inl h
  · refine .inr (Nat.le_trans ?_ (le_roundHalfEven _ _))
    rw [Nat.le_div_iff_mul_le (Nat.mul_pos hd (Nat.two_pow_pos _)), Nat.mul_comm den,
      ← Nat.mul_assoc]
    exact le_of_ulpExponent_pos hd h

theorem even_significand_roundUnits {num den : Nat} (hd : 0 < den)
    (h : Even (roundHalfEven num (den * 2 ^ ulpExponent (num / den)))) :
    Even (significand (roundUnits num den)) := by
  have hle := roundHalfEven_le_carry num hd
  have hfull := le_roundHalfEven_full num hd
  simp only [roundUnits]
  rcases Nat.lt_or_eq_of_le hle with hlt | heq
  · rw [significand_mul_pow hlt hfull]
    exact h
  · rw [heq, significand_carry]
    decide

/-- A finer number is farther from the quotient than the least one with a full significand. -/
theorem dist_lt_of_finer {num den units : Nat} (hd : 0 < den)
    (h : ulpExponent units < ulpExponent (num / den)) :
    Nat.dist num (den * roundUnits num den) < Nat.dist num (den * units) := by
  have hfull := le_of_ulpExponent_pos hd (Nat.zero_lt_of_lt h)
  have hunits : units < 2 ^ 52 * 2 ^ ulpExponent (num / den) := by
    have hpow : 2 ^ (53 + ulpExponent units) ≤ 2 ^ (52 + ulpExponent (num / den)) :=
      Nat.pow_le_pow_right Nat.two_pos (by omega)
    rw [Nat.pow_add, Nat.pow_add] at hpow
    exact Nat.lt_of_lt_of_le (lt_two_pow_ulpExponent units) hpow
  have hleast : Representable (2 ^ 52 * 2 ^ ulpExponent (num / den)) :=
    representable_mul_pow (Nat.pow_le_pow_right Nat.two_pos (by omega))
  have hscaled := Nat.mul_lt_mul_of_pos_left hunits hd
  rw [Nat.mul_comm _ den] at hfull
  refine Nat.lt_of_le_of_lt (roundUnits_nearest num hd hleast) ?_
  unfold Nat.dist
  omega

theorem roundUnits_even {num den n : Nat} (hd : 0 < den) (hn : Representable n)
    (hne : n ≠ roundUnits num den)
    (htie : Nat.dist num (den * n) = Nat.dist num (den * roundUnits num den)) :
    Even (significand (roundUnits num den)) := by
  rcases Nat.lt_or_ge (ulpExponent n) (ulpExponent (num / den)) with hlt | hge
  · exact absurd htie (Nat.ne_of_gt (dist_lt_of_finer hd hlt))
  · -- Both are multiples of the last place of the quotient.
    obtain ⟨k, rfl⟩ := Nat.dvd_trans (Nat.pow_dvd_pow 2 hge) hn
    apply even_significand_roundUnits hd
    rw [roundUnits, Nat.mul_comm (roundHalfEven _ _)] at hne htie
    rw [← Nat.mul_assoc, ← Nat.mul_assoc] at htie
    exact roundHalfEven_even (Nat.mul_pos hd (Nat.two_pow_pos _)) (fun h => hne (h ▸ rfl)) htie

theorem isNearest_roundUnits (num : Nat) {den : Nat} (hd : 0 < den) :
    IsNearest ((num : ℚ) / den) (roundUnits num den) := by
  have hpos : (0 : ℚ) < den := Nat.cast_pos.2 hd
  have hdist : ∀ n : Nat, (Nat.dist num (den * n) : ℚ) = |(num : ℚ) / den - n| * den := by
    intro n
    rw [cast_dist, ← abs_of_pos hpos, ← abs_mul, abs_of_pos hpos, sub_mul,
      div_mul_cancel₀ _ (ne_of_gt hpos), Nat.cast_mul, mul_comm (den : ℚ)]
  refine ⟨representable_roundUnits hd, fun n hn => ?_, fun n hn hne htie => ?_⟩
  · have hnear : (Nat.dist num (den * roundUnits num den) : ℚ) ≤ Nat.dist num (den * n) :=
      Nat.cast_le.2 (roundUnits_nearest num hd hn)
    rw [hdist, hdist] at hnear
    exact le_of_mul_le_mul_right hnear hpos
  · refine roundUnits_even hd hn hne ?_
    have hsame := congrArg (· * (den : ℚ)) htie
    simp only [← hdist] at hsame
    exact_mod_cast hsame

namespace Double

theorem rounds_ofUnits (negative : Bool) {num den : Nat} (hd : 0 < den) {v : ℚ}
    (hv : v * unitsPerOne = num / den) : Rounds negative v (ofUnits negative num den) := by
  have hnear := isNearest_roundUnits num hd
  rw [← hv] at hnear
  rcases Nat.lt_or_ge (roundUnits num den) unitLimit with hlt | hge
  · let m : Magnitude := ⟨roundUnits num den, representable_roundUnits hd, hlt⟩
    rw [(ofUnits_eq_finite (m := m) hd).2 ⟨rfl, rfl⟩]
    exact .finite hnear
  · rw [ofUnits, Magnitude.nearest?_of_le hge]
    exact .overflow hnear hge

theorem rounds_ofDecimal (d : Decimal) : Rounds d.negative d.value (ofDecimal d) := by
  have hpos : (d.denominator : ℚ) ≠ 0 := Nat.cast_ne_zero.2 (Nat.ne_of_gt d.denominator_pos)
  rw [ofDecimal_eq_ofUnits]
  exact rounds_ofUnits d.negative d.denominator_pos
    ((eq_div_iff hpos).2 d.numerator_eq.symm)

theorem ofDecimal_eq_iff (d : Decimal) (x : Double) :
    ofDecimal d = x ↔ Rounds d.negative d.value x :=
  ⟨fun h => h ▸ rounds_ofDecimal d, fun h => (rounds_ofDecimal d).unique h⟩

end Double
end MiniLisp
