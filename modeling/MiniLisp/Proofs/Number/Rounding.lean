import MiniLisp.Number.Double

set_option autoImplicit false

namespace MiniLisp

theorem roundHalfEven_mul_left {k : Nat} (hk : 0 < k) (num den : Nat) :
    roundHalfEven (k * num) (k * den) = roundHalfEven num den := by
  unfold roundHalfEven
  have hlt : 2 * (k * (num % den)) < k * den ↔ 2 * (num % den) < den := by
    rw [Nat.mul_left_comm, Nat.mul_lt_mul_left hk]
  have hgt : k * den < 2 * (k * (num % den)) ↔ den < 2 * (num % den) := by
    rw [Nat.mul_left_comm, Nat.mul_lt_mul_left hk]
  simp only [Nat.mul_div_mul_left _ _ hk, Nat.mul_mod_mul_left, hlt, hgt]

theorem roundUnits_mul_left {k : Nat} (hk : 0 < k) (num den : Nat) :
    roundUnits (k * num) (k * den) = roundUnits num den := by
  simp only [roundUnits, Nat.mul_div_mul_left _ _ hk, Nat.mul_assoc, roundHalfEven_mul_left hk]

theorem roundUnits_congr {num den num' den' : Nat} (hd : 0 < den) (hd' : 0 < den')
    (h : num * den' = num' * den) : roundUnits num den = roundUnits num' den' := by
  rw [← roundUnits_mul_left hd' num den, ← roundUnits_mul_left hd num' den', Nat.mul_comm den' num,
    Nat.mul_comm den num', h, Nat.mul_comm den den']

theorem roundHalfEven_mul_self (q : Nat) {den : Nat} (hd : 0 < den) :
    roundHalfEven (den * q) den = q := by
  unfold roundHalfEven
  simp [Nat.mul_div_cancel_left q hd, hd]

theorem roundUnits_of_representable {units : Nat} (h : Representable units) :
    roundUnits units 1 = units := by
  obtain ⟨q, hq⟩ := h
  simp only [roundUnits, Nat.div_one, Nat.one_mul]
  have hr : roundHalfEven units (2 ^ ulpExponent units) = q := by
    conv => lhs; arg 1; rw [hq]
    exact roundHalfEven_mul_self q (Nat.two_pow_pos _)
  rw [hr, Nat.mul_comm]
  exact hq.symm

theorem le_roundHalfEven (num den : Nat) : num / den ≤ roundHalfEven num den := by
  unfold roundHalfEven
  simp only
  split
  · exact Nat.le_refl _
  · split <;> omega

theorem two_pow_log2_le_roundUnits {num den : Nat} (hd : 0 < den) (h : num / den ≠ 0) :
    2 ^ (num / den).log2 ≤ roundUnits num den := by
  have hfloor : 2 ^ (num / den).log2 * den ≤ num :=
    (Nat.le_div_iff_mul_le hd).1 (Nat.log2_self_le h)
  have hexp : ulpExponent (num / den) ≤ (num / den).log2 := Nat.sub_le _ _
  have hpow : 2 ^ ((num / den).log2 - ulpExponent (num / den)) * 2 ^ ulpExponent (num / den) =
      2 ^ (num / den).log2 := by rw [← Nat.pow_add, Nat.sub_add_cancel hexp]
  have hq : 2 ^ ((num / den).log2 - ulpExponent (num / den)) ≤
      num / (den * 2 ^ ulpExponent (num / den)) := by
    rw [Nat.le_div_iff_mul_le (Nat.mul_pos hd (Nat.two_pow_pos _)), Nat.mul_comm den,
      ← Nat.mul_assoc, hpow]
    exact hfloor
  calc 2 ^ (num / den).log2
      = 2 ^ ((num / den).log2 - ulpExponent (num / den)) * 2 ^ ulpExponent (num / den) := hpow.symm
    _ ≤ roundUnits num den :=
      Nat.mul_le_mul_right _ (Nat.le_trans hq (le_roundHalfEven _ _))

/-- A quotient past a power of two is not rounded back before it. -/
theorem two_pow_le_roundUnits (k : Nat) {num den : Nat} (hd : 0 < den) (h : 2 ^ k * den ≤ num) :
    2 ^ k ≤ roundUnits num den := by
  have hq : 2 ^ k ≤ num / den := (Nat.le_div_iff_mul_le hd).2 h
  have hne : num / den ≠ 0 := Nat.ne_of_gt (Nat.lt_of_lt_of_le (Nat.two_pow_pos k) hq)
  calc 2 ^ k ≤ 2 ^ (num / den).log2 :=
        Nat.pow_le_pow_right Nat.two_pos ((Nat.le_log2 hne).2 hq)
    _ ≤ roundUnits num den := two_pow_log2_le_roundUnits hd hne

theorem unitLimit_le_roundUnits {num den : Nat} (hd : 0 < den) (h : unitLimit * den ≤ num) :
    unitLimit ≤ roundUnits num den := by
  rw [unitLimit] at h ⊢
  exact two_pow_le_roundUnits 2098 hd h

theorem roundUnits_eq_zero {num den : Nat} (h : 2 * num < den) : roundUnits num den = 0 := by
  have hq : num / den = 0 := Nat.div_eq_of_lt (by omega)
  simp only [roundUnits, hq, ulpExponent, Nat.log2_zero, Nat.zero_sub, Nat.pow_zero, Nat.mul_one,
    roundHalfEven, Nat.mod_eq_of_lt (show num < den by omega), if_pos h]

namespace Magnitude

theorem ext_units {m n : Magnitude} (h : m.units = n.units) : m = n := by
  cases m; cases n; cases h; rfl

theorem nearest?_of_units {m : Magnitude} {num den : Nat} (hd : 0 < den)
    (h : roundUnits num den = m.units) : nearest? num den = some m := by
  have hlt : roundUnits num den < unitLimit := h ▸ m.lt_limit
  rw [nearest?, dif_pos hd, dif_pos hlt]
  exact congrArg some (ext_units h)

theorem units_of_nearest? {num den : Nat} {m : Magnitude} (h : nearest? num den = some m) :
    roundUnits num den = m.units := by
  unfold nearest? at h
  split at h
  · split at h
    · rw [← Option.some.inj h]
    · cases h
  · cases h

theorem nearest?_of_le {num den : Nat} (h : unitLimit ≤ roundUnits num den) :
    nearest? num den = none := by
  unfold nearest?
  split
  · rw [dif_neg (Nat.not_lt.2 h)]
  · rfl

theorem nearest?_congr {num den num' den' : Nat} (hd : 0 < den) (hd' : 0 < den')
    (h : num * den' = num' * den) : nearest? num den = nearest? num' den' := by
  have hr := roundUnits_congr hd hd' h
  rcases Nat.lt_or_ge (roundUnits num den) unitLimit with hlt | hge
  · let m : Magnitude := ⟨roundUnits num den, representable_roundUnits hd, hlt⟩
    rw [nearest?_of_units (m := m) hd rfl, nearest?_of_units (m := m) hd' hr.symm]
  · rw [nearest?_of_le hge, nearest?_of_le (hr ▸ hge)]

theorem nearest?_units (m : Magnitude) {k : Nat} (hk : 0 < k) :
    nearest? (m.units * k) k = some m := by
  have hr : roundUnits (m.units * k) k = roundUnits m.units 1 :=
    roundUnits_congr hk Nat.one_pos (Nat.mul_one _)
  exact nearest?_of_units hk (hr.trans (roundUnits_of_representable m.representable))

end Magnitude

namespace Double

theorem natAbs_signed (negative : Bool) (units : Nat) :
    (signed negative units).natAbs = units := by cases negative <;> simp [signed]

theorem ofUnits_congr (negative : Bool) {num den num' den' : Nat} (hd : 0 < den) (hd' : 0 < den')
    (h : num * den' = num' * den) : ofUnits negative num den = ofUnits negative num' den' := by
  rw [ofUnits, ofUnits, Magnitude.nearest?_congr hd hd' h]

theorem ofUnits_eq_finite {negative s : Bool} {num den : Nat} {m : Magnitude} (hd : 0 < den) :
    ofUnits negative num den = .finite s m ↔ negative = s ∧ roundUnits num den = m.units := by
  constructor
  · intro h
    unfold ofUnits at h
    cases hn : Magnitude.nearest? num den with
    | none =>
      rw [hn] at h
      cases h
    | some n =>
      rw [hn] at h
      cases h
      exact ⟨rfl, Magnitude.units_of_nearest? hn⟩
  · rintro ⟨rfl, h⟩
    rw [ofUnits, Magnitude.nearest?_of_units hd h]

theorem ofUnits_of_le (negative : Bool) {num den : Nat} (hd : 0 < den)
    (h : unitLimit * den ≤ num) : ofUnits negative num den = .infinity negative := by
  rw [ofUnits, Magnitude.nearest?_of_le (unitLimit_le_roundUnits hd h)]

theorem ofUnits_of_lt (negative : Bool) {num den : Nat} (h : 2 * num < den) :
    ofUnits negative num den = .finite negative .zero := by
  rw [ofUnits, Magnitude.nearest?_of_units (m := .zero) (by omega) (roundUnits_eq_zero h)]

theorem ofUnits_units (negative : Bool) (m : Magnitude) {k : Nat} (hk : 0 < k) :
    ofUnits negative (m.units * k) k = .finite negative m := by
  rw [ofUnits, m.nearest?_units hk]

end Double
end MiniLisp
