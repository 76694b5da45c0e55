import MiniLisp.Proofs.Number.Nearest
import Mathlib.Tactic.LinearCombination
import Mathlib.Tactic.Positivity

/-!
The shortest decimal of a magnitude has the fewest digits of all decimals that read back to it
(`length_shortest_le`).  On the grid of as many digits as such a decimal has, a neighbour of the
magnitude lies between the two and reads back too (`exists_neighbour`); on the grid of 17 digits the
nearer neighbour always does (`exists_neighbour_seventeen`).
-/
set_option autoImplicit false

namespace MiniLisp

namespace Decimal

theorem trim_coefficient_le (d : Decimal) : d.trim.coefficient ≤ d.coefficient := by
  fun_induction trim d with
  | case1 d h ih => exact Nat.le_trans ih (Nat.div_le_self ..)
  | case2 d h => exact Nat.le_refl _

theorem trim_coefficient_lt {d : Decimal} {k : Nat} (hk : 0 < k) (h : d.coefficient ≤ 10 ^ k) :
    d.trim.coefficient < 10 ^ k := by
  rcases Nat.lt_or_eq_of_le h with hlt | heq
  · exact Nat.lt_of_le_of_lt d.trim_coefficient_le hlt
  · have hpos : 0 < 10 ^ k := Nat.pow_pos (by decide)
    have hdvd : 10 ∣ 10 ^ k := Dvd.dvd.pow (Nat.dvd_refl 10) (Nat.ne_of_gt hk)
    rw [trim, dif_pos ⟨by omega, by omega⟩]
    refine Nat.lt_of_le_of_lt (trim_coefficient_le _) ?_
    rw [heq]
    exact Nat.div_lt_self hpos (by decide)

end Decimal

theorem pow_le_pow_of_pow_le {a b p q : Nat} (h : a ^ p ≤ b ^ q) (hp : p ≠ 0) (hb : 0 < b)
    {i j : Nat} (hij : q * i ≤ p * j) : a ^ i ≤ b ^ j := by
  refine (Nat.pow_le_pow_iff_left hp).1 ?_
  calc (a ^ i) ^ p = (a ^ p) ^ i := by rw [← Nat.pow_mul, Nat.mul_comm, Nat.pow_mul]
    _ ≤ (b ^ q) ^ i := Nat.pow_le_pow_left h i
    _ = b ^ (q * i) := (Nat.pow_mul ..).symm
    _ ≤ b ^ (p * j) := Nat.pow_le_pow_right hb hij
    _ = (b ^ j) ^ p := by rw [Nat.mul_comm, Nat.pow_mul]

theorem mul_five_pow_bounds {u a n : Nat} (hu : u ≠ 0) (hlt : u < 2 ^ a) (hn : 32 ≤ n) :
    10 ^ 16 ≤ u * 5 ^ n ∧ (u * 5 ^ n).log2 < a + 3 * n := by
  have hpos : 0 < 5 ^ n := Nat.pow_pos (by decide)
  have hlow : 10 ^ 16 ≤ 5 ^ n :=
    pow_le_pow_of_pow_le (show 10 ^ 1 ≤ 5 ^ 2 by decide) (by decide) (by decide) (by omega)
  have hhigh : 5 ^ n ≤ 2 ^ (3 * n) :=
    pow_le_pow_of_pow_le (show 5 ^ 1 ≤ 2 ^ 3 by decide) (by decide) (by decide) (by omega)
  refine ⟨Nat.le_trans hlow (Nat.le_mul_of_pos_left _ (Nat.pos_of_ne_zero hu)), ?_⟩
  rw [Nat.log2_lt (Nat.mul_ne_zero hu (Nat.ne_of_gt hpos)), Nat.pow_add]
  exact Nat.mul_lt_mul_of_lt_of_le hlt hhigh (Nat.two_pow_pos _)

namespace Magnitude

theorem size_of_guess {n k size : Nat} (hlow : 10 ^ (k - 1) ≤ n) (hhigh : n < 10 ^ (k + 2))
    (h : size = if n < 10 ^ k then k else if n < 10 ^ (k + 1) then k + 1 else k + 2) :
    10 ^ (size - 1) ≤ n ∧ n < 10 ^ size := by
  split at h
  · next hlt => exact h ▸ ⟨hlow, hlt⟩
  · next hge =>
    split at h
    · next hlt => exact h ▸ ⟨Nat.not_lt.1 hge, hlt⟩
    · next hge => exact h ▸ ⟨Nat.not_lt.1 hge, hhigh⟩

/-- The guess is right to within one, since 10^59 is below 2^196 and 2^93 below 10^28. -/
theorem decimalSize_spec {n : Nat} (hn : 0 < n) (hlog : n.log2 < 10000) :
    10 ^ (decimalSize n - 1) ≤ n ∧ n < 10 ^ decimalSize n := by
  have hlow : 10 ^ (n.log2 * 30103 / 100000 - 1) ≤ 2 ^ n.log2 :=
    pow_le_pow_of_pow_le (show 10 ^ 59 ≤ 2 ^ 196 by decide) (by decide) (by decide) (by omega)
  have hhigh : 2 ^ (n.log2 + 1) ≤ 10 ^ (n.log2 * 30103 / 100000 + 2) :=
    pow_le_pow_of_pow_le (show 2 ^ 93 ≤ 10 ^ 28 by decide) (by decide) (by decide) (by omega)
  exact size_of_guess (Nat.le_trans hlow (Nat.log2_self_le (Nat.ne_of_gt hn)))
    (Nat.lt_of_lt_of_le Nat.lt_log2_self hhigh) rfl

variable (m : Magnitude)

def multiple (count place : Nat) : Decimal := ⟨false, count, (place : Int) - 1074⟩

theorem mem_neighbours {place : Nat} {d : Decimal} : d ∈ m.neighbours place ↔
    d = multiple (m.decimalUnits / 10 ^ place) place ∨
      d = multiple (m.decimalUnits / 10 ^ place + 1) place := by
  unfold neighbours
  simp only
  split
  · rw [List.mem_cons, List.mem_singleton]
    rfl
  · rw [List.mem_cons, List.mem_singleton, or_comm]
    rfl

theorem multiple_value (count place : Nat) :
    (multiple count place).value = ↑(count * 10 ^ place) * (10 : ℚ) ^ (-1074 : Int) := by
  rw [multiple, Decimal.value, sub_eq_add_neg, zpow_add₀ (by norm_num), zpow_natCast,
    Nat.cast_mul, Nat.cast_pow, Nat.cast_ofNat]
  exact (mul_assoc ..).symm

theorem multiple_value_le {a b p q : Nat} :
    (multiple a p).value ≤ (multiple b q).value ↔ a * 10 ^ p ≤ b * 10 ^ q := by
  rw [multiple_value, multiple_value, mul_le_mul_iff_left₀ (by positivity), Nat.cast_le]

theorem multiple_le_exact {a p : Nat} :
    (multiple a p).value ≤ m.exactDecimal.value ↔ a * 10 ^ p ≤ m.decimalUnits := by
  rw [show m.exactDecimal = multiple m.decimalUnits 0 from rfl, multiple_value_le, Nat.pow_zero,
    Nat.mul_one]

theorem exact_le_multiple {a p : Nat} :
    m.exactDecimal.value ≤ (multiple a p).value ↔ m.decimalUnits ≤ a * 10 ^ p := by
  rw [show m.exactDecimal = multiple m.decimalUnits 0 from rfl, multiple_value_le, Nat.pow_zero,
    Nat.mul_one]

theorem ten_zpow_mul (n : Nat) : (10 : ℚ) ^ (-n : Int) * (2 ^ n : Nat) * (5 ^ n : Nat) = 1 := by
  have hpow : 2 ^ n * 5 ^ n = 10 ^ n := (Nat.mul_pow ..).symm
  rw [mul_assoc, ← Nat.cast_mul, hpow, Nat.cast_pow, Nat.cast_ofNat, zpow_neg, zpow_natCast]
  exact inv_mul_cancel₀ (by positivity)

theorem ofDecimal_multiple (count place : Nat) :
    Double.ofDecimal (multiple count place) = .ofUnits false (count * 10 ^ place) (5 ^ 1074) := by
  rw [Double.ofDecimal_eq_ofUnits]
  apply Double.ofUnits_congr false (Decimal.denominator_pos _) (Nat.pow_pos (by decide))
  have hone := ten_zpow_mul 1074
  rw [← unitsPerOne] at hone
  generalize 5 ^ 1074 = steps at hone ⊢
  have hcross : ((multiple count place).numerator : ℚ) * steps =
      ↑(count * 10 ^ place) * (multiple count place).denominator := by
    rw [Decimal.numerator_eq, multiple_value]
    linear_combination (↑(count * 10 ^ place) * ((multiple count place).denominator : ℚ)) * hone
  exact_mod_cast hcross

theorem readsBack_eq_true {d : Decimal} :
    m.readsBack d = true ↔ Double.ofDecimal d = .finite false m := decide_eq_true_iff

variable {m}

theorem decimalUnits_bounds (hm : m.units ≠ 0) :
    10 ^ 16 ≤ m.decimalUnits ∧ m.decimalUnits.log2 < 10000 := by
  have hlimit := m.lt_limit
  rw [unitLimit] at hlimit
  have hbounds := mul_five_pow_bounds hm hlimit (n := 1074) (by decide)
  exact ⟨hbounds.1, Nat.lt_of_lt_of_le hbounds.2 (by decide)⟩

/-- The grid of `digits` digits: its multiples are of the last of as many leading places. -/
theorem decimalUnits_place {digits : Nat} (hm : m.units ≠ 0) (hpos : 0 < digits)
    (hle : digits ≤ 17) :
    10 ^ (digits - 1) * 10 ^ (decimalSize m.decimalUnits - digits) ≤ m.decimalUnits ∧
      m.decimalUnits < 10 ^ digits * 10 ^ (decimalSize m.decimalUnits - digits) := by
  obtain ⟨hbig, hlog⟩ := decimalUnits_bounds hm
  have hspec := decimalSize_spec (Nat.lt_of_lt_of_le (by decide) hbig) hlog
  have hsize : 16 < decimalSize m.decimalUnits :=
    (Nat.pow_lt_pow_iff_right (by decide)).1 (Nat.lt_of_le_of_lt hbig hspec.2)
  generalize decimalSize m.decimalUnits = size at hspec hsize ⊢
  rw [← Nat.pow_add, ← Nat.pow_add, show digits - 1 + (size - digits) = size - 1 by omega,
    show digits + (size - digits) = size by omega]
  exact hspec

/-- A neighbour has no more digits than its grid, or is the power of ten past them. -/
theorem coefficient_le_of_mem_neighbours {digits : Nat} {d : Decimal} (hm : m.units ≠ 0)
    (hpos : 0 < digits) (hle : digits ≤ 17)
    (h : d ∈ m.neighbours (decimalSize m.decimalUnits - digits)) : d.coefficient ≤ 10 ^ digits := by
  have hlt := (decimalUnits_place hm hpos hle).2
  rw [← Nat.div_lt_iff_lt_mul (Nat.pow_pos (by decide))] at hlt
  rcases m.mem_neighbours.1 h with rfl | rfl
  · exact Nat.le_of_lt hlt
  · exact hlt

/-- Of 17 digits the error is below a 2^54th part, since 2 * 10^16 is more than 2^54. -/
theorem exists_neighbour_seventeen (hm : m.units ≠ 0) :
    ∃ d ∈ m.neighbours (decimalSize m.decimalUnits - 17), m.readsBack d = true := by
  have hplace := (decimalUnits_place hm (by decide) (Nat.le_refl 17)).1
  generalize decimalSize m.decimalUnits - 17 = place at hplace ⊢
  have hpos : 0 < 10 ^ place := Nat.pow_pos (by decide)
  obtain ⟨count, hmem, hdist⟩ : ∃ count, multiple count place ∈ m.neighbours place ∧
      2 * Nat.dist (count * 10 ^ place) m.decimalUnits ≤ 10 ^ place := by
    have hsplit := Nat.div_add_mod' m.decimalUnits (10 ^ place)
    have hmod := Nat.mod_lt m.decimalUnits hpos
    unfold Nat.dist
    rcases Nat.le_total (2 * (m.decimalUnits % 10 ^ place)) (10 ^ place) with h | h
    · exact ⟨_, m.mem_neighbours.2 (.inl rfl), by omega⟩
    · refine ⟨_, m.mem_neighbours.2 (.inr rfl), ?_⟩
      rw [Nat.add_mul, Nat.one_mul]
      omega
  refine ⟨_, hmem, m.readsBack_eq_true.2 ?_⟩
  have hnear : Nat.dist (count * 10 ^ place) m.decimalUnits * 2 ^ 54 < m.decimalUnits := by omega
  have hsteps : ∀ n, 0 < 5 ^ n := fun n => Nat.pow_pos (by decide)
  rw [ofDecimal_multiple, Double.ofUnits_eq_finite (hsteps 1074)]
  exact ⟨rfl, roundUnits_near m.representable hnear⟩

theorem value_on_grid {d : Decimal} {digits : Nat} (hd : d.coefficient < 10 ^ digits)
    (hpos : 0 < digits) (place : Nat) :
    (∃ count, d.value = (multiple count place).value) ∨
      d.value ≤ (multiple (10 ^ (digits - 1)) place).value := by
  rcases lt_or_ge d.exponent (place - 1074) with hlt | hge
  · right
    have hcoefficient : (d.coefficient : ℚ) ≤ 10 ^ digits := by
      exact_mod_cast Nat.le_of_lt hd
    calc d.value ≤ 10 ^ digits * 10 ^ ((place : Int) - 1074 - 1) := by
          apply mul_le_mul hcoefficient _ (by positivity) (by positivity)
          exact zpow_le_zpow_right₀ (by norm_num) (by omega)
      _ = (multiple (10 ^ (digits - 1)) place).value := by
          simp only [multiple, Decimal.value, Nat.cast_pow, Nat.cast_ofNat]
          rw [← zpow_natCast, ← zpow_natCast, ← zpow_add₀ (by norm_num), ← zpow_add₀ (by norm_num)]
          congr 1
          omega
  · left
    obtain ⟨k, hk⟩ := Int.le.dest hge
    refine ⟨d.coefficient * 10 ^ k, ?_⟩
    rw [multiple, Decimal.value_mul_pow, hk]
    rfl

/-- On the grid of a decimal's digits the neighbour on its side is not past it. -/
theorem exists_neighbour {d : Decimal} {s : Bool} {digits : Nat} (hm : m.units ≠ 0)
    (h : Double.ofDecimal d = .finite s m) (hd : d.coefficient < 10 ^ digits) (hpos : 0 < digits)
    (hle : digits ≤ 17) :
    ∃ d' ∈ m.neighbours (decimalSize m.decimalUnits - digits), m.readsBack d' = true := by
  have hplace := (decimalUnits_place hm hpos hle).1
  generalize decimalSize m.decimalUnits - digits = place at hplace ⊢
  have hten : 0 < 10 ^ place := Nat.pow_pos (by decide)
  have hexact := Double.ofDecimal_exactDecimal m
  have hgrid := value_on_grid hd hpos place
  rcases le_or_gt d.value m.exactDecimal.value with hside | hside
  · have hbelow : d.value ≤ (multiple (m.decimalUnits / 10 ^ place) place).value := by
      rcases hgrid with ⟨count, hcount⟩ | hsmall
      · rw [hcount, m.multiple_le_exact, ← Nat.le_div_iff_mul_le hten] at hside
        rw [hcount]
        exact multiple_value_le.2 (Nat.mul_le_mul_right _ hside)
      · refine le_trans hsmall (multiple_value_le.2 (Nat.mul_le_mul_right _ ?_))
        exact (Nat.le_div_iff_mul_le hten).2 hplace
    refine ⟨_, m.mem_neighbours.2 (.inl rfl), m.readsBack_eq_true.2 ?_⟩
    exact Double.ofDecimal_between h hexact hbelow (m.multiple_le_exact.2 (Nat.div_mul_le_self ..))
  · have habove : (multiple (m.decimalUnits / 10 ^ place + 1) place).value ≤ d.value := by
      rcases hgrid with ⟨count, hcount⟩ | hsmall
      · rw [hcount, ← not_le, m.multiple_le_exact, not_le, ← Nat.div_lt_iff_lt_mul hten] at hside
        rw [hcount]
        exact multiple_value_le.2 (Nat.mul_le_mul_right _ hside)
      · exact absurd (le_trans hsmall (m.multiple_le_exact.2 hplace)) (not_le.2 hside)
    refine ⟨_, m.mem_neighbours.2 (.inr rfl), m.readsBack_eq_true.2 ?_⟩
    refine Double.ofDecimal_between hexact h (m.exact_le_multiple.2 ?_) habove
    exact Nat.le_of_lt (Nat.lt_mul_of_div_lt (Nat.lt_succ_self _) hten)

theorem shortestAmong_of_neighbour {digits : Nat} (hle : digits ≤ 17)
    (h : ∃ d ∈ m.neighbours (decimalSize m.decimalUnits - digits), m.readsBack d = true)
    (hpos : 0 < digits) : ∃ n d, 0 < n ∧ n ≤ digits ∧
      d ∈ m.neighbours (decimalSize m.decimalUnits - n) ∧ m.shortestAmong = some d := by
  have hsome : ((List.range digits).findSome? fun n =>
      (m.neighbours (decimalSize m.decimalUnits - 1 - n)).find? m.readsBack).isSome := by
    obtain ⟨d, hmem, hread⟩ := h
    refine List.findSome?_isSome_iff.2 ⟨digits - 1, List.mem_range.2 (by omega), ?_⟩
    rw [List.find?_isSome]
    refine ⟨d, ?_, hread⟩
    rwa [show decimalSize m.decimalUnits - 1 - (digits - 1) = decimalSize m.decimalUnits - digits by
      omega]
  obtain ⟨d, hd⟩ := Option.isSome_iff_exists.1 hsome
  obtain ⟨n, hn, hfind⟩ := List.exists_of_findSome?_eq_some hd
  refine ⟨n + 1, d, Nat.succ_pos n, List.mem_range.1 hn, ?_, ?_⟩
  · rw [Nat.add_comm, ← Nat.sub_sub]
    exact List.mem_of_find?_eq_some hfind
  · unfold shortestAmong
    simp only
    rw [show 17 = digits + (17 - digits) by omega, List.range_add, List.findSome?_append, hd,
      Option.some_or]

/-- No decimal that reads back to a magnitude has fewer digits than its shortest one. -/
theorem length_shortest_le {d : Decimal} {s : Bool} (h : Double.ofDecimal d = .finite s m) :
    (Nat.toDigits 10 m.shortest.coefficient).length ≤ (Nat.toDigits 10 d.coefficient).length := by
  have hlength : 0 < (Nat.toDigits 10 d.coefficient).length := Nat.length_toDigits_pos
  by_cases hm : m.units = 0
  · rw [shortest, if_pos hm]
    exact hlength
  · -- Of more digits than 17 none is needed.
    obtain ⟨digits, hpos, hle, hshort, hread⟩ : ∃ digits, 0 < digits ∧ digits ≤ 17 ∧
        digits ≤ (Nat.toDigits 10 d.coefficient).length ∧
        ∃ d ∈ m.neighbours (decimalSize m.decimalUnits - digits), m.readsBack d = true := by
      rcases Nat.le_total (Nat.toDigits 10 d.coefficient).length 17 with hle | hge
      · have hd := (Nat.length_toDigits_le_iff (by decide) hlength).1 (Nat.le_refl _)
        exact ⟨_, hlength, hle, Nat.le_refl _, exists_neighbour hm h hd hlength hle⟩
      · exact ⟨17, by decide, Nat.le_refl _, hge, exists_neighbour_seventeen hm⟩
    obtain ⟨n, candidate, hn, hndigits, hmem, hsearch⟩ := shortestAmong_of_neighbour hle hread hpos
    have hbound : candidate.coefficient ≤ 10 ^ n :=
      coefficient_le_of_mem_neighbours hm hn (Nat.le_trans hndigits hle) hmem
    rw [shortest, if_neg hm, hsearch, Option.getD_some]
    refine Nat.le_trans ?_ (Nat.le_trans hndigits hshort)
    exact (Nat.length_toDigits_le_iff (by decide) hn).2 (Decimal.trim_coefficient_lt hn hbound)

end Magnitude
end MiniLisp
