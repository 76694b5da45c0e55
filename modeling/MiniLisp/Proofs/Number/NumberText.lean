import MiniLisp.Proofs.Number.DecimalValue
import MiniLisp.Proofs.Number.NumeralGrammar
import MiniLisp.Token
import Mathlib.Data.List.Basic

set_option autoImplicit false

namespace MiniLisp

open Text

namespace Numeral

theorem allDigits_of_isDigit {cs : List Char} (h : ∀ c ∈ cs, c.isDigit = true) : AllDigits cs :=
  fun c hc => isDecimalDigit_of_isDigit (h c hc)

theorem digitsValue_eq {cs : List Char} (h : ∀ c ∈ cs, c.isDigit = true) :
    digitsValue cs = Nat.ofDigitChars 10 cs 0 := by
  rw [digitsValue, Nat.ofDigitChars_eq_foldl]
  apply List.foldl_ext
  intro n c hc
  rw [digitValue?_of_isDigit (h c hc)]
  rfl

theorem isDigit_toDigits (n : Nat) : ∀ c ∈ Nat.toDigits 10 n, c.isDigit = true :=
  fun _ hc => Nat.isDigit_of_mem_toDigits (by decide) (by decide) hc

theorem isDigit_replicate (n : Nat) : ∀ c ∈ List.replicate n '0', c.isDigit = true := by
  intro c hc
  rw [List.eq_of_mem_replicate hc]
  rfl

theorem isDigit_append {cs ds : List Char} (hc : ∀ c ∈ cs, c.isDigit = true)
    (hd : ∀ c ∈ ds, c.isDigit = true) : ∀ c ∈ cs ++ ds, c.isDigit = true :=
  List.forall_mem_append.2 ⟨hc, hd⟩

/-- What may follow the digits of a numeral: nothing, or an exponent. -/
def EndsIn (rest : List Char) (e : Int) : Prop :=
  exponent? rest = some e ∧ ∀ c ∈ rest.head?, c = 'e'

theorem endsIn_nil {e : Int} (h : e = 0) : EndsIn [] e := ⟨by rw [h]; rfl, by simp⟩

theorem not_isDecimalDigit_e : isDecimalDigit 'e' = false := by decide

theorem not_isDecimalDigit_point : isDecimalDigit '.' = false := by decide

theorem EndsIn.not_digit {rest : List Char} {e : Int} (h : EndsIn rest e) :
    ∀ c ∈ rest.head?, isDecimalDigit c = false := by
  intro c hc
  rw [h.2 c hc]
  exact not_isDecimalDigit_e

def signText (negative : Bool) : List Char := if negative then ['-'] else []

theorem splitSign_signText (negative : Bool) {c : Char} (hc : c.isDigit = true) (cs : List Char) :
    splitSign (signText negative ++ c :: cs) = (negative, c :: cs) := by
  have hsign : IsSign (signText negative) ∧ decide (signText negative = ['-']) = negative := by
    cases negative <;> simp [signText, IsSign]
  rw [splitSign_append hsign.1, hsign.2]
  intro x hx
  obtain rfl := Option.some.inj hx
  exact ne_sign_of_digit (isDecimalDigit_of_isDigit hc)

theorem decimal?_whole (negative : Bool) {w rest : List Char} {e : Int} (hw : w ≠ [])
    (hd : ∀ c ∈ w, c.isDigit = true) (hr : EndsIn rest e) :
    decimal? (signText negative ++ w ++ rest) = some ⟨negative, Nat.ofDigitChars 10 w 0, e⟩ := by
  obtain ⟨c, cs, rfl⟩ := List.exists_cons_of_ne_nil hw
  have hsplit := splitSign_signText negative (hd c (by simp)) (cs ++ rest)
  have hfraction : splitFraction rest = ([], rest) := by
    cases rest with
    | nil => rfl
    | cons c rest =>
      obtain rfl := hr.2 c rfl
      rfl
  obtain ⟨htake, hdrop⟩ := splitDigits (allDigits_of_isDigit hd) hr.not_digit
  rw [List.cons_append] at htake hdrop
  rw [decimal?, List.append_assoc, List.cons_append, hsplit]
  simp only [htake, hdrop, hfraction, hr.1]
  simp [digitsValue_eq hd]

theorem decimal?_point (negative : Bool) {w f rest : List Char} {e : Int} (hw : w ≠ [])
    (hd : ∀ c ∈ w, c.isDigit = true) (hf : ∀ c ∈ f, c.isDigit = true) (hr : EndsIn rest e) :
    decimal? (signText negative ++ w ++ '.' :: f ++ rest) =
      some ⟨negative, Nat.ofDigitChars 10 (w ++ f) 0, e - f.length⟩ := by
  obtain ⟨c, cs, rfl⟩ := List.exists_cons_of_ne_nil hw
  have hsplit := splitSign_signText negative (hd c (by simp)) (cs ++ '.' :: f ++ rest)
  have hpoint : ∀ c ∈ ('.' :: f ++ rest).head?, isDecimalDigit c = false := by
    simp [not_isDecimalDigit_point]
  obtain ⟨htake, hdrop⟩ := splitDigits (allDigits_of_isDigit hd) hpoint
  obtain ⟨hftake, hfdrop⟩ := splitDigits (allDigits_of_isDigit hf) hr.not_digit
  have hfraction : splitFraction ('.' :: f ++ rest) = (f, rest) := by
    rw [List.cons_append, splitFraction, hftake, hfdrop]
  simp only [List.cons_append, List.append_assoc] at htake hdrop hsplit hfraction
  rw [decimal?]
  simp only [List.cons_append, List.append_assoc, hsplit, htake, hdrop, hfraction, hr.1]
  have hvalue := digitsValue_eq (isDigit_append hd hf)
  rw [List.cons_append] at hvalue
  simp [hvalue]

theorem digits?_padded (n : Nat) :
    digits? (if (Nat.toDigits 10 n).length < 2 then '0' :: Nat.toDigits 10 n
      else Nat.toDigits 10 n) = some n := by
  have hd := isDigit_toDigits n
  have hv : Nat.ofDigitChars 10 (Nat.toDigits 10 n) 0 = n := Nat.ofDigitChars_ten_toDigits
  split
  · have hz := isDigit_append (isDigit_replicate 1) hd
    have hvalue := digitsValue_eq hz
    rw [Nat.ofDigitChars_append, Nat.ofDigitChars_replicate_zero, Nat.mul_zero, hv] at hvalue
    exact (if_pos ⟨by simp, List.all_eq_true.2 (allDigits_of_isDigit hz)⟩).trans
      (congrArg some hvalue)
  · rw [digits?, if_pos ⟨Nat.toDigits_ne_nil, List.all_eq_true.2 (allDigits_of_isDigit hd)⟩,
      digitsValue_eq hd, hv]

theorem endsIn_exponentText (e : Int) : EndsIn (exponentText e) e := by
  refine ⟨?_, by simp [exponentText]⟩
  have hread := digits?_padded e.natAbs
  rw [exponentText]
  by_cases he : e < 0
  · rw [if_pos he]
    simp only [exponent?, splitSign, hread, true_or, if_true]
    change some (-(e.natAbs : Int)) = some e
    rw [Int.ofNat_natAbs_of_nonpos (Int.le_of_lt he), Int.neg_neg]
  · rw [if_neg he]
    simp only [exponent?, splitSign, hread, true_or, if_true]
    change some (e.natAbs : Int) = some e
    rw [Int.natAbs_of_nonneg (Int.not_lt.1 he)]

def Denotes (cs : List Char) (negative : Bool) (v : ℚ) : Prop :=
  ∃ d, decimal? cs = some d ∧ d.negative = negative ∧ d.value = v

section

variable (negative : Bool) {c : Nat} {ds : List Char}

theorem denotes_fraction {e : Int} {w f rest : List Char} (hw : w ≠ [])
    (hd : ∀ c ∈ w ++ f, c.isDigit = true) (hv : Nat.ofDigitChars 10 (w ++ f) 0 = c)
    (hr : EndsIn rest (e + f.length)) :
    Denotes (signText negative ++ w ++ '.' :: f ++ rest) negative
      (⟨negative, c, e⟩ : Decimal).value := by
  have hd := List.forall_mem_append.1 hd
  refine ⟨_, decimal?_point negative hw hd.1 hd.2 hr, rfl, ?_⟩
  rw [hv, Int.add_sub_cancel]

variable (hd : ∀ c ∈ ds, c.isDigit = true) (hv : Nat.ofDigitChars 10 ds 0 = c) (hne : ds ≠ [])

include hd hv hne

theorem denotes_positional (e : Int) :
    Denotes (signText negative ++ positional ds (e + ds.length) []) negative
      (⟨negative, c, e⟩ : Decimal).value := by
  have hlen := List.length_pos_of_ne_nil hne
  unfold positional
  split
  · -- zeros between the point and the digits
    have hf := isDigit_append (isDigit_replicate (-(e + ds.length)).toNat) hd
    have hall := isDigit_append (isDigit_replicate 1) hf
    have hend : EndsIn []
        (e + ((List.replicate (-(e + ds.length)).toNat '0' ++ ds).length : Nat)) := by
      apply endsIn_nil
      simp only [List.length_append, List.length_replicate]
      omega
    have hvalue : Nat.ofDigitChars 10 (List.replicate 1 '0' ++
        (List.replicate (-(e + ds.length)).toNat '0' ++ ds)) 0 = c := by
      simp only [Nat.ofDigitChars_append, Nat.ofDigitChars_replicate_zero, Nat.mul_zero, hv]
    have h := denotes_fraction negative (by simp) hall hvalue hend
    simpa using h
  · split
    · -- a whole number, with zeros for what lies beyond the digits
      have hz := isDigit_append hd (isDigit_replicate ((e + ds.length).toNat - ds.length))
      have h := decimal?_whole negative (by simp [hne]) hz (endsIn_nil rfl)
      refine ⟨_, by simpa using h, rfl, ?_⟩
      rw [Nat.ofDigitChars_append, Nat.ofDigitChars_replicate_zero, hv, Nat.mul_comm,
        Decimal.value_mul_pow]
      congr 2
      omega
    · -- the point among the digits
      have hend : EndsIn [] (e + ((ds.drop (e + ds.length).toNat).length : Nat)) := by
        apply endsIn_nil
        rw [List.length_drop]
        omega
      rw [← ds.take_append_drop (e + ds.length).toNat] at hd hv
      have h := denotes_fraction negative (by simp [hne]; omega) hd hv hend
      simpa using h

theorem denotes_scientific (e : Int) :
    Denotes (signText negative ++ scientific ds (e + ds.length)) negative
      (⟨negative, c, e⟩ : Decimal).value := by
  have hlen := List.length_pos_of_ne_nil hne
  unfold scientific
  split
  · have hone : ds.take 1 = ds := List.take_of_length_le (by assumption)
    refine ⟨⟨negative, c, e⟩, ?_, rfl, rfl⟩
    have hr := endsIn_exponentText (e + ds.length - 1)
    have h := decimal?_whole negative hne hd hr
    rw [hv, show e + (ds.length : Int) - 1 = e by omega] at h
    rw [hone, show e + (ds.length : Int) - 1 = e by omega]
    simpa using h
  · have hr : EndsIn (exponentText (e + ds.length - 1)) (e + (ds.drop 1).length) := by
      rw [List.length_drop, show e + ((ds.length - 1 : Nat) : Int) = e + ds.length - 1 by omega]
      exact endsIn_exponentText _
    rw [← ds.take_append_drop 1] at hd hv
    have h := denotes_fraction negative (by simp [hne]) hd hv hr
    simpa using h

end

theorem denotes_layout (negative : Bool) (d : Decimal) :
    Denotes (signText negative ++ layout d []) negative d.value := by
  have hd := isDigit_toDigits d.coefficient
  have hv : Nat.ofDigitChars 10 (Nat.toDigits 10 d.coefficient) 0 = d.coefficient :=
    Nat.ofDigitChars_ten_toDigits
  simp only [layout]
  split
  · exact denotes_positional negative hd hv Nat.toDigits_ne_nil d.exponent
  · exact denotes_scientific negative hd hv Nat.toDigits_ne_nil d.exponent

/-- The characters of number texts; none of them ends an atom. -/
def IsTextChar (c : Char) : Prop :=
  c.isDigit = true ∨ c = '.' ∨ c = '-' ∨ c = '+' ∨ c = 'e'

theorem IsTextChar.isAtomChar {c : Char} (h : IsTextChar c) : Token.isAtomChar c = true := by
  obtain hd | rfl | rfl | rfl | rfl := h
  · have hc : 48 ≤ c.toNat ∧ c.toNat ≤ 57 := by
      simp only [Char.isDigit, Bool.and_eq_true, decide_eq_true_eq] at hd
      exact ⟨hd.1, hd.2⟩
    have hblank : isBlank c = false := by
      simp only [isBlank, Bool.or_eq_false_iff, Bool.and_eq_false_iff, decide_eq_false_iff_not]
      omega
    have hne : ∀ k : Char, k.toNat < 48 → c ≠ k := by
      rintro k hk rfl
      omega
    simp [Token.isAtomChar, hblank, hne '(' (by decide), hne ')' (by decide), hne '\'' (by decide)]
  all_goals decide

theorem isTextChar_exponentText (e : Int) : ∀ c ∈ exponentText e, IsTextChar c := by
  have hd := isDigit_toDigits e.natAbs
  intro c hc
  simp only [exponentText, List.mem_cons] at hc
  obtain rfl | rfl | hc := hc
  · simp [IsTextChar]
  · split <;> simp [IsTextChar]
  · split at hc
    · obtain rfl | hc := List.mem_cons.1 hc
      · exact .inl rfl
      · exact .inl (hd c hc)
    · exact .inl (hd c hc)

theorem isTextChar_layout (d : Decimal) : ∀ c ∈ layout d [], IsTextChar c := by
  have hd := isDigit_toDigits d.coefficient
  have htake : ∀ n, ∀ c ∈ (Nat.toDigits 10 d.coefficient).take n, IsTextChar c :=
    fun n c hc => .inl (hd c (List.mem_of_mem_take hc))
  have hdrop : ∀ n, ∀ c ∈ (Nat.toDigits 10 d.coefficient).drop n, IsTextChar c :=
    fun n c hc => .inl (hd c (List.mem_of_mem_drop hc))
  have hzeros : ∀ n, ∀ c ∈ List.replicate n '0', IsTextChar c :=
    fun n c hc => .inl (isDigit_replicate n c hc)
  have hpoint : IsTextChar '.' := by simp [IsTextChar]
  have hall : ∀ c ∈ Nat.toDigits 10 d.coefficient, IsTextChar c := fun c hc => .inl (hd c hc)
  simp only [layout, positional, scientific]
  split
  · split
    · simp only [List.cons_append, List.forall_mem_cons, List.forall_mem_append]
      exact ⟨.inl rfl, hpoint, hzeros _, hall⟩
    · split
      · simp only [List.append_nil, List.forall_mem_append]
        exact ⟨hall, hzeros _⟩
      · simp only [List.forall_mem_cons, List.forall_mem_append]
        exact ⟨htake _, hpoint, hdrop _⟩
  · simp only [List.forall_mem_append]
    refine ⟨⟨htake _, ?_⟩, isTextChar_exponentText _⟩
    split
    · exact List.forall_mem_nil _
    · exact List.forall_mem_cons.2 ⟨hpoint, hdrop _⟩

end Numeral

namespace Double

open Numeral

def isFinite : Double → Bool
  | finite _ _ => true
  | _ => false

theorem read?_textEnding {x : Double} (h : x.isFinite = true) :
    read? (x.textEnding []) = some x := by
  cases x with
  | finite s m =>
    obtain ⟨d, hd, hs, hv⟩ := denotes_layout s m.shortest
    have hm := ofDecimal_negative s (Magnitude.ofDecimal_shortest m)
    have htext : (finite s m).textEnding [] = signText s ++ layout m.shortest [] := rfl
    rw [read?, htext, hd, Option.map_some, ← hm]
    exact congrArg some (ofDecimal_congr hs hv)
  | _ => cases h

theorem read?_textEnding_word {x : Double} (h : x.isFinite = false) :
    read? (x.textEnding []) = none := by
  cases x with
  | finite s m => cases h
  | infinity s => cases s <;> rfl
  | nan => rfl

theorem isAtomChar_textEnding (x : Double) : ∀ c ∈ x.textEnding [], Token.isAtomChar c = true := by
  cases x with
  | finite s m =>
    simp only [textEnding, List.forall_mem_append]
    refine ⟨fun c hc => ?_, fun c hc => (isTextChar_layout _ c hc).isAtomChar⟩
    cases s with
    | true =>
      obtain rfl := List.mem_singleton.1 hc
      decide
    | false => cases hc
  | infinity s => cases s <;> exact List.all_eq_true.1 (by decide)
  | nan => exact List.all_eq_true.1 (by decide)

theorem textEnding_ne_nil (x : Double) : x.textEnding [] ≠ [] := by
  cases x with
  | finite s m =>
    intro h
    have hr := read?_textEnding (x := finite s m) rfl
    rw [h] at hr
    cases hr
  | infinity s => cases s <;> decide
  | nan => decide

end Double
end MiniLisp
