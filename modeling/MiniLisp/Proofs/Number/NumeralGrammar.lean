import MiniLisp.Number.Numeral
import Mathlib.Data.List.TakeWhile

set_option autoImplicit false

namespace MiniLisp.Numeral

open Text

def IsSign (cs : List Char) : Prop := cs = [] ∨ cs = ['+'] ∨ cs = ['-']

def AllDigits (cs : List Char) : Prop := ∀ c ∈ cs, isDecimalDigit c = true

def IsMantissa (cs : List Char) : Prop :=
  (AllDigits cs ∧ cs ≠ []) ∨
    ∃ w f, AllDigits w ∧ AllDigits f ∧ w ++ f ≠ [] ∧ cs = w ++ '.' :: f

def IsExponent (cs : List Char) : Prop :=
  cs = [] ∨ ∃ e sign ds, (e = 'e' ∨ e = 'E') ∧ IsSign sign ∧ AllDigits ds ∧ ds ≠ [] ∧
    cs = e :: (sign ++ ds)

def IsNumeral (cs : List Char) : Prop :=
  ∃ sign m x, IsSign sign ∧ IsMantissa m ∧ IsExponent x ∧ cs = sign ++ m ++ x

theorem splitSign_sound (cs : List Char) : ∃ sign, IsSign sign ∧ cs = sign ++ (splitSign cs).2 := by
  unfold splitSign
  split
  · exact ⟨['-'], .inr (.inr rfl), rfl⟩
  · exact ⟨['+'], .inr (.inl rfl), rfl⟩
  · exact ⟨[], .inl rfl, rfl⟩

theorem splitSign_append {sign cs : List Char} (h : IsSign sign)
    (hc : ∀ c ∈ cs.head?, c ≠ '+' ∧ c ≠ '-') :
    splitSign (sign ++ cs) = (decide (sign = ['-']), cs) := by
  obtain rfl | rfl | rfl := h
  · rw [List.nil_append]
    unfold splitSign
    split
    · exact absurd rfl (hc '-' rfl).2
    · exact absurd rfl (hc '+' rfl).1
    · rfl
  · rfl
  · rfl

theorem ne_sign_of_digit {c : Char} (h : isDecimalDigit c = true) : c ≠ '+' ∧ c ≠ '-' := by
  constructor <;> rintro rfl <;> exact absurd h (by decide)

theorem digits?_isSome_iff (cs : List Char) : (digits? cs).isSome ↔ AllDigits cs ∧ cs ≠ [] := by
  rw [digits?]
  split
  · next h => exact ⟨fun _ => ⟨List.all_eq_true.1 h.2, h.1⟩, fun _ => rfl⟩
  · next h => exact ⟨by simp, fun h' => absurd ⟨h'.2, List.all_eq_true.2 h'.1⟩ h⟩

theorem exponent?_isSome_iff (cs : List Char) : (exponent? cs).isSome ↔ IsExponent cs := by
  cases cs with
  | nil => simp [exponent?, IsExponent]
  | cons c cs =>
    have hread : (exponent? (c :: cs)).isSome ↔
        (c = 'e' ∨ c = 'E') ∧ (digits? (splitSign cs).2).isSome := by
      by_cases hc : c = 'e' ∨ c = 'E'
      · cases hd : digits? (splitSign cs).2 <;> simp [exponent?, hc, hd]
      · simp [exponent?, hc]
    rw [hread, digits?_isSome_iff]
    constructor
    · rintro ⟨hc, hd, hne⟩
      obtain ⟨sign, hs, hcs⟩ := splitSign_sound cs
      exact .inr ⟨c, sign, _, hc, hs, hd, hne, congrArg (c :: ·) hcs⟩
    · rintro (h | ⟨e, sign, ds, he, hs, hd, hne, h⟩)
      · cases h
      · obtain ⟨rfl, rfl⟩ := List.cons.inj h
        rw [splitSign_append hs fun c hc => ne_sign_of_digit (hd c (List.mem_of_mem_head? hc))]
        exact ⟨he, hd, hne⟩

theorem splitDigits {w rest : List Char} (hw : AllDigits w)
    (hr : ∀ c ∈ rest.head?, isDecimalDigit c = false) :
    (w ++ rest).takeWhile isDecimalDigit = w ∧ (w ++ rest).dropWhile isDecimalDigit = rest := by
  rw [List.takeWhile_append_of_pos hw, List.dropWhile_append_of_pos hw]
  cases rest with
  | nil => simp
  | cons c rest =>
    have hc : isDecimalDigit c = false := hr c rfl
    simp [hc]

theorem IsExponent.not_digit {cs : List Char} (h : IsExponent cs) :
    ∀ c ∈ cs.head?, isDecimalDigit c = false := by
  obtain rfl | ⟨e, sign, ds, rfl | rfl, -, -, -, rfl⟩ := h
  · simp
  · intro c hc
    obtain rfl := Option.some.inj hc
    decide
  · intro c hc
    obtain rfl := Option.some.inj hc
    decide

theorem splitFraction_exponent {cs : List Char} (h : IsExponent cs) :
    splitFraction cs = ([], cs) := by
  obtain rfl | ⟨e, sign, ds, rfl | rfl, -, -, -, rfl⟩ := h <;> rfl

def mantissa (body : List Char) : List Char × List Char × List Char :=
  (body.takeWhile isDecimalDigit, splitFraction (body.dropWhile isDecimalDigit))

theorem decimal?_isSome (cs : List Char) : (decimal? cs).isSome ↔
    (mantissa (splitSign cs).2).1 ++ (mantissa (splitSign cs).2).2.1 ≠ [] ∧
      (exponent? (mantissa (splitSign cs).2).2.2).isSome := by
  simp only [decimal?, mantissa, ← List.append_eq_nil_iff]
  split
  · next h => simp [h]
  · next h => simp [h]

theorem mantissa_sound (body : List Char) (h : (mantissa body).1 ++ (mantissa body).2.1 ≠ []) :
    ∃ m, IsMantissa m ∧ body = m ++ (mantissa body).2.2 := by
  have hw : AllDigits (body.takeWhile isDecimalDigit) := fun c hc => List.mem_takeWhile_imp hc
  have hsplit : body = body.takeWhile isDecimalDigit ++ body.dropWhile isDecimalDigit :=
    List.takeWhile_append_dropWhile.symm
  cases hrest : body.dropWhile isDecimalDigit with
  | nil =>
    simp only [mantissa, hrest, splitFraction, List.append_nil] at h ⊢
    rw [hrest, List.append_nil] at hsplit
    exact ⟨_, .inl ⟨hw, h⟩, hsplit⟩
  | cons c rest =>
    by_cases hc : c = '.'
    · subst hc
      have hf : AllDigits (rest.takeWhile isDecimalDigit) := fun c hc => List.mem_takeWhile_imp hc
      simp only [mantissa, hrest, splitFraction] at h ⊢
      refine ⟨_, .inr ⟨_, _, hw, hf, h, rfl⟩, ?_⟩
      rw [List.append_assoc, List.cons_append, List.takeWhile_append_dropWhile, ← hrest]
      exact hsplit
    · have hf : splitFraction (c :: rest) = ([], c :: rest) := by
        unfold splitFraction
        split
        · next h => exact absurd (List.cons.inj h).1 hc
        · rfl
      simp only [mantissa, hrest, hf, List.append_nil] at h ⊢
      exact ⟨_, .inl ⟨hw, h⟩, by rw [← hrest]; exact hsplit⟩

theorem mantissa_append {m x : List Char} (hm : IsMantissa m) (hx : IsExponent x) :
    (mantissa (m ++ x)).1 ++ (mantissa (m ++ x)).2.1 ≠ [] ∧ (mantissa (m ++ x)).2.2 = x := by
  obtain ⟨hd, hne⟩ | ⟨w, f, hw, hf, hne, rfl⟩ := hm
  · obtain ⟨htake, hdrop⟩ := splitDigits hd hx.not_digit
    simp only [mantissa, htake, hdrop, splitFraction_exponent hx, List.append_nil]
    exact ⟨hne, trivial⟩
  · have hpoint : ∀ c ∈ ('.' :: (f ++ x)).head?, isDecimalDigit c = false := by
      intro c hc
      obtain rfl := Option.some.inj hc
      decide
    obtain ⟨htake, hdrop⟩ := splitDigits hw hpoint
    obtain ⟨hftake, hfdrop⟩ := splitDigits hf hx.not_digit
    rw [List.append_assoc, List.cons_append]
    simp only [mantissa, htake, hdrop, splitFraction, hftake, hfdrop]
    exact ⟨hne, trivial⟩

theorem IsMantissa.not_sign {m x : List Char} (h : IsMantissa m) :
    ∀ c ∈ (m ++ x).head?, c ≠ '+' ∧ c ≠ '-' := by
  have hdigits : ∀ {ds rest : List Char}, AllDigits ds → ds ≠ [] →
      ∀ c ∈ (ds ++ rest).head?, c ≠ '+' ∧ c ≠ '-' := by
    intro ds rest hd hne c hc
    obtain ⟨d, ds, rfl⟩ := List.exists_cons_of_ne_nil hne
    obtain rfl := Option.some.inj hc
    exact ne_sign_of_digit (hd _ (List.mem_cons_self ..))
  obtain ⟨hd, hne⟩ | ⟨w, f, hw, -, -, rfl⟩ := h
  · exact hdigits hd hne
  · rw [List.append_assoc]
    cases w with
    | nil =>
      intro c hc
      obtain rfl := Option.some.inj hc
      decide
    | cons d w => exact hdigits hw (List.cons_ne_nil d w)

theorem read?_isSome_iff (cs : List Char) : (read? cs).isSome ↔ IsNumeral cs := by
  rw [read?, Option.isSome_map, decimal?_isSome]
  constructor
  · rintro ⟨hm, hx⟩
    obtain ⟨sign, hs, hcs⟩ := splitSign_sound cs
    obtain ⟨m, hm, hbody⟩ := mantissa_sound _ hm
    refine ⟨sign, m, _, hs, hm, (exponent?_isSome_iff _).1 hx, ?_⟩
    rw [List.append_assoc, ← hbody]
    exact hcs
  · rintro ⟨sign, m, x, hs, hm, hx, rfl⟩
    rw [List.append_assoc, splitSign_append hs hm.not_sign]
    obtain ⟨hne, hrest⟩ := mantissa_append hm hx
    rw [hrest]
    exact ⟨hne, (exponent?_isSome_iff x).2 hx⟩

theorem read?_eq_none {cs : List Char} (h : ¬ IsNumeral cs) : read? cs = none := by
  rw [← read?_isSome_iff] at h
  exact Option.not_isSome_iff_eq_none.1 h

end MiniLisp.Numeral
