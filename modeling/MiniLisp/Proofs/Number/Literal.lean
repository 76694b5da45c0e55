import MiniLisp.Datum
import MiniLisp.Proofs.Number.NumberText
import MiniLisp.Proofs.Number.TiesToEven
import Mathlib.Tactic.FieldSimp

/-!
The grammar of numerals together with what they denote, each part with its value.  The reader
accepts a text exactly if the grammar does, and then finds the sign and the rational that the
grammar gives it (`denotes_iff_literal`), so an atom is the number that its literal is rounded to, or
else the symbol of its own name (`ofAtom_classifies`).
-/
set_option autoImplicit false

namespace MiniLisp

open Text

namespace Numeral

def IsDigit (c : Char) (n : Nat) : Prop := n < 10 ∧ ∃ first ∈ digitZeros, c.toNat = first + n

/-- Digits, of any scripts, and the number that they are by place value. -/
inductive Spells : List Char → Nat → Prop
  | nil : Spells [] 0
  | cons {c : Char} {cs : List Char} {k n : Nat} (hc : IsDigit c k) (hcs : Spells cs n) :
    Spells (c :: cs) (k * 10 ^ cs.length + n)

inductive SignLiteral : List Char → Bool → Prop
  | absent : SignLiteral [] false
  | plus : SignLiteral ['+'] false
  | minus : SignLiteral ['-'] true

/-- `D+ [. D*] | . D+`. -/
inductive MantissaLiteral : List Char → ℚ → Prop
  | whole {w : List Char} {n : Nat} (hw : Spells w n) (hne : w ≠ []) : MantissaLiteral w n
  | point {w f : List Char} {n k : Nat} (hw : Spells w n) (hne : w ≠ []) (hf : Spells f k) :
    MantissaLiteral (w ++ '.' :: f) (n + k / 10 ^ f.length)
  | fraction {f : List Char} {k : Nat} (hf : Spells f k) (hne : f ≠ []) :
    MantissaLiteral ('.' :: f) (k / 10 ^ f.length)

/-- `([eE] [+-]? D+)?`. -/
inductive ExponentLiteral : List Char → Int → Prop
  | absent : ExponentLiteral [] 0
  | present {e : Char} {sign ds : List Char} {negative : Bool} {n : Nat} (he : e = 'e' ∨ e = 'E')
    (hs : SignLiteral sign negative) (hds : Spells ds n) (hne : ds ≠ []) :
    ExponentLiteral (e :: (sign ++ ds)) (if negative then -n else n)

inductive Literal : List Char → Bool → ℚ → Prop
  | intro {sign m x : List Char} {negative : Bool} {v : ℚ} {e : Int}
    (hs : SignLiteral sign negative) (hm : MantissaLiteral m v) (hx : ExponentLiteral x e) :
    Literal (sign ++ m ++ x) negative (v * 10 ^ e)

/-! ### Digits -/

theorem digitZeros_apart : digitZeros.Pairwise (· + 10 ≤ ·) := by decide

theorem digitValue?_eq_some {c : Char} {n : Nat} : digitValue? c = some n ↔ IsDigit c n := by
  constructor
  · intro h
    obtain ⟨first, hfind, rfl⟩ := Option.map_eq_some_iff.1 h
    have hrun := List.find?_some hfind
    simp only [Bool.and_eq_true, decide_eq_true_eq] at hrun
    exact ⟨by omega, first, List.mem_of_find?_eq_some hfind, by omega⟩
  · rintro ⟨hn, first, hfirst, hc⟩
    obtain ⟨before, after, hzeros⟩ := List.append_of_mem hfirst
    have hapart := digitZeros_apart
    rw [hzeros, List.pairwise_append] at hapart
    -- No earlier script has the character, since its ten digits end before these begin.
    have hfind : digitZeros.find? (fun z => z ≤ c.toNat && c.toNat < z + 10) = some first := by
      rw [hzeros, List.find?_append, List.find?_eq_none.2, Option.none_or, List.find?_cons_of_pos]
      · simp only [Bool.and_eq_true, decide_eq_true_eq]
        omega
      · intro z hz
        have hbefore : z + 10 ≤ first := hapart.2.2 z hz first (List.mem_cons_self ..)
        simp only [Bool.and_eq_true, decide_eq_true_eq]
        omega
    rw [digitValue?, hfind, Option.map_some, hc, Nat.add_sub_cancel_left]

theorem digitsValue_foldl (cs : List Char) (n : Nat) :
    cs.foldl (fun n c => 10 * n + (digitValue? c).getD 0) n =
      n * 10 ^ cs.length + digitsValue cs := by
  unfold digitsValue
  induction cs generalizing n with
  | nil => simp
  | cons c cs ih =>
    rw [List.foldl_cons, List.foldl_cons, ih, ih (10 * 0 + _), List.length_cons, Nat.pow_succ]
    ring

theorem digitsValue_cons (c : Char) (cs : List Char) :
    digitsValue (c :: cs) = (digitValue? c).getD 0 * 10 ^ cs.length + digitsValue cs := by
  rw [digitsValue, List.foldl_cons, Nat.mul_zero, Nat.zero_add, digitsValue_foldl]

theorem digitsValue_append (w f : List Char) :
    digitsValue (w ++ f) = digitsValue w * 10 ^ f.length + digitsValue f := by
  rw [digitsValue, List.foldl_append, digitsValue_foldl]
  rfl

theorem spells_iff {cs : List Char} {n : Nat} :
    Spells cs n ↔ AllDigits cs ∧ digitsValue cs = n := by
  constructor
  · intro h
    induction h with
    | nil => exact ⟨fun c hc => absurd hc List.not_mem_nil, rfl⟩
    | cons hc hcs ih =>
      rw [← digitValue?_eq_some] at hc
      refine ⟨List.forall_mem_cons.2 ⟨?_, ih.1⟩, ?_⟩
      · rw [isDecimalDigit, hc]
        rfl
      · rw [digitsValue_cons, hc, ih.2]
        rfl
  · rintro ⟨hd, rfl⟩
    induction cs with
    | nil => exact .nil
    | cons c cs ih =>
      obtain ⟨hc, hcs⟩ := List.forall_mem_cons.1 hd
      obtain ⟨k, hk⟩ := Option.isSome_iff_exists.1 hc
      rw [digitsValue_cons, hk]
      exact .cons (digitValue?_eq_some.1 hk) (ih hcs)

theorem AllDigits.spells {cs : List Char} (h : AllDigits cs) : Spells cs (digitsValue cs) :=
  spells_iff.2 ⟨h, rfl⟩

theorem Spells.allDigits {cs : List Char} {n : Nat} (h : Spells cs n) : AllDigits cs :=
  (spells_iff.1 h).1

theorem Spells.value {cs : List Char} {n : Nat} (h : Spells cs n) : digitsValue cs = n :=
  (spells_iff.1 h).2

theorem Spells.append {w f : List Char} {n k : Nat} (hw : Spells w n) (hf : Spells f k) :
    Spells (w ++ f) (n * 10 ^ f.length + k) := by
  rw [← hw.value, ← hf.value, ← digitsValue_append]
  exact AllDigits.spells (List.forall_mem_append.2 ⟨hw.allDigits, hf.allDigits⟩)

theorem Spells.digits? {cs : List Char} {n : Nat} (h : Spells cs n) (hne : cs ≠ []) :
    digits? cs = some n := by
  rw [Numeral.digits?, if_pos ⟨hne, List.all_eq_true.2 h.allDigits⟩, h.value]

/-! ### The parts of a numeral -/

theorem SignLiteral.isSign {sign : List Char} {negative : Bool} (h : SignLiteral sign negative) :
    IsSign sign := by
  cases h <;> simp [IsSign]

theorem SignLiteral.splitSign {sign cs : List Char} {negative : Bool}
    (h : SignLiteral sign negative) (hc : ∀ c ∈ cs.head?, c ≠ '+' ∧ c ≠ '-') :
    splitSign (sign ++ cs) = (negative, cs) := by
  rw [splitSign_append h.isSign hc]
  cases h <;> rfl

theorem exists_signLiteral {sign : List Char} (h : IsSign sign) :
    ∃ negative, SignLiteral sign negative := by
  obtain rfl | rfl | rfl := h
  · exact ⟨_, .absent⟩
  · exact ⟨_, .plus⟩
  · exact ⟨_, .minus⟩

theorem MantissaLiteral.isMantissa {m : List Char} {v : ℚ} (h : MantissaLiteral m v) :
    IsMantissa m := by
  cases h with
  | whole hw hne => exact .inl ⟨hw.allDigits, hne⟩
  | point hw hne hf =>
    exact .inr ⟨_, _, hw.allDigits, hf.allDigits, List.append_ne_nil_of_left_ne_nil hne _, rfl⟩
  | fraction hf hne => exact .inr ⟨[], _, Spells.nil.allDigits, hf.allDigits, hne, rfl⟩

theorem exists_mantissaLiteral {m : List Char} (h : IsMantissa m) : ∃ v, MantissaLiteral m v := by
  obtain ⟨hd, hne⟩ | ⟨w, f, hw, hf, hne, rfl⟩ := h
  · exact ⟨_, .whole hd.spells hne⟩
  · by_cases h : w = []
    · subst h
      exact ⟨_, .fraction hf.spells hne⟩
    · exact ⟨_, .point hw.spells h hf.spells⟩

theorem ExponentLiteral.exponent? {x : List Char} {e : Int} (h : ExponentLiteral x e) :
    exponent? x = some e := by
  cases h with
  | absent => rfl
  | present he hs hds hne =>
    have hsplit := hs.splitSign fun c hc =>
      ne_sign_of_digit (hds.allDigits c (List.mem_of_mem_head? hc))
    simp only [Numeral.exponent?, if_pos he, hsplit, hds.digits? hne]
    rfl

theorem ExponentLiteral.isExponent {x : List Char} {e : Int} (h : ExponentLiteral x e) :
    IsExponent x := by
  rw [← exponent?_isSome_iff, h.exponent?]
  rfl

theorem exists_exponentLiteral {x : List Char} (h : IsExponent x) :
    ∃ e, ExponentLiteral x e := by
  obtain rfl | ⟨c, sign, ds, hc, hs, hd, hne, rfl⟩ := h
  · exact ⟨0, .absent⟩
  · obtain ⟨negative, hs⟩ := exists_signLiteral hs
    exact ⟨_, .present hc hs hd.spells hne⟩

theorem exists_literal {cs : List Char} (h : IsNumeral cs) :
    ∃ negative v, Literal cs negative v := by
  obtain ⟨sign, m, x, hs, hm, hx, rfl⟩ := h
  obtain ⟨negative, hs⟩ := exists_signLiteral hs
  obtain ⟨v, hm⟩ := exists_mantissaLiteral hm
  obtain ⟨e, hx⟩ := exists_exponentLiteral hx
  exact ⟨negative, _, .intro hs hm hx⟩

/-! ### The whole numeral -/

theorem decimal?_literal {sign body x : List Char} {negative : Bool} {w f : List Char} {e : Int}
    (hs : SignLiteral sign negative) (hc : ∀ c ∈ body.head?, c ≠ '+' ∧ c ≠ '-')
    (hbody : mantissa body = (w, f, x)) (hne : w ++ f ≠ []) (hx : ExponentLiteral x e) :
    decimal? (sign ++ body) = some ⟨negative, digitsValue (w ++ f), e - f.length⟩ := by
  simp only [mantissa, Prod.mk.injEq] at hbody
  obtain ⟨hwhole, hrest⟩ := hbody
  rw [decimal?]
  simp only [hs.splitSign hc, hwhole, hrest, hx.exponent?, Option.map_some]
  rw [if_neg (fun h => hne (List.append_eq_nil_iff.2 h))]

theorem mantissa_point {w f x : List Char} (hw : AllDigits w) (hf : AllDigits f)
    (hx : IsExponent x) : mantissa (w ++ '.' :: f ++ x) = (w, f, x) := by
  have hpoint : ∀ c ∈ ('.' :: (f ++ x)).head?, isDecimalDigit c = false := by
    simp [not_isDecimalDigit_point]
  obtain ⟨htake, hdrop⟩ := splitDigits hw hpoint
  obtain ⟨hftake, hfdrop⟩ := splitDigits hf hx.not_digit
  rw [List.append_assoc, List.cons_append, mantissa, htake, hdrop, splitFraction, hftake, hfdrop]

theorem mantissa_whole {w x : List Char} (hw : AllDigits w) (hx : IsExponent x) :
    mantissa (w ++ x) = (w, [], x) := by
  obtain ⟨htake, hdrop⟩ := splitDigits hw hx.not_digit
  rw [mantissa, htake, hdrop, splitFraction_exponent hx]

/-- Digits on both sides of a point, read without it, count units of the last place. -/
theorem value_split (negative : Bool) (n k len : Nat) (e : Int) :
    (⟨negative, n * 10 ^ len + k, e - len⟩ : Decimal).value =
      ((n : ℚ) + k / 10 ^ len) * 10 ^ e := by
  have hpow : (10 : ℚ) ^ len ≠ 0 := pow_ne_zero _ (by norm_num)
  simp only [Decimal.value, Nat.cast_add, Nat.cast_mul, Nat.cast_pow, Nat.cast_ofNat,
    zpow_sub₀ (show (10 : ℚ) ≠ 0 by norm_num), zpow_natCast]
  field_simp

theorem MantissaLiteral.digits {m x : List Char} {v : ℚ} {e : Int} (hm : MantissaLiteral m v)
    (hx : IsExponent x) (negative : Bool) : ∃ w f, mantissa (m ++ x) = (w, f, x) ∧ w ++ f ≠ [] ∧
      (⟨negative, digitsValue (w ++ f), e - f.length⟩ : Decimal).value = v * 10 ^ e := by
  cases hm with
  | @whole w n hw hne =>
    refine ⟨m, [], mantissa_whole hw.allDigits hx, by simpa using hne, ?_⟩
    rw [List.append_nil, hw.value, List.length_nil, Nat.cast_zero, Int.sub_zero]
    rfl
  | @point w f n k hw hne hf =>
    refine ⟨w, f, mantissa_point hw.allDigits hf.allDigits hx,
      List.append_ne_nil_of_left_ne_nil hne _, ?_⟩
    rw [(hw.append hf).value, value_split]
  | @fraction f k hf hne =>
    refine ⟨[], f, mantissa_point Spells.nil.allDigits hf.allDigits hx, hne, ?_⟩
    have hvalue := value_split negative 0 k f.length e
    rw [Nat.zero_mul, Nat.zero_add, Nat.cast_zero, zero_add] at hvalue
    rw [List.nil_append, hf.value, hvalue]

theorem Literal.denotes {cs : List Char} {negative : Bool} {v : ℚ} (h : Literal cs negative v) :
    Denotes cs negative v := by
  obtain ⟨hs, hm, hx⟩ := h
  obtain ⟨w, f, hsplit, hne, hvalue⟩ := hm.digits hx.isExponent negative
  refine ⟨_, ?_, rfl, hvalue⟩
  rw [List.append_assoc]
  exact decimal?_literal hs hm.isMantissa.not_sign hsplit hne hx

theorem Denotes.unique {cs : List Char} {s t : Bool} {v w : ℚ} (h : Denotes cs s v)
    (h' : Denotes cs t w) : s = t ∧ v = w := by
  obtain ⟨d, hd, rfl, rfl⟩ := h
  obtain ⟨d', hd', rfl, rfl⟩ := h'
  rw [hd] at hd'
  cases hd'
  exact ⟨rfl, rfl⟩

theorem denotes_iff_literal {cs : List Char} {negative : Bool} {v : ℚ} :
    Denotes cs negative v ↔ Literal cs negative v := by
  refine ⟨fun h => ?_, Literal.denotes⟩
  have hread : (read? cs).isSome := by
    obtain ⟨d, hd, -, -⟩ := h
    rw [read?, hd]
    rfl
  obtain ⟨s, w, hl⟩ := exists_literal ((read?_isSome_iff cs).1 hread)
  obtain ⟨rfl, rfl⟩ := h.unique hl.denotes
  exact hl

theorem Literal.read? {cs : List Char} {negative : Bool} {v : ℚ} (h : Literal cs negative v)
    (x : Double) : read? cs = some x ↔ Rounds negative v x := by
  obtain ⟨d, hd, rfl, rfl⟩ := h.denotes
  rw [Numeral.read?, hd, Option.map_some, Option.some_inj, Double.ofDecimal_eq_iff]

theorem read?_eq_none_iff (cs : List Char) :
    read? cs = none ↔ ¬ ∃ negative v, Literal cs negative v := by
  constructor
  · rintro hread ⟨negative, v, h⟩
    obtain ⟨d, hd, -, -⟩ := h.denotes
    rw [read?, hd] at hread
    cases hread
  · intro h
    exact read?_eq_none (fun hn => h (exists_literal hn))

end Numeral

namespace Datum

open Numeral

/-- An atom is a number exactly if its whole text is a literal, and then the one number that the
literal is rounded to; any other is the symbol of its text. -/
theorem ofAtom_classifies (t : String) :
    ((∃ x, ofAtom t = .number x) ↔ ∃ negative v, Literal t.toList negative v) ∧
      (∀ negative v, Literal t.toList negative v →
        ∀ x, ofAtom t = .number x ↔ Rounds negative v x) ∧
      ((¬ ∃ negative v, Literal t.toList negative v) → ofAtom t = .symbol t) := by
  have hsymbol : (¬ ∃ negative v, Literal t.toList negative v) → ofAtom t = .symbol t := by
    intro h
    rw [ofAtom, (read?_eq_none_iff _).2 h]
  have hnumber : ∀ negative v, Literal t.toList negative v →
      ∀ x, ofAtom t = .number x ↔ Rounds negative v x := by
    intro negative v h x
    obtain ⟨y, hy⟩ : ∃ y, read? t.toList = some y :=
      Option.ne_none_iff_exists'.1 fun hnone => (read?_eq_none_iff _).1 hnone ⟨_, _, h⟩
    rw [← h.read? x, ofAtom, hy, Option.some_inj, number.injEq]
  refine ⟨⟨fun ⟨x, hx⟩ => ?_, fun ⟨negative, v, h⟩ => ?_⟩, hnumber, hsymbol⟩
  · by_contra hnone
    rw [hsymbol hnone] at hx
    cases hx
  · obtain ⟨d, -, rfl, rfl⟩ := h.denotes
    exact ⟨_, (hnumber _ _ h _).2 (Double.rounds_ofDecimal d)⟩

end Datum
end MiniLisp
