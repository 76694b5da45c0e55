import MiniLisp.Proofs.Number.Shortest
import MiniLisp.Proofs.Reader.RoundTrip

/-!
The text of a finite number is one token of a program, and stands for that number only
(`text_reads_back`).  It is the pointed text without the mark of an integral value, which no other
digits end in since the last of the shortest is not a zero (`textEnding_eq_unmarked`).
-/
set_option autoImplicit false

namespace MiniLisp

namespace Numeral

def unmarked (cs : List Char) : List Char :=
  if ['.', '0'] <:+ cs then cs.dropLast.dropLast else cs

theorem unmarked_append (cs : List Char) : unmarked (cs ++ ['.', '0']) = cs := by
  have hdrop : (cs ++ ['.', '0']).dropLast.dropLast = cs := by
    rw [List.append_cons, List.dropLast_concat, List.dropLast_concat]
  rw [unmarked, if_pos (List.suffix_append _ _), hdrop]

theorem getLast?_toDigits (n : Nat) :
    (Nat.toDigits 10 n).getLast? = some (n % 10).digitChar := by
  rw [Nat.toDigits_eq_if (by decide)]
  split
  · next h => rw [Nat.mod_eq_of_lt h, List.getLast?_singleton]
  · exact List.getLast?_concat

theorem not_marked_of_last {cs : List Char} {c : Char} (h : cs.getLast? = some c) (hc : c ≠ '0') :
    ¬ ['.', '0'] <:+ cs := by
  rintro ⟨pre, rfl⟩
  rw [List.getLast?_append] at h
  exact hc (Option.some.inj h).symm

/-- An exponent has two digits at least, so no point is next to the last. -/
theorem not_marked_exponentText (cs : List Char) (e : Int) :
    ¬ ['.', '0'] <:+ cs ++ exponentText e := by
  have hdigits := isDigit_toDigits e.natAbs
  have hpos := Nat.length_toDigits_pos (b := 10) (n := e.natAbs)
  obtain ⟨pre, ds, hds, hlen, htext⟩ : ∃ pre ds : List Char, (∀ c ∈ ds, c.isDigit = true) ∧
      2 ≤ ds.length ∧ cs ++ exponentText e = pre ++ ds := by
    refine ⟨cs ++ ['e', if e < 0 then '-' else '+'], if (Nat.toDigits 10 e.natAbs).length < 2 then
      '0' :: Nat.toDigits 10 e.natAbs else Nat.toDigits 10 e.natAbs, ?_, ?_, by simp [exponentText]⟩
    · split
      · exact List.forall_mem_cons.2 ⟨rfl, hdigits⟩
      · exact hdigits
    · split
      · rw [List.length_cons]
        omega
      · omega
  intro h
  rw [htext] at h
  have hmem := (List.suffix_of_suffix_length_le h (List.suffix_append pre ds) hlen).subset
    (List.mem_cons_self ..)
  exact absurd (hds _ hmem) (by decide)

end Numeral

theorem Decimal.trim_coefficient (d : Decimal) :
    d.trim.coefficient = 0 ∨ d.trim.coefficient % 10 ≠ 0 := by
  fun_induction trim d with
  | case1 d h ih => exact ih
  | case2 d h => omega

namespace Magnitude

theorem shortest_coefficient (m : Magnitude) :
    m.shortest = ⟨false, 0, 0⟩ ∨ m.shortest.coefficient % 10 ≠ 0 := by
  by_cases hm : m.units = 0
  · exact .inl (if_pos hm)
  · have htrim := (m.shortestAmong.getD m.exactDecimal).trim_coefficient
    rw [show (m.shortestAmong.getD m.exactDecimal).trim = m.shortest from (if_neg hm).symm] at htrim
    refine .inr (htrim.resolve_left fun hzero => hm ?_)
    have hread := m.ofDecimal_shortest
    rw [Double.ofDecimal, if_pos hzero] at hread
    rw [← (Double.finite.inj hread).2]
    rfl

end Magnitude

namespace Numeral

/-- Either the mark is all that a layout gains by it, or the layout takes none and has none. -/
theorem layout_marked {d : Decimal} (h : d = ⟨false, 0, 0⟩ ∨ d.coefficient % 10 ≠ 0)
    (mark : List Char) : layout d mark = layout d [] ++ mark ∨
      layout d mark = layout d [] ∧ ∀ cs, ¬ ['.', '0'] <:+ cs ++ layout d [] := by
  rcases h with rfl | h
  · exact .inl rfl
  · have hlast := getLast?_toDigits d.coefficient
    have hzero : (d.coefficient % 10).digitChar ≠ '0' := mt Nat.digitChar_eq_zero.1 h
    have hends : ∀ cs, (cs ++ Nat.toDigits 10 d.coefficient).getLast? =
        some (d.coefficient % 10).digitChar := by
      intro cs
      rw [List.getLast?_append, hlast, Option.some_or]
    simp only [layout]
    split
    · simp only [positional]
      split
      · refine .inr ⟨rfl, fun cs => not_marked_of_last ?_ hzero⟩
        rw [← List.append_assoc]
        exact hends _
      · split
        · exact .inl (by simp)
        · next hlt =>
          refine .inr ⟨rfl, fun cs => not_marked_of_last ?_ hzero⟩
          rw [List.append_cons, ← List.append_assoc, List.getLast?_append, List.getLast?_drop,
            if_neg (by omega), hlast, Option.some_or]
    · refine .inr ⟨rfl, fun cs => ?_⟩
      rw [scientific, ← List.append_assoc]
      exact not_marked_exponentText _ _

end Numeral

namespace Double

open Numeral

theorem textEnding_eq_unmarked (x : Double) :
    x.textEnding [] = unmarked (x.textEnding ['.', '0']) := by
  cases x with
  | nan => decide
  | infinity s => cases s <;> decide
  | finite s m =>
    rw [textEnding, textEnding]
    rcases layout_marked m.shortest_coefficient ['.', '0'] with h | ⟨h, hnone⟩
    · rw [h, ← List.append_assoc, unmarked_append]
    · rw [h, unmarked, if_neg (hnone _)]

theorem tokenize_text (x : Double) : tokenize x.text = [.atom x.text] := by
  have hends : Token.EndsAtom [] := by simp [Token.EndsAtom]
  have hscan := Datum.scan_number x hends
  rw [List.append_nil] at hscan
  rw [tokenize, x.toList_text, hscan, Token.scan]

/-- The text of a finite number lays out the fewest digits that are read as it.  It is the pointed
one unmarked, and one token, which reads back to that number bit for bit; no other number has the
text. -/
theorem text_reads_back (negative : Bool) (m : Magnitude) :
    let x := finite negative m
    (∀ d : Decimal, ofDecimal d = x →
        (Nat.toDigits 10 m.shortest.coefficient).length ≤ (Nat.toDigits 10 d.coefficient).length) ∧
      x.text = .ofList (unmarked x.pointedText.toList) ∧ tokenize x.text = [.atom x.text] ∧
      Datum.ofAtom x.text = .number x ∧ ∀ y : Double, y.text = x.text → y = x := by
  intro x
  have hread : Datum.ofAtom x.text = .number x := x.ofAtom_text
  refine ⟨fun d => Magnitude.length_shortest_le, ?_, x.tokenize_text, hread, fun y hy => ?_⟩
  · rw [pointedText, String.toList_ofList, ← textEnding_eq_unmarked, text]
  · have hy : y.reread = .number x := by rw [← y.ofAtom_text, hy, hread]
    rw [reread] at hy
    split at hy
    · exact Datum.number.inj hy
    · cases hy

end Double
end MiniLisp
