import MiniLisp.Number.Numeral
import MiniLisp.Text.Blank

/-!
Integers as users type them: blanks around other than information separators, one sign, and single
underscores between digits of any script.  Texts of more than 4300 digits are refused.
-/
set_option autoImplicit false

namespace MiniLisp.Text

def maxIntegerDigits : Nat := 4300

/-- Digits with at most one underscore between two neighbours, without the underscores; `afterDigit`
says whether an underscore may come next. -/
def plainDigits? (afterDigit : Bool) : List Char → Option (List Char)
  | [] => if afterDigit then some [] else none
  | c :: cs =>
    if isDecimalDigit c then (plainDigits? true cs).map (c :: ·)
    else if c = '_' ∧ afterDigit then plainDigits? false cs
    else none

def isPadding (c : Char) : Bool := isBlank c && !isInformationSeparator c

def readInteger? (cs : List Char) : Option Int :=
  let (negative, body) := Numeral.splitSign (trim isPadding cs)
  match plainDigits? false body with
  | some ds =>
    if ds.length ≤ maxIntegerDigits then
      some (if negative then -Numeral.digitsValue ds else Numeral.digitsValue ds)
    else none
  | none => none

end MiniLisp.Text
