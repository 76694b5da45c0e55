import MiniLisp.Number.Decimal
import MiniLisp.Text.DecimalDigit

/-!
Number text.  Reading accepts `[+-]? (D+ [. D*] | . D+) ([eE] [+-]? D+)?` as a whole, where `D` is a
decimal digit of any script.  Writing gives the shortest digits, positionally from 10^-4 up to below
10^16 and otherwise with an exponent of at least two digits.
-/
set_option autoImplicit false

namespace MiniLisp
open Text

namespace Numeral

def splitSign : List Char → Bool × List Char
  | '-' :: cs => (true, cs)
  | '+' :: cs => (false, cs)
  | cs => (false, cs)

def digitsValue (cs : List Char) : Nat := cs.foldl (fun n c => 10 * n + (digitValue? c).getD 0) 0

/-- The value of a text that is digits only, and has at least one. -/
def digits? (cs : List Char) : Option Nat :=
  if cs ≠ [] ∧ cs.all isDecimalDigit then some (digitsValue cs) else none

def exponent? : List Char → Option Int
  | [] => some 0
  | c :: cs =>
    if c = 'e' ∨ c = 'E' then
      let (negative, ds) := splitSign cs
      (digits? ds).map (fun n => if negative then -n else n)
    else none

def splitFraction : List Char → List Char × List Char
  | '.' :: cs => (cs.takeWhile isDecimalDigit, cs.dropWhile isDecimalDigit)
  | cs => ([], cs)

def decimal? (cs : List Char) : Option Decimal :=
  let (negative, body) := splitSign cs
  let whole := body.takeWhile isDecimalDigit
  let (fraction, rest) := splitFraction (body.dropWhile isDecimalDigit)
  if whole = [] ∧ fraction = [] then none
  else (exponent? rest).map (fun e => ⟨negative, digitsValue (whole ++ fraction), e - fraction.length⟩)

def read? (cs : List Char) : Option Double := (decimal? cs).map .ofDecimal

def exponentText (e : Int) : List Char :=
  let ds := Nat.toDigits 10 e.natAbs
  'e' :: (if e < 0 then '-' else '+') :: (if ds.length < 2 then '0' :: ds else ds)

/-- Digits with the point after the first `place` of them; `whole` ends an integral value. -/
def positional (ds : List Char) (place : Int) (whole : List Char) : List Char :=
  if place ≤ 0 then '0' :: '.' :: List.replicate (-place).toNat '0' ++ ds
  else if ds.length ≤ place then ds ++ List.replicate (place.toNat - ds.length) '0' ++ whole
  else ds.take place.toNat ++ '.' :: ds.drop place.toNat

def scientific (ds : List Char) (place : Int) : List Char :=
  ds.take 1 ++ (if ds.length ≤ 1 then [] else '.' :: ds.drop 1) ++ exponentText (place - 1)

def layout (d : Decimal) (whole : List Char) : List Char :=
  let ds := Nat.toDigits 10 d.coefficient
  let place := d.exponent + ds.length
  if -4 < place ∧ place ≤ 16 then positional ds place whole else scientific ds place

end Numeral

namespace Double

def textEnding (whole : List Char) : Double → List Char
  | .nan => ['n', 'a', 'n']
  | .infinity s => (if s then ['-'] else []) ++ ['i', 'n', 'f']
  | .finite s m => (if s then ['-'] else []) ++ Numeral.layout m.shortest whole

def text (x : Double) : String := .ofList (x.textEnding [])

/-- The text that marks every positional number as one with a fraction. -/
def pointedText (x : Double) : String := .ofList (x.textEnding ['.', '0'])

end Double
end MiniLisp
