import MiniLisp.Number.Numeral

/-!
What source text denotes: trees of Nil, numbers, symbols and pairs.  A chain of pairs is a list, and
a proper one if it ends in Nil.
-/
set_option autoImplicit false

namespace MiniLisp

inductive Datum where
  | nil
  | number (x : Double)
  | symbol (name : String)
  | cons (head tail : Datum)
  deriving DecidableEq

namespace Datum

def list (items : List Datum) (tail : Datum) : Datum := items.foldr .cons tail

/-- A numeral is a number, any other text the symbol of that name. -/
def ofAtom (text : String) : Datum :=
  match Numeral.read? text.toList with
  | some x => .number x
  | none => .symbol text

def quote (d : Datum) : Datum := list [.symbol "quote", d] .nil

def chainFrom (items : List Datum) : Datum → List Datum × Datum
  | .cons a d => chainFrom (a :: items) d
  | d => (items.reverse, d)

def chain (d : Datum) : List Datum × Datum := d.chainFrom []

/-- Printed forms, written at the end of `out`.  The second function stands inside a pair, after its
head. -/
def writeParts : Bool → Datum → String → String
  | false, .nil, out => out ++ "NIL"
  | false, .number x, out => out ++ x.text
  | false, .symbol name, out => out ++ name
  | false, .cons a d, out => writeParts true d (writeParts false a (out.push '('))
  | true, .nil, out => out.push ')'
  | true, .number x, out => (out ++ " . " ++ x.text).push ')'
  | true, .symbol name, out => (out ++ " . " ++ name).push ')'
  | true, .cons a d, out => writeParts true d (writeParts false a (out.push ' '))

def print (d : Datum) : String := writeParts false d ""

end Datum
end MiniLisp
