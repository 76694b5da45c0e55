import MiniLisp.Text.Blank

/-!
Tokens of source text.  A paren and the quote mark are tokens of their own, every other token is a
maximal run of the remaining non-blank characters, and blanks only separate.
-/
set_option autoImplicit false

namespace MiniLisp

inductive Token where
  | openParen
  | closeParen
  | quoteMark
  | atom (text : String)
  deriving DecidableEq, Repr

namespace Token

def isAtomChar (c : Char) : Bool := !Text.isBlank c && c != '(' && c != ')' && c != '\''

def ofText (text : String) : Token :=
  if text = "(" then .openParen else if text = ")" then .closeParen
  else if text = "'" then .quoteMark else .atom text

def text : Token → String
  | openParen => "("
  | closeParen => ")"
  | quoteMark => "'"
  | atom text => text

theorem ofText_text (t : String) : (ofText t).text = t := by
  unfold ofText
  split
  · simp_all [text]
  · split
    · simp_all [text]
    · split <;> simp_all [text]

def scan : List Char → List Token
  | [] => []
  | c :: cs =>
    if c = '(' then .openParen :: scan cs
    else if c = ')' then .closeParen :: scan cs
    else if c = '\'' then .quoteMark :: scan cs
    else if Text.isBlank c then scan cs
    else .atom (.ofList (c :: cs.takeWhile isAtomChar)) :: scan (cs.dropWhile isAtomChar)
termination_by cs => cs.length
decreasing_by
  all_goals
    have := (List.dropWhile_sublist (l := cs) isAtomChar).length_le
    simp only [List.length_cons]
    omega

end Token

def tokenize (source : String) : List Token := Token.scan source.toList

end MiniLisp
