import MiniLisp.Value

/-!
Texts of values.  `print` gives Lisp's own form; `display` differs from it on numbers, which keep
their point, and on integers; `inspect` also marks symbols and cells as such.  Only an integer that
no number is near to has no printed form, and where there is room for a given depth only, neither
does what is nested more deeply.
-/
set_option autoImplicit false

namespace MiniLisp.Store

def boolText (b : Bool) : String := if b then "True" else "False"

def write (s : Store) : (room : Nat) → Value → String → Except Error String
  | 0, _, _ => .error .recursionTooDeep
  | room + 1, v, out =>
    match v with
    | .nil => .ok (out ++ "NIL")
    | .number x => .ok (out ++ x.text)
    | .symbol name => .ok (out ++ name)
    | .integer i => (Double.ofInteger i).map (fun x => out ++ x.text)
    | .bool b => .ok (out ++ boolText b)
    | .primitive p _ => .ok (out ++ "<primitive " ++ p.name ++ ">")
    | .hook h => .ok (out ++ "<primitive " ++ h.name ++ ">")
    | .closure r =>
      match s.closures[r]? with
      | none => .ok out
      | some c =>
        if c.parameters = .nil then .ok (out ++ "<closure ()>")
        else (s.write room c.parameters (out ++ "<closure ")).map (·.push '>')
    | .cell _ =>
      match s.chain v with
      | ([], _) => .ok out
      | (first :: rest, last) => do
        let out ← s.write room first (out.push '(')
        let out ← rest.foldlM (fun out x => s.write room x (out.push ' ')) out
        if last = .nil then .ok (out.push ')')
        else (s.write room last (out ++ " . ")).map (·.push ')')

def printWithin (s : Store) (room : Nat) (v : Value) : Except Error String := s.write room v ""

/-- Nesting without a cycle is no deeper than the tables are long. -/
def ampleRoom (s : Store) : Nat := s.cells.size + s.closures.size + 1

def print (s : Store) (v : Value) : Except Error String := s.printWithin s.ampleRoom v

def displayWithin (s : Store) (room : Nat) : Value → Except Error String
  | .number x => .ok x.pointedText
  | .integer i => .ok (toString i)
  | v => s.printWithin room v

def display (s : Store) (v : Value) : Except Error String := s.displayWithin s.ampleRoom v

def inspect (s : Store) : Value → Except Error String
  | .symbol name => .ok ("Symbol(" ++ .ofList (Text.quoted name.toList) ++ ")")
  | .cell r => (s.print (.cell r)).map (fun text => "Cons<" ++ text ++ ">")
  | v => s.display v

end MiniLisp.Store
