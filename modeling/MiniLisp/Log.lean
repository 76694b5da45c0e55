import MiniLisp.Store.Print

set_option autoImplicit false

namespace MiniLisp

namespace Log

def debug : Nat := 10
def warning : Nat := 30

def level? : String → Option Nat
  | "CRITICAL" | "FATAL" => some 50
  | "ERROR" => some 40
  | "WARNING" | "WARN" => some warning
  | "INFO" => some 20
  | "DEBUG" => some debug
  | "NOTSET" => some 0
  | _ => none

/-- Upper case as far as level names need it: beside ASCII, the dotless i and the long s have ASCII
letters as their capitals. -/
def capital (c : Char) : Char :=
  if c = 'ı' then 'I' else if c = 'ſ' then 'S' else c.toUpper

/-- The level of a name in any case; an unknown name means warnings. -/
def levelNamed (name : List Char) : Nat := (level? (.ofList (name.map capital))).getD warning

def kindText : ErrorKind → String
  | .reading => "ErrorKind.SYNTAX"
  | .binding => "ErrorKind.BINDING"
  | .form => "ErrorKind.FORM"
  | .type => "ErrorKind.TYPE"
  | .application => "ErrorKind.APPLICATION"
  | .recursion => "ErrorKind.RECURSION"

/-- The logger of an event and its message; an event whose text does not exist is not logged. -/
def logged? (s : Store) : Event → Option (String × String)
  | .traced _ => none
  | .closureCreated r => do
    let c ← s.closures[r]?
    let text ← (s.display c.parameters).toOption
    return ("nora.types.function", "closure created: params=" ++ text)
  | .called r n => do
    let text ← (s.inspect (.closure r)).toOption
    return ("nora.evaluation.apply", s!"calling {text} with {n} argument(s)")
  | .defined name => some ("nora.evaluation.special_forms.define_form", "defined " ++ name)
  | .functionDefined name =>
    some ("nora.evaluation.special_forms.defun_form", "defined function " ++ name)
  | .failed e => do
    let kind ← e.kind?
    return ("nora.repl", s!"evaluation failed ({kindText kind}): {e.message}")

def line? (s : Store) (e : Event) : Option String :=
  (logged? s e).map (fun p => "DEBUG " ++ p.1 ++ ": " ++ p.2 ++ "\n")

def lines (level : Nat) (s : Store) : String :=
  if level ≤ debug then .join (s.journal.reverse.filterMap (line? s)) else ""

end Log
end MiniLisp
