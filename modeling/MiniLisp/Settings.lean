import MiniLisp.Log
import MiniLisp.Text.IntegerText

set_option autoImplicit false

namespace MiniLisp

abbrev Variables := String → Option String

structure Settings where
  recursionLimit : Int
  logLevel : Nat
  color : Bool
  prompt : String
  deriving DecidableEq, Repr

namespace Settings

/-- Only positive integers count, with blanks of any kind around them. -/
def integer (vars : Variables) (name : String) (default : Int) : Int :=
  match (vars name).bind (fun text => Text.readInteger? (Text.strip text.toList)) with
  | some i => if 0 < i then i else default
  | none => default

def negations : List String := ["0", "false", "no", "off"]

/-- A blank text leaves the default, and any text but a negation means yes. -/
def flag (vars : Variables) (name : String) (default : Bool) : Bool :=
  match (vars name).map (fun text => Text.strip text.toList) with
  | none | some [] => default
  | some text => !negations.contains (.ofList (text.map Char.toLower))

def logLevelOf (vars : Variables) : Nat :=
  Log.levelNamed (Text.strip ((vars "NORA_LOG_LEVEL").getD "WARNING").toList)

def ofVariables (vars : Variables) : Settings where
  recursionLimit := integer vars "NORA_RECURSION_LIMIT" 10000
  logLevel := logLevelOf vars
  color := flag vars "NORA_COLOR" true
  prompt := (vars "NORA_PROMPT").getD "> "

end Settings
end MiniLisp
