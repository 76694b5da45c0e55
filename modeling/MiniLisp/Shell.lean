import MiniLisp.Interpreter
import MiniLisp.Text.Blank

/-!
The read-evaluate-print loop.  Each line of input is fed to one interpreter and answered by a line
for each value and one for the error, until a line that says `exit` or the end of input.
-/
set_option autoImplicit false

namespace MiniLisp

structure Shell where
  limit : Nat
  frame : FrameRef
  prompt : String
  color : Bool
  deriving DecidableEq, Repr

namespace Shell

def banner : String := "Nora Lisp Interpreter"

def errorLabel (color : Bool) : String :=
  if color then "\x1b[1m\x1b[31mError: \x1b[0m" else "Error: "

def formatError (color : Bool) (message : String) : String := errorLabel color ++ message

/-- The printed form, or why there is none.  It is printed here however deep the value is nested; a
host without room for that would leave the loop with an error. -/
def valueText (s : Store) (v : Value) : String :=
  match s.print v with
  | .ok text => text
  | .error e => e.message

def outcomeText (sh : Shell) (s : Store) (o : Outcome) : String :=
  .join (o.values.map (fun v => valueText s v ++ "\n")) ++
    match o.error with
    | some e => formatError sh.color e.message ++ "\n"
    | none => ""

def run (sh : Shell) (source : String) (s : Store) : (Outcome × String) × Store :=
  let (o, s) := Interpreter.feed sh.limit sh.frame source s
  let s := match o.error with
    | some e => s.record (.failed e)
    | none => s
  ((o, sh.outcomeText s o), s)

inductive Reply where
  | stop
  | blank
  | answer (output : String)
  deriving DecidableEq, Repr

def Reply.output : Reply → String
  | stop | blank => ""
  | answer output => output

def respond (sh : Shell) (line : String) (s : Store) : Reply × Store :=
  match Text.strip line.toList with
  | ['e', 'x', 'i', 't'] => (.stop, s)
  | [] => (.blank, s)
  | _ =>
    let (r, s) := sh.run line s
    (.answer r.2, s)

/-- Prompts and answers for the lines of an input, up to a line that stops or the end. -/
def converse (sh : Shell) : List String → Store → String × Store
  | [], s => (sh.prompt ++ "\n", s)
  | line :: rest, s =>
    match sh.respond line s with
    | (.stop, s) => (sh.prompt, s)
    | (reply, s) =>
      let (later, s) := sh.converse rest s
      (sh.prompt ++ reply.output ++ later, s)

def introText (intro : String) : String := if intro = "" then "" else intro ++ "\n"

/-- A line ends at a line feed only; the last one may end with the input. -/
def splitLines : List Char → List (List Char)
  | [] => []
  | '\n' :: cs => [] :: splitLines cs
  | c :: cs =>
    match splitLines cs with
    | [] => [[c]]
    | line :: rest => (c :: line) :: rest

/-- A line without the line feed and carriage returns that end it. -/
def withoutLineEnd (line : List Char) : List Char :=
  (line.reverse.dropWhile (fun c => c = '\n' || c = '\r')).reverse

def inputLines (input : String) : List String :=
  (splitLines input.toList).map (fun line => .ofList (withoutLineEnd line))

def session (sh : Shell) (intro input : String) (s : Store) : String × Store :=
  let (text, s) := sh.converse (inputLines input) s
  (introText intro ++ text, s)

end Shell
end MiniLisp
