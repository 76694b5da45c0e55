import MiniLisp.Text.IntegerText
import MiniLisp.Text.Quoted

/-!
Options of the command line.  Long names may be cut short as long as one option fits, a value
follows its option as the next argument, after an equals sign, or right after a short name, and
everything from a bare double dash on is an operand, of which none is accepted.
-/
set_option autoImplicit false

namespace MiniLisp

structure Options where
  command : Option String := none
  noColor : Bool := false
  recursionLimit : Option Int := none
  logLevel : Option String := none
  deriving DecidableEq, Repr

namespace Options

inductive Key where
  | help | command | noColor | recursionLimit | logLevel
  deriving DecidableEq, Repr

def names : List (String × Key) :=
  [("-h", .help), ("--help", .help), ("-c", .command), ("--command", .command),
    ("--no-color", .noColor), ("--recursion-limit", .recursionLimit), ("--log-level", .logLevel)]

namespace Key

def takesValue : Key → Bool
  | help | noColor => false
  | command | recursionLimit | logLevel => true

def label : Key → String
  | help => "-h/--help"
  | command => "-c/--command"
  | noColor => "--no-color"
  | recursionLimit => "--recursion-limit"
  | logLevel => "--log-level"

end Key

inductive Misuse where
  | ambiguous (argument : String) (candidates : List String)
  | ignoredValue (key : Key) (value : String)
  | missingValue (key : Key)
  | invalidInteger (key : Key) (text : String)
  | unrecognized (arguments : List String)
  deriving DecidableEq, Repr

def quotedText (text : String) : String := .ofList (Text.quoted text.toList)

def Misuse.message : Misuse → String
  | ambiguous argument candidates =>
    s!"ambiguous option: {argument} could match " ++ ", ".intercalate candidates
  | ignoredValue key value => s!"argument {key.label}: ignored explicit argument {quotedText value}"
  | missingValue key => s!"argument {key.label}: expected one argument"
  | invalidInteger key text => s!"argument {key.label}: invalid int value: {quotedText text}"
  | unrecognized arguments => "unrecognized arguments: " ++ " ".intercalate arguments

inductive Argument where
  | operand
  | option (name : List Char) (key : Key) (attached : Option (List Char))
  | unknown
  deriving DecidableEq, Repr

/-- The text before the first equals sign, and the value after it if there is one. -/
def splitEquals (cs : List Char) : List Char × Option (List Char) :=
  match cs.dropWhile (· ≠ '=') with
  | [] => (cs, none)
  | _ :: value => (cs.takeWhile (· ≠ '='), some value)

def key? (name : List Char) : Option Key := names.lookup (.ofList name)

def candidates (cs : List Char) : List (List Char × Key × Option (List Char)) :=
  match cs with
  | '-' :: '-' :: _ =>
    let (start, value) := splitEquals cs
    (names.filter (fun p => start.isPrefixOf p.1.toList)).map (fun p => (p.1.toList, p.2, value))
  | _ =>
    (names.filter (fun p => p.1.toList = cs.take 2)).map
      (fun p => (p.1.toList, p.2, some (cs.drop 2)))

/-- A minus sign, and digits around at most one point with one after it; a line end may follow. -/
def isNegativeNumber (cs : List Char) : Bool :=
  match (if cs.getLast? = some '\n' then cs.dropLast else cs) with
  | '-' :: ds =>
    let rest := ds.dropWhile Text.isDecimalDigit
    match rest with
    | [] => !ds.isEmpty
    | '.' :: fraction => !fraction.isEmpty && fraction.all Text.isDecimalDigit
    | _ => false
  | _ => false

def classify (argument : String) : Except Misuse Argument :=
  let cs := argument.toList
  if cs.head? ≠ some '-' then .ok .operand
  else
    match key? cs with
    | some key => .ok (.option cs key none)
    | none =>
      if cs.length = 1 then .ok .operand
      else
        let (start, value) := splitEquals cs
        match key? start, value with
        | some key, some v => .ok (.option start key (some v))
        | _, _ =>
          match candidates cs with
          | [] => .ok (if isNegativeNumber cs || cs.contains ' ' then .operand else .unknown)
          | [(name, key, v)] => .ok (.option name key v)
          | several => .error (.ambiguous argument (several.map (fun p => .ofList p.1)))

def classifyAll : List String → Except Misuse (List (String × Argument))
  | [] => .ok []
  | "--" :: rest => .ok (("--", .unknown) :: rest.map (fun a => (a, .operand)))
  | a :: rest => do
    let c ← classify a
    let later ← classifyAll rest
    return (a, c) :: later

inductive Refusal where
  | help
  | misuse (m : Misuse)
  deriving DecidableEq, Repr

def set (o : Options) (key : Key) (value : String) : Except Refusal Options :=
  match key with
  | .help => .error .help
  | .noColor => .ok { o with noColor := true }
  | .command => .ok { o with command := some value }
  | .logLevel => .ok { o with logLevel := some value }
  | .recursionLimit =>
    match Text.readInteger? value.toList with
    | some i => .ok { o with recursionLimit := some i }
    | none => .error (.misuse (.invalidInteger key value))

def clear (o : Options) : Key → Options
  | .help => o
  | .noColor => { o with noColor := false }
  | .command => { o with command := none }
  | .logLevel => { o with logLevel := none }
  | .recursionLimit => { o with recursionLimit := none }

/-- Sets an option to an attached value.  A double dash is no value, not even an attached one. -/
def setAttached (o : Options) (key : Key) (value : List Char) : Except Refusal Options :=
  if value = ['-', '-'] then .ok (o.clear key) else o.set key (.ofList value)

/-- Checks the text that follows a short option without a value: more short options, the last of
which may take the rest as its value, or the next argument if no rest is left. -/
def checkCluster (key : Key) (next : Option Argument) : List Char → Except Misuse Unit
  | [] => .ok ()
  | c :: cs =>
    match key? ['-', c] with
    | none => .error (.ignoredValue key (.ofList (c :: cs)))
    | some k =>
      if k.takesValue then
        if cs = [] ∧ next ≠ some .operand then .error (.missingValue k) else .ok ()
      else checkCluster k next cs

/-- Checks what is attached to an option without a value. -/
def checkAttached (name : List Char) (key : Key) (next : Option Argument) (value : List Char) :
    Except Misuse Unit :=
  if value = [] ∨ name.take 2 = ['-', '-'] then .error (.ignoredValue key (.ofList value))
  else checkCluster key next value

/-- Takes the options in order.  Help is the only short option without a value, so a cluster of
options ends in help. -/
def collect (o : Options) (extras : List String) :
    List (String × Argument) → Except Refusal (Options × List String)
  | [] => .ok (o, extras.reverse)
  | (a, .operand) :: rest | (a, .unknown) :: rest => collect o (a :: extras) rest
  | (_, .option name key attached) :: rest =>
    if key.takesValue then
      match attached with
      | some value => do
        let o ← o.setAttached key value
        collect o extras rest
      | none =>
        match rest with
        | (value, .operand) :: rest => do
          let o ← o.set key value
          collect o extras rest
        | _ => .error (.misuse (.missingValue key))
    else
      match attached.map (checkAttached name key (rest.head?.map (·.2))) with
      | some (.error m) => .error (.misuse m)
      | _ => do
        let o ← o.set key ""
        collect o extras rest

def parse (arguments : List String) : Except Refusal Options :=
  match classifyAll arguments with
  | .error m => .error (.misuse m)
  | .ok classified =>
    match collect {} [] classified with
    | .error r => .error r
    | .ok (o, []) => .ok o
    | .ok (_, extras) => .error (.misuse (.unrecognized extras))

end Options
end MiniLisp
