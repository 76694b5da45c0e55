import MiniLisp.Text.Quoted

/-!
Why reading or evaluating stops.  Each cause carries what its message names; printed forms are fixed
when the error arises.  Six kinds group the causes; the two that only a host's values can bring
about have none.
-/
set_option autoImplicit false

namespace MiniLisp

inductive ErrorKind where
  | reading | binding | form | type | application | recursion
  deriving DecidableEq, Repr

def ErrorKind.name : ErrorKind → String
  | reading => "syntax"
  | binding => "binding"
  | form => "form"
  | type => "type"
  | application => "application"
  | recursion => "recursion"

inductive Error where
  | unexpectedEnd
  | unclosedList
  | unexpectedClose (index : Nat)
  | nothingBeforeDot
  | nothingAfterDot
  | severalAfterDot
  | trailingInput (token : String)
  | nestedTooDeeply
  | recursionTooDeep
  | unbound (name : String)
  | malformedForm (form : String)
  | quoteShape
  | ifShape
  | defineShape
  | defineName
  | lambdaShape
  | defunShape
  | defunName
  | functionShape
  | improperParameters (parameters : String)
  | parameterNotSymbol (parameter : String)
  | argumentMismatch (expected got : Nat)
  | arityExactly (operation : String) (expected got : Nat)
  | arityAtLeast (operation : String) (expected got : Nat)
  | notNumber (operation value : String)
  | notList (operation value : String)
  | notProperList (operation value : String)
  | notFunction (value : String)
  | headNotFunction (value : String)
  | notApplicable (value : String)
  | integerTooLarge
  | improperList
  deriving DecidableEq, Repr

namespace Error

def kind? : Error → Option ErrorKind
  | unexpectedEnd | unclosedList | unexpectedClose _ | nothingBeforeDot | nothingAfterDot
  | severalAfterDot | trailingInput _ => some .reading
  | nestedTooDeeply | recursionTooDeep => some .recursion
  | unbound _ => some .binding
  | malformedForm _ | quoteShape | ifShape | defineShape | defineName | lambdaShape | defunShape
  | defunName | functionShape | improperParameters _ | parameterNotSymbol _ | argumentMismatch _ _
  | arityExactly _ _ _ | arityAtLeast _ _ _ => some .form
  | notNumber _ _ | notList _ _ | notProperList _ _ | notFunction _ => some .type
  | headNotFunction _ | notApplicable _ => some .application
  | integerTooLarge | improperList => none

def argumentNoun (n : Nat) : String := if n = 1 then "argument" else "arguments"

def message : Error → String
  | unexpectedEnd => "Unexpected end of input"
  | unclosedList => "Unclosed list: missing ')'"
  | unexpectedClose i => s!"Unexpected closing paren at token {i}"
  | nothingBeforeDot => "Malformed dotted list: nothing before '.'"
  | nothingAfterDot => "Malformed dotted list: nothing after '.'"
  | severalAfterDot => "Malformed dotted list: more than one expression after '.'"
  | trailingInput token => "Unexpected trailing input: " ++ .ofList (Text.quoted token.toList)
  | nestedTooDeeply => "Recursion too deep: input is nested too deeply"
  | recursionTooDeep => "Recursion too deep"
  | unbound name => "Unbound symbol: " ++ name
  | malformedForm form => "Malformed form: " ++ form
  | quoteShape => "quote expects exactly 1 argument"
  | ifShape => "if requires a test, a then-expression and an else-expression"
  | defineShape => "define requires exactly 2 arguments"
  | defineName => "define: first argument must be a symbol"
  | lambdaShape => "lambda requires a parameter list and a single body expression"
  | defunShape => "defun requires a name, a parameter list and a single body expression"
  | defunName => "defun: first argument must be a symbol"
  | functionShape => "function requires exactly one argument"
  | improperParameters ps => "lambda: improper parameter list: " ++ ps
  | parameterNotSymbol p => "lambda: parameter must be a symbol, got " ++ p
  | argumentMismatch n m => s!"Parameter/argument count mismatch: expected {n}, got {m}"
  | arityExactly op n m => s!"{op} requires exactly {n} {argumentNoun n}, got {m}"
  | arityAtLeast op n m => s!"{op} requires at least {n} {argumentNoun n}, got {m}"
  | notNumber op v => s!"{op}: expected number, but got {v}"
  | notList op v => s!"{op}: expected a list, got {v}"
  | notProperList op v => s!"{op}: expected a proper list, got {v}"
  | notFunction v => "function: argument must evaluate to a function, got " ++ v
  | headNotFunction v => "First element is not a function: " ++ v
  | notApplicable v => "Cannot apply non-function " ++ v
  | integerTooLarge => "int too large to convert to float"
  | improperList => "improper list"

end Error
end MiniLisp
