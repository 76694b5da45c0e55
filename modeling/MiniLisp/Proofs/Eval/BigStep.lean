import MiniLisp.Proofs.Eval.Evolution

/-!
The meaning of expressions, as a relation between what is evaluated, the frame and the store, and
how that ends.  It knows no limit of depth, so what never ends has no ending here.
-/
set_option autoImplicit false

namespace MiniLisp

abbrev Ending := EStateM.Result Error Store Value

/-- The one ending that belongs to a limit of depth and not to an expression. -/
def OutOfDepth (ending : Ending) : Prop := ∃ s, ending = .error .recursionTooDeep s

/-- The error that quotes a printed value.  An integer that has no printed form gives its own. -/
inductive Reports (print : Nat → Except Error String) (mk : String → Error) : Error → Prop where
  | text {room : Nat} {text : String} : print room = .ok text → Reports print mk (mk text)
  | unprintable {room : Nat} {err : Error} : print room = .error err → err ≠ .recursionTooDeep →
      Reports print mk err

def Value.IsAtom : Value → Prop
  | .symbol _ | .cell _ => False
  | _ => True

inductive Misshapen : SpecialForm → List Value → Error → Prop where
  | quote {xs : List Value} : xs.length ≠ 1 → Misshapen .quote xs .quoteShape
  | conditional {xs : List Value} : xs.length ≠ 3 → Misshapen .conditional xs .ifShape
  | define {xs : List Value} : xs.length ≠ 2 → Misshapen .define xs .defineShape
  | defineName {name x : Value} : (∀ n, name ≠ .symbol n) → Misshapen .define [name, x] .defineName
  | lambda {xs : List Value} : xs.length ≠ 2 → Misshapen .lambda xs .lambdaShape
  | defun {xs : List Value} : xs.length ≠ 3 → Misshapen .defun xs .defunShape
  | defunName {name parameters body : Value} : (∀ n, name ≠ .symbol n) →
      Misshapen .defun [name, parameters, body] .defunName
  | function {xs : List Value} : xs.length ≠ 1 → Misshapen .function xs .functionShape

namespace Store

inductive Starts (s : Store) : Value → Value → Prop where
  | test {e test yes no : Value} : s.Lists e [.symbol "if", test, yes, no] → s.Starts e test
  | define {e x : Value} {name : String} :
      s.Lists e [.symbol "define", .symbol name, x] → s.Starts e x
  | function {e x : Value} : s.Lists e [.symbol "function", x] → s.Starts e x
  | head {e head : Value} {operands : List Value} : s.Lists e (head :: operands) →
      (∀ form : SpecialForm, head ≠ .symbol form.name) → s.Starts e head

/-- A call of the closure that fails before its body is evaluated: the parameters must be a proper
list, of symbols, and as many as the arguments. -/
inductive Rejects (s : Store) (c : Closure) (args : List Value) : Error → Prop where
  | improper {items : List Value} {last : Value} {err : Error} :
      s.Chain c.parameters items last → last ≠ .nil →
      Reports (s.displayWithin · c.parameters) .improperParameters err → s.Rejects c args err
  | notSymbol {names : List String} {p : Value} {rest : List Value} {err : Error} :
      s.Lists c.parameters (names.map .symbol ++ p :: rest) → (∀ n, p ≠ .symbol n) →
      Reports (s.displayWithin · p) .parameterNotSymbol err → s.Rejects c args err
  | mismatch {names : List String} : s.Lists c.parameters (names.map .symbol) →
      names.length ≠ args.length → s.Rejects c args (.argumentMismatch names.length args.length)

def withClosure (s : Store) (c : Closure) : Store :=
  (s.addClosure c).2.record (.closureCreated s.closures.size)

/-- A new frame for a call, the next of its table: the arguments under their names, inside the scope
of the closure. -/
def withCall (s : Store) (r : ClosureRef) (c : Closure) (names : List String)
    (args : List Value) : Store :=
  (s.addFrame (.update ⟨[], some c.scope⟩ (names.zip args))).2.record (.called r args.length)

end Store

/-- What is evaluated: an expression; the rest of a sequence after a value; the operands of a call
that are still due, after the values of the others; a function on its arguments. -/
inductive Task where
  | expression (e : Value)
  | sequence (last : Value) (rest : List Value)
  | operands (f : Value) (done rest : List Value)
  | call (f : Value) (args : List Value)

inductive Evaluates : Task → FrameRef → Store → Ending → Prop where
  | symbol {frame : FrameRef} {s : Store} {name : String} {v : Value} :
      s.lookup frame name = .ok v → Evaluates (.expression (.symbol name)) frame s (.ok v s)
  | unbound {frame : FrameRef} {s : Store} {name : String} {err : Error} :
      s.lookup frame name = .error err →
      Evaluates (.expression (.symbol name)) frame s (.error err s)
  | atom {frame : FrameRef} {s : Store} {e : Value} : e.IsAtom →
      Evaluates (.expression e) frame s (.ok e s)
  | malformed {frame : FrameRef} {s : Store} {r : CellRef} {items : List Value} {last : Value}
      {err : Error} : s.Chain (.cell r) items last → last ≠ .nil →
      Reports (s.printWithin · (.cell r)) .malformedForm err →
      Evaluates (.expression (.cell r)) frame s (.error err s)
  | misshapen {frame : FrameRef} {s : Store} {e : Value} {form : SpecialForm} {xs : List Value}
      {err : Error} : s.Lists e (.symbol form.name :: xs) → Misshapen form xs err →
      Evaluates (.expression e) frame s (.error err s)
  | startFails {frame : FrameRef} {s s₁ : Store} {e p : Value} {err : Error} : s.Starts e p →
      Evaluates (.expression p) frame s (.error err s₁) →
      Evaluates (.expression e) frame s (.error err s₁)
  | quote {frame : FrameRef} {s : Store} {e x : Value} : s.Lists e [.symbol "quote", x] →
      Evaluates (.expression e) frame s (.ok x s)
  | ifTrue {frame : FrameRef} {s s₁ : Store} {e test yes no v : Value} {ending : Ending} :
      s.Lists e [.symbol "if", test, yes, no] →
      Evaluates (.expression test) frame s (.ok v s₁) → v ≠ .nil →
      Evaluates (.expression yes) frame s₁ ending → Evaluates (.expression e) frame s ending
  | ifFalse {frame : FrameRef} {s s₁ : Store} {e test yes no : Value} {ending : Ending} :
      s.Lists e [.symbol "if", test, yes, no] →
      Evaluates (.expression test) frame s (.ok .nil s₁) →
      Evaluates (.expression no) frame s₁ ending → Evaluates (.expression e) frame s ending
  | define {frame : FrameRef} {s s₁ : Store} {e x v : Value} {name : String} :
      s.Lists e [.symbol "define", .symbol name, x] →
      Evaluates (.expression x) frame s (.ok v s₁) →
      Evaluates (.expression e) frame s
        (.ok (.symbol name) ((s₁.define frame name v).record (.defined name)))
  | lambda {frame : FrameRef} {s : Store} {e parameters body : Value} :
      s.Lists e [.symbol "lambda", parameters, body] →
      Evaluates (.expression e) frame s
        (.ok (.closure s.closures.size) (s.withClosure ⟨parameters, body, frame⟩))
  | defun {frame : FrameRef} {s : Store} {e parameters body : Value} {name : String} :
      s.Lists e [.symbol "defun", .symbol name, parameters, body] →
      Evaluates (.expression e) frame s (.ok (.symbol name)
        (((s.withClosure ⟨parameters, body, frame⟩).define frame name
          (.closure s.closures.size)).record (.functionDefined name)))
  | begin {frame : FrameRef} {s : Store} {e : Value} {xs : List Value} {ending : Ending} :
      s.Lists e (.symbol "begin" :: xs) → Evaluates (.sequence .nil xs) frame s ending →
      Evaluates (.expression e) frame s ending
  | function {frame : FrameRef} {s s₁ : Store} {e x f : Value} :
      s.Lists e [.symbol "function", x] → Evaluates (.expression x) frame s (.ok f s₁) →
      f.isFunction = true → Evaluates (.expression e) frame s (.ok f s₁)
  | notFunction {frame : FrameRef} {s s₁ : Store} {e x v : Value} {err : Error} :
      s.Lists e [.symbol "function", x] → Evaluates (.expression x) frame s (.ok v s₁) →
      v.isFunction = false → Reports (s₁.printWithin · v) .notFunction err →
      Evaluates (.expression e) frame s (.error err s₁)
  | call {frame : FrameRef} {s s₁ : Store} {e head f : Value} {xs : List Value}
      {ending : Ending} : s.Lists e (head :: xs) →
      (∀ form : SpecialForm, head ≠ .symbol form.name) →
      Evaluates (.expression head) frame s (.ok f s₁) → f.isFunction = true →
      Evaluates (.operands f [] xs) frame s₁ ending → Evaluates (.expression e) frame s ending
  | headNotFunction {frame : FrameRef} {s s₁ : Store} {e head v : Value} {xs : List Value}
      {err : Error} : s.Lists e (head :: xs) →
      (∀ form : SpecialForm, head ≠ .symbol form.name) →
      Evaluates (.expression head) frame s (.ok v s₁) → v.isFunction = false →
      Reports (s₁.printWithin · v) .headNotFunction err →
      Evaluates (.expression e) frame s (.error err s₁)
  | sequenceDone {frame : FrameRef} {s : Store} {last : Value} :
      Evaluates (.sequence last []) frame s (.ok last s)
  | sequenceNext {frame : FrameRef} {s s₁ : Store} {last x v : Value} {xs : List Value}
      {ending : Ending} : Evaluates (.expression x) frame s (.ok v s₁) →
      Evaluates (.sequence v xs) frame s₁ ending →
      Evaluates (.sequence last (x :: xs)) frame s ending
  | sequenceFails {frame : FrameRef} {s s₁ : Store} {last x : Value} {xs : List Value}
      {err : Error} : Evaluates (.expression x) frame s (.error err s₁) →
      Evaluates (.sequence last (x :: xs)) frame s (.error err s₁)
  | operandsDone {frame : FrameRef} {s : Store} {f : Value} {done : List Value}
      {ending : Ending} : Evaluates (.call f done) frame s ending →
      Evaluates (.operands f done []) frame s ending
  | operandsNext {frame : FrameRef} {s s₁ : Store} {f x v : Value} {done xs : List Value}
      {ending : Ending} : Evaluates (.expression x) frame s (.ok v s₁) →
      Evaluates (.operands f (done ++ [v]) xs) frame s₁ ending →
      Evaluates (.operands f done (x :: xs)) frame s ending
  | operandFails {frame : FrameRef} {s s₁ : Store} {f x : Value} {done xs : List Value}
      {err : Error} : Evaluates (.expression x) frame s (.error err s₁) →
      Evaluates (.operands f done (x :: xs)) frame s (.error err s₁)
  | primitive {frame : FrameRef} {s : Store} {p : Primitive} {serial room : Nat}
      {args : List Value} : ¬ OutOfDepth (p.run room args s) →
      Evaluates (.call (.primitive p serial) args) frame s (p.run room args s)
  | hook {frame : FrameRef} {s : Store} {h : Hook} {room : Nat} {args : List Value} :
      ¬ OutOfDepth (h.run room frame args s) →
      Evaluates (.call (.hook h) args) frame s (h.run room frame args s)
  | closure {frame : FrameRef} {s : Store} {r : ClosureRef} {c : Closure} {names : List String}
      {args : List Value} {ending : Ending} : s.closures[r]? = some c →
      s.Lists c.parameters (names.map .symbol) → names.length = args.length →
      Evaluates (.expression c.body) s.frames.size (s.withCall r c names args) ending →
      Evaluates (.call (.closure r) args) frame s ending
  | rejected {frame : FrameRef} {s : Store} {r : ClosureRef} {c : Closure} {args : List Value}
      {err : Error} : s.closures[r]? = some c → s.Rejects c args err →
      Evaluates (.call (.closure r) args) frame s (.error err s)

end MiniLisp
