import MiniLisp.Datum
import MiniLisp.Error
import MiniLisp.Token

/-!
Reading expressions from tokens, one token at a time.  What waits for the next expression is a stack
of contexts; each adds levels of depth, and `limit` bounds their sum.  The main statement is
`resume_ok_shorter`: an expression read has used up tokens.
-/
set_option autoImplicit false

namespace MiniLisp

/-- A place in a token list: how many tokens went before, and those that follow. -/
structure Cursor where
  position : Nat
  rest : List Token
  deriving DecidableEq, Repr

namespace Cursor

def start (tokens : List Token) : Cursor := ⟨0, tokens⟩
def peek (c : Cursor) : Option Token := c.rest.head?
def atEnd (c : Cursor) : Bool := c.rest.isEmpty

/-- The end is never passed. -/
def advance (c : Cursor) : Cursor :=
  match c.rest with
  | [] => c
  | _ :: ts => ⟨c.position + 1, ts⟩

end Cursor

namespace Reader

/-- What an expression under way stands in; items read so far come newest first. -/
inductive Context where
  | quoted
  | items (read : List Datum)
  | dotted (read : List Datum)
  deriving DecidableEq

/-- Between two tokens either an expression is due or, after a dotted tail, a closing paren. -/
inductive Pending where
  | expression (stack : List Context)
  | closing (read : List Datum) (tail : Datum) (stack : List Context)
  deriving DecidableEq

/-- What one token leads to; only a refused token is left unread. -/
inductive Step where
  | more (pending : Pending)
  | complete (datum : Datum)
  | failed (error : Error)
  | refused (error : Error)
  deriving DecidableEq

def deliver (d : Datum) : List Context → Step
  | [] => .complete d
  | .quoted :: stack => deliver d.quote stack
  | .items read :: stack => .more (.expression (.items (d :: read) :: stack))
  | .dotted read :: stack => .more (.closing read d stack)

/-- A list takes a level beside that of the expression, and its tail another one. -/
def Context.levels : Context → Nat
  | quoted => 1
  | items _ => 2
  | dotted _ => 3

def depth : List Context → Nat
  | [] => 0
  | c :: stack => c.levels + depth stack

def enter (limit : Nat) (c : Context) (stack : List Context) : Step :=
  if depth (c :: stack) < limit then .more (.expression (c :: stack)) else .failed .nestedTooDeeply

/-- A dot is special only where an item of a list may stand; elsewhere it is a symbol. -/
def step (limit index : Nat) : Pending → Token → Step
  | .closing read tail stack, .closeParen => deliver (.list read.reverse tail) stack
  | .closing _ _ _, _ => .failed .severalAfterDot
  | .expression stack, .openParen => enter limit (.items []) stack
  | .expression stack, .quoteMark => enter limit .quoted stack
  | .expression (.items read :: stack), .closeParen => deliver (.list read.reverse .nil) stack
  | .expression (.dotted _ :: _), .closeParen => .refused .nothingAfterDot
  | .expression _, .closeParen => .failed (.unexpectedClose index)
  | .expression (.items read :: stack), .atom text =>
    if text = "." then
      if read = [] then .failed .nothingBeforeDot else enter limit (.dotted read) stack
    else deliver (.ofAtom text) (.items read :: stack)
  | .expression stack, .atom text => deliver (.ofAtom text) stack

def Pending.missing : Pending → Error
  | .expression [] | .expression (.quoted :: _) => .unexpectedEnd
  | _ => .unclosedList

def resume (limit : Nat) (p : Pending) (index : Nat) : List Token → Except Error Datum × Cursor
  | [] => (.error p.missing, ⟨index, []⟩)
  | t :: ts =>
    match step limit index p t with
    | .more q => resume limit q (index + 1) ts
    | .complete d => (.ok d, ⟨index + 1, ts⟩)
    | .failed e => (.error e, ⟨index + 1, ts⟩)
    | .refused e => (.error e, ⟨index, t :: ts⟩)

theorem resume_ok_shorter (limit : Nat) (ts : List Token) :
    ∀ {p : Pending} {index : Nat} {d : Datum} {c : Cursor},
      resume limit p index ts = (.ok d, c) → c.rest.length < ts.length := by
  induction ts with
  | nil => intro p index d c h; simp [resume] at h
  | cons t ts ih =>
    intro p index d c h
    rw [resume] at h
    split at h
    · exact Nat.lt_succ_of_lt (ih h)
    · cases h; simp
    · simp at h
    · simp at h

end Reader

namespace Cursor

def read (limit : Nat) (c : Cursor) : Except Error Datum × Cursor :=
  Reader.resume limit (.expression []) c.position c.rest

def readList (limit : Nat) (c : Cursor) : Except Error Datum × Cursor :=
  Reader.resume limit (.expression [.items []]) c.position c.rest

/-- The tail after a dot, up to the closing paren; `hasItems` says whether an item precedes the dot. -/
def readTail (limit : Nat) (hasItems : Bool) (c : Cursor) : Except Error Datum × Cursor :=
  if hasItems then Reader.resume limit (.expression [.dotted []]) c.position c.rest
  else (.error .nothingBeforeDot, c)

end Cursor

structure Reading where
  data : List Datum
  error : Option Error
  cursor : Cursor
  deriving DecidableEq

def Cursor.readAll (limit : Nat) (c : Cursor) : Reading :=
  if c.atEnd then ⟨[], none, c⟩
  else
    match _h : c.read limit with
    | (.error e, next) => ⟨[], some e, next⟩
    | (.ok d, next) =>
      let later := next.readAll limit
      { later with data := d :: later.data }
termination_by c.rest.length
decreasing_by exact Reader.resume_ok_shorter limit c.rest (by assumption)

def readAll (limit : Nat) (source : String) : Reading := (Cursor.start (tokenize source)).readAll limit

def parse (limit : Nat) (source : String) : Except Error Datum :=
  match (Cursor.start (tokenize source)).read limit with
  | (.error e, _) => .error e
  | (.ok d, next) =>
    match next.peek with
    | none => .ok d
    | some token => .error (.trailingInput token.text)

end MiniLisp
