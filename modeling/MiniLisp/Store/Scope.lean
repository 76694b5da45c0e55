import MiniLisp.Store.Print

/-!
Scopes.  A frame keeps each name once, in the order of first definition; looking a name up goes
outward, and defining one writes the innermost frame only.
-/
set_option autoImplicit false

namespace MiniLisp

namespace Frame

def get? (f : Frame) (name : String) : Option Value := f.bindings.lookup name

def put (name : String) (v : Value) : List (String × Value) → List (String × Value)
  | [] => [(name, v)]
  | (n, w) :: rest => if n = name then (n, v) :: rest else (n, w) :: put name v rest

def define (f : Frame) (name : String) (v : Value) : Frame :=
  { f with bindings := put name v f.bindings }

theorem names_put (name : String) (v : Value) (bs : List (String × Value)) :
    (put name v bs).map Prod.fst =
      if name ∈ bs.map Prod.fst then bs.map Prod.fst else bs.map Prod.fst ++ [name] := by
  induction bs with
  | nil => rfl
  | cons b bs ih =>
    obtain ⟨n, w⟩ := b
    by_cases h : n = name
    · simp [put, h]
    · rw [put, if_neg h, List.map_cons, ih]
      by_cases hm : name ∈ bs.map Prod.fst <;> simp [hm, Ne.symm h]

theorem lookup_cons_if (n : String) (v : Value) (bs : List (String × Value)) (name : String) :
    ((n, v) :: bs).lookup name = if name = n then some v else bs.lookup name := by
  rw [List.lookup_cons]
  by_cases h : name = n
  · simp [h]
  · rw [beq_false_of_ne h, if_neg h]

theorem get?_define (f : Frame) (name : String) (v : Value) (other : String) :
    (f.define name v).get? other = if other = name then some v else f.get? other := by
  obtain ⟨bs, outer⟩ := f
  simp only [define, get?]
  induction bs with
  | nil => exact lookup_cons_if name v [] other
  | cons b bs ih =>
    obtain ⟨n, w⟩ := b
    by_cases hn : n = name
    · subst hn
      rw [put, if_pos rfl, lookup_cons_if, lookup_cons_if]
      by_cases h : other = n <;> simp [h]
    · rw [put, if_neg hn, lookup_cons_if, lookup_cons_if, ih]
      by_cases h : other = n
      · subst h; simp [hn]
      · simp [h]

def update (f : Frame) (vars : List (String × Value)) : Frame :=
  vars.foldl (fun f x => f.define x.1 x.2) f

section

variable (g : Value → Value)

theorem put_map (name : String) (v : Value) (bs : List (String × Value)) :
    (put name v bs).map (fun b => (b.1, g b.2)) =
      put name (g v) (bs.map (fun b => (b.1, g b.2))) := by
  induction bs with
  | nil => rfl
  | cons b bs ih =>
    obtain ⟨n, w⟩ := b
    by_cases hn : n = name <;> simp [put, hn, ih]

theorem lookup_map (bs : List (String × Value)) (name : String) :
    (bs.map (fun b => (b.1, g b.2))).lookup name = (bs.lookup name).map g := by
  induction bs with
  | nil => rfl
  | cons b bs ih =>
    rw [List.map_cons, lookup_cons_if, lookup_cons_if, ih]
    by_cases hn : name = b.1 <;> simp [hn]

theorem update_map {h : Frame → Frame}
    (hdefine : ∀ f name v, h (f.define name v) = (h f).define name (g v)) (f : Frame)
    (vars : List (String × Value)) :
    h (f.update vars) = (h f).update (vars.map (fun x => (x.1, g x.2))) := by
  induction vars generalizing f with
  | nil => rfl
  | cons x vars ih =>
    have hrest := ih (f.define x.1 x.2)
    rwa [hdefine] at hrest

end

end Frame

namespace Store

def addFrame (s : Store) (f : Frame) : FrameRef × Store :=
  (s.frames.size, { s with frames := s.frames.push f })

def child (s : Store) (r : FrameRef) : FrameRef × Store := s.addFrame ⟨[], some r⟩

def define (s : Store) (r : FrameRef) (name : String) (v : Value) : Store :=
  { s with frames := s.frames.modify r (·.define name v) }

def updateFrame (s : Store) (r : FrameRef) (vars : List (String × Value)) : Store :=
  { s with frames := s.frames.modify r (·.update vars) }

/-- The nearest frame from `r` outward that binds `name`.  An outer frame is older than what it
encloses, so only such links are followed. -/
def find? (s : Store) (r : FrameRef) (name : String) : Option FrameRef :=
  match s.frames[r]? with
  | none => none
  | some f =>
    if (f.get? name).isSome then some r
    else
      match f.outer with
      | none => none
      | some o => if o < r then s.find? o name else none
termination_by r

def contains (s : Store) (r : FrameRef) (name : String) : Bool := (s.find? r name).isSome

def lookup (s : Store) (r : FrameRef) (name : String) : Except Error Value :=
  match s.find? r name with
  | none => .error (.unbound name)
  | some q =>
    match s.frames[q]?.bind (·.get? name) with
    | some v => .ok v
    | none => .error (.unbound name)

def scopes (s : Store) (r : FrameRef) : List Frame :=
  match s.frames[r]? with
  | none => []
  | some f =>
    f :: match f.outer with
      | none => []
      | some o => if o < r then s.scopes o else []
termination_by r

def formals (s : Store) (room : Nat) (parameters : Value) : Except Error (List String) :=
  match s.toList? parameters with
  | .ok items =>
    items.mapM fun p =>
      match p with
      | .symbol name => pure name
      | p => do throw (.parameterNotSymbol (← s.displayWithin room p))
  | .error _ => do throw (.improperParameters (← s.displayWithin room parameters))

/-- The frame of a call: the arguments under the parameters' names, inside the closure's scope. -/
def callFrame (s : Store) (room : Nat) (c : Closure) (args : List Value) : Except Error Frame := do
  let names ← s.formals room c.parameters
  if names.length ≠ args.length then throw (.argumentMismatch names.length args.length)
  return Frame.update ⟨[], some c.scope⟩ (names.zip args)

def extend (room : Nat) (c : Closure) (args : List Value) : Action FrameRef := do
  let f ← Action.check (·.callFrame room c args)
  Action.ofStore (·.addFrame f)

def bindingText (s : Store) (b : String × Value) : Except Error String :=
  (s.inspect b.2).map (fun text => b.1 ++ ": " ++ text)

def bindingsText (s : Store) (f : Frame) : Except Error String :=
  (f.bindings.mapM s.bindingText).map (fun texts => "\x7b" ++ ", ".intercalate texts ++ "\x7d")

def frameText (s : Store) (r : FrameRef) : Except Error String :=
  match s.frames[r]? with
  | none => .ok ""
  | some f => (s.bindingsText f).map (fun text => if f.outer.isSome then text ++ " -> ..." else text)

def scopesText (s : Store) (r : FrameRef) : Except Error String :=
  ((s.scopes r).mapM s.bindingsText).map
    (fun texts => "<Environment chain: " ++ " -> ".intercalate texts ++ ">")

end Store
end MiniLisp
