import MiniLisp.Proofs.Eval.Settling

/-!
Scopes by the account of what was done to them.  The account keeps for each frame all that it was
ever given, oldest first, and the frame around it.  One operation leaves the frames as their account
says (`Accounted.operate`), and so does any number of them (`Accounted.run`).
-/
set_option autoImplicit false

namespace MiniLisp

open Store

inductive ScopeOperation where
  | create
  | child (r : FrameRef)
  | define (r : FrameRef) (name : String) (v : Value)
  | update (r : FrameRef) (vars : List (String × Value))
  | extend (c : Closure) (args : List Value)

namespace ScopeOperation

def target? : ScopeOperation → Option FrameRef
  | create => none
  | child r | define r _ _ | update r _ => some r
  | extend c _ => some c.scope

/-- What the operation gives to a frame that there is already. -/
def given? : ScopeOperation → Option (FrameRef × List (String × Value))
  | define r name v => some (r, [(name, v)])
  | update r vars => some (r, vars)
  | _ => none

end ScopeOperation

def Value.symbolName? : Value → Option String
  | symbol name => some name
  | _ => none

namespace Store

/-- A call that is refused adds no frame. -/
def operate (room : Nat) (s : Store) : ScopeOperation → Store
  | .create => (s.addFrame ⟨[], none⟩).2
  | .child r => (s.child r).2
  | .define r name v => s.define r name v
  | .update r vars => s.updateFrame r vars
  | .extend c args =>
    match extend room c args s with
    | .ok _ t => t
    | .error _ t => t

def Applicable (room : Nat) : Store → List ScopeOperation → Prop
  | _, [] => True
  | s, op :: ops => (∀ r ∈ op.target?, r < s.frames.size) ∧ Applicable room (s.operate room op) ops

def symbolNames? (s : Store) (v : Value) : Option (List String) :=
  match s.chain v with
  | (items, .nil) => items.mapM Value.symbolName?
  | _ => none

end Store

/-- All that a frame was ever given, oldest first, and the frame around it. -/
structure Account where
  given : List (String × Value)
  outer : Option FrameRef

def lastGiven (given : List (String × Value)) (name : String) : Option Value :=
  given.reverse.lookup name

def firstNames (given : List (String × Value)) : List String := (given.map Prod.fst).eraseDups

namespace Accounts

def own? (as : Array Account) (name : String) (r : FrameRef) : Option Value :=
  as[r]?.bind (lastGiven ·.given name)

inductive Around (as : Array Account) : FrameRef → List FrameRef → Prop where
  | outermost {r : FrameRef} {a : Account} : as[r]? = some a → a.outer = none → Around as r [r]
  | inside {r o : FrameRef} {a : Account} {rs : List FrameRef} : as[r]? = some a →
      a.outer = some o → Around as o rs → Around as r (r :: rs)

def give (as : Array Account) (r : FrameRef) (vars : List (String × Value)) : Array Account :=
  as.modify r (fun a => { a with given := a.given ++ vars })

/-- The account of an operation.  A call gives the arguments to a new frame under the parameters'
names, if there are as many of both. -/
def enter (names? : Value → Option (List String)) (as : Array Account) :
    ScopeOperation → Array Account
  | .create => as.push ⟨[], none⟩
  | .child r => as.push ⟨[], some r⟩
  | .define r name v => give as r [(name, v)]
  | .update r vars => give as r vars
  | .extend c args =>
    match names? c.parameters with
    | some names =>
      if names.length = args.length then as.push ⟨names.zip args, some c.scope⟩ else as
    | none => as

end Accounts

open Accounts

theorem report_toOption {α : Type} (x : Except Error String) (mk : String → Error) :
    (do throw (mk (← x)) : Except Error α).toOption = none := by
  cases x <;> rfl

theorem lastGiven_append (given : List (String × Value)) (n : String) (v : Value) (name : String) :
    lastGiven (given ++ [(n, v)]) name = if name = n then some v else lastGiven given name := by
  rw [lastGiven, List.reverse_append, List.reverse_singleton, List.singleton_append,
    Frame.lookup_cons_if, lastGiven]

theorem firstNames_append (given : List (String × Value)) (n : String) (v : Value) :
    firstNames (given ++ [(n, v)]) =
      if n ∈ given.map Prod.fst then firstNames given else firstNames given ++ [n] := by
  rw [firstNames, List.map_append, List.eraseDups_append, List.removeAll]
  by_cases h : n ∈ given.map Prod.fst
  · simp [h, firstNames]
  · simp [h, firstNames, List.eraseDups_cons]

theorem lastGiven_append_of_some {vars : List (String × Value)} {name : String} {v : Value}
    (h : lastGiven vars name = some v) (given : List (String × Value)) :
    lastGiven (given ++ vars) name = some v := by
  rw [lastGiven, List.reverse_append, List.lookup_append]
  rw [lastGiven] at h
  rw [h, Option.some_or]

/-- The frame lists each name it was ever given once, in the order in which they were first given,
with what was given last. -/
structure Frame.Accounted (f : Frame) (a : Account) : Prop where
  outer : f.outer = a.outer
  names : f.bindings.map Prod.fst = firstNames a.given
  once : (f.bindings.map Prod.fst).Nodup
  last : ∀ name, f.get? name = lastGiven a.given name

namespace Frame.Accounted

variable {f : Frame} {a : Account}

theorem define (h : f.Accounted a) (name : String) (v : Value) :
    (f.define name v).Accounted { a with given := a.given ++ [(name, v)] } := by
  have hmem : name ∈ f.bindings.map Prod.fst ↔ name ∈ a.given.map Prod.fst := by
    rw [h.names, firstNames, List.mem_eraseDups]
  refine ⟨h.outer, ?_, ?_, fun other => ?_⟩
  · rw [Frame.define, names_put, firstNames_append, h.names]
    simp only [← h.names, hmem]
  · rw [Frame.define, names_put]
    split
    · exact h.once
    · next hnew =>
      refine List.nodup_append.2 ⟨h.once, by simp, fun x hx y hy => ?_⟩
      rw [List.mem_singleton.1 hy]
      rintro rfl
      exact hnew hx
  · rw [get?_define, lastGiven_append, h.last]

theorem update (h : f.Accounted a) (vars : List (String × Value)) :
    (f.update vars).Accounted { a with given := a.given ++ vars } := by
  induction vars generalizing f a with
  | nil => simpa [Frame.update] using h
  | cons x vars ih =>
    have hrest := ih (h.define x.1 x.2)
    rwa [List.append_assoc, List.singleton_append] at hrest

end Frame.Accounted

theorem accounted_empty (outer : Option FrameRef) : Frame.Accounted ⟨[], outer⟩ ⟨[], outer⟩ :=
  ⟨rfl, rfl, List.nodup_nil, fun _ => rfl⟩

namespace Store

variable {s : Store} {as : Array Account}

structure Accounted (s : Store) (as : Array Account) : Prop where
  size : s.frames.size = as.size
  frame : ∀ r : FrameRef, Option.Rel Frame.Accounted s.frames[r]? as[r]?
  older : ∀ ⦃r : FrameRef⦄ ⦃a : Account⦄, as[r]? = some a → ∀ o ∈ a.outer, o < r

theorem parameterName_toOption (s : Store) (room : Nat) (p : Value) :
    (Eval.parameterName s room p).toOption = p.symbolName? := by
  cases p with
  | symbol name => rfl
  | _ => exact report_toOption _ _

theorem mapM_parameterName_toOption (s : Store) (room : Nat) (items : List Value) :
    (items.mapM (Eval.parameterName s room)).toOption = items.mapM Value.symbolName? := by
  induction items with
  | nil => rfl
  | cons p items ih =>
    rw [List.mapM_cons, List.mapM_cons, ← parameterName_toOption s room p, ← ih]
    cases Eval.parameterName s room p with
    | error e => rfl
    | ok name => cases items.mapM (Eval.parameterName s room) <;> rfl

theorem formals_toOption (s : Store) (room : Nat) (parameters : Value) :
    (s.formals room parameters).toOption = s.symbolNames? parameters := by
  rcases hc : s.chain parameters with ⟨items, last⟩
  by_cases hl : last = .nil
  · subst hl
    rw [Eval.formals_of_lists room (lists_iff_chain_eq.2 hc), mapM_parameterName_toOption,
      symbolNames?, hc]
  · rw [Eval.formals_improper room hc hl, report_toOption, symbolNames?, hc]
    cases last <;> first | rfl | exact absurd rfl hl

theorem extend_eq (s : Store) (room : Nat) (c : Closure) (args : List Value) :
    s.operate room (.extend c args) =
      match s.symbolNames? c.parameters with
      | some names =>
        if names.length = args.length then
          (s.addFrame (Frame.update ⟨[], some c.scope⟩ (names.zip args))).2
        else s
      | none => s := by
  have hrun : s.operate room (.extend c args) =
      match s.callFrame room c args with
      | .ok f => (s.addFrame f).2
      | .error _ => s := by
    unfold operate extend Action.check
    simp only
    cases hf : s.callFrame room c args with
    | ok f => simp [bind, EStateM.bind, hf, Action.ofStore]
    | error e => simp [bind, EStateM.bind, hf]
  rw [hrun, ← formals_toOption s room]
  cases hn : s.formals room c.parameters with
  | error e =>
    rw [Eval.callFrame_error hn]
    rfl
  | ok names =>
    by_cases hlen : names.length = args.length
    · rw [Eval.callFrame_names hn hlen]
      simp [Except.toOption, hlen]
    · rw [Eval.callFrame_mismatch hn hlen]
      simp [Except.toOption, hlen]

namespace Accounted

theorem addFrame (h : s.Accounted as) {f : Frame} {a : Account} (hf : f.Accounted a)
    (ho : ∀ o ∈ a.outer, o < s.frames.size) : (s.addFrame f).2.Accounted (as.push a) := by
  refine ⟨by simp [Store.addFrame, h.size], fun r => ?_, fun r b hb o hob => ?_⟩
  · rw [Store.addFrame, Array.getElem?_push, Array.getElem?_push, h.size]
    split
    · exact .some hf
    · exact h.frame r
  · rw [Array.getElem?_push] at hb
    split at hb
    · next hr =>
      obtain rfl := Option.some.inj hb
      exact hr ▸ h.size ▸ ho o hob
    · exact h.older hb o hob

theorem give (h : s.Accounted as) (r : FrameRef) (vars : List (String × Value)) :
    (s.updateFrame r vars).Accounted (Accounts.give as r vars) := by
  refine ⟨by simp [Store.updateFrame, Accounts.give, h.size], fun q => ?_, fun q b hb o hob => ?_⟩
  · rw [Store.updateFrame, Accounts.give, Array.getElem?_modify, Array.getElem?_modify]
    split
    · have hq := h.frame q
      generalize s.frames[q]? = x at hq ⊢
      generalize as[q]? = y at hq ⊢
      cases hq with
      | none => exact .none
      | some hq => exact .some (hq.update vars)
    · exact h.frame q
  · rw [Accounts.give, Array.getElem?_modify] at hb
    split at hb
    · obtain ⟨a, ha, rfl⟩ := Option.map_eq_some_iff.1 hb
      exact h.older ha o hob
    · exact h.older hb o hob

theorem operate (h : s.Accounted as) (room : Nat) {op : ScopeOperation}
    (hop : ∀ r ∈ op.target?, r < s.frames.size) :
    (s.operate room op).Accounted (enter s.symbolNames? as op) := by
  cases op with
  | create => exact h.addFrame (accounted_empty none) nofun
  | child r => exact h.addFrame (accounted_empty (some r)) hop
  | define r name v => exact h.give r [(name, v)]
  | update r vars => exact h.give r vars
  | extend c args =>
    rw [extend_eq, enter]
    cases s.symbolNames? c.parameters with
    | none => exact h
    | some names =>
      simp only
      split
      · exact h.addFrame ((accounted_empty (some c.scope)).update (names.zip args)) hop
      · exact h

end Accounted

theorem chainFrom_of_cells_eq {s t : Store} (h : t.cells = s.cells) (fuel : Nat) (v : Value)
    (items : List Value) : t.chainFrom fuel v items = s.chainFrom fuel v items := by
  induction fuel generalizing v items with
  | zero => cases v <;> rfl
  | succ fuel ih =>
    cases v with
    | cell r =>
      rw [chainFrom, chainFrom, h]
      cases s.cells[r]? with
      | none => rfl
      | some c => exact ih c.tail (c.head :: items)
    | _ => rfl

theorem symbolNames?_of_cells_eq {s t : Store} (h : t.cells = s.cells) :
    t.symbolNames? = s.symbolNames? := by
  funext v
  rw [symbolNames?, symbolNames?, chain, chain, h, chainFrom_of_cells_eq h]

theorem operate_cells (s : Store) (room : Nat) (op : ScopeOperation) :
    (s.operate room op).cells = s.cells := by
  cases op with
  | extend c args =>
    rw [extend_eq]
    split
    · split <;> rfl
    · rfl
  | _ => rfl

theorem symbolNames?_operate (s : Store) (room : Nat) (op : ScopeOperation) :
    (s.operate room op).symbolNames? = s.symbolNames? :=
  symbolNames?_of_cells_eq (operate_cells s room op)

theorem operate_of_given {op : ScopeOperation} {r : FrameRef} {vars : List (String × Value)}
    (h : op.given? = some (r, vars)) (s : Store) (room : Nat) :
    op.target? = some r ∧ s.operate room op = s.updateFrame r vars := by
  cases op with
  | define q n v =>
    obtain ⟨rfl, rfl⟩ := Prod.mk.inj (Option.some.inj h)
    exact ⟨rfl, rfl⟩
  | update q vars' =>
    obtain ⟨rfl, rfl⟩ := Prod.mk.inj (Option.some.inj h)
    exact ⟨rfl, rfl⟩
  | _ => exact nomatch h

theorem Accounted.run (h : s.Accounted as) {room : Nat} {ops : List ScopeOperation}
    (hops : s.Applicable room ops) :
    (ops.foldl (Store.operate room) s).Accounted (ops.foldl (enter s.symbolNames?) as) := by
  induction ops generalizing s as with
  | nil => exact h
  | cons op ops ih =>
    have hrest := ih (h.operate room hops.1) hops.2
    rwa [symbolNames?_operate] at hrest

end Store

end MiniLisp
