import MiniLisp.Proofs.Tree.Simulation

/-!
Sessions of a fresh interpreter, which is fed one line after another.  What they report is what an
interpreter without cells reports (`reports_session`), and nothing but what text can make comes to
light in them (`session_closed`).
-/
set_option autoImplicit false

namespace MiniLisp

open Store

/-- What a user sees of an outcome: the printed values, and the error, which has the kind and the
message. -/
structure Report where
  texts : List (Except Error String)
  error : Option Error
  deriving DecidableEq

def Outcome.report (o : Outcome) (s : Store) : Report := ⟨o.values.map s.print, o.error⟩

namespace Interpreter

def feedLines (limit : Nat) (frame : FrameRef) : List String → Store → List (Outcome × Store)
  | [], _ => []
  | line :: rest, s =>
    let p := feed limit frame line s
    p :: feedLines limit frame rest p.2

def session (limit : Nat) (lines : List String) : List (Outcome × Store) :=
  feedLines limit Store.empty.addGlobal.1 lines Store.empty.addGlobal.2

end Interpreter

namespace Tree

def Outcome.report (o : Outcome) : Report := ⟨o.values.map (fun t => .ok t.print), o.error⟩

def feedLines (limit : Nat) (frame : FrameRef) : List String → Scopes → List (Outcome × Scopes)
  | [], _ => []
  | line :: rest, w =>
    let p := feed limit frame line w
    p :: feedLines limit frame rest p.2

def session (limit : Nat) (lines : List String) : List (Outcome × Scopes) :=
  feedLines limit 0 lines globalScopes

end Tree

theorem map_eq_of_forall₂ {α β γ : Type} {R : α → β → Prop} {f : α → γ} {g : β → γ} {xs : List α}
    {ys : List β} (h : List.Forall₂ R xs ys) (hfg : ∀ a b, R a b → f a = g b) :
    xs.map f = ys.map g := by
  rw [← List.forall₂_eq_eq_eq, List.forall₂_map_left_iff, List.forall₂_map_right_iff]
  exact h.imp hfg

theorem forall_stands_globalBindings (s : Store) :
    List.Forall₂ (fun x y => x.1 = y.1 ∧ s.Stands x.2 y.2) Store.globalBindings
      Tree.globalBindings := by
  refine List.rel_append (.cons ⟨rfl, .nil⟩ (.cons ⟨rfl, .nil⟩ .nil)) ?_
  rw [List.forall₂_map_left_iff, List.forall₂_map_right_iff]
  exact List.forall₂_same.2 fun p _ => ⟨rfl, .primitive p 0⟩

theorem mirrors_addGlobal : Store.empty.addGlobal.2.Mirrors Tree.globalScopes := by
  have hempty : Store.empty.Mirrors #[] := ⟨rfl, fun r => by simp [Store.empty]⟩
  have hframe : Store.empty.MirrorsFrame ⟨[], none⟩ ⟨fun _ => none, none⟩ :=
    ⟨rfl, fun _ => .none⟩
  exact hempty.addFrame (hframe.update (forall_stands_globalBindings _))

namespace Interpreter

variable {s : Store} {w : Scopes} (limit : Nat)

theorem answers_feedLines (frame : FrameRef) (hm : s.Mirrors w) (lines : List String) :
    List.Forall₂ (fun p q => ∃ s, Answers s p q) (feedLines limit frame lines s)
      (Tree.feedLines limit frame lines w) := by
  induction lines generalizing s w with
  | nil => exact .nil
  | cons line rest ih =>
    have hfeed := answers_feed limit frame hm line
    exact .cons ⟨s, hfeed⟩ (ih hfeed.mirrors)

theorem Answers.report_eq {p : Outcome × Store} {q : Tree.Outcome × Scopes} (h : Answers s p q) :
    p.1.report p.2 = q.1.report := by
  have htexts : p.1.values.map p.2.print = q.1.values.map (fun t => .ok t.print) :=
    map_eq_of_forall₂ h.values fun _ _ hv => hv.print_eq
  rw [Outcome.report, Tree.Outcome.report, htexts, h.error]

/-- An interpreter without cells reports the same, line by line. -/
theorem reports_session (lines : List String) :
    (session limit lines).map (fun p => p.1.report p.2) =
      (Tree.session limit lines).map (fun q => q.1.report) :=
  map_eq_of_forall₂ (answers_feedLines limit 0 mirrors_addGlobal lines)
    fun _ _ ⟨_, h⟩ => h.report_eq

example : (session 100 ["(define x '(a))", "(cons x x) (car 1)"]).map (fun p => p.1.report p.2) =
    [⟨[.ok "x"], none⟩, ⟨[.ok "((a) a)"], some (.notList "car" "1")⟩] := by decide +kernel

end Interpreter

namespace Store

/-- What a value is made of: the parts of cells, and of functions the code and what their scope
binds. -/
inductive Contains (s : Store) : Value → Value → Prop where
  | self (v : Value) : s.Contains v v
  | head {r : CellRef} {c : Cell} {u : Value} : s.cells[r]? = some c →
      s.Contains c.head u → s.Contains (.cell r) u
  | tail {r : CellRef} {c : Cell} {u : Value} : s.cells[r]? = some c →
      s.Contains c.tail u → s.Contains (.cell r) u
  | parameters {r : ClosureRef} {c : Closure} {u : Value} : s.closures[r]? = some c →
      s.Contains c.parameters u → s.Contains (.closure r) u
  | body {r : ClosureRef} {c : Closure} {u : Value} : s.closures[r]? = some c →
      s.Contains c.body u → s.Contains (.closure r) u
  | bound {r : ClosureRef} {c : Closure} {name : String} {v u : Value} :
      s.closures[r]? = some c → s.lookup c.scope name = .ok v → s.Contains v u →
      s.Contains (.closure r) u

variable {s : Store} {w : Scopes} {v u : Value} {t : Tree}

theorem Contains.stands (hm : s.Mirrors w) (h : s.Contains v u) (hv : s.Stands v t) :
    ∃ t', s.Stands u t' := by
  induction h generalizing t with
  | self v => exact ⟨t, hv⟩
  | head hc _ ih =>
    cases hv with
    | cell hc' ha _ =>
      obtain rfl := Option.some.inj (hc.symm.trans hc')
      exact ih ha
  | tail hc _ ih =>
    cases hv with
    | cell hc' _ hd =>
      obtain rfl := Option.some.inj (hc.symm.trans hc')
      exact ih hd
  | parameters hc _ ih =>
    cases hv with
    | closure hc' hp _ =>
      obtain rfl := Option.some.inj (hc.symm.trans hc')
      exact ih hp
  | body hc _ ih =>
    cases hv with
    | closure hc' _ hb =>
      obtain rfl := Option.some.inj (hc.symm.trans hc')
      exact ih hb
  | @bound r c name v u _ hlookup _ ih =>
    have hbound := hm.lookup c.scope name
    rw [hlookup] at hbound
    generalize w.lookup c.scope name = y at hbound
    cases hbound with
    | ok hv => exact ih hv

theorem Stands.admits (h : s.Stands v t) : s.Admits (fun _ => False) v := by
  cases h with
  | cell hc _ _ => exact (Array.getElem?_eq_some_iff.1 hc).1
  | closure hc _ _ => exact (Array.getElem?_eq_some_iff.1 hc).1
  | _ => trivial

end Store

theorem run_arithmetic (op : Arithmetic) (room : Nat) (s : Store) (xs : List Double)
    (h : op.minimum ≤ xs.length) : (Primitive.arithmetic op).run room (xs.map .number) s =
      .ok (.number (op.fold xs)) s := by
  have hnumbers : ∀ operation, (xs.map Value.number).mapM (s.number room operation) = .ok xs := by
    intro operation
    clear h
    induction xs with
    | nil => rfl
    | cons x xs ih =>
      rw [List.map_cons, List.mapM_cons, ih]
      rfl
  rw [← List.length_map (f := Value.number)] at h
  exact Action.bind_ok (numbers_ok h (hnumbers op.name))

theorem Double.div_zero (x : Double) (negative : Bool) : x.div (.finite negative .zero) = .nan ∨
    ∃ sign, x.div (.finite negative .zero) = .infinity sign := by
  cases x with
  | nan => exact .inl rfl
  | infinity s => exact .inr ⟨_, rfl⟩
  | finite s m =>
    rw [Double.div, if_pos (show Magnitude.zero.units = 0 from rfl)]
    split
    · exact .inl rfl
    · exact .inr ⟨_, rfl⟩

namespace Interpreter

theorem length_feedLines (limit : Nat) (frame : FrameRef) (lines : List String) (s : Store) :
    (feedLines limit frame lines s).length = lines.length := by
  induction lines generalizing s with
  | nil => rfl
  | cons line rest ih => rw [feedLines, List.length_cons, ih, List.length_cons]

/-- Every line has an outcome.  Its values are made of what text can make, and its error is one of
the six kinds, so neither that of walking an improper list nor that of too large an integer; and no
numbers are such that arithmetic fails on them, not even a zero divisor. -/
theorem session_closed (limit : Nat) (lines : List String) :
    (session limit lines).length = lines.length ∧
    (∀ p ∈ session limit lines,
      (∀ v ∈ p.1.values, (∀ u, p.2.Contains v u → p.2.Admits (fun _ => False) u) ∧
        ∃ text, p.2.print v = .ok text) ∧
      (∀ e, p.1.error = some e → ∃ kind, e.kind? = some kind) ∧
      p.1.hostError? = none ∧ p.1.error ≠ some .improperList ∧
      p.1.error ≠ some .integerTooLarge) ∧
    (∀ (op : Arithmetic) (room : Nat) (s : Store) (xs : List Double), op.minimum ≤ xs.length →
      ∃ x, (Primitive.arithmetic op).run room (xs.map .number) s = .ok (.number x) s) ∧
    ∀ (x : Double) (negative : Bool), x.div (.finite negative .zero) = .nan ∨
      ∃ sign, x.div (.finite negative .zero) = .infinity sign := by
  refine ⟨length_feedLines .., fun p hp => ?_, fun op room s xs h =>
    ⟨_, run_arithmetic op room s xs h⟩, Double.div_zero⟩
  obtain ⟨q, s, h⟩ := exists_of_mem_forall₂ (answers_feedLines limit 0 mirrors_addGlobal lines) hp
  have hkind : ∀ e, p.1.error = some e → ∃ kind, e.kind? = some kind :=
    fun e he => Option.ne_none_iff_exists'.1 (h.kind e he)
  refine ⟨fun v hv => ?_, hkind, ?_, fun he => h.kind _ he rfl, fun he => h.kind _ he rfl⟩
  · obtain ⟨t, ht⟩ := exists_of_mem_forall₂ h.values hv
    refine ⟨fun u hu => ?_, t.print, ht.print_eq⟩
    obtain ⟨t', ht'⟩ := hu.stands h.mirrors ht
    exact ht'.admits
  · rw [Outcome.hostError?]
    cases he : p.1.error with
    | none => rfl
    | some e =>
      obtain ⟨kind, hk⟩ := hkind e he
      simp [Option.filter, hk]

end Interpreter

end MiniLisp
