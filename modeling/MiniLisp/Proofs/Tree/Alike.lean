import MiniLisp.Proofs.Eval.Abreast
import MiniLisp.Proofs.Eval.Runs
import MiniLisp.Proofs.Tree.Stands

set_option autoImplicit false

namespace MiniLisp

open Store MiniLisp.Action

def Faults.kinds : Faults := ⟨fun e e' => e = e' ∧ e.kind? ≠ none, fun _ => False⟩

/-- Related results, or the same error, which has a kind. -/
def EndsAlike {α β : Type} (R : α → β → Prop) : Except Error α → Except Error β → Prop :=
  Faults.kinds.Ends R

namespace EndsAlike

variable {α β : Type} {R : α → β → Prop}

theorem error {e : Error} (he : e.kind? ≠ none) : EndsAlike R (.error e) (.error e) :=
  Faults.Ends.error ⟨rfl, he⟩

theorem report {x y : Except Error String} (h : EndsAlike Eq x y) {mk : String → Error}
    (hmk : ∀ text, (mk text).kind? ≠ none) :
    EndsAlike R (do throw (mk (← x)) : Except Error α) (do throw (mk (← y))) :=
  Faults.Ends.report h fun text => ⟨rfl, hmk text⟩

end EndsAlike

theorem Store.Stands.endsAlike_print {s : Store} {v : Value} {t : Tree} (h : s.Stands v t)
    (room : Nat) : EndsAlike Eq (s.printWithin room v) (t.printWithin room) := by
  rw [h.printWithin_eq, Tree.printWithin]
  split
  · exact .ok rfl
  · exact .error (Option.some_ne_none _)

theorem Store.Stands.endsAlike_display {s : Store} {v : Value} {t : Tree} (h : s.Stands v t)
    (room : Nat) : EndsAlike Eq (s.displayWithin room v) (t.displayWithin room) := by
  have hprint := h.endsAlike_print room
  cases h with
  | number x => exact .ok rfl
  | _ => exact hprint

theorem rel_imp {α β : Type} {R Q : α → β → Prop} {x : Option α} {y : Option β}
    (h : Option.Rel R x y) (hi : ∀ a b, R a b → Q a b) : Option.Rel Q x y := by
  cases h with
  | none => exact .none
  | some h => exact .some (hi _ _ h)

theorem rel_map {α β γ δ : Type} {R : α → β → Prop} {Q : γ → δ → Prop} {f : α → γ} {g : β → δ}
    {x : Option α} {y : Option β} (h : Option.Rel R x y) (hi : ∀ a b, R a b → Q (f a) (g b)) :
    Option.Rel Q (x.map f) (y.map g) := by
  cases h with
  | none => exact .none
  | some h => exact .some (hi _ _ h)

namespace Store

structure MirrorsFrame (s : Store) (f : Frame) (g : Scope) : Prop where
  outer : f.outer = g.outer
  bound : ∀ name, Option.Rel s.Stands (f.get? name) (g.bindings name)

structure Mirrors (s : Store) (w : Scopes) : Prop where
  size : s.frames.size = w.size
  frame : ∀ r : FrameRef, Option.Rel s.MirrorsFrame s.frames[r]? w[r]?

variable {s s' : Store} {w : Scopes}

theorem MirrorsFrame.mono {f : Frame} {g : Scope} (h : s.MirrorsFrame f g) (hk : s.Retains s') :
    s'.MirrorsFrame f g :=
  ⟨h.outer, fun name => rel_imp (h.bound name) fun _ _ h => h.mono hk⟩

theorem Mirrors.mono (h : s.Mirrors w) (hk : s.Retains s') (hf : s'.frames = s.frames) :
    s'.Mirrors w := by
  refine ⟨hf ▸ h.size, fun r => ?_⟩
  rw [hf]
  exact rel_imp (h.frame r) fun _ _ h => h.mono hk

theorem MirrorsFrame.define {f : Frame} {g : Scope} (h : s.MirrorsFrame f g) (name : String)
    {v : Value} {t : Tree} (hv : s.Stands v t) :
    s.MirrorsFrame (f.define name v) (g.define name t) := by
  refine ⟨h.outer, fun other => ?_⟩
  rw [Frame.get?_define, Scope.define]
  by_cases hn : other = name
  · simp only [hn, if_true]
    exact .some hv
  · simp only [hn, if_false]
    exact h.bound other

theorem MirrorsFrame.update {f : Frame} {g : Scope} (h : s.MirrorsFrame f g)
    {vars : List (String × Value)} {vars' : List (String × Tree)}
    (hv : List.Forall₂ (fun x y => x.1 = y.1 ∧ s.Stands x.2 y.2) vars vars') :
    s.MirrorsFrame (f.update vars) (g.update vars') := by
  induction hv generalizing f g with
  | nil => exact h
  | @cons x y _ _ hxy _ ih =>
    obtain ⟨name, t⟩ := y
    obtain ⟨rfl, hstands⟩ := hxy
    exact ih (h.define x.1 hstands)

theorem retains_define (s : Store) (r : FrameRef) (name : String) (v : Value) :
    s.Retains (s.define r name v) := ⟨fun _ _ h => h, fun _ _ h => h⟩

theorem Mirrors.define (h : s.Mirrors w) (r : FrameRef) (name : String) {v : Value} {t : Tree}
    (hv : s.Stands v t) : (s.define r name v).Mirrors (w.define r name t) := by
  have hk := retains_define s r name v
  refine ⟨by simpa [Store.define, Scopes.define] using h.size, fun q => ?_⟩
  rw [define_frame, Scopes.define, Array.getElem?_modify]
  split
  · exact rel_map (h.frame q) fun _ _ h => (h.define name hv).mono hk
  · exact rel_imp (h.frame q) fun _ _ h => h.mono hk

theorem retains_addFrame (s : Store) (f : Frame) : s.Retains (s.addFrame f).2 :=
  ⟨fun _ _ h => h, fun _ _ h => h⟩

theorem Mirrors.addFrame (h : s.Mirrors w) {f : Frame} {g : Scope} (hf : s.MirrorsFrame f g) :
    (s.addFrame f).2.Mirrors (w.push g) := by
  have hk := retains_addFrame s f
  refine ⟨by simp [Store.addFrame, h.size], fun q => ?_⟩
  rw [Store.addFrame, Array.getElem?_push, Array.getElem?_push, h.size]
  split
  · exact .some (hf.mono hk)
  · exact rel_imp (h.frame q) fun _ _ h => h.mono hk

theorem retains_cons (s : Store) (a d : Value) : s.Retains (s.cons a d).2 :=
  ⟨keepsCells_cons s a d, fun _ _ h => h⟩

theorem stands_cons {a d : Value} {t u : Tree} (ha : s.Stands a t) (hd : s.Stands d u) :
    (s.cons a d).2.Stands (s.cons a d).1 (.cons t u) :=
  .cell (cons_new s a d) (ha.mono (retains_cons s a d)) (hd.mono (retains_cons s a d))

theorem stands_list {items : List Value} {ts : List Tree} {tail : Value} {t : Tree}
    (hi : List.Forall₂ s.Stands items ts) (ht : s.Stands tail t) :
    s.Retains (s.list items tail).2 ∧ (s.list items tail).2.frames = s.frames ∧
      (s.list items tail).2.Stands (s.list items tail).1 (.list ts t) := by
  induction hi with
  | nil => exact ⟨.refl s, rfl, ht⟩
  | cons hx _ ih =>
    obtain ⟨hk, hf, hl⟩ := ih
    exact ⟨hk.trans (retains_cons _ _ _), hf, stands_cons (hx.mono hk) hl⟩

theorem retains_load (s : Store) (d : Datum) :
    s.Retains (s.load d).2 ∧ (s.load d).2.frames = s.frames := by
  induction d generalizing s with
  | cons a d iha ihd =>
    obtain ⟨hka, hfa⟩ := iha s
    obtain ⟨hkd, hfd⟩ := ihd (s.load a).2
    exact ⟨(hka.trans hkd).trans (retains_cons _ _ _), hfd.trans hfa⟩
  | _ => exact ⟨.refl s, rfl⟩

theorem retains_addClosure (s : Store) (c : Closure) : s.Retains (s.addClosure c).2 := by
  refine ⟨fun _ _ h => h, fun r d h => ?_⟩
  obtain ⟨hr, rfl⟩ := Array.getElem?_eq_some_iff.1 h
  simp [addClosure, Array.getElem?_push_lt hr]

theorem stands_addClosure {c : Closure} {p b : Tree} (hp : s.Stands c.parameters p)
    (hb : s.Stands c.body b) :
    (s.addClosure c).2.Stands (.closure (s.addClosure c).1) (.closure p b c.scope) := by
  have hk := retains_addClosure s c
  refine .closure ?_ (hp.mono hk) (hb.mono hk)
  simp [addClosure]

theorem retains_record (s : Store) (e : Event) : s.Retains (s.record e) :=
  ⟨fun _ _ h => h, fun _ _ h => h⟩

theorem lookup_eq (s : Store) (r : FrameRef) (name : String) : s.lookup r name =
    match s.frames[r]? with
    | none => .error (.unbound name)
    | some f =>
      match f.get? name, f.outer with
      | some v, _ => .ok v
      | none, some o => if o < r then s.lookup o name else .error (.unbound name)
      | none, none => .error (.unbound name) := by
  rw [lookup, find?]
  cases hf : s.frames[r]? with
  | none => rfl
  | some f =>
    cases hv : f.get? name with
    | some v => simp [hv, hf]
    | none =>
      cases ho : f.outer with
      | none => simp [hv, ho]
      | some o =>
        by_cases hlt : o < r
        · simp [hv, ho, hlt, lookup]
        · simp [hv, ho, hlt]

/-- A name has the same tree in both, or none in either. -/
theorem Mirrors.lookup (h : s.Mirrors w) (r : FrameRef) (name : String) :
    EndsAlike s.Stands (s.lookup r name) (w.lookup r name) := by
  induction r using Nat.strongRecOn with
  | ind r ih =>
    have hunbound : EndsAlike s.Stands (.error (.unbound name)) (.error (.unbound name)) :=
      .error nofun
    rw [lookup_eq, Scopes.lookup]
    have hframe := h.frame r
    generalize s.frames[r]? = x at hframe
    generalize w[r]? = y at hframe
    cases hframe with
    | none => exact hunbound
    | @some f g hfg =>
      have hbound := hfg.bound name
      simp only [hfg.outer]
      generalize f.get? name = x at hbound
      generalize g.bindings name = y at hbound
      cases hbound with
      | some hv => exact .ok hv
      | none =>
        cases g.outer with
        | none => exact hunbound
        | some o =>
          by_cases hlt : o < r
          · simp only [if_pos hlt]
            exact ih o hlt
          · simp only [if_neg hlt]
            exact hunbound

end Store

/-- Both runs end in stores that hold the same, and alike. -/
def Alike {α β : Type} (R : Store → α → β → Prop) (s : Store) :
    EStateM.Result Error Store α → EStateM.Result Error Scopes β → Prop :=
  Abreast .kinds (fun s' w => s.Retains s' ∧ s'.Mirrors w) fun s' _ => R s'

namespace Alike

variable {α β γ δ : Type} {R : Store → α → β → Prop} {R' : Store → γ → δ → Prop} {s s' : Store}
  {w w' : Scopes}

theorem ok {a : α} {b : β} (hk : s.Retains s') (hm : s'.Mirrors w) (hr : R s' a b) :
    Alike R s (.ok a s') (.ok b w) := Abreast.ok ⟨hk, hm⟩ hr

theorem error {e : Error} (hk : s.Retains s') (hm : s'.Mirrors w) (he : e.kind? ≠ none) :
    Alike R s (.error e s') (.error e w) := Abreast.error ⟨hk, hm⟩ ⟨rfl, he⟩

theorem of_keeps {x : EStateM.Result Error Store α} {y : EStateM.Result Error Scopes β}
    (hk : s.Retains s') (h : Alike R s' x y) : Alike R s x y :=
  h.mono fun _ _ h => ⟨hk.trans h.1, h.2⟩

theorem continues :
    Continues fun (s : Store) (_ : Scopes) s' w => s.Retains s' ∧ s'.Mirrors w :=
  ⟨fun h => ⟨.refl _, h.2⟩, fun h h' => ⟨h.1.trans h'.1, h'.2⟩⟩

theorem bind {x : Action α} {y : Run β} {f : α → Action γ} {g : β → Run δ}
    (h : Alike R s (x s) (y w))
    (hf : ∀ a b s' w', s.Retains s' → s'.Mirrors w' → R s' a b →
      Alike R' s' (f a s') (g b w')) : Alike R' s ((x >>= f) s) ((y >>= g) w) :=
  Abreast.andThen continues h fun a b s' w' h => hf a b s' w' h.1 h.2

theorem of_pure {a : α} {b : β} (hm : s.Mirrors w) (hr : R s a b) :
    Alike R s ((pure a : Action α) s) ((pure b : Run β) w) := .ok (.refl s) hm hr

theorem of_check {f : Store → Except Error α} {x : Except Error β} (hm : s.Mirrors w)
    (h : EndsAlike (R s) (f s) x) : Alike R s (check f s) (Tree.pureRun x w) :=
  Abreast.of_ends ⟨.refl s, hm⟩ h

theorem of_update {f : Store → Store} {x : EStateM.Result Error Scopes β} {g : Unit → Action α}
    (hk : s.Retains (f s)) (h : Alike R (f s) (g () (f s)) x) :
    Alike R s ((update f >>= g) s) x := h.of_keeps hk

theorem of_print {v : Value} {t : Tree} (hm : s.Mirrors w) (hv : s.Stands v t) (room : Nat) :
    Alike (fun _ => Eq) s (check (·.printWithin room v) s)
      (Tree.pureRun (t.printWithin room) w) :=
  of_check hm (hv.endsAlike_print room)

theorem of_report {v : Value} {t : Tree} (hm : s.Mirrors w) (hv : s.Stands v t) (room : Nat)
    (mk : String → Error) (hmk : ∀ text, (mk text).kind? ≠ none) :
    Alike R s ((do throw (mk (← check (·.printWithin room v))) : Action α) s)
      ((do throw (mk (← Tree.pureRun (t.printWithin room))) : Run β) w) :=
  Abreast.report (of_print hm hv room) fun text => ⟨rfl, hmk text⟩

section

variable {f : Value → Action Value} {g : Tree → Run Tree} {vs : List Value} {ts : List Tree}
  (hf : ∀ v t s w, s.Mirrors w → s.Stands v t → Alike Stands s (f v s) (g t w))

include hf

theorem mapM (hm : s.Mirrors w) (hv : List.Forall₂ s.Stands vs ts) :
    Alike (fun s => List.Forall₂ s.Stands) s (vs.mapM f s) (ts.mapM g w) :=
  Abreast.mapM continues (fun h hv => hv.mono h.1) (fun h hv => hv.mono h.1)
    (fun v t s w hm hv => hf v t s w hm.2 hv) ⟨.refl s, hm⟩ hv

theorem foldlM (hm : s.Mirrors w) (hv : List.Forall₂ s.Stands vs ts) {a : Value} {b : Tree}
    (hab : s.Stands a b) : Alike Stands s (vs.foldlM (fun _ v => f v) a s)
      (ts.foldlM (fun _ t => g t) b w) :=
  Abreast.foldlM continues (fun h hv => hv.mono h.1)
    (fun _ _ v t s w hm _ hv => hf v t s w hm.2 hv) ⟨.refl s, hm⟩ hv hab

end

end Alike

end MiniLisp
