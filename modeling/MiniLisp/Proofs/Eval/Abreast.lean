import Mathlib.Data.List.Forall2
import MiniLisp.Primitive

/-!
Runs side by side.  `Abreast` relates how two runs end: in stores that stand to each other as they
should, with related results or with errors that go together; some errors of the first run leave
open what the second one does.  The rules for putting runs together are those of every relation of
this kind, whatever the stores are and what is required of them.  Operations on evaluated arguments
go abreast where the arguments are such that they cannot tell them apart (`Abreast.primitive`).
-/
set_option autoImplicit false

namespace MiniLisp

open MiniLisp.Action

theorem forall₂_apply_iff {α β : Type} {f : α → β} {xs : List α} {ys : List β} :
    List.Forall₂ (fun a b => f a = b) xs ys ↔ xs.map f = ys := by
  rw [← List.forall₂_map_left_iff, List.forall₂_eq_eq_eq]

/-- Which errors of two runs go together, and which errors of the first excuse the second. -/
structure Faults where
  pair : Error → Error → Prop
  excuse : Error → Prop

namespace Faults

def same : Faults := ⟨Eq, fun _ => False⟩

/-- The same errors, but that the first side may run out of depth. -/
def deep : Faults := ⟨Eq, (· = .recursionTooDeep)⟩

inductive Ends (F : Faults) {α β : Type} (R : α → β → Prop) :
    Except Error α → Except Error β → Prop where
  | ok {a : α} {b : β} : R a b → F.Ends R (.ok a) (.ok b)
  | error {e e' : Error} : F.pair e e' → F.Ends R (.error e) (.error e')
  | excused {e : Error} {y : Except Error β} : F.excuse e → F.Ends R (.error e) y

namespace Ends

variable {F : Faults} {α β γ δ : Type} {R : α → β → Prop} {R' : γ → δ → Prop}

theorem of_eq (hF : ∀ e, F.pair e e) {x y : Except Error α} (h : x = y) : F.Ends Eq x y := by
  subst h
  cases x with
  | ok a => exact .ok rfl
  | error e => exact .error (hF e)

theorem imp {Q : α → β → Prop} {x : Except Error α} {y : Except Error β} (h : F.Ends R x y)
    (hr : ∀ a b, R a b → Q a b) : F.Ends Q x y := by
  cases h with
  | ok h => exact .ok (hr _ _ h)
  | error h => exact .error h
  | excused h => exact .excused h

theorem mono {G : Faults} {x : Except Error α} {y : Except Error β} (h : F.Ends R x y)
    (hpair : ∀ e e', F.pair e e' → G.pair e e') (hexcuse : ∀ e, F.excuse e → G.excuse e) :
    G.Ends R x y := by
  cases h with
  | ok h => exact .ok h
  | error h => exact .error (hpair _ _ h)
  | excused h => exact .excused (hexcuse _ h)

theorem bind {x : Except Error α} {y : Except Error β} {f : α → Except Error γ}
    {g : β → Except Error δ} (h : F.Ends R x y) (hf : ∀ a b, R a b → F.Ends R' (f a) (g b)) :
    F.Ends R' (x >>= f) (y >>= g) := by
  cases h with
  | ok h => exact hf _ _ h
  | error h => exact .error h
  | excused h => exact .excused h

theorem mapM {f : α → Except Error γ} {g : β → Except Error δ} {xs : List α} {ys : List β}
    (h : List.Forall₂ R xs ys) (hf : ∀ a b, R a b → F.Ends R' (f a) (g b)) :
    F.Ends (List.Forall₂ R') (xs.mapM f) (ys.mapM g) := by
  induction h with
  | nil => exact .ok .nil
  | cons h _ ih =>
    rw [List.mapM_cons, List.mapM_cons]
    exact (hf _ _ h).bind fun _ _ h => ih.bind fun _ _ hs => .ok (.cons h hs)

theorem mapM_eq {f : α → Except Error γ} {g : β → Except Error γ} {xs : List α} {ys : List β}
    (h : List.Forall₂ R xs ys) (hf : ∀ a b, R a b → F.Ends Eq (f a) (g b)) :
    F.Ends Eq (xs.mapM f) (ys.mapM g) := by
  have hlist := mapM h hf
  rwa [List.forall₂_eq_eq_eq] at hlist

theorem foldlM {f : γ → α → Except Error γ} {g : δ → β → Except Error δ} {xs : List α}
    {ys : List β} (h : List.Forall₂ R xs ys)
    (hf : ∀ c d a b, R' c d → R a b → F.Ends R' (f c a) (g d b)) {c : γ} {d : δ} (hcd : R' c d) :
    F.Ends R' (xs.foldlM f c) (ys.foldlM g d) := by
  induction h generalizing c d with
  | nil => exact .ok hcd
  | cons h _ ih =>
    rw [List.foldlM_cons, List.foldlM_cons]
    exact (hf _ _ _ _ hcd h).bind fun _ _ => ih

theorem report {x y : Except Error String} (h : F.Ends Eq x y) {mk : String → Error}
    (hmk : ∀ text, F.pair (mk text) (mk text)) :
    F.Ends R (do throw (mk (← x)) : Except Error α) (do throw (mk (← y))) := by
  refine h.bind fun a b hab => ?_
  subst hab
  exact .error (hmk a)

end Ends

end Faults

/-- The runs end in stores as `after` requires of them. -/
inductive Abreast {σ τ α β : Type} (F : Faults) (after : σ → τ → Prop)
    (R : σ → τ → α → β → Prop) :
    EStateM.Result Error σ α → EStateM.Result Error τ β → Prop where
  | ok {a : α} {b : β} {s : σ} {t : τ} : after s t → R s t a b →
      Abreast F after R (.ok a s) (.ok b t)
  | error {e e' : Error} {s : σ} {t : τ} : after s t → F.pair e e' →
      Abreast F after R (.error e s) (.error e' t)
  | excused {e : Error} {s : σ} {y : EStateM.Result Error τ β} : F.excuse e →
      Abreast F after R (.error e s) y

/-- What holds of the stores after runs from given ones also holds after further runs, and those may
be no runs at all. -/
structure Continues {σ τ : Type} (after : σ → τ → σ → τ → Prop) : Prop where
  here : ∀ {s t s' t'}, after s t s' t' → after s' t' s' t'
  trans : ∀ {s t s' t' s'' t''}, after s t s' t' → after s' t' s'' t'' → after s t s'' t''

theorem continues_eq (σ : Type) : Continues fun (_ _ : σ) => Eq :=
  ⟨fun h => h, fun _ h => h⟩

namespace Abreast

variable {σ τ α β γ δ : Type} {F : Faults} {s : σ} {t : τ}

section

variable {after after' : σ → τ → Prop} {R : σ → τ → α → β → Prop} {R' : σ → τ → γ → δ → Prop}

theorem mono {x : EStateM.Result Error σ α} {y : EStateM.Result Error τ β}
    (h : Abreast F after R x y) (hafter : ∀ s t, after s t → after' s t) :
    Abreast F after' R x y := by
  cases h with
  | ok hst hr => exact .ok (hafter _ _ hst) hr
  | error hst he => exact .error (hafter _ _ hst) he
  | excused he => exact .excused he

theorem imp {R' : σ → τ → α → β → Prop} {x : EStateM.Result Error σ α}
    {y : EStateM.Result Error τ β} (h : Abreast F after R x y)
    (hr : ∀ s t a b, R s t a b → R' s t a b) : Abreast F after R' x y := by
  cases h with
  | ok hst h => exact .ok hst (hr _ _ _ _ h)
  | error hst he => exact .error hst he
  | excused he => exact .excused he

theorem bind {x : EStateM Error σ α} {y : EStateM Error τ β} {f : α → EStateM Error σ γ}
    {g : β → EStateM Error τ δ} (h : Abreast F after R (x s) (y t))
    (hf : ∀ a b s' t', after s' t' → R s' t' a b → Abreast F after R' (f a s') (g b t')) :
    Abreast F after R' ((x >>= f) s) ((y >>= g) t) := by
  change Abreast F after R' (EStateM.bind x f s) (EStateM.bind y g t)
  unfold EStateM.bind
  generalize x s = p at h ⊢
  generalize y t = q at h ⊢
  cases h with
  | ok hst hr => exact hf _ _ _ _ hst hr
  | error hst he => exact .error hst he
  | excused he => exact .excused he

theorem of_ends {x : Except Error α} {y : Except Error β} (hst : after s t) :
    F.Ends (R s t) x y → Abreast F after R
      (match x with
      | .ok a => .ok a s
      | .error e => .error e s)
      (match y with
      | .ok b => .ok b t
      | .error e => .error e t) := by
  intro h
  cases h with
  | ok hr => exact .ok hst hr
  | error he => exact .error hst he
  | excused he => exact .excused he

theorem report {x : EStateM Error σ String} {y : EStateM Error τ String}
    (h : Abreast F after (fun _ _ => Eq) (x s) (y t)) {mk : String → Error}
    (hmk : ∀ text, F.pair (mk text) (mk text)) :
    Abreast F after R ((do throw (mk (← x)) : EStateM Error σ α) s)
      ((do throw (mk (← y)) : EStateM Error τ β) t) := by
  refine h.bind fun a b s' t' hst hab => ?_
  subst hab
  exact .error hst (hmk a)

end

section

variable {after : σ → τ → σ → τ → Prop} {Q : σ → τ → α → β → Prop} {R : σ → τ → γ → δ → Prop}
  (hc : Continues after)

include hc

/-- The rest is judged from the stores that it starts in. -/
theorem andThen {x : EStateM Error σ α} {y : EStateM Error τ β} {f : α → EStateM Error σ γ}
    {g : β → EStateM Error τ δ} (h : Abreast F (after s t) Q (x s) (y t))
    (hf : ∀ a b s' t', after s t s' t' → Q s' t' a b →
      Abreast F (after s' t') R (f a s') (g b t')) :
    Abreast F (after s t) R ((x >>= f) s) ((y >>= g) t) :=
  h.bind fun _ _ _ _ hst hr => (hf _ _ _ _ hst hr).mono fun _ _ => hc.trans hst

variable (hQ : ∀ {s t s' t' x y}, after s t s' t' → Q s t x y → Q s' t' x y)

include hQ

theorem mapM (hR : ∀ {s t s' t' a b}, after s t s' t' → R s t a b → R s' t' a b)
    {f : α → EStateM Error σ γ} {g : β → EStateM Error τ δ}
    (hf : ∀ x y s t, after s t s t → Q s t x y → Abreast F (after s t) R (f x s) (g y t))
    {xs : List α} {ys : List β} (hst : after s t s t) (h : List.Forall₂ (Q s t) xs ys) :
    Abreast F (after s t) (fun s t => List.Forall₂ (R s t)) (xs.mapM f s) (ys.mapM g t) := by
  induction xs generalizing ys s t with
  | nil =>
    cases h
    exact .ok hst .nil
  | cons x xs ih =>
    cases h with
    | cons hxy h =>
      rw [List.mapM_cons, List.mapM_cons]
      refine andThen hc (hf _ _ s t hst hxy) fun a b s₁ t₁ h₁ hab => ?_
      refine (ih (hc.here h₁) (h.imp fun _ _ => hQ h₁)).bind fun as bs s₂ t₂ h₂ hs => ?_
      exact .ok h₂ (.cons (hR h₂ hab) hs)

theorem foldlM {f : γ → α → EStateM Error σ γ} {g : δ → β → EStateM Error τ δ}
    (hf : ∀ c d x y s t, after s t s t → R s t c d → Q s t x y →
      Abreast F (after s t) R (f c x s) (g d y t))
    {xs : List α} {ys : List β} (hst : after s t s t) (h : List.Forall₂ (Q s t) xs ys) {c : γ}
    {d : δ} (hcd : R s t c d) : Abreast F (after s t) R (xs.foldlM f c s) (ys.foldlM g d t) := by
  induction xs generalizing ys s t c d with
  | nil =>
    cases h
    exact .ok hst hcd
  | cons x xs ih =>
    cases h with
    | cons hxy h =>
      rw [List.foldlM_cons, List.foldlM_cons]
      refine andThen hc (hf _ _ _ _ s t hst hcd hxy) fun a b s₁ t₁ h₁ hab => ?_
      exact ih (hc.here h₁) (h.imp fun _ _ => hQ h₁) hab

end

section

variable {after : Store → Store → Prop} {s t : Store} {Q : Value → Value → Prop}
  {args args' : List Value} (hst : after s t) (hF : ∀ e, F.pair e e)
  (ha : List.Forall₂ Q args args') (operation : String)

include hst hF ha

theorem unary {R : Store → Store → Value → Value → Prop} {f g : Value → Action Value}
    (hf : ∀ v w, Q v w → Abreast F after R (f v s) (g w t)) : Abreast F after R
      (Primitive.unary operation f args s) (Primitive.unary operation g args' t) := by
  have hlen := ha.length_eq
  rcases ha with _ | ⟨hv, _ | _⟩
  · exact .error hst (hF _)
  · exact hf _ _ hv
  · unfold Primitive.unary
    simp only [hlen]
    exact .error hst (hF _)

theorem binary {R : Store → Store → Value → Value → Prop} {f g : Value → Value → Action Value}
    (hf : ∀ a a' d d', Q a a' → Q d d' → Abreast F after R (f a d s) (g a' d' t)) :
    Abreast F after R
      (Primitive.binary operation f args s) (Primitive.binary operation g args' t) := by
  have hlen := ha.length_eq
  rcases ha with _ | ⟨hx, _ | ⟨hy, _ | _⟩⟩
  · exact .error hst (hF _)
  · exact .error hst (hF _)
  · exact hf _ _ _ _ hx hy
  · unfold Primitive.binary
    simp only [hlen]
    exact .error hst (hF _)

theorem numbers {room room' : Nat} (minimum : Nat)
    (hnumber : ∀ v w, Q v w →
      F.Ends Eq (s.number room operation v) (t.number room' operation w)) :
    Abreast F after (fun _ _ => Eq) (Primitive.numbers room operation minimum args s)
      (Primitive.numbers room' operation minimum args' t) := by
  unfold Primitive.numbers
  rw [ha.length_eq]
  split
  · exact .error hst (hF _)
  · exact .of_ends hst (.mapM_eq ha hnumber)

end

/-- Values that go together are the same numbers for the operations, and lists of as many items that
go together, as do their parts and the cells that are made of them. -/
structure Values (F : Faults) (after : Store → Store → Store → Store → Prop)
    (Q : Store → Store → Value → Value → Prop) (room room' : Nat) : Prop where
  continues : Continues after
  pair : ∀ e, F.pair e e
  mono : ∀ {s t s' t' v w}, after s t s' t' → Q s t v w → Q s' t' v w
  number : ∀ {s t} (x : Double), after s t s t → Q s t (.number x) (.number x)
  truth : ∀ {s t} (b : Bool), after s t s t → Q s t (.truth b) (.truth b)
  numeric : ∀ {s t v w} (operation : String), after s t s t → Q s t v w →
    F.Ends Eq (s.number room operation v) (t.number room' operation w)
  elements : ∀ {s t v w} (operation : String), after s t s t → Q s t v w →
    F.Ends (List.Forall₂ (Q s t)) (s.elements room operation v) (t.elements room' operation w)
  part : ∀ {s t v w select} (operation : String), select = Cell.head ∨ select = Cell.tail →
    after s t s t → Q s t v w → Abreast F (after s t) Q
      (Primitive.part room operation select v s) (Primitive.part room' operation select w t)
  cons : ∀ {s t a a' d d'}, after s t s t → Q s t a a' → Q s t d d' →
    after s t (s.cons a d).2 (t.cons a' d').2 ∧
      Q (s.cons a d).2 (t.cons a' d').2 (s.cons a d).1 (t.cons a' d').1
  isEq : ∀ {s t a a' d d'}, Q s t a a' → Q s t d d' →
    Primitive.isEq a d = Primitive.isEq a' d'
  isAtomic : ∀ {s t v w}, Q s t v w → Primitive.isAtomic v = Primitive.isAtomic w

section

variable {after : Store → Store → Store → Store → Prop} {Q : Store → Store → Value → Value → Prop}
  {room room' : Nat} (hQ : Values F after Q room room') {s t : Store} (hst : after s t s t)
  {args args' : List Value} (ha : List.Forall₂ (Q s t) args args')

include hQ hst ha

theorem list : Abreast F (after s t) Q
    (ofStore (·.list args .nil) s) (ofStore (·.list args' .nil) t) := by
  have hlist : after s t (s.list args .nil).2 (t.list args' .nil).2 ∧
      Q (s.list args .nil).2 (t.list args' .nil).2 (s.list args .nil).1 (t.list args' .nil).1 := by
    induction ha with
    | nil => exact ⟨hst, hQ.truth false hst⟩
    | cons hx _ ih =>
      obtain ⟨hrest, hlist⟩ := ih
      obtain ⟨hcell, hcons⟩ := hQ.cons (hQ.continues.here hrest) (hQ.mono hrest hx) hlist
      exact ⟨hQ.continues.trans hrest hcell, hcons⟩
  exact .ok hlist.1 hlist.2

theorem primitive (p : Primitive) :
    Abreast F (after s t) Q (p.run room args s) (p.run room' args' t) := by
  have hnumbers := fun operation minimum => numbers hst hQ.pair ha operation minimum
    fun v w h => hQ.numeric operation hst h
  cases p with
  | arithmetic op =>
    refine (hnumbers op.name op.minimum).bind fun xs ys s' t' h hxy => ?_
    subst hxy
    exact .ok h (hQ.number _ (hQ.continues.here h))
  | comparison op =>
    refine (hnumbers op.name 2).bind fun xs ys s' t' h hxy => ?_
    subst hxy
    exact .ok h (hQ.truth _ (hQ.continues.here h))
  | cons =>
    refine binary hst hQ.pair ha _ fun a a' d d' ha hd => ?_
    obtain ⟨hcell, hcons⟩ := hQ.cons hst ha hd
    exact .ok hcell hcons
  | car => exact unary hst hQ.pair ha _ fun v w h => hQ.part _ (.inl rfl) hst h
  | cdr => exact unary hst hQ.pair ha _ fun v w h => hQ.part _ (.inr rfl) hst h
  | append =>
    have hparts : Abreast F (after s t) (fun s t => List.Forall₂ (List.Forall₂ (Q s t)))
        (check (fun s => args.mapM (s.elements room "append")) s)
        (check (fun s => args'.mapM (s.elements room' "append")) t) :=
      .of_ends hst (.mapM ha fun v w h => hQ.elements _ hst h)
    exact hparts.andThen hQ.continues fun ps qs s' t' h hlists =>
      list hQ (hQ.continues.here h) (List.rel_flatten hlists)
  | list => exact list hQ hst ha
  | length =>
    refine unary hst hQ.pair ha _ fun v w h => ?_
    have hitems : Abreast F (after s t) (fun _ _ (xs ys : List Value) => xs.length = ys.length)
        (check (·.elements room "length" v) s) (check (·.elements room' "length" w) t) :=
      .of_ends hst ((hQ.elements _ hst h).imp fun _ _ h => h.length_eq)
    refine hitems.bind fun xs ys s' t' h hlen => ?_
    rw [hlen]
    exact .ok h (hQ.number _ (hQ.continues.here h))
  | eq =>
    refine binary hst hQ.pair ha _ fun a a' d d' ha hd => ?_
    have htest : Abreast F (after s t) (fun _ _ => Eq) (check (fun _ => Primitive.isEq a d) s)
        (check (fun _ => Primitive.isEq a' d') t) :=
      .of_ends hst (.of_eq hQ.pair (hQ.isEq ha hd))
    refine htest.bind fun b b' s' t' h hb => ?_
    subst hb
    exact .ok h (hQ.truth b (hQ.continues.here h))
  | isAtom =>
    refine unary hst hQ.pair ha _ fun v w h => ?_
    rw [hQ.isAtomic h]
    exact .ok hst (hQ.truth _ hst)

end

end Abreast

end MiniLisp
