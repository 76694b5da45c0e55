import MiniLisp.Proofs.Eval.Abreast
import MiniLisp.Proofs.Eval.Runs

set_option autoImplicit false

namespace MiniLisp

/-- The first result is that of too little depth, or it is the second one. -/
def DeepOrEq {α : Type} (x y : Except Error α) : Prop := x = .error .recursionTooDeep ∨ x = y

theorem deepOrEq_iff {α : Type} {x y : Except Error α} :
    DeepOrEq x y ↔ Faults.deep.Ends Eq x y := by
  constructor
  · rintro (rfl | rfl)
    · exact .excused rfl
    · cases x with
      | ok a => exact .ok rfl
      | error e => exact .error rfl
  · intro h
    cases h with
    | ok h => exact .inr (congrArg Except.ok h)
    | error h => exact .inr (congrArg Except.error h)
    | excused h => exact .inl (congrArg Except.error h)

namespace DeepOrEq

variable {α β γ : Type}

theorem refl (x : Except Error α) : DeepOrEq x x := .inr rfl

theorem bind {x y : Except Error α} {f g : α → Except Error β} (h : DeepOrEq x y)
    (hf : ∀ a, DeepOrEq (f a) (g a)) : DeepOrEq (x >>= f) (y >>= g) := by
  refine deepOrEq_iff.2 ((deepOrEq_iff.1 h).bind fun a b hab => ?_)
  subst hab
  exact deepOrEq_iff.1 (hf a)

theorem map {x y : Except Error α} (h : DeepOrEq x y) (f : α → β) :
    DeepOrEq (x.map f) (y.map f) := by
  rcases h with h | h
  · subst h
    exact .inl rfl
  · exact .inr (congrArg (Except.map f) h)

theorem mapM {f g : γ → Except Error α} {xs : List γ} (h : ∀ x, DeepOrEq (f x) (g x)) :
    DeepOrEq (xs.mapM f) (xs.mapM g) := by
  refine deepOrEq_iff.2 (.mapM_eq (R := Eq) (List.forall₂_refl xs) fun x y hxy => ?_)
  subst hxy
  exact deepOrEq_iff.1 (h x)

theorem foldlM {f g : α → γ → Except Error α} {xs : List γ} (h : ∀ a x, DeepOrEq (f a x) (g a x))
    (init : α) : DeepOrEq (xs.foldlM f init) (xs.foldlM g init) := by
  refine deepOrEq_iff.2 (.foldlM (R := Eq) (List.forall₂_refl xs) (fun a b x y hab hxy => ?_) rfl)
  subst hab hxy
  exact deepOrEq_iff.1 (h a x)

theorem report {x y : Except Error String} (h : DeepOrEq x y) (mk : String → Error) :
    DeepOrEq (do throw (mk (← x)) : Except Error α) (do throw (mk (← y))) :=
  deepOrEq_iff.2 ((deepOrEq_iff.1 h).report fun _ => rfl)

end DeepOrEq

namespace Store

variable (s : Store)

theorem deepOrEq_write {room room' : Nat} (h : room ≤ room') (v : Value) (out : String) :
    DeepOrEq (s.write room v out) (s.write room' v out) := by
  induction room generalizing room' v out with
  | zero => exact .inl (by rw [write])
  | succ room ih =>
    obtain ⟨n, rfl⟩ := Nat.exists_eq_add_of_le' (Nat.le_of_add_left_le h)
    have hn : room ≤ n := by omega
    cases v with
    | closure r =>
      rw [write, write]
      split
      · exact .refl _
      · split
        · exact .refl _
        · exact (ih hn _ _).map _
    | cell r =>
      rw [write, write]
      split
      · exact .refl _
      · refine (ih hn _ _).bind fun out => ?_
        refine (DeepOrEq.foldlM (fun out x => ih hn x _) out).bind fun out => ?_
        split
        · exact .refl _
        · exact (ih hn _ _).map _
    | _ => exact .refl _

theorem deepOrEq_printWithin {room room' : Nat} (h : room ≤ room') (v : Value) :
    DeepOrEq (s.printWithin room v) (s.printWithin room' v) := s.deepOrEq_write h v ""

theorem deepOrEq_displayWithin {room room' : Nat} (h : room ≤ room') (v : Value) :
    DeepOrEq (s.displayWithin room v) (s.displayWithin room' v) := by
  cases v with
  | number x => exact .refl _
  | integer i => exact .refl _
  | _ => exact s.deepOrEq_printWithin h _

theorem deepOrEq_number {room room' : Nat} (h : room ≤ room') (operation : String) (v : Value) :
    DeepOrEq (s.number room operation v) (s.number room' operation v) := by
  cases v with
  | number x => exact .refl _
  | integer i => exact .refl _
  | _ => exact (s.deepOrEq_printWithin h _).report _

theorem deepOrEq_elements {room room' : Nat} (h : room ≤ room') (operation : String) (v : Value) :
    DeepOrEq (s.elements room operation v) (s.elements room' operation v) := by
  rcases elements_or s operation v with ⟨mk, hreport⟩ | ⟨_, hitems⟩
  · rw [hreport, hreport]
    exact (s.deepOrEq_printWithin h v).report mk
  · rw [hitems, hitems]
    exact .refl _

end Store

namespace Action

/-- From every store, the first action runs out of depth or does what the second does. -/
def Agrees {α : Type} (x y : Action α) : Prop :=
  ∀ s, (∃ s', x s = .error .recursionTooDeep s') ∨ x s = y s

theorem agrees_iff {α : Type} {x y : Action α} :
    Agrees x y ↔ ∀ s, Abreast .deep Eq (fun _ _ => Eq) (x s) (y s) := by
  refine forall_congr' fun s => ?_
  generalize x s = p
  generalize y s = q
  constructor
  · rintro (⟨s', rfl⟩ | rfl)
    · exact .excused rfl
    · cases p with
      | ok a t => exact .ok rfl rfl
      | error e t => exact .error rfl rfl
  · intro h
    cases h with
    | ok ht ha => exact .inr (congrArg₂ EStateM.Result.ok ha ht)
    | error ht he => exact .inr (congrArg₂ EStateM.Result.error he ht)
    | @excused e t _ he => exact .inl ⟨t, congrArg (EStateM.Result.error · t) he⟩

namespace Agrees

variable {α β : Type}

theorem refl (x : Action α) : Agrees x x := fun _ => .inr rfl

theorem bind {x y : Action α} {f g : α → Action β} (h : Agrees x y) (hf : ∀ a, Agrees (f a) (g a)) :
    Agrees (x >>= f) (y >>= g) := by
  refine agrees_iff.2 fun s => (agrees_iff.1 h s).bind fun a b t t' ht hab => ?_
  subst ht hab
  exact agrees_iff.1 (hf a) t

theorem check {f g : Store → Except Error α} (h : ∀ s, DeepOrEq (f s) (g s)) :
    Agrees (Action.check f) (Action.check g) :=
  agrees_iff.2 fun s => .of_ends rfl (deepOrEq_iff.1 (h s))

end Agrees

end Action

open MiniLisp.Action

section

variable {room room' : Nat} (h : room ≤ room')

include h

theorem agrees_part (operation : String) (select : Cell → Value) (v : Value) :
    Agrees (Primitive.part room operation select v) (Primitive.part room' operation select v) := by
  refine .check fun s => ?_
  cases v with
  | nil => exact .refl _
  | cell r => exact .refl _
  | _ => exact (s.deepOrEq_printWithin h _).report _

theorem values_eq :
    Abreast.Values .deep (fun _ _ => Eq) (fun _ _ => Eq) room room' where
  continues := continues_eq Store
  pair _ := rfl
  mono _ hv := hv
  number _ _ := rfl
  truth _ _ := rfl
  numeric operation hst hv := by
    subst hst hv
    exact deepOrEq_iff.1 (Store.deepOrEq_number _ h operation _)
  elements operation hst hv := by
    subst hst hv
    rw [List.forall₂_eq_eq_eq]
    exact deepOrEq_iff.1 (Store.deepOrEq_elements _ h operation _)
  part operation _ hst hv := by
    subst hst hv
    exact agrees_iff.1 (agrees_part h operation _ _) _
  cons hst ha hd := by
    subst hst ha hd
    exact ⟨rfl, rfl⟩
  isEq ha hd := by rw [ha, hd]
  isAtomic hv := by rw [hv]

theorem agrees_primitive (p : Primitive) (args : List Value) :
    Agrees (p.run room args) (p.run room' args) :=
  agrees_iff.2 fun _ => .primitive (values_eq h) rfl (List.forall₂_refl args) p

theorem agrees_hook (hook : Hook) (frame : FrameRef) (args : List Value) :
    Agrees (hook.run room frame args) (hook.run room' frame args) := by
  cases hook with
  | trace =>
    have htexts : Agrees (check fun s => args.mapM (s.printWithin room))
        (check fun s => args.mapM (s.printWithin room')) :=
      .check fun s => .mapM fun v => s.deepOrEq_printWithin h v
    exact htexts.bind fun _ => .refl _
  | defineHere =>
    unfold Hook.run
    split <;> first | contradiction | exact .refl _
  | _ => exact .refl _

end

end MiniLisp
