import MiniLisp.Eval
import MiniLisp.Proofs.Eval.Depth

set_option autoImplicit false

namespace MiniLisp

open MiniLisp.Action

namespace Store

variable (s : Store) {room room' : Nat} (h : room ≤ room')

include h

theorem deepOrEq_formals (parameters : Value) :
    DeepOrEq (s.formals room parameters) (s.formals room' parameters) := by
  dsimp only [formals]
  split
  · refine .mapM fun p => ?_
    split
    · exact .refl _
    · exact (s.deepOrEq_displayWithin h _).report _
  · exact (s.deepOrEq_displayWithin h _).report _

theorem deepOrEq_callFrame (c : Closure) (args : List Value) :
    DeepOrEq (s.callFrame room c args) (s.callFrame room' c args) :=
  (s.deepOrEq_formals h _).bind fun _ => .refl _

end Store

namespace Action.Agrees

variable {α β γ : Type}

theorem mapM {f g : γ → Action α} (h : ∀ x, Agrees (f x) (g x)) (xs : List γ) :
    Agrees (xs.mapM f) (xs.mapM g) := by
  have hf : ∀ x y s t, s = t → x = y → Abreast .deep (Eq : Store → Store → Prop)
      (fun _ _ => Eq) (f x s) (g y t) := by
    intro x y s t hst hxy
    subst hst hxy
    exact agrees_iff.1 (h x) s
  refine agrees_iff.2 fun s => ?_
  have hlist := Abreast.mapM (continues_eq Store) (Q := fun _ _ => Eq) (R := fun _ _ => Eq)
    (fun _ h => h) (fun _ h => h) hf (rfl : s = s) (List.forall₂_refl xs)
  rwa [List.forall₂_eq_eq_eq] at hlist

theorem foldlM {f g : α → γ → Action α} (h : ∀ a x, Agrees (f a x) (g a x)) (xs : List γ)
    (init : α) : Agrees (xs.foldlM f init) (xs.foldlM g init) := by
  refine agrees_iff.2 fun s => ?_
  refine .foldlM (continues_eq Store) (Q := fun _ _ => Eq) (R := fun _ _ => Eq) (fun _ h => h)
    (fun a b x y s t hst hab hxy => ?_) rfl (List.forall₂_refl xs) rfl
  subst hst hab hxy
  exact agrees_iff.1 (h a x) s

theorem get {f g : Store → Action α} (h : ∀ s, Agrees (f s) (g s)) :
    Agrees (MonadState.get >>= f) (MonadState.get >>= g) := fun s => h s s

theorem print {room room' : Nat} (h : room ≤ room') (v : Value) (f : String → Action α) :
    Agrees (Action.check (·.printWithin room v) >>= f)
      (Action.check (·.printWithin room' v) >>= f) :=
  (check fun s => s.deepOrEq_printWithin h v).bind fun _ => .refl _

end Action.Agrees

namespace Eval

variable {room room' : Nat} {ev ev' : Evaluator}

section

variable (h : room ≤ room') (hev : ∀ part e frame, Agrees (ev part e frame) (ev' part e frame))
  (frame : FrameRef)

include h hev

theorem agrees_special (form : SpecialForm) (operands : List Value) :
    Agrees (special room ev frame form operands) (special room' ev' frame form operands) := by
  unfold special
  split
  · exact .refl _
  · exact .refl _
  · refine (hev _ _ _).bind fun v => ?_
    split
    · exact hev _ _ _
    · exact hev _ _ _
  · exact .refl _
  · exact (hev _ _ _).bind fun _ => .refl _
  · exact .refl _
  · exact .refl _
  · exact .refl _
  · exact .refl _
  · exact .refl _
  · exact .refl _
  · exact .refl _
  · exact .foldlM (fun _ x => hev _ x _) _ _
  · refine (hev _ _ _).bind fun v => ?_
    split
    · exact .refl _
    · exact .print h v _
  · exact .refl _

theorem agrees_apply (f : Value) (args : List Value) :
    Agrees (apply room ev f args frame) (apply room' ev' f args frame) := by
  unfold apply
  split
  · refine Agrees.get fun s => ?_
    split
    · exact .refl _
    · next c _ =>
      have hextend : Agrees (Store.extend room c args) (Store.extend room' c args) :=
        (Agrees.check fun s => s.deepOrEq_callFrame h c args).bind fun _ => .refl _
      exact hextend.bind fun _ => (Agrees.refl _).bind fun _ => hev _ _ _
  · exact agrees_primitive h _ args
  · exact agrees_hook h _ frame args
  · exact .print h _ _

theorem agrees_call (head : Value) (operands : List Value) :
    Agrees (call room ev frame head operands) (call room' ev' frame head operands) := by
  refine (hev _ _ _).bind fun f => ?_
  have hrest : Agrees (operands.mapM (ev .operand · frame) >>= (apply room ev f · frame))
      (operands.mapM (ev' .operand · frame) >>= (apply room' ev' f · frame)) :=
    (Agrees.mapM (fun x => hev _ x _) operands).bind fun args => agrees_apply h hev frame f args
  split
  · exact (Agrees.check fun s => s.deepOrEq_printWithin h f).bind fun _ =>
      (Agrees.refl _).bind fun _ => hrest
  · exact hrest

theorem agrees_step (e : Value) : Agrees (step room ev e frame) (step room' ev' e frame) := by
  unfold step
  split
  · exact .refl _
  · refine Agrees.get fun s => ?_
    split
    · exact .refl _
    · split
      · exact agrees_special h hev frame _ _
      · exact agrees_call h hev frame _ _
    · exact .print h _ _
  · exact .refl _

end

/-- A greater limit takes away the error of too little depth and nothing else. -/
theorem agrees_evalBelow (h : room ≤ room') (gap : Nat) (e : Value) (frame : FrameRef) :
    Agrees (evalBelow room gap e frame) (evalBelow room' gap e frame) := by
  induction room generalizing room' gap e frame with
  | zero => exact fun s => .inl ⟨s, rfl⟩
  | succ room ih =>
    obtain ⟨n, rfl⟩ := Nat.exists_eq_add_of_le' (Nat.le_of_add_left_le h)
    have hn : room ≤ n := Nat.le_of_succ_le_succ h
    cases gap with
    | zero => exact agrees_step hn (fun part e frame => ih hn part.gap e frame) frame e
    | succ gap => exact ih hn gap e frame

end Eval
end MiniLisp
