import MiniLisp.Proofs.Respell.Kin

/-!
Two stores side by side.  Their frames bind the same names in the same order to counterparts
(`Store.Parallel`), and runs go together if they end in such stores with related results or the same
error, the first one being free to run out of depth (`Together`).  The operations on evaluated
arguments and the frames of calls go together (`together_primitive`, `endsKin_callFrame`).
-/
set_option autoImplicit false

namespace MiniLisp

open Store MiniLisp.Action

/-- The error without the form that it quotes.  No other error quotes code. -/
def Error.withoutForm : Error → Error
  | malformedForm _ => malformedForm ""
  | e => e

theorem Error.kind?_withoutForm (e : Error) : e.withoutForm.kind? = e.kind? := by cases e <;> rfl

namespace Store

structure ParallelFrames (base : FrameRef) (s s' : Store) (f f' : Frame) : Prop where
  outer : f.outer = f'.outer
  inside : ∀ o ∈ f.outer, base ≤ o
  bindings : List.Forall₂ (fun b b' => b.1 = b'.1 ∧ s.Counterpart base s' b.2 b'.2)
    f.bindings f'.bindings

/-- The frames from `base` on go in parallel, and there is one at least. -/
structure Parallel (base : FrameRef) (s s' : Store) : Prop where
  low : base < s.frames.size
  size : s.frames.size = s'.frames.size
  frame : ∀ r : FrameRef, base ≤ r →
    Option.Rel (s.ParallelFrames base s') s.frames[r]? s'.frames[r]?

variable {base : FrameRef} {s s' t t' : Store}

namespace ParallelFrames

variable {f f' : Frame}

theorem mono (h : s.ParallelFrames base s' f f') (hk : s.Retains t) (hk' : s'.Retains t') :
    t.ParallelFrames base t' f f' :=
  ⟨h.outer, h.inside, h.bindings.imp fun _ _ hb => ⟨hb.1, hb.2.mono hk hk'⟩⟩

theorem names_eq (h : s.ParallelFrames base s' f f') :
    f.bindings.map Prod.fst = f'.bindings.map Prod.fst := by
  have hb := h.bindings
  generalize f.bindings = bs at hb ⊢
  generalize f'.bindings = bs' at hb ⊢
  induction hb with
  | nil => rfl
  | cons hxy _ ih => exact congrArg₂ List.cons hxy.1 ih

theorem get? (h : s.ParallelFrames base s' f f') (name : String) :
    Option.Rel (s.Counterpart base s') (f.get? name) (f'.get? name) := by
  have hb := h.bindings
  rw [Frame.get?, Frame.get?]
  generalize f.bindings = bs at hb ⊢
  generalize f'.bindings = bs' at hb ⊢
  induction hb with
  | nil => exact .none
  | @cons b b' _ _ hxy _ ih =>
    obtain ⟨n, v⟩ := b
    obtain ⟨n', v'⟩ := b'
    obtain ⟨rfl, hv⟩ := hxy
    rw [Frame.lookup_cons_if, Frame.lookup_cons_if]
    by_cases hn : name = n
    · rw [if_pos hn, if_pos hn]
      exact .some hv
    · rw [if_neg hn, if_neg hn]
      exact ih

theorem define (h : s.ParallelFrames base s' f f') (name : String) {v v' : Value}
    (hv : s.Counterpart base s' v v') :
    s.ParallelFrames base s' (f.define name v) (f'.define name v') := by
  refine ⟨h.outer, h.inside, ?_⟩
  have hb := h.bindings
  rw [Frame.define, Frame.define]
  generalize f.bindings = bs at hb ⊢
  generalize f'.bindings = bs' at hb ⊢
  induction hb with
  | nil => exact .cons ⟨rfl, hv⟩ .nil
  | @cons b b' _ _ hxy hrest ih =>
    obtain ⟨n, w⟩ := b
    obtain ⟨n', w'⟩ := b'
    obtain ⟨rfl, hw⟩ := hxy
    simp only [Frame.put]
    by_cases hn : n = name
    · rw [if_pos hn, if_pos hn]
      exact .cons ⟨rfl, hv⟩ hrest
    · rw [if_neg hn, if_neg hn]
      exact .cons ⟨rfl, hw⟩ ih

theorem update (h : s.ParallelFrames base s' f f') {vars vars' : List (String × Value)}
    (hv : List.Forall₂ (fun x y => x.1 = y.1 ∧ s.Counterpart base s' x.2 y.2) vars vars') :
    s.ParallelFrames base s' (f.update vars) (f'.update vars') := by
  induction hv generalizing f f' with
  | nil => exact h
  | @cons x y _ _ hxy _ ih =>
    obtain ⟨name, v'⟩ := y
    obtain ⟨rfl, hv⟩ := hxy
    exact ih (h.define x.1 hv)

end ParallelFrames

namespace Parallel

theorem mono (h : s.Parallel base s') (hk : s.Retains t) (hk' : s'.Retains t')
    (hf : t.frames = s.frames) (hf' : t'.frames = s'.frames) : t.Parallel base t' := by
  refine ⟨hf ▸ h.low, by rw [hf, hf', h.size], fun r hr => ?_⟩
  rw [hf, hf']
  exact rel_imp (h.frame r hr) fun _ _ h => h.mono hk hk'

theorem define (h : s.Parallel base s') (r : FrameRef) (name : String) {v v' : Value}
    (hv : s.Counterpart base s' v v') :
    (s.define r name v).Parallel base (s'.define r name v') := by
  have hk := retains_define s r name v
  have hk' := retains_define s' r name v'
  refine ⟨by simpa [Store.define] using h.low, by simpa [Store.define] using h.size,
    fun q hq => ?_⟩
  rw [define_frame, define_frame]
  split
  · exact rel_map (h.frame q hq) fun _ _ h => (h.define name hv).mono hk hk'
  · exact rel_imp (h.frame q hq) fun _ _ h => h.mono hk hk'

theorem addFrame (h : s.Parallel base s') {f f' : Frame} (hf : s.ParallelFrames base s' f f') :
    (s.addFrame f).2.Parallel base (s'.addFrame f').2 := by
  have hk := retains_addFrame s f
  have hk' := retains_addFrame s' f'
  refine ⟨by simpa [Store.addFrame] using Nat.lt_succ_of_lt h.low,
    by simp [Store.addFrame, h.size], fun q hq => ?_⟩
  rw [Store.addFrame, Store.addFrame, Array.getElem?_push, Array.getElem?_push, h.size]
  split
  · exact .some (hf.mono hk hk')
  · exact rel_imp (h.frame q hq) fun _ _ h => h.mono hk hk'

theorem lookup (h : s.Parallel base s') {r : FrameRef} (hr : base ≤ r) (name : String) :
    EndsKin (s.Counterpart base s') (s.lookup r name) (s'.lookup r name) := by
  induction r using Nat.strongRecOn with
  | ind r ih =>
    rw [lookup_eq, lookup_eq]
    have hframe := h.frame r hr
    generalize s.frames[r]? = x at hframe
    generalize s'.frames[r]? = y at hframe
    cases hframe with
    | none => exact .error
    | @some f f' hff =>
      have hbound := hff.get? name
      have hinside := hff.inside
      simp only [← hff.outer]
      generalize f.get? name = x at hbound
      generalize f'.get? name = y at hbound
      cases hbound with
      | some hv => exact .ok hv
      | none =>
        cases ho : f.outer with
        | none => exact .error
        | some o =>
          by_cases hlt : o < r
          · simp only [if_pos hlt]
            exact ih o hlt (hinside o ho)
          · simp only [if_neg hlt]
            exact .error

end Parallel

theorem counterpart_cons {a a' d d' : Value} (ha : s.Counterpart base s' a a')
    (hd : s.Counterpart base s' d d') :
    (s.cons a d).2.Counterpart base (s'.cons a' d').2 (s.cons a d).1 (s'.cons a' d').1 := by
  obtain ⟨t, t', hat, hat', hkin⟩ := ha
  obtain ⟨u, u', hdu, hdu', hkin'⟩ := hd
  exact ⟨_, _, stands_cons hat hdu, stands_cons hat' hdu', .cons hkin hkin'⟩

theorem endsKin_callFrame {room room' : Nat} (hroom : room ≤ room') {c c' : Closure}
    (hp : s.Counterpart base s' c.parameters c'.parameters) (hscope : c.scope = c'.scope)
    (hbase : base ≤ c.scope) {args args' : List Value}
    (ha : List.Forall₂ (s.Counterpart base s') args args') :
    EndsKin (s.ParallelFrames base s') (s.callFrame room c args) (s'.callFrame room' c' args') := by
  have hformals := hp.endsKin_formals hroom
  generalize hx : s.formals room c.parameters = x at hformals
  generalize hy : s'.formals room' c'.parameters = y at hformals
  cases hformals with
  | excused he =>
    subst he
    rw [Eval.callFrame_error hx]
    exact .deep
  | error he =>
    subst he
    rw [Eval.callFrame_error hx, Eval.callFrame_error hy]
    exact .error
  | @ok names _ heq =>
    subst heq
    by_cases hlen : names.length = args.length
    · rw [Eval.callFrame_names hx hlen, Eval.callFrame_names hy (hlen.trans ha.length_eq), hscope]
      have hempty : s.ParallelFrames base s' ⟨[], some c'.scope⟩ ⟨[], some c'.scope⟩ :=
        ⟨rfl, fun o ho => Option.some.inj ho ▸ hscope ▸ hbase, .nil⟩
      exact .ok (hempty.update (forall_zip names ha))
    · rw [Eval.callFrame_mismatch hx hlen,
        Eval.callFrame_mismatch hy (fun h => hlen (h.trans ha.length_eq.symm)), ha.length_eq]
      exact .error

end Store

def Faults.forms : Faults :=
  ⟨fun e e' => e.withoutForm = e'.withoutForm, (· = .recursionTooDeep)⟩

/-- The first run is out of depth, or both end in parallel stores, with related results or with
errors that differ at most in the form they quote. -/
def Together {α β : Type} (base : FrameRef) (R : Store → Store → α → β → Prop) (s s' : Store) :
    EStateM.Result Error Store α → EStateM.Result Error Store β → Prop :=
  Abreast .forms (fun t t' => s.Retains t ∧ s'.Retains t' ∧ t.Parallel base t') R

namespace Together

variable {α β γ δ : Type} {base : FrameRef} {R : Store → Store → α → β → Prop}
  {R' : Store → Store → γ → δ → Prop} {s s' t t' : Store}

theorem deep {y : EStateM.Result Error Store β} :
    Together base R s s' (.error .recursionTooDeep t) y := Abreast.excused rfl

theorem ok {a : α} {b : β} (hk : s.Retains t) (hk' : s'.Retains t') (hp : t.Parallel base t')
    (hr : R t t' a b) : Together base R s s' (.ok a t) (.ok b t') := Abreast.ok ⟨hk, hk', hp⟩ hr

theorem error {e e' : Error} (hk : s.Retains t) (hk' : s'.Retains t') (hp : t.Parallel base t')
    (he : e.withoutForm = e'.withoutForm) : Together base R s s' (.error e t) (.error e' t') :=
  Abreast.error ⟨hk, hk', hp⟩ he

theorem of_keeps {x : EStateM.Result Error Store α} {y : EStateM.Result Error Store β}
    (hk : s.Retains t) (hk' : s'.Retains t') (h : Together base R t t' x y) :
    Together base R s s' x y :=
  h.mono fun _ _ h => ⟨hk.trans h.1, hk'.trans h.2.1, h.2.2⟩

theorem continues (base : FrameRef) : Continues fun (s s' : Store) t t' =>
    s.Retains t ∧ s'.Retains t' ∧ t.Parallel base t' :=
  ⟨fun h => ⟨.refl _, .refl _, h.2.2⟩,
    fun h h' => ⟨h.1.trans h'.1, h.2.1.trans h'.2.1, h'.2.2⟩⟩

theorem bind {x : Action α} {y : Action β} {f : α → Action γ} {g : β → Action δ}
    (h : Together base R s s' (x s) (y s'))
    (hf : ∀ a b t t', s.Retains t → s'.Retains t' → t.Parallel base t' → R t t' a b →
      Together base R' t t' (f a t) (g b t')) :
    Together base R' s s' ((x >>= f) s) ((y >>= g) s') :=
  Abreast.andThen (continues base) h fun a b t t' h => hf a b t t' h.1 h.2.1 h.2.2

theorem of_pure {a : α} {b : β} (hp : s.Parallel base s') (hr : R s s' a b) :
    Together base R s s' ((pure a : Action α) s) ((pure b : Action β) s') :=
  .ok (.refl s) (.refl s') hp hr

theorem of_throw (hp : s.Parallel base s') (e : Error) :
    Together base R s s' ((throw e : Action α) s) ((throw e : Action β) s') :=
  .error (.refl s) (.refl s') hp rfl

theorem of_check {f : Store → Except Error α} {g : Store → Except Error β}
    (hp : s.Parallel base s') (h : EndsKin (R s s') (f s) (g s')) :
    Together base R s s' (check f s) (check g s') :=
  Abreast.of_ends ⟨.refl s, .refl s', hp⟩
    (Faults.Ends.mono h (fun _ _ => congrArg Error.withoutForm) fun _ h => h)

section

variable {room room' : Nat} (hroom : room ≤ room') (hp : s.Parallel base s') {v v' : Value}
  (hv : s.Counterpart base s' v v')

include hroom hp hv

theorem of_print : Together base (fun _ _ => Eq) s s' (check (·.printWithin room v) s)
    (check (·.printWithin room' v') s') := of_check hp (hv.endsKin_print hroom)

theorem of_report (mk : String → Error) :
    Together base R s s' ((do throw (mk (← check (·.printWithin room v))) : Action α) s)
      ((do throw (mk (← check (·.printWithin room' v'))) : Action β) s') :=
  Abreast.report (of_print hroom hp hv) fun _ => rfl

end

section

variable {f : Value → Action Value} {g : Value → Action Value} {vs vs' : List Value}
  (hf : ∀ v v' s s', s.Parallel base s' → s.Respelled s' v v' →
    Together base (Counterpart base) s s' (f v s) (g v' s'))

include hf

theorem mapM (hp : s.Parallel base s') (hv : List.Forall₂ (s.Respelled s') vs vs') :
    Together base (fun s s' => List.Forall₂ (s.Counterpart base s')) s s' (vs.mapM f s)
      (vs'.mapM g s') :=
  Abreast.mapM (continues base) (fun h hv => hv.mono h.1 h.2.1) (fun h hv => hv.mono h.1 h.2.1)
    (fun v v' s s' hp hv => hf v v' s s' hp.2.2 hv) ⟨.refl s, .refl s', hp⟩ hv

theorem foldlM (hp : s.Parallel base s') (hv : List.Forall₂ (s.Respelled s') vs vs')
    {a b : Value} (hab : s.Counterpart base s' a b) :
    Together base (Counterpart base) s s' (vs.foldlM (fun _ v => f v) a s)
      (vs'.foldlM (fun _ v => g v) b s') :=
  Abreast.foldlM (continues base) (fun h hv => hv.mono h.1 h.2.1)
    (fun _ _ v v' s s' hp _ hv => hf v v' s s' hp.2.2 hv) ⟨.refl s, .refl s', hp⟩ hv hab

end

end Together

section

variable {base : FrameRef} {room room' : Nat} (hroom : room ≤ room')

include hroom

theorem together_part {s s' : Store} (hp : s.Parallel base s') (operation : String)
    {select : Cell → Value}
    (hselect : ∀ c c' : Cell, s.Counterpart base s' c.head c'.head →
      s.Counterpart base s' c.tail c'.tail → s.Counterpart base s' (select c) (select c'))
    {v v' : Value} (h : s.Counterpart base s' v v') :
    Together base (Counterpart base) s s' (Primitive.part room operation select v s)
      (Primitive.part room' operation select v' s') := by
  refine .of_check hp ?_
  have hprint := h.endsKin_print hroom
  cases h.facing with
  | nil => exact .ok .nil
  | cell hc hc' hh ht =>
    simp only [hc, hc']
    exact .ok (hselect _ _ hh ht)
  | _ => exact hprint.report _

theorem values_counterpart : Abreast.Values .forms
    (fun s s' t t' => s.Retains t ∧ s'.Retains t' ∧ t.Parallel base t') (Counterpart base)
    room room' where
  continues := Together.continues base
  pair _ := rfl
  mono h hv := hv.mono h.1 h.2.1
  number _ _ := .number _
  truth _ _ := .truth _
  numeric operation _ hv :=
    (hv.endsKin_number hroom operation).mono (fun _ _ => congrArg Error.withoutForm) fun _ h => h
  elements operation _ hv :=
    (hv.endsKin_elements hroom operation).mono (fun _ _ => congrArg Error.withoutForm) fun _ h => h
  part operation hselect h hv := by
    rcases hselect with rfl | rfl
    · exact together_part hroom h.2.2 operation (fun _ _ hh _ => hh) hv
    · exact together_part hroom h.2.2 operation (fun _ _ _ ht => ht) hv
  cons h ha hd := ⟨⟨retains_cons _ _ _, retains_cons _ _ _,
    h.2.2.mono (retains_cons _ _ _) (retains_cons _ _ _) rfl rfl⟩, counterpart_cons ha hd⟩
  isEq ha hd := ha.isEq_eq hd
  isAtomic hv := hv.isAtomic_eq

theorem together_primitive {s s' : Store} (hp : s.Parallel base s') {args args' : List Value}
    (ha : List.Forall₂ (s.Counterpart base s') args args') (p : Primitive) :
    Together base (Counterpart base) s s' (p.run room args s) (p.run room' args' s') :=
  Abreast.primitive (values_counterpart hroom) ⟨.refl s, .refl s', hp⟩ ha p

end

end MiniLisp
