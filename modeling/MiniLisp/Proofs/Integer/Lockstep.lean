import MiniLisp.Proofs.Integer.Widening

set_option autoImplicit false

namespace MiniLisp

open Store MiniLisp.Action

/-- The second run is the first one widened, its result through `f`. -/
def Widens {α β : Type} (f : α → β) :
    EStateM.Result Error Store α → EStateM.Result Error Store β → Prop :=
  Abreast .parameters (fun t t' => t' = t.widen) fun _ _ a b => f a = b

variable {s : Store}

namespace Widens

variable {α β γ δ : Type} {f : α → β} {g : γ → δ}

theorem ok (a : α) (t : Store) : Widens f (.ok a t) (.ok (f a) t.widen) := Abreast.ok rfl rfl

theorem error {e e' : Error} (t : Store) (he : e'.withoutParameter = e.withoutParameter) :
    Widens f (.error e t) (.error e' t.widen) := Abreast.error rfl he

theorem continues : Continues fun (_ _ t t' : Store) => t' = t.widen :=
  ⟨fun h => h, fun _ h => h⟩

theorem bind {x : Action α} {y : Action β} {k : α → Action γ} {l : β → Action δ}
    (h : Widens f (x s) (y s.widen)) (hk : ∀ a t, Widens g (k a t) (l (f a) t.widen)) :
    Widens g ((x >>= k) s) ((y >>= l) s.widen) := by
  refine Abreast.bind h fun a b t t' ht hab => ?_
  subst ht hab
  exact hk a t

theorem of_check {x : Store → Except Error α} {y : Store → Except Error β}
    (h : EndsWidened f (x s) (y s.widen)) : Widens f (check x s) (check y s.widen) :=
  Abreast.of_ends rfl h

theorem of_same {x y : Store → Except Error α} (h : y s.widen = x s) :
    Widens id (check x s) (check y s.widen) :=
  of_check (Faults.Ends.of_eq (fun _ => rfl) h.symm)

theorem of_report (room : Nat) (v : Value) (mk : String → Error) :
    Widens f ((do throw (mk (← check (·.printWithin room v))) : Action α) s)
      ((do throw (mk (← check (·.printWithin room v.widen))) : Action β) s.widen) :=
  (of_same (s.printWithin_widen room v)).bind fun _ t => .error t rfl

theorem of_update {x y : Store → Store} (h : y s.widen = (x s).widen) :
    Widens id (update x s) (update y s.widen) := by
  unfold update
  rw [h]
  exact .ok () (x s)

theorem of_store {x : Store → α × Store} {y : Store → β × Store}
    (h : y s.widen = (f (x s).1, (x s).2.widen)) : Widens f (ofStore x s) (ofStore y s.widen) := by
  unfold ofStore
  rw [h]
  exact .ok (x s).1 (x s).2

section

variable {k l : Value → Action Value} (h : ∀ v t, Widens Value.widen (k v t) (l v.widen t.widen))

include h

theorem mapM (vs : List Value) : Widens (List.map Value.widen) (vs.mapM k s)
    ((vs.map Value.widen).mapM l s.widen) := by
  refine Abreast.imp (Abreast.mapM continues (Q := fun _ _ => (Value.widen · = ·))
    (fun _ h => h) (fun _ h => h) ?_ rfl (forall₂_apply_iff.2 rfl)) fun _ _ _ _ =>
      forall₂_apply_iff.1
  intro v w t t' ht hvw
  subst ht hvw
  exact h v t

theorem foldlM (vs : List Value) (a : Value) : Widens Value.widen
    (vs.foldlM (fun _ v => k v) a s)
    ((vs.map Value.widen).foldlM (fun _ v => l v) a.widen s.widen) := by
  refine Abreast.foldlM continues (Q := fun _ _ => (Value.widen · = ·)) (fun _ h => h) ?_
    rfl (forall₂_apply_iff.2 rfl) rfl
  intro _ _ v w t t' ht _ hvw
  subst ht hvw
  exact h v t

end

end Widens

theorem widens_part (room : Nat) (operation : String) {select : Cell → Value}
    (h : ∀ c : Cell, select c.widen = (select c).widen) (v : Value) :
    Widens Value.widen (Primitive.part room operation select v s)
      (Primitive.part room operation select v.widen s.widen) := by
  have hreport : (do throw (.notList operation (← s.widen.printWithin room v.widen)) :
      Except Error Value) = (do throw (.notList operation (← s.printWithin room v)) :
      Except Error Value).map Value.widen := report_follows _ (s.printWithin_widen room v) _
  refine .of_check (.of_map ?_)
  rcases v.widen_cases with hv | ⟨i, x, _, rfl, hv⟩
  · rw [hv] at hreport ⊢
    cases v with
    | nil => rfl
    | cell r =>
      simp only [cell_widen]
      cases s.cells[r]? with
      | none => rfl
      | some c => exact congrArg Except.ok (h c)
    | _ => exact hreport
  · rw [hv] at hreport ⊢
    exact hreport

theorem specialForm?_widen (v : Value) : Eval.specialForm? v.widen = Eval.specialForm? v := by
  rcases v.widen_cases with h | ⟨i, x, _, rfl, h⟩
  · rw [h]
  · rw [h]
    rfl

theorem Value.widen_truth (b : Bool) : (Value.truth b).widen = .truth b := by cases b <;> rfl

theorem values_widen (room : Nat) : Abreast.Values .parameters (fun _ _ t t' => t' = t.widen)
    (fun _ _ => (Value.widen · = ·)) room room where
  continues := Widens.continues
  pair _ := rfl
  mono _ hv := hv
  number _ _ := rfl
  truth b _ := Value.widen_truth b
  numeric operation hst hv := by
    subst hst hv
    exact .of_eq (fun _ => rfl) (Store.number_widen _ room operation _).symm
  elements operation hst hv := by
    subst hst hv
    exact Faults.Ends.imp (EndsWidened.of_map (Store.elements_widen _ room operation _))
      fun _ _ => forall₂_apply_iff.2
  part operation hselect hst hv := by
    subst hst hv
    rcases hselect with rfl | rfl
    · exact widens_part room operation (fun _ => rfl) _
    · exact widens_part room operation (fun _ => rfl) _
  cons hst ha hd := by
    subst hst ha hd
    rw [Store.widen_cons]
    exact ⟨rfl, rfl⟩
  isEq ha hd := by
    subst ha hd
    exact (Primitive.isEq_widen _ _).symm
  isAtomic hv := by
    subst hv
    exact (Primitive.isAtomic_widen _).symm

theorem widens_primitive (room : Nat) (p : Primitive) (args : List Value) :
    Widens Value.widen (p.run room args s) (p.run room (args.map Value.widen) s.widen) :=
  Abreast.primitive (values_widen room) rfl (forall₂_apply_iff.2 rfl) p

theorem assign_of_ne {change : Cell → Value → Cell} {args : List Value}
    (h : ∀ r v, args ≠ [.cell r, v]) : Hook.assign change args = pure .nil := by
  unfold Hook.assign
  split
  · exact absurd rfl (h _ _)
  · rfl

theorem widens_assign {change : Cell → Value → Cell}
    (h : ∀ c v, change (Cell.widen c) v.widen = (change c v).widen) (args : List Value) :
    Widens Value.widen (Hook.assign change args s)
      (Hook.assign change (args.map Value.widen) s.widen) := by
  by_cases hargs : ∃ r v, args = [.cell r, v]
  · obtain ⟨r, v, rfl⟩ := hargs
    refine (Widens.of_update ?_).bind fun _ t => .ok (Value.cell r) t
    rw [cell_widen]
    cases s.cells[r]? with
    | none => rfl
    | some c =>
      simp only [Option.map_some, h]
      exact s.widen_setCell r (change c v)
  · have hargs' : ∀ r v, args.map Value.widen ≠ [.cell r, v] := by
      intro r v h
      obtain ⟨a, as, rfl, ha, has⟩ := List.map_eq_cons_iff.1 h
      obtain ⟨b, rfl, _⟩ := List.map_eq_singleton_iff.1 has
      exact hargs ⟨r, b, by rw [Value.widen_eq_cell_iff.1 ha]⟩
    rw [assign_of_ne fun r v h => hargs ⟨r, v, h⟩, assign_of_ne hargs']
    exact .ok Value.nil s

theorem defineHere_of_ne {args : List Value} (h : ∀ name v, args ≠ [.symbol name, v]) (room : Nat)
    (frame : FrameRef) : Hook.defineHere.run room frame args = pure .nil := by
  rw [Hook.run]
  exact h

theorem widens_hook (room : Nat) (frame : FrameRef) (h : Hook) (args : List Value) :
    Widens Value.widen (h.run room frame args s)
      (h.run room frame (args.map Value.widen) s.widen) := by
  cases h with
  | trace =>
    have htexts : Widens id (check (fun s => args.mapM (s.printWithin room)) s)
        (check (fun s => (args.map Value.widen).mapM (s.printWithin room)) s.widen) :=
      .of_same (mapM_same fun v _ => s.printWithin_widen room v)
    have hlast : (args.map Value.widen).getLastD .nil = (args.getLastD .nil).widen := by
      rw [List.getLastD_eq_getLast?, List.getLastD_eq_getLast?, List.getLast?_map]
      cases args.getLast? <;> rfl
    refine htexts.bind fun texts t => ?_
    refine (Widens.of_update (t.widen_record (.traced texts))).bind fun _ t => ?_
    rw [hlast]
    exact .ok (args.getLastD .nil) t
  | setCar => exact widens_assign (fun _ _ => rfl) args
  | setCdr => exact widens_assign (fun _ _ => rfl) args
  | defineHere =>
    by_cases hargs : ∃ name v, args = [.symbol name, v]
    · obtain ⟨name, v, rfl⟩ := hargs
      exact (Widens.of_update (s.widen_define v frame name)).bind fun _ t => .ok v t
    · have hargs' : ∀ name v, args.map Value.widen ≠ [.symbol name, v] := by
        intro name v h
        obtain ⟨a, as, rfl, ha, has⟩ := List.map_eq_cons_iff.1 h
        obtain ⟨b, rfl, _⟩ := List.map_eq_singleton_iff.1 has
        exact hargs ⟨name, b, by rw [Value.widen_eq_symbol_iff.1 ha]⟩
      rw [defineHere_of_ne fun name v h => hargs ⟨name, v, h⟩, defineHere_of_ne hargs']
      exact .ok Value.nil s

end MiniLisp
