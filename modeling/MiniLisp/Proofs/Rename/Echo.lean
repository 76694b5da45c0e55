import MiniLisp.Proofs.Eval.Abreast
import MiniLisp.Proofs.Rename.Reading

set_option autoImplicit false

namespace MiniLisp

open Store MiniLisp.Action

/-- Both runs end in stores that match, with related results or the same error. -/
def Echoes {α β : Type} (m : Matching) (R : Store → α → β → Prop) (s : Store) :
    EStateM.Result Error Store α → EStateM.Result Error Store β → Prop :=
  Abreast .same (fun t t' => Evolves NoHook (fun _ _ => True) s t ∧ t.Matches m t') fun t _ => R t

def Renamed (m : Matching) (s : Store) (v v' : Value) : Prop :=
  v' = v.rename m.names ∧ s.Knows m v

def AllRenamed (m : Matching) (s : Store) (vs vs' : List Value) : Prop :=
  vs' = vs.map (Value.rename m.names) ∧ ∀ v ∈ vs, s.Knows m v

variable {m : Matching} {s s' : Store}

theorem AllRenamed.of_forall {vs vs' : List Value} (h : List.Forall₂ (Renamed m s) vs vs') :
    AllRenamed m s vs vs' := by
  induction h with
  | nil => exact ⟨rfl, List.forall_mem_nil _⟩
  | cons hv _ ih => exact ⟨congrArg₂ List.cons hv.1 ih.1, List.forall_mem_cons.2 ⟨hv.2, ih.2⟩⟩

theorem forall_renamed {vs : List Value} (h : ∀ v ∈ vs, s.Knows m v) :
    List.Forall₂ (Renamed m s) vs (vs.map (Value.rename m.names)) :=
  List.forall₂_map_right_iff.2 (List.forall₂_same.2 fun v hv => ⟨rfl, h v hv⟩)

namespace Echoes

variable {α β γ δ : Type} {R : Store → α → β → Prop} {R' : Store → γ → δ → Prop} {t t' : Store}

theorem ok {a : α} {b : β} (he : Evolves NoHook (fun _ _ => True) s t) (hm : t.Matches m t')
    (hr : R t a b) : Echoes m R s (.ok a t) (.ok b t') := Abreast.ok ⟨he, hm⟩ hr

theorem error {e : Error} (he : Evolves NoHook (fun _ _ => True) s t) (hm : t.Matches m t') :
    Echoes m R s (.error e t) (.error e t') := Abreast.error ⟨he, hm⟩ rfl

theorem of_evolves {x : EStateM.Result Error Store α} {y : EStateM.Result Error Store β}
    (he : Evolves NoHook (fun _ _ => True) s t) (h : Echoes m R t x y) : Echoes m R s x y :=
  h.mono fun _ _ h => ⟨he.trans h.1, h.2⟩

theorem continues (m : Matching) : Continues fun (s _ t t' : Store) =>
    Evolves NoHook (fun _ _ => True) s t ∧ t.Matches m t' :=
  ⟨fun h => ⟨.refl, h.2⟩, fun h h' => ⟨h.1.trans h'.1, h'.2⟩⟩

theorem bind {x : Action α} {y : Action β} {f : α → Action γ} {g : β → Action δ}
    (h : Echoes m R s (x s) (y s'))
    (hf : ∀ a b t t', Evolves NoHook (fun _ _ => True) s t → t.Matches m t' → R t a b →
      Echoes m R' t (f a t) (g b t')) : Echoes m R' s ((x >>= f) s) ((y >>= g) s') :=
  Abreast.andThen (continues m) h fun a b t t' h => hf a b t t' h.1 h.2

theorem of_pure {a : α} {b : β} (hm : s.Matches m s') (hr : R s a b) :
    Echoes m R s ((pure a : Action α) s) ((pure b : Action β) s') := .ok .refl hm hr

theorem of_check {f : Store → Except Error α} {g : Store → Except Error β} {q : α → β}
    (hm : s.Matches m s') (h : g s' = (f s).map q) (hr : ∀ a, f s = .ok a → R s a (q a)) :
    Echoes m R s (check f s) (check g s') := by
  unfold check
  rw [h]
  cases hf : f s with
  | ok a => exact .ok .refl hm (hr a hf)
  | error e => exact .error .refl hm

theorem of_same {f g : Store → Except Error α} (hm : s.Matches m s') (h : g s' = f s) :
    Echoes m (fun _ => Eq) s (check f s) (check g s') :=
  Abreast.of_ends ⟨.refl, hm⟩ (.of_eq (fun _ => rfl) h.symm)

theorem of_report {v : Value} (hm : s.Matches m s') (hv : s.Knows m v) (room : Nat)
    (mk : String → Error) :
    Echoes m R s ((do throw (mk (← check (·.printWithin room v))) : Action α) s)
      ((do throw (mk (← check (·.printWithin room (v.rename m.names)))) : Action β) s') :=
  Abreast.report (of_same hm (hm.printWithin room hv)) fun _ => rfl

/-- The second value is the first renamed, and from here on the runs on them echo each other. -/
def Ready (m : Matching) (f g : Value → Action Value) (s _ : Store) (v w : Value) : Prop :=
  w = v.rename m.names ∧ ∀ t t', Evolves NoHook (fun _ _ => True) s t → t.Matches m t' →
    Echoes m (Renamed m) t (f v t) (g w t')

section

variable {f g : Value → Action Value} {vs : List Value}

theorem Ready.evolves {u : Store} {v w : Value} (h : Ready m f g s s' v w)
    (he : Evolves NoHook (fun _ _ => True) s t) : Ready m f g t u v w :=
  ⟨h.1, fun t t' h' => h.2 t t' (he.trans h')⟩

variable (hm : s.Matches m s') (hf : ∀ v ∈ vs, ∀ t t', Evolves NoHook (fun _ _ => True) s t →
  t.Matches m t' → Echoes m (Renamed m) t (f v t) (g (v.rename m.names) t'))

include hf in
theorem forall_ready (s' : Store) :
    List.Forall₂ (Ready m f g s s') vs (vs.map (Value.rename m.names)) :=
  List.forall₂_map_right_iff.2 (List.forall₂_same.2 fun v hv => ⟨rfl, hf v hv⟩)

include hm hf

theorem mapM : Echoes m (AllRenamed m) s (vs.mapM f s)
    ((vs.map (Value.rename m.names)).mapM g s') := by
  have hrun := Abreast.mapM (continues m) (fun h hv => hv.evolves h.1)
    (fun h hv => ⟨hv.1, hv.2.evolves h.1⟩) (fun _ _ _ _ h hv => hv.2 _ _ h.1 h.2) ⟨.refl, hm⟩
    (forall_ready hf s')
  exact hrun.imp fun _ _ _ _ => .of_forall

theorem foldlM {a b : Value} (hab : Renamed m s a b) :
    Echoes m (Renamed m) s (vs.foldlM (fun _ v => f v) a s)
      ((vs.map (Value.rename m.names)).foldlM (fun _ v => g v) b s') :=
  Abreast.foldlM (continues m) (fun h hv => hv.evolves h.1)
    (fun _ _ _ _ _ _ h _ hv => hv.2 _ _ h.1 h.2) ⟨.refl, hm⟩ (forall_ready hf s') hab

end

end Echoes

theorem echoes_part (hm : s.Matches m s') {v : Value} (hv : s.Knows m v) (room : Nat)
    (operation : String)
    {select : Cell → Value} (hrename : ∀ c : Cell, select (c.rename m.names) =
      (select c).rename m.names) (hknows : ∀ c : Cell, s.Knows m c.head → s.Knows m c.tail →
      s.Knows m (select c)) :
    Echoes m (Renamed m) s (Primitive.part room operation select v s)
      (Primitive.part room operation select (v.rename m.names) s') := by
  have hreport : (do throw (.notList operation (← s'.printWithin room (v.rename m.names))) :
      Except Error Value) = (do throw (.notList operation (← s.printWithin room v)) :
      Except Error Value).map (Value.rename m.names) :=
    report_follows _ (hm.printWithin room hv) _
  cases v with
  | nil => exact .ok .refl hm ⟨rfl, hv⟩
  | cell r =>
    obtain ⟨c, hc, hc', hhead, htail⟩ := hm.exists_cell hv
    have hleft : Primitive.part room operation select (.cell r) s = .ok (select c) s := by
      simp only [Primitive.part, check, hc]
    have hright : Primitive.part room operation select (.cell (m.names.cell r)) s' =
        .ok (select (c.rename m.names)) s' := by simp only [Primitive.part, check, hc']
    rw [Value.rename, hleft, hright]
    exact .ok .refl hm ⟨hrename c, hknows c hhead htail⟩
  | _ => exact .of_check hm hreport fun a ha => absurd ha (report_ne_ok _ _ _)

theorem isEq_rename (a b : Value) :
    Primitive.isEq (a.rename m.names) (b.rename m.names) = Primitive.isEq a b := by
  cases a <;> cases b <;> rfl

theorem isAtomic_rename (v : Value) :
    Primitive.isAtomic (v.rename m.names) = Primitive.isAtomic v := by cases v <;> rfl

theorem renamed_truth (s : Store) (b : Bool) : Renamed m s (.truth b) (.truth b) :=
  ⟨(Value.rename_truth b).symm, knows_atom (admits_truth b) (by cases b <;> rfl)⟩

theorem elements_renamed (hm : s.Matches m s') (room : Nat) (operation : String) {v : Value}
    (hv : s.Knows m v) : Faults.same.Ends (List.Forall₂ (Renamed m s))
      (s.elements room operation v) (s'.elements room operation (v.rename m.names)) := by
  rw [hm.elements room operation hv]
  cases hitems : s.elements room operation v with
  | error e => exact .error rfl
  | ok items =>
    have hknows := (hm.chain (lists_of_elements hitems) hv).2.1
    exact .ok (forall_renamed hknows)

theorem values_renamed (m : Matching) (room : Nat) : Abreast.Values .same
    (fun s _ t t' => Evolves NoHook (fun _ _ => True) s t ∧ t.Matches m t')
    (fun s _ => Renamed m s) room room where
  continues := Echoes.continues m
  pair _ := rfl
  mono h hv := ⟨hv.1, hv.2.evolves h.1⟩
  number _ _ := ⟨rfl, knows_atom trivial rfl⟩
  truth b _ := renamed_truth _ b
  numeric operation h hv := hv.1 ▸ .of_eq (fun _ => rfl) (h.2.number room operation hv.2).symm
  elements operation h hv := hv.1 ▸ elements_renamed h.2 room operation hv.2
  part operation hselect h hv := by
    obtain ⟨rfl, hknows⟩ := hv
    rcases hselect with rfl | rfl
    · exact echoes_part h.2 hknows room operation (fun _ => rfl) fun _ hh _ => hh
    · exact echoes_part h.2 hknows room operation (fun _ => rfl) fun _ _ ht => ht
  cons h ha hd := by
    obtain ⟨rfl, ha⟩ := ha
    obtain ⟨rfl, hd⟩ := hd
    obtain ⟨hm, hrename⟩ := h.2.cons ha hd
    exact ⟨⟨.single (.cons ha.admits hd.admits), hm⟩, hrename⟩
  isEq ha hd := by rw [ha.1, hd.1, isEq_rename]
  isAtomic hv := by rw [hv.1, isAtomic_rename]

theorem echoes_primitive (hm : s.Matches m s') {args : List Value}
    (ha : ∀ a ∈ args, s.Knows m a) (room : Nat) (p : Primitive) :
    Echoes m (Renamed m) s (p.run room args s)
      (p.run room (args.map (Value.rename m.names)) s') :=
  Abreast.primitive (values_renamed m room) ⟨.refl, hm⟩ (forall_renamed ha) p

end MiniLisp
