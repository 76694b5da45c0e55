import MiniLisp.Proofs.Eval.Settling
import MiniLisp.Proofs.Tree.Alike

set_option autoImplicit false

namespace MiniLisp

open Store MiniLisp.Action

section

variable {s : Store} {w : Scopes} {v : Value} {t : Tree}

namespace Store.Stands

theorem endsAlike_number (h : s.Stands v t) (room : Nat) (operation : String) :
    EndsAlike Eq (s.number room operation v) (t.toNumber room operation) := by
  have hprint := h.endsAlike_print room
  cases h with
  | number x => exact .ok rfl
  | _ => exact hprint.report fun _ => nofun

theorem endsAlike_elements (h : s.Stands v t) (room : Nat) (operation : String) :
    EndsAlike (List.Forall₂ s.Stands) (s.elements room operation v)
      (t.elements room operation) := by
  have hprint := h.endsAlike_print room
  obtain ⟨items, last, hchain, hitems, hlast⟩ := h.chain
  have hlist : EndsAlike (List.Forall₂ s.Stands)
      (if last = .nil then .ok items
        else (do throw (.notProperList operation (← s.printWithin room v))))
      (if t.chain.2 = .nil then .ok t.chain.1
        else (do throw (.notProperList operation (← t.printWithin room)))) := by
    by_cases hl : last = .nil
    · rw [if_pos hl, if_pos (hlast.eq_nil_iff.1 hl)]
      exact .ok hitems
    · rw [if_neg hl, if_neg (mt hlast.eq_nil_iff.2 hl)]
      exact hprint.report fun _ => nofun
  cases h with
  | nil =>
    rw [elements_of_chain hchain.chain_eq (.inl rfl)]
    exact hlist
  | cell =>
    rw [elements_of_chain hchain.chain_eq (.inr ⟨_, rfl⟩)]
    exact hlist
  | _ => exact hprint.report fun _ => nofun

theorem endsAlike_parameterName (h : s.Stands v t) (room : Nat) :
    EndsAlike Eq (Eval.parameterName s room v) (Tree.parameterName room t) := by
  have hprint := h.endsAlike_display room
  cases h with
  | symbol name => exact .ok rfl
  | _ => exact hprint.report fun _ => nofun

end Store.Stands

theorem endsAlike_formals {c : Closure} (h : s.Stands c.parameters t) (room : Nat) :
    EndsAlike Eq (s.formals room c.parameters) (t.formals room) := by
  obtain ⟨items, last, hchain, hitems, hlast⟩ := h.chain
  by_cases hl : last = .nil
  · subst hl
    rw [Eval.formals_of_lists room hchain, Tree.formals, if_pos (hlast.eq_nil_iff.1 rfl)]
    exact .mapM_eq hitems fun _ _ h => h.endsAlike_parameterName room
  · rw [Eval.formals_improper room hchain.chain_eq hl, Tree.formals, if_neg (mt hlast.eq_nil_iff.2 hl)]
    exact (h.endsAlike_display room).report fun _ => nofun

theorem forall_zip {α β γ : Type} {R : β → γ → Prop} (names : List α) {xs : List β} {ys : List γ}
    (h : List.Forall₂ R xs ys) :
    List.Forall₂ (fun x y => x.1 = y.1 ∧ R x.2 y.2) (names.zip xs) (names.zip ys) := by
  induction h generalizing names with
  | nil => simp
  | cons h _ ih =>
    cases names with
    | nil => exact .nil
    | cons name names => exact .cons ⟨rfl, h⟩ (ih names)

theorem endsAlike_callFrame {c : Closure} (h : s.Stands c.parameters t) (room : Nat)
    {args : List Value} {ts : List Tree} (ha : List.Forall₂ s.Stands args ts) :
    EndsAlike s.MirrorsFrame (s.callFrame room c args) (Tree.callScope room t c.scope ts) := by
  have hformals := endsAlike_formals h room
  generalize hx : s.formals room c.parameters = x at hformals
  generalize hy : t.formals room = y at hformals
  cases hformals with
  | excused he => exact he.elim
  | error he =>
    obtain ⟨rfl, he⟩ := he
    rw [Eval.callFrame_error hx, Tree.callScope, hy]
    exact .error he
  | @ok names _ heq =>
    subst heq
    have hscope : Tree.callScope room t c.scope ts = if names.length = ts.length then
        .ok (Scope.update ⟨fun _ => none, some c.scope⟩ (names.zip ts))
        else .error (.argumentMismatch names.length ts.length) := by
      rw [Tree.callScope, hy]
      rfl
    rw [hscope, ← ha.length_eq]
    by_cases hlen : names.length = args.length
    · rw [Eval.callFrame_names hx hlen, if_pos hlen]
      have hempty : s.MirrorsFrame ⟨[], some c.scope⟩ ⟨fun _ => none, some c.scope⟩ :=
        ⟨rfl, fun _ => .none⟩
      exact .ok (hempty.update (forall_zip names ha))
    · rw [Eval.callFrame_mismatch hx hlen, if_neg hlen]
      exact .error nofun

theorem endsAlike_isEq {a b : Value} {t u : Tree} (ha : s.Stands a t) (hb : s.Stands b u) :
    Primitive.isEq a b = .ok (t.isEq u) := by
  cases ha <;> cases hb <;> rfl

theorem Store.Stands.isAtomic_eq (h : s.Stands v t) : Primitive.isAtomic v = t.isAtomic := by
  cases h <;> rfl

theorem stands_truth (b : Bool) : s.Stands (.truth b) (.truth b) := by
  cases b with
  | false => exact .nil
  | true => exact .symbol "T"

theorem pureRun_bind {α β : Type} (x : Except Error α) (f : α → Except Error β) :
    Tree.pureRun (x >>= f) = (Tree.pureRun x >>= fun a => Tree.pureRun (f a)) := by
  cases x <;> rfl

variable (hm : s.Mirrors w) {args : List Value} {ts : List Tree}
  (ha : List.Forall₂ s.Stands args ts) (room : Nat) (operation : String)

include hm ha

theorem alike_unary {f : Value → Action Value} {g : Tree → Except Error Tree}
    (hf : ∀ v t, s.Stands v t → Alike Stands s (f v s) (Tree.pureRun (g t) w)) :
    Alike Stands s (Primitive.unary operation f args s)
      (Tree.pureRun (Tree.unary operation g ts) w) := by
  have hlen := ha.length_eq
  rcases ha with _ | ⟨hv, _ | _⟩
  · exact .error (.refl s) hm nofun
  · exact hf _ _ hv
  · unfold Primitive.unary Tree.unary
    simp only [hlen]
    exact .error (.refl s) hm nofun

theorem alike_binary {f : Value → Value → Action Value} {g : Tree → Tree → Except Error Tree}
    (hf : ∀ a b t u, s.Stands a t → s.Stands b u →
      Alike Stands s (f a b s) (Tree.pureRun (g t u) w)) :
    Alike Stands s (Primitive.binary operation f args s)
      (Tree.pureRun (Tree.binary operation g ts) w) := by
  have hlen := ha.length_eq
  rcases ha with _ | ⟨hx, _ | ⟨hy, _ | _⟩⟩
  · exact .error (.refl s) hm nofun
  · exact .error (.refl s) hm nofun
  · exact hf _ _ _ _ hx hy
  · unfold Primitive.binary Tree.binary
    simp only [hlen]
    exact .error (.refl s) hm nofun

theorem alike_numbers (minimum : Nat) : Alike (fun _ => Eq) s
    (Primitive.numbers room operation minimum args s)
    (Tree.pureRun (Tree.numbers room operation minimum ts) w) := by
  unfold Primitive.numbers Tree.numbers
  rw [ha.length_eq]
  by_cases hlen : ts.length < minimum
  · rw [if_pos hlen, if_pos hlen]
    exact .error (.refl s) hm nofun
  · rw [if_neg hlen, if_neg hlen]
    exact .of_check hm (.mapM_eq ha fun _ _ h => h.endsAlike_number room operation)

omit ha in
theorem alike_part {select : Cell → Value} {select' : Tree → Tree → Tree}
    (hselect : ∀ c a d, s.Stands c.head a → s.Stands c.tail d →
      s.Stands (select c) (select' a d)) (h : s.Stands v t) :
    Alike Stands s (Primitive.part room operation select v s)
      (Tree.pureRun (Tree.part room operation select' t) w) := by
  refine .of_check hm ?_
  have hprint := h.endsAlike_print room
  cases h with
  | nil => exact .ok .nil
  | cell hc ha hd =>
    simp only [hc]
    exact .ok (hselect _ _ _ ha hd)
  | _ => exact hprint.report fun _ => nofun

omit ha in
theorem alike_list (hi : List.Forall₂ s.Stands args ts) :
    Alike Stands s (ofStore (·.list args .nil) s) (Tree.pureRun (.ok (.list ts .nil)) w) := by
  obtain ⟨hk, hframes, hstands⟩ := stands_list hi .nil
  exact .ok hk (hm.mono hk hframes) hstands

theorem alike_primitive (p : Primitive) :
    Alike Stands s (p.run room args s) (Tree.pureRun (Tree.runPrimitive room p ts) w) := by
  cases p with
  | arithmetic op =>
    rw [Tree.runPrimitive, pureRun_bind]
    refine (alike_numbers hm ha room _ _).bind fun xs ys s' w' _ hm' h => ?_
    subst h
    exact .ok (.refl s') hm' (.number _)
  | comparison op =>
    rw [Tree.runPrimitive, pureRun_bind]
    refine (alike_numbers hm ha room _ _).bind fun xs ys s' w' _ hm' h => ?_
    subst h
    exact .ok (.refl s') hm' (stands_truth _)
  | cons =>
    refine alike_binary hm ha _ fun a d t u ha hd => ?_
    have hk := retains_cons s a d
    exact .ok hk (hm.mono hk rfl) (stands_cons ha hd)
  | car => exact alike_unary hm ha _ fun v t h => alike_part hm room _ (fun _ _ _ ha _ => ha) h
  | cdr => exact alike_unary hm ha _ fun v t h => alike_part hm room _ (fun _ _ _ _ hd => hd) h
  | append =>
    have hparts : Alike (fun s => List.Forall₂ (List.Forall₂ s.Stands)) s
        (check (fun s => args.mapM (s.elements room "append")) s)
        (Tree.pureRun (ts.mapM (Tree.elements room "append")) w) :=
      .of_check hm (.mapM ha fun _ _ h => h.endsAlike_elements room "append")
    rw [Tree.runPrimitive, pureRun_bind]
    exact hparts.bind fun parts parts' s' w' _ hm' h =>
      alike_list hm' (List.rel_flatten h)
  | list => exact alike_list hm ha
  | length =>
    refine alike_unary hm ha _ fun v t h => ?_
    have hitems : Alike (fun s => List.Forall₂ s.Stands) s
        (check (·.elements room "length" v) s) (Tree.pureRun (t.elements room "length") w) :=
      .of_check hm (h.endsAlike_elements room "length")
    rw [pureRun_bind]
    refine hitems.bind fun items items' s' w' _ hm' h => ?_
    rw [h.length_eq]
    exact .ok (.refl s') hm' (.number _)
  | eq =>
    refine alike_binary hm ha _ fun a b t u ha hb => ?_
    have htest : check (fun _ => Primitive.isEq a b) s = .ok (t.isEq u) s := by
      rw [check, endsAlike_isEq ha hb]
    rw [bind_ok htest]
    exact .ok (.refl s) hm (stands_truth _)
  | isAtom =>
    refine alike_unary hm ha _ fun v t h => ?_
    rw [h.isAtomic_eq]
    exact .ok (.refl s) hm (stands_truth _)

end

end MiniLisp
