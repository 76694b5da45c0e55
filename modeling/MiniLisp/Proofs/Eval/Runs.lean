import MiniLisp.Primitive
import MiniLisp.Proofs.Store.Sound

set_option autoImplicit false

namespace MiniLisp

open Store

namespace Action

def after {α : Type} (x : Action α) (s : Store) : Store :=
  match x s with
  | .ok _ s' | .error _ s' => s'

/-- From `s` the action goes on by steps of a run; if it succeeds, `post` holds. -/
def Runs {α : Type} (foreign : Value → Prop) (writable : FrameRef → String → Prop)
    (post : Store → α → Prop) (x : Action α) (s : Store) : Prop :=
  Evolves foreign writable s (x.after s) ∧ ∀ a s', x s = .ok a s' → post s' a

section

variable {α β : Type} {foreign : Value → Prop} {writable : FrameRef → String → Prop}
  {post : Store → α → Prop} {post' : Store → β → Prop} {s : Store}

theorem after_eq_ok {x : Action α} {a : α} {s' : Store} (h : x s = .ok a s') : x.after s = s' := by
  rw [after, h]

theorem after_eq_error {x : Action α} {e : Error} {s' : Store} (h : x s = .error e s') :
    x.after s = s' := by rw [after, h]

theorem bind_ok {x : Action α} {f : α → Action β} {a : α} {s' : Store} (h : x s = .ok a s') :
    (x >>= f) s = f a s' := by
  change EStateM.bind x f s = _
  rw [EStateM.bind, h]

theorem bind_error {x : Action α} {f : α → Action β} {e : Error} {s' : Store}
    (h : x s = .error e s') : (x >>= f) s = .error e s' := by
  change EStateM.bind x f s = _
  rw [EStateM.bind, h]

theorem runs_pure {a : α} (h : post s a) : Runs foreign writable post (pure a) s :=
  ⟨.refl, by
    intro b s' hb
    cases hb
    exact h⟩

theorem runs_throw (e : Error) : Runs foreign writable post (throw e) s :=
  ⟨.refl, by
    intro b s' hb
    cases hb⟩

theorem runs_throw_bind (e : Error) {f : β → Action α} :
    Runs foreign writable post (throw e >>= f) s := runs_throw e

theorem Runs.bind {x : Action α} {f : α → Action β} (hx : Runs foreign writable post x s)
    (hf : ∀ a s', Evolves foreign writable s s' → post s' a →
      Runs foreign writable post' (f a) s') : Runs foreign writable post' (x >>= f) s := by
  cases h : x s with
  | ok a s' =>
    have hs' : Evolves foreign writable s s' := after_eq_ok h ▸ hx.1
    have hnext := hf a s' hs' (hx.2 a s' h)
    have hafter : (x >>= f).after s = (f a).after s' := by rw [after, after, bind_ok h]
    refine ⟨hafter ▸ hs'.trans hnext.1, fun b t hb => ?_⟩
    rw [bind_ok h] at hb
    exact hnext.2 b t hb
  | error e s' =>
    have hafter : (x >>= f).after s = x.after s := by rw [after, after, bind_error h, h]
    refine ⟨hafter ▸ hx.1, fun b t hb => ?_⟩
    rw [bind_error h] at hb
    cases hb

theorem Runs.weaken {wider : FrameRef → String → Prop} {x : Action α}
    (h : Runs foreign writable post x s) (hw : ∀ q n, writable q n → wider q n) :
    Runs foreign wider post x s := ⟨h.1.weaken hw, h.2⟩

theorem runs_check {f : Store → Except Error α} (h : ∀ a, f s = .ok a → post s a) :
    Runs foreign writable post (check f) s := by
  cases hf : f s with
  | ok a =>
    have hrun : check f s = .ok a s := by rw [check, hf]
    refine ⟨(after_eq_ok hrun).symm ▸ .refl, fun b s' hb => ?_⟩
    rw [hrun] at hb
    cases hb
    exact h a hf
  | error e =>
    have hrun : check f s = .error e s := by rw [check, hf]
    refine ⟨(after_eq_error hrun).symm ▸ .refl, fun b s' hb => ?_⟩
    rw [hrun] at hb
    cases hb

theorem runs_report {f : Store → Except Error β} (mk : β → Error) :
    Runs foreign writable post (do throw (mk (← check f))) s :=
  (runs_check fun _ _ => trivial : Runs foreign writable (fun _ _ => True) (check f) s).bind
    fun _ _ _ _ => runs_throw _

theorem runs_ofStore {f : Store → α × Store} (h : Evolves foreign writable s (f s).2)
    (hp : post (f s).2 (f s).1) : Runs foreign writable post (ofStore f) s :=
  ⟨h, by
    intro a s' ha
    cases ha
    exact hp⟩

theorem runs_update {f : Store → Store} (h : Evolves foreign writable s (f s)) :
    Runs foreign writable (fun _ _ => True) (update f) s :=
  ⟨h, fun _ _ _ => trivial⟩

theorem runs_mapM {γ : Type} {f : γ → Action α} {xs : List γ}
    (hp : ∀ {a s₁ s₂}, Evolves foreign writable s₁ s₂ → post s₁ a → post s₂ a)
    (hf : ∀ x ∈ xs, ∀ s', Evolves foreign writable s s' → Runs foreign writable post (f x) s') :
    Runs foreign writable (fun s ys => ∀ y ∈ ys, post s y) (xs.mapM f) s := by
  induction xs generalizing s with
  | nil => exact runs_pure (by simp)
  | cons x xs ih =>
    rw [List.mapM_cons]
    refine (hf x (List.mem_cons_self ..) s .refl).bind fun a s₁ h₁ ha => ?_
    refine (ih fun y hy s' h' => hf y (List.mem_cons_of_mem x hy) s' (h₁.trans h')).bind
      fun ys s₂ h₂ hys => ?_
    exact runs_pure (List.forall_mem_cons.2 ⟨hp h₂ ha, hys⟩)

theorem runs_foldlM {γ : Type} {f : α → γ → Action α} {xs : List γ} {init : α} (hi : post s init)
    (hf : ∀ x ∈ xs, ∀ a s', Evolves foreign writable s s' → post s' a →
      Runs foreign writable post (f a x) s') :
    Runs foreign writable post (xs.foldlM f init) s := by
  induction xs generalizing s init with
  | nil => exact runs_pure hi
  | cons x xs ih =>
    rw [List.foldlM_cons]
    refine (hf x (List.mem_cons_self ..) init s .refl hi).bind fun a s₁ h₁ ha => ?_
    exact ih ha fun y hy b s' h' hb => hf y (List.mem_cons_of_mem x hy) b s' (h₁.trans h') hb

end

end Action

abbrev Admitted (foreign : Value → Prop) : Store → Value → Prop := fun s v => s.Admits foreign v

section

open MiniLisp.Action

variable {foreign : Value → Prop} {writable : FrameRef → String → Prop} {s : Store}

theorem report_ne_ok {α : Type} (x : Except Error String) (mk : String → Error) (a : α) :
    (do throw (mk (← x)) : Except Error α) ≠ .ok a := by
  cases x with
  | ok text => exact fun h => nomatch h
  | error e => exact fun h => nomatch h

theorem admits_truth (b : Bool) : s.Admits foreign (.truth b) := by cases b <;> trivial

theorem runs_unary {operation : String} {f : Value → Action Value} {args : List Value}
    {post : Store → Value → Prop} (h : ∀ v, args = [v] → Runs foreign writable post (f v) s) :
    Runs foreign writable post (Primitive.unary operation f args) s := by
  unfold Primitive.unary
  split
  · exact h _ rfl
  · exact runs_throw _

theorem runs_binary {operation : String} {f : Value → Value → Action Value} {args : List Value}
    {post : Store → Value → Prop}
    (h : ∀ a b, args = [a, b] → Runs foreign writable post (f a b) s) :
    Runs foreign writable post (Primitive.binary operation f args) s := by
  unfold Primitive.binary
  split
  · exact h _ _ rfl
  · exact runs_throw _

theorem runs_numbers (room : Nat) (operation : String) (minimum : Nat) (args : List Value) :
    Runs foreign writable (fun _ _ => True) (Primitive.numbers room operation minimum args) s := by
  unfold Primitive.numbers
  split
  · exact runs_throw _
  · exact runs_check fun _ _ => trivial

/-- With arguments enough, what the first that is no number raises is raised. -/
theorem numbers_eq {room minimum : Nat} {operation : String} {args : List Value}
    (h : minimum ≤ args.length) : Primitive.numbers room operation minimum args =
      check fun s => args.mapM (s.number room operation) := if_neg (Nat.not_lt.2 h)

theorem numbers_ok {room minimum : Nat} {operation : String} {args : List Value}
    {xs : List Double} (hlen : minimum ≤ args.length)
    (h : args.mapM (s.number room operation) = .ok xs) :
    Primitive.numbers room operation minimum args s = .ok xs s := by
  rw [numbers_eq hlen, check, h]

theorem numbers_error {room minimum : Nat} {operation : String} {args : List Value} {e : Error}
    (hlen : minimum ≤ args.length) (h : args.mapM (s.number room operation) = .error e) :
    Primitive.numbers room operation minimum args s = .error e s := by
  rw [numbers_eq hlen, check, h]

theorem runs_part (hs : s.Sound foreign) {v : Value} (hv : s.Admits foreign v) (room : Nat)
    (operation : String) {select : Cell → Value}
    (hselect : ∀ c : Cell, s.Admits foreign c.head → s.Admits foreign c.tail →
      s.Admits foreign (select c)) :
    Runs foreign writable (Admitted foreign) (Primitive.part room operation select v) s := by
  refine runs_check fun a ha => ?_
  cases v with
  | nil =>
    cases ha
    trivial
  | cell r =>
    cases hc : s.cells[r]? with
    | none =>
      simp only [hc] at ha
      cases ha
      trivial
    | some c =>
      simp only [hc] at ha
      cases ha
      exact hselect c (hs.cell hc).1 (hs.cell hc).2
  | _ => exact absurd ha (report_ne_ok _ _ _)

theorem elements_of_chain {v : Value} {items : List Value} {last : Value}
    (h : s.chain v = (items, last)) (hv : v = .nil ∨ ∃ r, v = .cell r) (room : Nat)
    (operation : String) : s.elements room operation v = if last = .nil then .ok items
      else (do throw (.notProperList operation (← s.printWithin room v))) := by
  have hlist := toList?_of_chain h
  by_cases hl : last = .nil
  · rw [if_pos hl] at hlist ⊢
    rcases hv with rfl | ⟨r, rfl⟩ <;> simp only [elements, hlist]
  · rw [if_neg hl] at hlist ⊢
    rcases hv with rfl | ⟨r, rfl⟩ <;> simp only [elements, hlist]

theorem elements_or (s : Store) (operation : String) (v : Value) :
    (∃ mk : String → Error, ∀ room,
        s.elements room operation v = (do throw (mk (← s.printWithin room v)))) ∨
      (s.chain v).2 = .nil ∧ ∀ room, s.elements room operation v = .ok (s.chain v).1 := by
  by_cases hv : v = .nil ∨ ∃ r, v = .cell r
  · have hchain : s.chain v = ((s.chain v).1, (s.chain v).2) := rfl
    have helements := elements_of_chain hchain hv
    by_cases hl : (s.chain v).2 = .nil
    · exact .inr ⟨hl, fun room => (helements room operation).trans (if_pos hl)⟩
    · exact .inl ⟨.notProperList operation, fun room =>
        (helements room operation).trans (if_neg hl)⟩
  · refine .inl ⟨.notList operation, fun room => ?_⟩
    cases v with
    | nil => exact absurd (.inl rfl) hv
    | cell r => exact absurd (.inr ⟨r, rfl⟩) hv
    | _ => rfl

theorem lists_of_elements {room : Nat} {operation : String} {v : Value} {items : List Value}
    (h : s.elements room operation v = .ok items) : s.Lists v items := by
  rcases elements_or s operation v with ⟨mk, hreport⟩ | ⟨hl, hitems⟩
  · rw [hreport] at h
    exact absurd h (report_ne_ok _ _ _)
  · rw [hitems] at h
    cases h
    exact lists_iff_chain_eq.2 (Prod.ext rfl hl)

theorem exists_forall₂ {α β : Type} {R : α → β → Prop} {xs : List α}
    (h : ∀ x ∈ xs, ∃ y, R x y) : ∃ ys, List.Forall₂ R xs ys := by
  induction xs with
  | nil => exact ⟨[], .nil⟩
  | cons x xs ih =>
    obtain ⟨hx, hxs⟩ := List.forall_mem_cons.1 h
    obtain ⟨y, hy⟩ := hx
    obtain ⟨ys, hys⟩ := ih hxs
    exact ⟨y :: ys, .cons hy hys⟩

theorem exists_of_mem_forall₂ {α β : Type} {R : α → β → Prop} {xs : List α} {ys : List β}
    (h : List.Forall₂ R xs ys) {x : α} (hx : x ∈ xs) : ∃ y, R x y := by
  obtain ⟨i, hi, rfl⟩ := List.getElem_of_mem hx
  exact ⟨_, h.get hi (h.length_eq ▸ hi)⟩

theorem mapM_eq_ok {α β : Type} {f : α → Except Error β} {xs : List α} {ys : List β} :
    xs.mapM f = .ok ys ↔ List.Forall₂ (fun x y => f x = .ok y) xs ys := by
  constructor
  · intro h
    induction xs generalizing ys with
    | nil =>
      cases h
      exact .nil
    | cons x xs ih =>
      rw [List.mapM_cons] at h
      cases hx : f x with
      | error e =>
        rw [hx] at h
        cases h
      | ok y =>
        rw [hx] at h
        cases hrest : xs.mapM f with
        | error e =>
          rw [hrest] at h
          cases h
        | ok zs =>
          rw [hrest] at h
          cases h
          exact .cons hx (ih hrest)
  · intro h
    induction h with
    | nil => rfl
    | cons hx _ ih =>
      rw [List.mapM_cons, hx, ih]
      rfl

theorem mem_of_mapM_ok {α β : Type} {f : α → Except Error β} {xs : List α} {ys : List β}
    (h : xs.mapM f = .ok ys) {y : β} (hy : y ∈ ys) : ∃ x ∈ xs, f x = .ok y := by
  have hall := mapM_eq_ok.1 h
  obtain ⟨i, hi, rfl⟩ := List.getElem_of_mem hy
  have hx : i < xs.length := hall.length_eq ▸ hi
  exact ⟨xs[i], List.getElem_mem hx, hall.get hx hi⟩

theorem runs_list {items : List Value} (hi : ∀ i ∈ items, s.Admits foreign i) :
    Runs foreign writable (Admitted foreign) (ofStore (·.list items .nil)) s := by
  have hnil : s.Admits foreign .nil := trivial
  obtain ⟨he, hl⟩ : Evolves foreign writable s (s.list items .nil).2 ∧ _ := evolves_list hi hnil
  exact runs_ofStore he hl

/-- A primitive makes cells and nothing else, and gives back what it was given or has made. -/
theorem runs_primitive (hs : s.Sound foreign) (room : Nat) (p : Primitive) {args : List Value}
    (ha : ∀ a ∈ args, s.Admits foreign a) :
    Runs foreign writable (Admitted foreign) (p.run room args) s := by
  cases p with
  | arithmetic op => exact (runs_numbers room _ _ args).bind fun _ _ _ _ => runs_pure trivial
  | comparison op =>
    exact (runs_numbers room _ _ args).bind fun _ _ _ _ => runs_pure (admits_truth _)
  | cons =>
    refine runs_binary fun a d h => ?_
    subst h
    obtain ⟨ha, hd⟩ := List.forall_mem_cons.1 ha
    refine runs_ofStore (.single (.cons ha (hd d (List.mem_singleton.2 rfl)))) ?_
    simp [Admitted, Admits, Store.cons]
  | car =>
    refine runs_unary fun v h => ?_
    subst h
    exact runs_part hs (ha v (List.mem_singleton.2 rfl)) room _ fun c hh _ => hh
  | cdr =>
    refine runs_unary fun v h => ?_
    subst h
    exact runs_part hs (ha v (List.mem_singleton.2 rfl)) room _ fun c _ ht => ht
  | append =>
    have hparts : Runs foreign writable (fun s parts => ∀ p ∈ parts, ∀ i ∈ p, s.Admits foreign i)
        (check fun s => args.mapM (s.elements room "append")) s := by
      refine runs_check fun parts h p hp => ?_
      obtain ⟨v, hv, hvp⟩ := mem_of_mapM_ok h hp
      exact ((lists_of_elements hvp).admits hs (ha v hv)).1
    refine hparts.bind fun parts s' _ hp => ?_
    have hitems : ∀ i ∈ parts.flatten, s'.Admits foreign i := by
      intro i hi
      obtain ⟨p, hpp, hip⟩ := List.mem_flatten.1 hi
      exact hp p hpp i hip
    exact runs_list hitems
  | list => exact runs_list ha
  | length =>
    refine runs_unary fun v _ => ?_
    have hitems : Runs foreign writable (fun _ _ => True)
        (check (·.elements room "length" v)) s := runs_check fun _ _ => trivial
    exact hitems.bind fun _ _ _ _ => runs_pure trivial
  | eq =>
    refine runs_binary fun a b _ => ?_
    have htest : Runs foreign writable (fun _ _ => True) (check fun _ => Primitive.isEq a b) s :=
      runs_check fun _ _ => trivial
    exact htest.bind fun _ _ _ _ => runs_pure (admits_truth _)
  | isAtom => exact runs_unary fun v _ => runs_pure (admits_truth _)

theorem runs_assign {change : Cell → Value → Cell} {args : List Value}
    (ha : ∀ a ∈ args, s.Admits foreign a)
    (hc : ∀ r c v, s.cells[r]? = some c → s.Admits foreign v →
      Change foreign writable s (s.setCell r (change c v))) :
    Runs foreign writable (Admitted foreign) (Hook.assign change args) s := by
  unfold Hook.assign
  split
  · next r v =>
    obtain ⟨hr, hv⟩ := List.forall_mem_cons.1 ha
    refine (runs_update ?_).bind fun _ s' he _ => runs_pure (hr.grows he.grows)
    cases h : s.cells[r]? with
    | none => exact .refl
    | some c => exact .single (hc r c v h (hv v (List.mem_singleton.2 rfl)))
  · exact runs_pure trivial

theorem runs_hook (room : Nat) (frame : FrameRef) {h : Hook}
    (hh : foreign (.hook h)) {args : List Value} (ha : ∀ a ∈ args, s.Admits foreign a)
    (hw : ∀ n, h = .defineHere → writable frame n) :
    Runs foreign writable (Admitted foreign) (h.run room frame args) s := by
  cases h with
  | trace =>
    have htexts : Runs foreign writable (fun _ _ => True)
        (check fun s => args.mapM (s.printWithin room)) s := runs_check fun _ _ => trivial
    refine htexts.bind fun texts s₁ h₁ _ => ?_
    refine (runs_update (.single (.record _))).bind fun _ s₂ h₂ _ => runs_pure ?_
    have hlast : args.getLastD .nil ∈ Value.nil :: args := List.getLastD_mem_cons
    rcases List.mem_cons.1 hlast with h | h
    · rw [Admitted, h]
      trivial
    · exact (ha _ h).grows (Evolves.grows (h₁.trans h₂))
  | setCar => exact runs_assign ha fun r c v hc hv => .setHead hh hc hv
  | setCdr => exact runs_assign ha fun r c v hc hv => .setTail hh hc hv
  | defineHere =>
    unfold Hook.run
    split
    · next h => cases h
    · next h => cases h
    · next h => cases h
    · next name v _ =>
      have hv : s.Admits foreign v := ha v (by simp)
      exact (runs_update (.single (.define (hw name rfl) hv))).bind fun _ _ he _ =>
        runs_pure (hv.grows he.grows)
    · exact runs_pure trivial

end
end MiniLisp
