import MiniLisp.Proofs.Eval.Settling
import MiniLisp.Proofs.Interpreter.Reachable

/-!
The evaluator implements the meaning of expressions (`eval_iff_evaluates`): what it gives within
some limit of depth, other than the error of that limit, is what the relation gives, and what
exceeds every limit has no ending there.
-/
set_option autoImplicit false

namespace MiniLisp

open Store MiniLisp.Action Eval

theorem bind_cases {α β : Type} (x : Action α) (f : α → Action β) (s : Store) :
    (∃ a s₁, x s = .ok a s₁ ∧ (x >>= f) s = f a s₁) ∨
      ∃ e s₁, x s = .error e s₁ ∧ (x >>= f) s = .error e s₁ := by
  cases h : x s with
  | ok a s₁ => exact .inl ⟨a, s₁, rfl, Action.bind_ok h⟩
  | error e s₁ => exact .inr ⟨e, s₁, rfl, Action.bind_error h⟩

theorem report_cases (print : Nat → Store → Except Error String) {mk : String → Error} {room : Nat}
    {s : Store} (hd : ¬ OutOfDepth ((do throw (mk (← check (print room))) : Action Value) s)) :
    ∃ err, (do throw (mk (← check (print room))) : Action Value) s = .error err s ∧
      Reports (print · s) mk err := by
  have heq := report_eq (α := Value) (print room) mk s
  cases hp : (do throw (mk (← print room s)) : Except Error Value) with
  | ok a => exact absurd hp (report_ne_ok _ _ _)
  | error err =>
    rw [hp] at heq
    refine ⟨err, heq, reports_of_eq (fun he => ?_) hp⟩
    subst he
    exact hd ⟨s, heq⟩

theorem Misshapen.map {form : SpecialForm} {xs : List Value} {err : Error}
    (h : Misshapen form xs err) {f : Value → Value}
    (hf : ∀ v name, f v = .symbol name ↔ v = .symbol name) : Misshapen form (xs.map f) err := by
  cases h with
  | quote h => exact .quote (by rwa [List.length_map])
  | conditional h => exact .conditional (by rwa [List.length_map])
  | define h => exact .define (by rwa [List.length_map])
  | defineName h => exact .defineName fun n hn => h n ((hf _ n).1 hn)
  | lambda h => exact .lambda (by rwa [List.length_map])
  | defun h => exact .defun (by rwa [List.length_map])
  | defunName h => exact .defunName fun n hn => h n ((hf _ n).1 hn)
  | function h => exact .function (by rwa [List.length_map])

theorem misshapen_or (form : SpecialForm) (xs : List Value) : (∃ err, Misshapen form xs err) ∨
    match form with
    | .quote | .function => ∃ x, xs = [x]
    | .conditional => ∃ test yes no, xs = [test, yes, no]
    | .define => ∃ name x, xs = [.symbol name, x]
    | .lambda => ∃ parameters body, xs = [parameters, body]
    | .defun => ∃ name parameters body, xs = [.symbol name, parameters, body]
    | .begin => True := by
  cases form with
  | quote =>
    by_cases h : xs.length = 1
    · exact .inr (List.length_eq_one_iff.1 h)
    · exact .inl ⟨_, .quote h⟩
  | conditional =>
    by_cases h : xs.length = 3
    · exact .inr (List.length_eq_three.1 h)
    · exact .inl ⟨_, .conditional h⟩
  | define =>
    by_cases h : xs.length = 2
    · obtain ⟨name, x, rfl⟩ := List.length_eq_two.1 h
      cases name with
      | symbol n => exact .inr ⟨n, x, rfl⟩
      | _ => exact .inl ⟨_, .defineName (by simp)⟩
    · exact .inl ⟨_, .define h⟩
  | lambda =>
    by_cases h : xs.length = 2
    · exact .inr (List.length_eq_two.1 h)
    · exact .inl ⟨_, .lambda h⟩
  | defun =>
    by_cases h : xs.length = 3
    · obtain ⟨name, parameters, body, rfl⟩ := List.length_eq_three.1 h
      cases name with
      | symbol n => exact .inr ⟨n, parameters, body, rfl⟩
      | _ => exact .inl ⟨_, .defunName (by simp)⟩
    · exact .inl ⟨_, .defun h⟩
  | begin => exact .inr trivial
  | function =>
    by_cases h : xs.length = 1
    · exact .inr (List.length_eq_one_iff.1 h)
    · exact .inl ⟨_, .function h⟩

theorem names_or_notSymbol (items : List Value) :
    (∃ names : List String, items = names.map .symbol) ∨
      ∃ (names : List String) (p : Value) (rest : List Value),
        items = names.map .symbol ++ p :: rest ∧ ∀ n, p ≠ .symbol n := by
  induction items with
  | nil => exact .inl ⟨[], rfl⟩
  | cons x xs ih =>
    cases x with
    | symbol n =>
      rcases ih with ⟨names, rfl⟩ | ⟨names, p, rest, rfl, hp⟩
      · exact .inl ⟨n :: names, rfl⟩
      · exact .inr ⟨n :: names, p, rest, rfl, hp⟩
    | _ => exact .inr ⟨[], _, xs, rfl, by simp⟩

section

variable {foreign : Value → Prop} {ev : Evaluator} {s s₁ : Store} {e : Value} {frame : FrameRef}

/-- The evaluator of parts goes on as a run does, and what it gives is what the part means, unless
it is the error of too little depth. -/
structure Faithful (foreign : Value → Prop) (ev : Evaluator) : Prop where
  noSetCdr : ¬ foreign (.hook .setCdr)
  runs : EvaluatorRuns foreign ev
  means : ∀ (part : Part) (e : Value) (frame : FrameRef) (s : Store), s.Ready foreign →
    s.Admits foreign e → frame < s.frames.size → ¬ OutOfDepth (ev part e frame s) →
    Evaluates (.expression e) frame s (ev part e frame s)

theorem Faithful.of_ok (hev : Faithful foreign ev) (hs : s.Ready foreign)
    (he : s.Admits foreign e) (hf : frame < s.frames.size) {part : Part} {v : Value}
    (h : ev part e frame s = .ok v s₁) : Evaluates (.expression e) frame s (.ok v s₁) ∧
      s₁.Ready foreign ∧ s.Grows s₁ ∧ s₁.Admits foreign v := by
  have hrun := hev.runs part e frame s hs.sound he hf
  have hevolves : Evolves foreign _ s s₁ := after_eq_ok h ▸ hrun.1
  have hmeans := hev.means part e frame s hs he hf
  rw [h] at hmeans
  exact ⟨hmeans (fun hd => nomatch hd), hs.evolves hev.noSetCdr hevolves, Evolves.grows hevolves,
    hrun.2 v s₁ h⟩

theorem Faithful.of_error (hev : Faithful foreign ev) (hs : s.Ready foreign)
    (he : s.Admits foreign e) (hf : frame < s.frames.size) {part : Part} {err : Error}
    (h : ev part e frame s = .error err s₁) (hd : ¬ OutOfDepth (.error err s₁)) :
    Evaluates (.expression e) frame s (.error err s₁) := by
  have hmeans := hev.means part e frame s hs he hf
  rw [h] at hmeans
  exact hmeans hd

theorem evaluates_sequence (hev : Faithful foreign ev) {xs : List Value} {last : Value}
    (hs : s.Ready foreign) (hx : ∀ x ∈ xs, s.Admits foreign x) (hf : frame < s.frames.size)
    (hd : ¬ OutOfDepth (xs.foldlM (fun _ x => ev .inner x frame) last s)) :
    Evaluates (.sequence last xs) frame s (xs.foldlM (fun _ x => ev .inner x frame) last s) := by
  induction xs generalizing s last with
  | nil => exact .sequenceDone
  | cons x xs ih =>
    rw [List.foldlM_cons] at hd ⊢
    obtain ⟨hx, hxs⟩ := List.forall_mem_cons.1 hx
    rcases bind_cases (ev .inner x frame) (fun v => xs.foldlM (fun _ x => ev .inner x frame) v) s
      with ⟨v, s₁, h, hb⟩ | ⟨err, s₁, h, hb⟩
    · rw [hb] at hd ⊢
      obtain ⟨hfirst, hs₁, hg, _⟩ := hev.of_ok hs hx hf h
      exact .sequenceNext hfirst
        (ih hs₁ (fun x hx => (hxs x hx).grows hg) (Nat.lt_of_lt_of_le hf hg.frames) hd)
    · rw [hb] at hd ⊢
      exact .sequenceFails (hev.of_error hs hx hf h hd)

theorem ready_withCall (hs : s.Ready foreign) (hcdr : ¬ foreign (.hook .setCdr))
    {r : ClosureRef} {c : Closure} (hc : s.closures[r]? = some c) (names : List String)
    {args : List Value} (ha : ∀ a ∈ args, s.Admits foreign a) :
    (s.withCall r c names args).Ready foreign ∧ s.Grows (s.withCall r c names args) ∧
      s.frames.size < (s.withCall r c names args).frames.size := by
  obtain ⟨ho, hb⟩ := admits_callFrame hs.sound hc names ha
  have hframe : Change foreign (fun _ _ => True) s
      (s.addFrame (.update ⟨[], some c.scope⟩ (names.zip args))).2 := .frame ho hb
  have hevolves : Evolves foreign (fun _ _ => True) s (s.withCall r c names args) :=
    (Relation.ReflTransGen.single hframe).tail (.record _)
  refine ⟨hs.evolves hcdr hevolves, Evolves.grows hevolves, ?_⟩
  simp [withCall, addFrame, Store.record]

theorem evaluates_rejected {r : ClosureRef} {c : Closure} {args : List Value} {room : Nat}
    (hc : s.closures[r]? = some c) (print : Nat → Except Error String) {mk : String → Error}
    (hformals : s.formals room c.parameters = (do throw (mk (← print room))))
    (hreject : ∀ {err}, Reports print mk err → s.Rejects c args err)
    (hd : ¬ OutOfDepth (callClosure room ev r args s)) :
    Evaluates (.call (.closure r) args) frame s (callClosure room ev r args s) := by
  cases hp : (do throw (mk (← print room)) : Except Error (List String)) with
  | ok names => exact absurd hp (report_ne_ok _ _ _)
  | error err =>
    rw [callClosure_error hc (callFrame_error (hformals.trans hp))] at hd ⊢
    refine .rejected hc (hreject (reports_of_eq (fun he => ?_) hp))
    subst he
    exact hd ⟨s, rfl⟩

theorem evaluates_call (hev : Faithful foreign ev) (hs : s.Ready foreign) (room : Nat)
    {f : Value} (hf : s.Admits foreign f) (hfun : f.isFunction = true) {args : List Value}
    (ha : ∀ a ∈ args, s.Admits foreign a)
    (hd : ¬ OutOfDepth (apply room ev f args frame s)) :
    Evaluates (.call f args) frame s (apply room ev f args frame s) := by
  cases f with
  | primitive p serial => exact .primitive hd
  | hook h => exact .hook hd
  | closure r =>
    have hc : s.closures[r]? = some s.closures[r] := Array.getElem?_eq_getElem hf
    obtain ⟨hp, hbody, _⟩ := hs.sound.closure hc
    obtain ⟨items, last, hchain⟩ := hs.chainsEnd.chain hp
    by_cases hl : last = .nil
    · subst hl
      rcases names_or_notSymbol items with ⟨names, rfl⟩ | ⟨names, p, rest, rfl, hp⟩
      · by_cases hlen : names.length = args.length
        · have hframe := callFrame_names (formals_ok room hchain) hlen
          obtain ⟨hs₁, hg, hlt⟩ := ready_withCall hs hev.noSetCdr hc names ha
          have hrun : apply room ev (.closure r) args frame s = _ := callClosure_ok hc hframe
          rw [hrun] at hd ⊢
          exact .closure hc hchain hlen (hev.means .body _ _ _ hs₁ (hbody.grows hg) hlt hd)
        · have hframe := callFrame_mismatch (formals_ok room hchain) hlen
          have hrun : apply room ev (.closure r) args frame s = _ := callClosure_error hc hframe
          rw [hrun]
          exact .rejected hc (.mismatch hchain hlen)
      · exact evaluates_rejected hc (s.displayWithin · p)
          (formals_notSymbol room hchain hp) (.notSymbol hchain hp) hd
    · exact evaluates_rejected hc (s.displayWithin · _)
        (formals_improper room hchain.chain_eq hl) (.improper hchain hl) hd
  | _ => cases hfun

theorem evaluates_operands (hev : Faithful foreign ev) (room : Nat) {f : Value}
    (hfun : f.isFunction = true) {xs done : List Value} (hs : s.Ready foreign)
    (hfa : s.Admits foreign f) (hdone : ∀ v ∈ done, s.Admits foreign v)
    (hx : ∀ x ∈ xs, s.Admits foreign x) (hf : frame < s.frames.size)
    (hd : ¬ OutOfDepth ((do
      let args ← xs.mapM (ev .operand · frame)
      apply room ev f (done ++ args) frame : Action Value) s)) :
    Evaluates (.operands f done xs) frame s ((do
      let args ← xs.mapM (ev .operand · frame)
      apply room ev f (done ++ args) frame : Action Value) s) := by
  induction xs generalizing s done with
  | nil =>
    simp only [List.mapM_nil, pure_bind, List.append_nil] at hd ⊢
    exact .operandsDone (evaluates_call hev hs room hfa hfun hdone hd)
  | cons x xs ih =>
    obtain ⟨hx, hxs⟩ := List.forall_mem_cons.1 hx
    simp only [List.mapM_cons, bind_assoc, pure_bind] at hd ⊢
    rcases bind_cases (ev .operand x frame) (fun v => do
        let args ← xs.mapM (ev .operand · frame)
        apply room ev f (done ++ v :: args) frame) s with ⟨v, s₁, h, hb⟩ | ⟨err, s₁, h, hb⟩
    · rw [hb] at hd ⊢
      obtain ⟨hfirst, hs₁, hg, hv⟩ := hev.of_ok hs hx hf h
      have hdone' : ∀ w ∈ done ++ [v], s₁.Admits foreign w :=
        List.forall_mem_append.2 ⟨fun w hw => (hdone w hw).grows hg, List.forall_mem_singleton.2 hv⟩
      have hrest := ih hs₁ (hfa.grows hg) hdone' (fun x hx => (hxs x hx).grows hg)
        (Nat.lt_of_lt_of_le hf hg.frames)
      simp only [List.append_assoc, List.singleton_append] at hrest
      exact .operandsNext hfirst (hrest hd)
    · rw [hb] at hd ⊢
      exact .operandFails (hev.of_error hs hx hf h hd)

theorem evaluates_starts (hev : Faithful foreign ev) (hs : s.Ready foreign)
    (he : s.Admits foreign e) (hf : frame < s.frames.size) {p : Value} (hp : s.Starts e p)
    {part : Part} {f : Value → Action Value}
    (hok : ∀ {v s₁}, Evaluates (.expression p) frame s (.ok v s₁) → s₁.Ready foreign →
      s.Grows s₁ → s₁.Admits foreign v → ¬ OutOfDepth (f v s₁) →
      Evaluates (.expression e) frame s (f v s₁))
    (hd : ¬ OutOfDepth ((ev part p frame >>= f) s)) :
    Evaluates (.expression e) frame s ((ev part p frame >>= f) s) := by
  have hpa : s.Admits foreign p := by
    cases hp with
    | test hl | define hl | function hl | head hl _ => exact (hl.admits hs.sound he).1 p (by simp)
  rcases bind_cases (ev part p frame) f s with ⟨v, s₁, h, hb⟩ | ⟨err, s₁, h, hb⟩
  · rw [hb] at hd ⊢
    obtain ⟨hfirst, hs₁, hg, hv⟩ := hev.of_ok hs hpa hf h
    exact hok hfirst hs₁ hg hv hd
  · rw [hb] at hd ⊢
    exact .startFails hp (hev.of_error hs hpa hf h hd)

theorem evaluates_special (hev : Faithful foreign ev) (room : Nat) (hs : s.Ready foreign)
    (he : s.Admits foreign e) (hf : frame < s.frames.size) {form : SpecialForm}
    {xs : List Value} (hl : s.Lists e (.symbol form.name :: xs))
    (hd : ¬ OutOfDepth (special room ev frame form xs s)) :
    Evaluates (.expression e) frame s (special room ev frame form xs s) := by
  have hx := (List.forall_mem_cons.1 (hl.admits hs.sound he).1).2
  rcases misshapen_or form xs with ⟨err, hm⟩ | hshape
  · rw [special_misshapen hm]
    exact .misshapen hl hm
  · cases form with
    | quote =>
      obtain ⟨x, rfl⟩ := hshape
      exact .quote hl
    | conditional =>
      obtain ⟨test, yes, no, rfl⟩ := hshape
      refine evaluates_starts hev hs he hf (.test hl) (fun {v s₁} hfirst hs₁ hg _ hd => ?_) hd
      have hf₁ := Nat.lt_of_lt_of_le hf hg.frames
      by_cases hv : v = .nil
      · subst hv
        simp only [ne_eq, not_true_eq_false, if_false] at hd ⊢
        exact .ifFalse hl hfirst
          (hev.means .inner no frame s₁ hs₁ ((hx no (by simp)).grows hg) hf₁ hd)
      · simp only [ne_eq, hv, not_false_eq_true, if_true] at hd ⊢
        exact .ifTrue hl hfirst hv
          (hev.means .inner yes frame s₁ hs₁ ((hx yes (by simp)).grows hg) hf₁ hd)
    | define =>
      obtain ⟨name, x, rfl⟩ := hshape
      exact evaluates_starts hev hs he hf (.define hl) (fun hfirst _ _ _ _ => .define hl hfirst) hd
    | lambda =>
      obtain ⟨parameters, body, rfl⟩ := hshape
      exact .lambda hl
    | defun =>
      obtain ⟨name, parameters, body, rfl⟩ := hshape
      exact .defun hl
    | begin => exact .begin hl (evaluates_sequence hev hs hx hf hd)
    | function =>
      obtain ⟨x, rfl⟩ := hshape
      refine evaluates_starts hev hs he hf (.function hl) (fun {v s₁} hfirst _ _ _ hd => ?_) hd
      cases hv : v.isFunction with
      | true =>
        simp only [if_true]
        exact .function hl hfirst hv
      | false =>
        simp only [hv, Bool.false_eq_true, if_false] at hd ⊢
        obtain ⟨err, heq, hr⟩ := report_cases (fun room s => s.printWithin room v) hd
        exact heq ▸ .notFunction hl hfirst hv hr

theorem evaluates_callForm (hev : Faithful foreign ev) (room : Nat) (hs : s.Ready foreign)
    (he : s.Admits foreign e) (hf : frame < s.frames.size) {head : Value} {xs : List Value}
    (hl : s.Lists e (head :: xs)) (hh : ∀ form : SpecialForm, head ≠ .symbol form.name)
    (hd : ¬ OutOfDepth (call room ev frame head xs s)) :
    Evaluates (.expression e) frame s (call room ev frame head xs s) := by
  have hx := (List.forall_mem_cons.1 (hl.admits hs.sound he).1).2
  refine evaluates_starts hev hs he hf (.head hl hh) (fun {f s₁} hfirst hs₁ hg hfa hd => ?_) hd
  cases hfun : f.isFunction with
  | true =>
    simp only [hfun, Bool.not_true, Bool.false_eq_true, if_false] at hd ⊢
    exact .call hl hh hfirst hfun (evaluates_operands hev room hfun hs₁ hfa (List.forall_mem_nil _)
      (fun x h => (hx x h).grows hg) (Nat.lt_of_lt_of_le hf hg.frames) hd)
  | false =>
    simp only [hfun, Bool.not_false, if_true] at hd ⊢
    obtain ⟨err, heq, hr⟩ := report_cases (fun room s => s.printWithin room f) hd
    exact heq ▸ .headNotFunction hl hh hfirst hfun hr

theorem evaluates_step (hev : Faithful foreign ev) (room : Nat) (hs : s.Ready foreign)
    (he : s.Admits foreign e) (hf : frame < s.frames.size)
    (hd : ¬ OutOfDepth (step room ev e frame s)) :
    Evaluates (.expression e) frame s (step room ev e frame s) := by
  cases e with
  | symbol name =>
    cases h : s.lookup frame name with
    | ok v =>
      have hrun : step room ev (.symbol name) frame s = .ok v s := by rw [step, check, h]
      exact hrun ▸ .symbol h
    | error err =>
      have hrun : step room ev (.symbol name) frame s = .error err s := by rw [step, check, h]
      exact hrun ▸ .unbound h
  | cell r =>
    obtain ⟨items, last, hchain⟩ := hs.chainsEnd r he
    by_cases hl : last = .nil
    · subst hl
      obtain ⟨head, xs, rfl⟩ : ∃ head xs, items = head :: xs := by
        cases hchain with
        | link _ _ => exact ⟨_, _, rfl⟩
      cases hform : specialForm? head with
      | some form =>
        obtain rfl := eq_name_of_specialForm? hform
        rw [step_special room ev hchain] at hd ⊢
        exact evaluates_special hev room hs he hf hchain hd
      | none =>
        have hh : ∀ form : SpecialForm, head ≠ .symbol form.name := by
          intro form h
          subst h
          cases form <;> cases hform
        rw [step_call room ev hchain hh] at hd ⊢
        exact evaluates_callForm hev room hs he hf hchain hh hd
    · rw [step_malformed room ev hchain hl] at hd ⊢
      obtain ⟨err, heq, hr⟩ := report_cases (fun room s => s.printWithin room (.cell r)) hd
      exact heq ▸ .malformed hchain hl hr
  | _ => exact .atom trivial

theorem faithful_within (hcdr : ¬ foreign (.hook .setCdr)) (room : Nat) :
    ∀ gap, Faithful foreign fun _ => evalBelow room gap := by
  induction room with
  | zero =>
    intro gap
    exact ⟨hcdr, runs_evalBelow foreign 0 gap, fun _ _ _ s _ _ _ hd => absurd ⟨s, rfl⟩ hd⟩
  | succ room ih =>
    intro gap
    refine ⟨hcdr, runs_evalBelow foreign (room + 1) gap, fun part e frame s hs he hf hd => ?_⟩
    cases gap with
    | zero =>
      have hparts : Faithful foreign fun part => evalBelow room part.gap :=
        ⟨hcdr, fun part => runs_evalBelow foreign room part.gap part,
          fun part => (ih part.gap).means part⟩
      exact evaluates_step hparts room hs he hf hd
    | succ gap => exact (ih gap).means part e frame s hs he hf hd

end

theorem outOfDepth_error {err : Error} {s : Store} :
    OutOfDepth (.error err s) ↔ err = .recursionTooDeep := by
  constructor
  · intro h
    obtain ⟨_, h⟩ := h
    cases h
    rfl
  · intro h
    exact ⟨s, by rw [h]⟩

theorem Reports.ne {print : Nat → Except Error String} {mk : String → Error} {err : Error}
    (h : Reports print mk err) (hmk : ∀ text, mk text ≠ .recursionTooDeep) :
    err ≠ .recursionTooDeep := by
  cases h with
  | text _ => exact hmk _
  | unprintable _ he => exact he

theorem Evaluates.not_outOfDepth {task : Task} {frame : FrameRef} {s : Store} {ending : Ending}
    (h : Evaluates task frame s ending) : ¬ OutOfDepth ending := by
  have hok : ∀ {v : Value} {s : Store}, ¬ OutOfDepth (.ok v s) := by
    intro v s h
    obtain ⟨_, h⟩ := h
    cases h
  induction h with
  | symbol _ | atom _ | quote _ | define _ _ _ | lambda _ | defun _ | function _ _ _ _
  | sequenceDone => exact hok
  | ifTrue _ _ _ _ _ ih | ifFalse _ _ _ _ ih | begin _ _ ih | call _ _ _ _ _ _ ih
  | startFails _ _ ih | sequenceNext _ _ _ ih | sequenceFails _ ih | operandsDone _ ih
  | operandsNext _ _ _ ih | operandFails _ ih | closure _ _ _ _ ih => exact ih
  | primitive hd | hook hd => exact hd
  | unbound h =>
    rw [outOfDepth_error]
    unfold lookup at h
    split at h
    · cases h
      simp
    · split at h
      · cases h
      · cases h
        simp
  | misshapen _ hm =>
    rw [outOfDepth_error]
    cases hm <;> simp
  | malformed _ _ hr | notFunction _ _ _ hr _ | headNotFunction _ _ _ _ hr _ =>
    rw [outOfDepth_error]
    exact hr.ne (by simp)
  | rejected _ hr =>
    rw [outOfDepth_error]
    cases hr with
    | improper _ _ hr | notSymbol _ _ hr => exact hr.ne (by simp)
    | mismatch _ _ => simp

theorem Evaluates.unique {task : Task} {frame : FrameRef} {s : Store} {ending ending' : Ending}
    (h : Evaluates task frame s ending) (h' : Evaluates task frame s ending') :
    ending = ending' := by
  obtain ⟨m, hm⟩ := settles_of_evaluates h
  obtain ⟨n, hn⟩ := settles_of_evaluates h'
  exact (hm (max m n) (Nat.le_max_left m n)).symm.trans (hn (max m n) (Nat.le_max_right m n))

/-- Evaluation has an ending within some limit of depth exactly if the expression has that ending,
of which there is one at most; and it exceeds every limit exactly if there is none.  A host may add
values and operations of its own, but none that could tie a list into a circle. -/
theorem eval_iff_evaluates {foreign : Value → Prop} (hcdr : ¬ foreign (.hook .setCdr)) {s : Store}
    {e : Value} {frame : FrameRef} (hs : s.Ready foreign) (he : s.Admits foreign e)
    (hf : frame < s.frames.size) :
    (∀ ending, (¬ OutOfDepth ending ∧ ∃ limit, eval limit e frame s = ending) ↔
      Evaluates (.expression e) frame s ending) ∧
    (∀ ending ending', Evaluates (.expression e) frame s ending →
      Evaluates (.expression e) frame s ending' → ending = ending') ∧
    ((∀ limit, OutOfDepth (eval limit e frame s)) ↔
      ¬ ∃ ending, Evaluates (.expression e) frame s ending) := by
  have hsound : ∀ {limit}, ¬ OutOfDepth (eval limit e frame s) →
      Evaluates (.expression e) frame s (eval limit e frame s) := fun {limit} hd =>
    (faithful_within hcdr limit 0).means .inner e frame s hs he hf hd
  have hcomplete : ∀ {ending}, Evaluates (.expression e) frame s ending →
      ∃ limit, eval limit e frame s = ending := by
    intro ending h
    obtain ⟨least, hl⟩ := settles_of_evaluates h
    exact ⟨least, hl least (Nat.le_refl least)⟩
  refine ⟨fun ending => ⟨fun h => ?_, fun h => ⟨h.not_outOfDepth, hcomplete h⟩⟩,
    fun _ _ h h' => h.unique h', fun hdeep h => ?_, fun hnone limit => ?_⟩
  · obtain ⟨hd, limit, rfl⟩ := h
    exact hsound hd
  · obtain ⟨ending, h⟩ := h
    obtain ⟨limit, rfl⟩ := hcomplete h
    exact h.not_outOfDepth (hdeep limit)
  · by_cases hd : OutOfDepth (eval limit e frame s)
    · exact hd
    · exact absurd ⟨_, hsound hd⟩ hnone

/-- `(begin (define x 'y) x)` in a fresh global frame, for a host that may do anything but assign
tails. -/
theorem eval_begin_iff_evaluates :
    let foreign : Value → Prop := (· ≠ .hook .setCdr)
    let p := Store.empty.addGlobal.2.load (.list [.symbol "begin",
      .list [.symbol "define", .symbol "x", .quote (.symbol "y")] .nil, .symbol "x"] .nil)
    (¬ foreign (.hook .setCdr) ∧ p.2.Ready foreign ∧ p.2.Admits foreign p.1 ∧
      0 < p.2.frames.size) ∧
    (∀ ending, (¬ OutOfDepth ending ∧ ∃ limit, eval limit p.1 0 p.2 = ending) ↔
      Evaluates (.expression p.1) 0 p.2 ending) ∧
    (∀ ending ending', Evaluates (.expression p.1) 0 p.2 ending →
      Evaluates (.expression p.1) 0 p.2 ending' → ending = ending') ∧
    ((∀ limit, OutOfDepth (eval limit p.1 0 p.2)) ↔
      ¬ ∃ ending, Evaluates (.expression p.1) 0 p.2 ending) := by
  intro foreign p
  have hcdr : ¬ foreign (.hook .setCdr) := fun h => h rfl
  have hs : p.2.Ready foreign := Reachable.ready (.load _ (.addGlobal .empty)) hcdr
  have he : p.2.Admits foreign p.1 := (@evolves_load foreign (fun _ _ => True) _ _).2
  have hf : 0 < p.2.frames.size := by decide
  exact ⟨⟨hcdr, hs, he, hf⟩, eval_iff_evaluates hcdr hs he hf⟩

end MiniLisp
