import MiniLisp.Eval
import MiniLisp.Proofs.Eval.Runs

/-!
Evaluation is a run: it changes a sound store by steps that keep it sound, and of the frames it was
given it defines names in one only (`runs_evalBelow`).  Those names are found in the expression
(`Store.Defines`), except where a host's operations may define others.
-/
set_option autoImplicit false

namespace MiniLisp

open Store MiniLisp.Action

namespace SpecialForm

def name : SpecialForm → String
  | quote => "quote"
  | conditional => "if"
  | define => "define"
  | lambda => "lambda"
  | defun => "defun"
  | begin => "begin"
  | function => "function"

theorem name_of_ofName? {n : String} {form : SpecialForm} (h : ofName? n = some form) :
    n = form.name := by
  unfold ofName? at h
  split at h <;> cases h <;> rfl

def evaluated : SpecialForm → List Value → List Value
  | conditional, [test, yes, no] => [test, yes, no]
  | define, [.symbol _, x] => [x]
  | begin, xs => xs
  | function, [x] => [x]
  | _, _ => []

theorem mem_of_mem_evaluated {form : SpecialForm} {p : Value} {operands : List Value}
    (h : p ∈ form.evaluated operands) : p ∈ operands := by
  unfold evaluated at h
  split at h
  · exact h
  · exact List.mem_cons_of_mem _ h
  · exact h
  · exact h
  · cases h

end SpecialForm

namespace Eval

theorem eq_name_of_specialForm? {head : Value} {form : SpecialForm}
    (h : specialForm? head = some form) : head = .symbol form.name := by
  cases head with
  | symbol n => exact congrArg Value.symbol (SpecialForm.name_of_ofName? h)
  | _ => cases h

def evaluatedParts (head : Value) (operands : List Value) : List Value :=
  match specialForm? head with
  | some form => form.evaluated operands
  | none => head :: operands

end Eval

namespace Store

/-- A definition of the name stands in an evaluated position of the expression, so neither in quoted
data nor in the body of a function. -/
inductive Defines (s : Store) : Value → String → Prop where
  | define {e x : Value} {name : String} :
      s.Lists e [.symbol "define", .symbol name, x] → s.Defines e name
  | defun {e parameters body : Value} {name : String} :
      s.Lists e [.symbol "defun", .symbol name, parameters, body] → s.Defines e name
  | part {e head p : Value} {operands : List Value} {name : String} :
      s.Lists e (head :: operands) → p ∈ Eval.evaluatedParts head operands → s.Defines p name →
      s.Defines e name

def HostWrites (foreign : Value → Prop) : Prop := ∃ h : Hook, h ≠ .trace ∧ foreign (.hook h)

/-- What a run in a frame may define: anything in new frames, and the names in its own. -/
def Writes (foreign : Value → Prop) (s : Store) (frame : FrameRef) (names : String → Prop)
    (q : FrameRef) (n : String) : Prop :=
  s.frames.size ≤ q ∨ q = frame ∧ (names n ∨ HostWrites foreign)

variable {foreign : Value → Prop} {s s' : Store}

theorem Chain.of_keepsCells (hs : s.Sound foreign) (hk : s.KeepsCells s') {v last : Value}
    {items : List Value} (h : s'.Chain v items last) (hv : s.Admits foreign v) :
    s.Chain v items last := by
  induction h with
  | stop h => exact .stop h
  | @link r c items last hc _ ih =>
    have hr : s.cells[r]? = some s.cells[r] := Array.getElem?_eq_getElem hv
    obtain rfl := Option.some.inj ((hk hr).symm.trans hc)
    exact .link hr (ih (hs.cell hr).2)

theorem mem_of_mem_evaluatedParts {head p : Value} {operands : List Value}
    (h : p ∈ Eval.evaluatedParts head operands) : p ∈ head :: operands := by
  unfold Eval.evaluatedParts at h
  split at h
  · exact List.mem_cons_of_mem _ (SpecialForm.mem_of_mem_evaluated h)
  · exact h

theorem Defines.of_keepsCells (hs : s.Sound foreign) (hk : s.KeepsCells s') {v : Value}
    {name : String} (h : s'.Defines v name) (hv : s.Admits foreign v) : s.Defines v name := by
  induction h with
  | define hl => exact .define (hl.of_keepsCells hs hk hv)
  | defun hl => exact .defun (hl.of_keepsCells hs hk hv)
  | part hl hp _ ih =>
    have hl' := hl.of_keepsCells hs hk hv
    exact .part hl' hp (ih ((hl'.admits hs hv).1 _ (mem_of_mem_evaluatedParts hp)))

theorem Evolves.hostWrites_or_keepsCells {writable : FrameRef → String → Prop}
    (h : Evolves foreign writable s s') : HostWrites foreign ∨ s.KeepsCells s' := by
  by_cases hw : HostWrites foreign
  · exact .inl hw
  · refine .inr (h.keepsCells (fun hf => hw ⟨.setCar, by decide, hf⟩) fun hf => ?_)
    exact hw ⟨.setCdr, by decide, hf⟩

end Store

namespace Eval

variable {foreign : Value → Prop} {s s' : Store} {ev : Evaluator} {frame : FrameRef} {e : Value}

def EvaluatorRuns (foreign : Value → Prop) (ev : Evaluator) : Prop :=
  ∀ (part : Part) (e : Value) (frame : FrameRef) (s : Store), s.Sound foreign →
    s.Admits foreign e → frame < s.frames.size →
    Runs foreign (s.Writes foreign frame (s.Defines e)) (Admitted foreign) (ev part e frame) s

theorem runs_evaluated (hev : EvaluatorRuns foreign ev) (hs : s.Sound foreign)
    (he : s.Admits foreign e) (hf : frame < s.frames.size) {head p : Value} {operands : List Value}
    (hl : s.Lists e (head :: operands)) (hp : p ∈ evaluatedParts head operands) (part : Part)
    (h : Evolves foreign (s.Writes foreign frame (s.Defines e)) s s') :
    Runs foreign (s.Writes foreign frame (s.Defines e)) (Admitted foreign)
      (ev part p frame) s' := by
  have hpa : s.Admits foreign p := (hl.admits hs he).1 p (mem_of_mem_evaluatedParts hp)
  have hg := Evolves.grows h
  refine (hev part p frame s' (h.sound hs) (hpa.grows hg)
    (Nat.lt_of_lt_of_le hf hg.frames)).weaken fun q n hw => ?_
  rcases hw with hq | ⟨hq, hn⟩
  · exact .inl (Nat.le_trans hg.frames hq)
  · refine .inr ⟨hq, ?_⟩
    rcases h.hostWrites_or_keepsCells with hw | hk
    · exact .inr hw
    · exact hn.imp_left fun hn => .part hl hp (hn.of_keepsCells hs hk hpa)

theorem runs_closure {writable : FrameRef → String → Prop} {parameters body : Value}
    (hp : s.Admits foreign parameters) (hb : s.Admits foreign body) (hf : frame < s.frames.size) :
    Runs foreign writable (Admitted foreign) (closure parameters body frame) s := by
  have hnew : Runs foreign writable (fun s r => s.Admits foreign (.closure r))
      (ofStore (·.addClosure ⟨parameters, body, frame⟩)) s :=
    runs_ofStore (.single (.closure hp hb hf)) (by simp [Admits, addClosure])
  refine hnew.bind fun r s₁ _ hr => ?_
  exact (runs_update (.single (.record _))).bind fun _ s₂ h₂ _ =>
    runs_pure (hr.grows (Evolves.grows h₂))

theorem runs_define {writable : FrameRef → String → Prop} {name : String} {v : Value}
    (hw : writable frame name) (hv : s.Admits foreign v) (event : Event) :
    Runs foreign writable (Admitted foreign) (do
      update (·.define frame name v)
      update (·.record event)
      return .symbol name) s :=
  (runs_update (.single (.define hw hv))).bind fun _ _ _ _ =>
    (runs_update (.single (.record _))).bind fun _ _ _ _ => runs_pure trivial

theorem runs_special (hev : EvaluatorRuns foreign ev) (hs : s.Sound foreign)
    (he : s.Admits foreign e) (hf : frame < s.frames.size) {form : SpecialForm}
    {operands : List Value} (hl : s.Lists e (.symbol form.name :: operands)) (room : Nat) :
    Runs foreign (s.Writes foreign frame (s.Defines e)) (Admitted foreign)
      (special room ev frame form operands) s := by
  have hadmits := List.forall_mem_cons.1 (hl.admits hs he).1
  have hparts : evaluatedParts (.symbol form.name) operands = form.evaluated operands := by
    cases form <;> rfl
  have heval : ∀ {p : Value} {s' : Store}, p ∈ form.evaluated operands →
      Evolves foreign (s.Writes foreign frame (s.Defines e)) s s' →
      Runs foreign (s.Writes foreign frame (s.Defines e)) (Admitted foreign)
        (ev .inner p frame) s' :=
    fun hp h => runs_evaluated hev hs he hf hl (hparts ▸ hp) .inner h
  unfold special
  split
  · exact runs_pure (hadmits.2 _ (by simp))
  · exact runs_throw _
  · refine (heval (by simp [SpecialForm.evaluated]) .refl).bind fun v s₁ h₁ _ => ?_
    split
    · exact heval (by simp [SpecialForm.evaluated]) h₁
    · exact heval (by simp [SpecialForm.evaluated]) h₁
  · exact runs_throw _
  · next name x =>
    refine (heval (by simp [SpecialForm.evaluated]) .refl).bind fun v s₁ h₁ hv => ?_
    exact runs_define (.inr ⟨rfl, .inl (.define hl)⟩) hv _
  · exact runs_throw _
  · exact runs_throw _
  · exact runs_closure (hadmits.2 _ (by simp)) (hadmits.2 _ (by simp)) hf
  · exact runs_throw _
  · next name parameters body =>
    refine (runs_closure (hadmits.2 _ (by simp)) (hadmits.2 _ (by simp)) hf).bind
      fun v s₁ h₁ hv => ?_
    exact runs_define (.inr ⟨rfl, .inl (.defun hl)⟩) hv _
  · exact runs_throw _
  · exact runs_throw _
  · have hnil : Admitted foreign s .nil := trivial
    exact runs_foldlM hnil fun x hx _ s' h _ => heval hx h
  · refine (heval (by simp [SpecialForm.evaluated]) .refl).bind fun v s₁ h₁ hv => ?_
    split
    · exact runs_pure hv
    · exact runs_report _
  · exact runs_throw _

theorem update_bindings (vars : List (String × Value)) : ∀ f : Frame,
    (f.update vars).outer = f.outer ∧
      ∀ b ∈ (f.update vars).bindings, b ∈ f.bindings ∨ ∃ x ∈ vars, b.2 = x.2 := by
  induction vars with
  | nil => exact fun f => ⟨rfl, fun b hb => .inl hb⟩
  | cons x vars ih =>
    intro f
    obtain ⟨ho, hb⟩ := ih (f.define x.1 x.2)
    refine ⟨ho, fun b h => ?_⟩
    rcases hb b h with h | ⟨y, hy, h⟩
    · rcases mem_put h with h | h
      · exact .inl h
      · exact .inr ⟨x, List.mem_cons_self .., h⟩
    · exact .inr ⟨y, List.mem_cons_of_mem x hy, h⟩

theorem callFrame_ok {room : Nat} {c : Closure} {args : List Value} {f : Frame}
    (h : s.callFrame room c args = .ok f) :
    ∃ names, s.formals room c.parameters = .ok names ∧ names.length = args.length ∧
      f = Frame.update ⟨[], some c.scope⟩ (names.zip args) := by
  unfold callFrame at h
  cases hn : s.formals room c.parameters with
  | error e =>
    rw [hn] at h
    cases h
  | ok names =>
    rw [hn] at h
    by_cases hlen : names.length = args.length
    · refine ⟨names, rfl, hlen, ?_⟩
      simp only [bind, Except.bind, hlen, ne_eq, not_true_eq_false, if_false] at h
      cases h
      rfl
    · simp only [bind, Except.bind, hlen, ne_eq, not_false_eq_true, if_true] at h
      cases h

theorem admits_callFrame (hs : s.Sound foreign) {r : ClosureRef} {c : Closure}
    (hc : s.closures[r]? = some c) (names : List String) {args : List Value}
    (ha : ∀ a ∈ args, s.Admits foreign a) :
    (∀ o ∈ (Frame.update ⟨[], some c.scope⟩ (names.zip args)).outer, o < s.frames.size) ∧
      ∀ b ∈ (Frame.update ⟨[], some c.scope⟩ (names.zip args)).bindings, s.Admits foreign b.2 := by
  obtain ⟨ho, hb⟩ := update_bindings (names.zip args) ⟨[], some c.scope⟩
  constructor
  · intro o h
    rw [ho] at h
    obtain rfl := Option.some.inj h
    exact (hs.closure hc).2.2
  · intro b h
    rcases hb b h with h | ⟨x, hx, h⟩
    · cases h
    · exact h ▸ ha _ (List.of_mem_zip hx).2

theorem admits_lookup (hs : s.Sound foreign) {r : FrameRef} {name : String} {v : Value}
    (h : s.lookup r name = .ok v) : s.Admits foreign v := by
  unfold lookup at h
  cases hq : s.find? r name with
  | none =>
    rw [hq] at h
    cases h
  | some q =>
    rw [hq] at h
    cases hf : s.frames[q]? with
    | none => simp [hf] at h
    | some f =>
      cases hv : f.get? name with
      | none => simp [hf, hv] at h
      | some w =>
        simp only [hf, Option.bind_some, hv, Except.ok.injEq] at h
        subst h
        have hlookup : f.bindings.lookup name = some w := hv
        obtain ⟨before, later, hsplit, _⟩ := List.lookup_eq_some_iff.1 hlookup
        exact hs.bound hf (name, w) (by simp [hsplit])

theorem runs_get {α : Type} {writable : FrameRef → String → Prop} {post : Store → α → Prop}
    {f : Store → Action α} (h : Runs foreign writable post (f s) s) :
    Runs foreign writable post (get >>= f) s := h

/-- A call runs the body in a new frame, so it defines names in new frames only. -/
theorem runs_callClosure (hev : EvaluatorRuns foreign ev) (hs : s.Sound foreign) (room : Nat)
    (r : ClosureRef) {args : List Value} (ha : ∀ a ∈ args, s.Admits foreign a) :
    Runs foreign (fun q _ => s.frames.size ≤ q) (Admitted foreign)
      (callClosure room ev r args) s := by
  refine runs_get ?_
  cases hc : s.closures[r]? with
  | none => exact runs_pure trivial
  | some c =>
    have hbody := (hs.closure hc).2.1
    have hframe : Runs foreign (fun q _ => s.frames.size ≤ q)
        (fun _ f => (∀ o ∈ f.outer, o < s.frames.size) ∧ ∀ b ∈ f.bindings, s.Admits foreign b.2)
        (check (·.callFrame room c args)) s := by
      refine runs_check fun f h => ?_
      obtain ⟨names, _, _, rfl⟩ := callFrame_ok h
      exact admits_callFrame hs hc names ha
    have hextend : Runs foreign (fun q _ => s.frames.size ≤ q)
        (fun s' q => s.frames.size ≤ q ∧ q < s'.frames.size) (extend room c args) s := by
      refine hframe.bind fun f s₁ h₁ hf => ?_
      have hg := Evolves.grows h₁
      refine runs_ofStore (.single (.frame (fun o ho => ?_) fun b hb => (hf.2 b hb).grows hg)) ?_
      · exact Nat.lt_of_lt_of_le (hf.1 o ho) hg.frames
      · exact ⟨hg.frames, by simp [addFrame]⟩
    refine hextend.bind fun q s₁ h₁ hq => ?_
    refine (runs_update (.single (.record (.called r args.length)))).bind fun _ s₂ h₂ _ => ?_
    have hg := Evolves.grows (h₁.trans h₂)
    have hq₂ : q < s₂.frames.size := Nat.lt_of_lt_of_le hq.2 (Evolves.grows h₂).frames
    refine (hev .body c.body q s₂ (Evolves.sound (h₁.trans h₂) hs) (hbody.grows hg) hq₂).weaken
      fun p n hw => ?_
    rcases hw with hp | ⟨hp, _⟩
    · exact Nat.le_trans hg.frames hp
    · exact hp ▸ hq.1

theorem runs_apply (hev : EvaluatorRuns foreign ev) (hs : s.Sound foreign) (room : Nat)
    {f : Value} (hf : s.Admits foreign f) {args : List Value}
    (ha : ∀ a ∈ args, s.Admits foreign a) (frame : FrameRef) :
    Runs foreign (s.Writes foreign frame fun _ => False) (Admitted foreign)
      (apply room ev f args frame) s := by
  unfold apply
  split
  · next r => exact (runs_callClosure hev hs room r ha).weaken fun _ _ h => .inl h
  · next p serial => exact runs_primitive hs room p ha
  · next h =>
    have hh : foreign (.hook h) := hf
    refine runs_hook room frame hh ha fun _ heq => .inr ⟨rfl, .inr ⟨h, ?_, hh⟩⟩
    subst heq
    decide
  · exact runs_report _

theorem runs_call (hev : EvaluatorRuns foreign ev) (hs : s.Sound foreign)
    (he : s.Admits foreign e) (hf : frame < s.frames.size) {head : Value} {operands : List Value}
    (hl : s.Lists e (head :: operands)) (hh : specialForm? head = none) (room : Nat) :
    Runs foreign (s.Writes foreign frame (s.Defines e)) (Admitted foreign)
      (call room ev frame head operands) s := by
  have hparts : evaluatedParts head operands = head :: operands := by rw [evaluatedParts, hh]
  have heval : ∀ {p : Value} {s' : Store} (part : Part), p ∈ head :: operands →
      Evolves foreign (s.Writes foreign frame (s.Defines e)) s s' →
      Runs foreign (s.Writes foreign frame (s.Defines e)) (Admitted foreign)
        (ev part p frame) s' :=
    fun part hp h => runs_evaluated hev hs he hf hl (hparts ▸ hp) part h
  refine (heval .head (List.mem_cons_self ..) .refl).bind fun f s₁ h₁ hfa => ?_
  split
  · have hreport : Runs foreign (s.Writes foreign frame (s.Defines e)) (fun _ _ => True)
        (check (·.printWithin room f)) s₁ := runs_check fun _ _ => trivial
    exact hreport.bind fun text s₂ _ _ => runs_throw_bind _
  · have hargs : Runs foreign (s.Writes foreign frame (s.Defines e))
        (fun s args => ∀ a ∈ args, s.Admits foreign a)
        (operands.mapM (ev .operand · frame)) s₁ :=
      runs_mapM (fun h ha => ha.grows (Evolves.grows h)) fun x hx s' h =>
        heval .operand (List.mem_cons_of_mem head hx) (h₁.trans h)
    refine hargs.bind fun args s₂ h₂ ha => ?_
    have hg := Evolves.grows (h₁.trans h₂)
    refine (runs_apply hev (Evolves.sound (h₁.trans h₂) hs) room
      (hfa.grows (Evolves.grows h₂)) ha frame).weaken fun q n hw => ?_
    rcases hw with hq | ⟨hq, hn⟩
    · exact .inl (Nat.le_trans hg.frames hq)
    · exact .inr ⟨hq, hn.imp_left False.elim⟩

theorem runs_step (hev : EvaluatorRuns foreign ev) (hs : s.Sound foreign)
    (he : s.Admits foreign e) (hf : frame < s.frames.size) (room : Nat) :
    Runs foreign (s.Writes foreign frame (s.Defines e)) (Admitted foreign)
      (step room ev e frame) s := by
  unfold step
  split
  · next name => exact runs_check fun v hv => admits_lookup hs hv
  · next r =>
    refine runs_get ?_
    split
    · exact runs_pure he
    · next head operands hchain =>
      have hl : s.Lists (.cell r) (head :: operands) := toList?_eq_ok.1 hchain
      split
      · next form hform =>
        obtain rfl := eq_name_of_specialForm? hform
        exact runs_special hev hs he hf hl room
      · next hform => exact runs_call hev hs he hf hl hform room
    · exact runs_report _
  · exact runs_pure he

theorem runs_evalBelow (foreign : Value → Prop) (room : Nat) : ∀ gap : Nat,
    EvaluatorRuns foreign fun _ => evalBelow room gap := by
  induction room with
  | zero => exact fun _ _ _ _ _ _ _ _ => runs_throw _
  | succ room ih =>
    intro gap
    cases gap with
    | zero =>
      have hparts : EvaluatorRuns foreign fun part => evalBelow room part.gap :=
        fun part e frame s hs he hf => ih part.gap part e frame s hs he hf
      exact fun _ _ _ _ hs he hf => runs_step hparts hs he hf room
    | succ gap => exact ih gap

end Eval
end MiniLisp
