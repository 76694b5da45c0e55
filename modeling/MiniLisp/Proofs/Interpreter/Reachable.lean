import MiniLisp.Interpreter
import MiniLisp.Proofs.Eval.Evolution

set_option autoImplicit false

namespace MiniLisp

open Store MiniLisp.Action

/-- Reached from nothing by fresh global frames, scopes, cells and definitions, and by evaluations
and calls that end in any way. -/
inductive Reachable (foreign : Value → Prop) : Store → Prop where
  | empty : Reachable foreign .empty
  | addGlobal {s : Store} : Reachable foreign s → Reachable foreign s.addGlobal.2
  | child {s : Store} {r : FrameRef} : Reachable foreign s → r < s.frames.size →
      Reachable foreign (s.child r).2
  | load {s : Store} (d : Datum) : Reachable foreign s → Reachable foreign (s.load d).2
  | cons {s : Store} {a d : Value} : Reachable foreign s → s.Admits foreign a →
      s.Admits foreign d → Reachable foreign (s.cons a d).2
  | define {s : Store} {r : FrameRef} {name : String} {v : Value} : Reachable foreign s →
      s.Admits foreign v → Reachable foreign (s.define r name v)
  | eval {s : Store} {e : Value} {frame : FrameRef} (limit : Nat) : Reachable foreign s →
      s.Admits foreign e → frame < s.frames.size →
      Reachable foreign ((MiniLisp.eval limit e frame).after s)
  | applyFunction {s : Store} {f : Value} {args : List Value} {frame : FrameRef} (limit : Nat) :
      Reachable foreign s → s.Admits foreign f → (∀ a ∈ args, s.Admits foreign a) →
      Reachable foreign ((MiniLisp.applyFunction limit f args frame).after s)

section

variable {foreign : Value → Prop} {s : Store}

theorem sound_empty : Store.empty.Sound foreign := by
  constructor <;> intro r x h <;> simp [Store.empty] at h

theorem evolves_load {writable : FrameRef → String → Prop} (s : Store) (d : Datum) :
    Evolves foreign writable s (s.load d).2 ∧ (s.load d).2.Admits foreign (s.load d).1 := by
  induction d generalizing s with
  | cons a d iha ihd =>
    obtain ⟨hea, haa⟩ := iha s
    obtain ⟨hed, had⟩ := ihd (s.load a).2
    refine ⟨(hea.trans hed).tail (.cons (haa.grows (Evolves.grows hed)) had), ?_⟩
    simp [Admits, Store.load, Store.cons]
  | _ => exact ⟨.refl, trivial⟩

theorem admits_globalBindings : ∀ b ∈ (Frame.update ⟨[], none⟩ globalBindings).bindings,
    s.Admits foreign b.2 := by
  intro b hb
  rcases (Eval.update_bindings globalBindings ⟨[], none⟩).2 b hb with h | ⟨x, hx, h⟩
  · cases h
  · rw [h]
    rcases List.mem_append.1 hx with hx | hx
    · have hnil : x.2 = .nil := by
        simp only [List.mem_cons, List.not_mem_nil, or_false] at hx
        rcases hx with hx | hx <;> rw [hx]
      rw [hnil]
      trivial
    · obtain ⟨p, _, rfl⟩ := List.mem_map.1 hx
      trivial

theorem evolves_addGlobal {writable : FrameRef → String → Prop} (s : Store) :
    Evolves foreign writable s s.addGlobal.2 := by
  refine .single (.frame (fun o ho => ?_) admits_globalBindings)
  rw [(Eval.update_bindings globalBindings ⟨[], none⟩).1] at ho
  cases ho

theorem runs_eval (limit : Nat) (hs : s.Sound foreign) {e : Value} (he : s.Admits foreign e)
    {frame : FrameRef} (hf : frame < s.frames.size) :
    Runs foreign (s.Writes foreign frame (s.Defines e)) (Admitted foreign) (eval limit e frame) s :=
  Eval.runs_evalBelow foreign limit 0 .inner e frame s hs he hf

theorem runs_applyFunction (limit : Nat) (hs : s.Sound foreign) {f : Value}
    (hf : s.Admits foreign f) {args : List Value} (ha : ∀ a ∈ args, s.Admits foreign a)
    (frame : FrameRef) :
    Runs foreign (s.Writes foreign frame fun _ => False) (Admitted foreign)
      (applyFunction limit f args frame) s :=
  Eval.runs_apply (fun part e frame s hs he hf =>
    Eval.runs_evalBelow foreign limit part.gap part e frame s hs he hf) hs limit hf ha frame

theorem Reachable.evolves (h : Reachable foreign s) :
    Evolves foreign (fun _ _ => True) .empty s := by
  induction h with
  | empty => exact .refl
  | addGlobal _ ih => exact ih.trans (evolves_addGlobal _)
  | child _ hr ih =>
    refine ih.tail (.frame (fun o ho => ?_) (List.forall_mem_nil _))
    obtain rfl := Option.some.inj ho
    exact hr
  | load d _ ih => exact ih.trans (evolves_load _ d).1
  | cons _ ha hd ih => exact ih.tail (.cons ha hd)
  | define _ hv ih => exact ih.tail (.define trivial hv)
  | eval limit _ he hf ih =>
    have hrun := (runs_eval limit (Evolves.sound ih sound_empty) he hf).1
    exact ih.trans (hrun.weaken fun _ _ _ => trivial)
  | @applyFunction s f args frame limit _ hf ha ih =>
    have hrun := (runs_applyFunction limit (Evolves.sound ih sound_empty) hf ha frame).1
    exact ih.trans (hrun.weaken fun _ _ _ => trivial)

theorem Reachable.sound (h : Reachable foreign s) : s.Sound foreign :=
  Evolves.sound h.evolves sound_empty

theorem Reachable.ready (h : Reachable foreign s) (hcdr : ¬ foreign (.hook .setCdr)) :
    s.Ready foreign := by
  have hempty : Store.empty.ChainsEnd := fun r hr => absurd hr (Nat.not_lt_zero r)
  exact Ready.evolves hcdr ⟨sound_empty, hempty⟩ h.evolves

end

namespace Interpreter

section

variable {foreign : Value → Prop} {s : Store} {frame : FrameRef} (limit : Nat)

theorem evolves_evaluate (hs : s.Sound foreign) (hf : frame < s.frames.size) (d : Datum) :
    Evolves foreign (fun q _ => s.frames.size ≤ q ∨ q = frame) s
      ((evaluate limit frame d).after s) := by
  obtain ⟨hload, hadmits⟩ := @evolves_load foreign (fun q _ => s.frames.size ≤ q ∨ q = frame) s d
  have hg := Evolves.grows hload
  have heval := (runs_eval limit (Evolves.sound hload hs) hadmits
    (Nat.lt_of_lt_of_le hf hg.frames)).1
  exact hload.trans (heval.weaken fun q n hw => hw.imp (Nat.le_trans hg.frames) And.left)

theorem evolves_evaluateAll (hs : s.Sound foreign) (hf : frame < s.frames.size)
    (ds : List Datum) : Evolves foreign (fun q _ => s.frames.size ≤ q ∨ q = frame) s
      (evaluateAll limit frame ds s).2 := by
  induction ds generalizing s with
  | nil => exact .refl
  | cons d ds ih =>
    have hfirst := evolves_evaluate limit hs hf d
    have hg := Evolves.grows hfirst
    rw [evaluateAll]
    cases hd : evaluate limit frame d s with
    | error e t => exact after_eq_error hd ▸ hfirst
    | ok v t =>
      rw [after_eq_ok hd] at hfirst hg
      have hrest := ih (Evolves.sound hfirst hs) (Nat.lt_of_lt_of_le hf hg.frames)
      exact hfirst.trans (hrest.weaken fun q n hw => hw.imp_left (Nat.le_trans hg.frames))

theorem evolves_feed (hs : s.Sound foreign) (hf : frame < s.frames.size) (source : String) :
    Evolves foreign (fun q _ => s.frames.size ≤ q ∨ q = frame) s
      (feed limit frame source s).2 := evolves_evaluateAll limit hs hf _

end

end Interpreter

section

variable {foreign : Value → Prop} {s : Store} {frame : FrameRef} (limit : Nat)

theorem Reachable.evaluate (h : Reachable foreign s) (hf : frame < s.frames.size) (d : Datum) :
    Reachable foreign ((Interpreter.evaluate limit frame d).after s) := by
  obtain ⟨hload, hadmits⟩ := @evolves_load foreign (fun _ _ => True) s d
  exact .eval limit (.load d h) hadmits (Nat.lt_of_lt_of_le hf (Evolves.grows hload).frames)

theorem Reachable.evaluateAll (h : Reachable foreign s) (hf : frame < s.frames.size)
    (ds : List Datum) : Reachable foreign (Interpreter.evaluateAll limit frame ds s).2 := by
  induction ds generalizing s with
  | nil => exact h
  | cons d ds ih =>
    have hfirst := h.evaluate limit hf d
    have hg := Evolves.grows (Interpreter.evolves_evaluate limit h.sound hf d)
    rw [Interpreter.evaluateAll]
    cases hd : Interpreter.evaluate limit frame d s with
    | error e t => exact after_eq_error hd ▸ hfirst
    | ok v t =>
      rw [after_eq_ok hd] at hfirst hg
      exact ih hfirst (Nat.lt_of_lt_of_le hf hg.frames)

theorem Reachable.feed (h : Reachable foreign s) (hf : frame < s.frames.size) (source : String) :
    Reachable foreign (Interpreter.feed limit frame source s).2 := h.evaluateAll limit hf _

end

end MiniLisp
