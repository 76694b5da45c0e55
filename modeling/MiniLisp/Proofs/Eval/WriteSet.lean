import MiniLisp.Proofs.Interpreter.Reachable

set_option autoImplicit false

namespace MiniLisp

open Store MiniLisp.Action

def NoHook (v : Value) : Prop := ∀ h, v ≠ .hook h

theorem not_hostWrites : ¬ HostWrites NoHook := by
  intro h
  obtain ⟨hook, _, hh⟩ := h
  exact hh hook rfl

theorem keepsCells_of_noHook {writable : FrameRef → String → Prop} {s s' : Store}
    (h : Evolves NoHook writable s s') : s.KeepsCells s' :=
  h.keepsCells (fun hf => hf .setCar rfl) fun hf => hf .setCdr rfl

theorem Reachable.ready_noHook {s : Store} (h : Reachable NoHook s) : s.Ready NoHook :=
  h.ready fun hf => hf .setCdr rfl

structure Store.Keeps (except : FrameRef → Prop) (s s' : Store) : Prop where
  cells : s.KeepsCells s'
  frames : ∀ q < s.frames.size, ¬ except q → s'.frames[q]? = s.frames[q]?

theorem keeps_of_evolves {writable : FrameRef → String → Prop} {except : FrameRef → Prop}
    {s s' : Store} (h : Evolves NoHook writable s s')
    (hw : ∀ q n, writable q n → q < s.frames.size → except q) : s.Keeps except s' :=
  ⟨keepsCells_of_noHook h, fun q hq hne =>
    Evolves.keepsFrame h hq fun n hn => hne (hw q n hn hq)⟩

/-- However evaluation ends, cells and other frames are as they were.  Its own frame keeps its scope
and its names, and only those that the expression defines are new or have new values.  A call of a
closure changes nothing at all that was there before.  Every reachable store is sound
(`Reachable.sound`). -/
theorem eval_write_set {s : Store} {e : Value} {frame : FrameRef} (hs : s.Sound NoHook)
    (he : s.Admits NoHook e) (hf : frame < s.frames.size) (limit : Nat) :
    s.Keeps (· = frame) ((eval limit e frame).after s) ∧
    (∃ f f', s.frames[frame]? = some f ∧
      ((eval limit e frame).after s).frames[frame]? = some f' ∧ f.Extends (s.Defines e) f') ∧
    ∀ (r : ClosureRef) (args : List Value) (caller : FrameRef),
      (∀ a ∈ args, s.Admits NoHook a) →
      s.Keeps (fun _ => False) ((applyFunction limit (.closure r) args caller).after s) := by
  have hrun := (runs_eval limit hs he hf).1
  refine ⟨keeps_of_evolves hrun fun q n hw hq => ?_, ?_, fun r args caller ha => ?_⟩
  · rcases hw with hw | ⟨hw, _⟩
    · exact absurd hq (Nat.not_lt.2 hw)
    · exact hw
  · have hframe : s.frames[frame]? = some s.frames[frame] := Array.getElem?_eq_getElem hf
    obtain ⟨f', hf', hext⟩ := Evolves.extends hrun hframe
    refine ⟨_, f', hframe, hf', hext.outer, hext.names, fun n hn => hext.get? n fun hw => ?_⟩
    rcases hw with hw | ⟨_, hw | hw⟩
    · exact absurd hf (Nat.not_lt.2 hw)
    · exact hn hw
    · exact not_hostWrites hw
  · have hcall := (Eval.runs_callClosure (fun part e frame s hs he hf =>
      Eval.runs_evalBelow NoHook limit part.gap part e frame s hs he hf) hs limit r ha).1
    exact keeps_of_evolves hcall fun q n hw hq => absurd hq (Nat.not_lt.2 hw)

/-- `(define x 'y)` in a fresh global frame. -/
theorem eval_define_write_set :
    let p := Store.empty.addGlobal.2.load
      (.list [.symbol "define", .symbol "x", .quote (.symbol "y")] .nil)
    let s := p.2
    let e := p.1
    (s.Sound NoHook ∧ s.Admits NoHook e ∧ 0 < s.frames.size) ∧
    s.Keeps (· = 0) ((eval 9 e 0).after s) ∧
    (∃ f f', s.frames[0]? = some f ∧
      ((eval 9 e 0).after s).frames[0]? = some f' ∧ f.Extends (s.Defines e) f') ∧
    ∀ (r : ClosureRef) (args : List Value) (caller : FrameRef),
      (∀ a ∈ args, s.Admits NoHook a) →
      s.Keeps (fun _ => False) ((applyFunction 9 (.closure r) args caller).after s) := by
  intro p s e
  have hs : s.Sound NoHook := Reachable.sound (.load _ (.addGlobal .empty))
  have he : s.Admits NoHook e := (@evolves_load NoHook (fun _ _ => True) _ _).2
  have hf : 0 < s.frames.size := by decide
  exact ⟨⟨hs, he, hf⟩, eval_write_set hs he hf 9⟩

end MiniLisp
