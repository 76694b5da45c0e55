import MiniLisp.Proofs.Rename.Evaluation
import Mathlib.Data.Set.Function
import Mathlib.Order.Interval.Set.Defs

set_option autoImplicit false

namespace MiniLisp

open Store MiniLisp.Action

/-- The first `old` entries keep their places.  Those that one run has added after them take the
places of those that the next run has added, and hold the same under the new names. -/
structure CarriesTable {α : Type} (f : Nat → Nat) (rename : α → α) (old : Nat) (xs ys : Array α) :
    Prop where
  fixed : ∀ r < old, f r = r
  fresh : Set.BijOn f (Set.Ico old xs.size) (Set.Ico xs.size ys.size)
  entry : ∀ ⦃r : Nat⦄ ⦃x : α⦄, xs[r]? = some x → ys[f r]? = some (rename x)

structure Renaming.Carries (ρ : Renaming) (s s₁ s₂ : Store) : Prop where
  cells : CarriesTable ρ.cell (Cell.rename ρ) s.cells.size s₁.cells s₂.cells
  closures : CarriesTable ρ.closure (Closure.rename ρ) s.closures.size s₁.closures s₂.closures
  frames : CarriesTable ρ.frame (Frame.rename ρ) s.frames.size s₁.frames s₂.frames
  serial : ρ.serial = id

/-- Done once more, the action fails with the same error or gives the same value under other names,
which prints in the same way, also where only so much depth is left. -/
def Repeats (x : Action Value) (s : Store) : Prop :=
  match x s with
  | .error e s₁ => ∃ s₂, x s₁ = .error e s₂
  | .ok v s₁ => ∃ (ρ : Renaming) (s₂ : Store), x s₁ = .ok (v.rename ρ) s₂ ∧ ρ.Carries s s₁ s₂ ∧
      (∀ text, s₁.print v = .ok text → s₂.print (v.rename ρ) = .ok text) ∧
      ∀ room, s₂.printWithin room (v.rename ρ) = s₁.printWithin room v

theorem Corresponds.carriesTable {α : Type} {old : Nat} {fresh : Nat → Prop}
    {R : Nat → α → α → Prop} {rename : α → α} {xs ys : Array α}
    (h : Corresponds (Renaming.continueAt id old xs.size) fresh R xs ys) (hle : old ≤ xs.size)
    (hR : ∀ r x y, R r x y → y = rename x) :
    CarriesTable (Renaming.continueAt id old xs.size) rename old xs ys := by
  have hnew : ∀ r, old ≤ r → Renaming.continueAt id old xs.size r = xs.size + (r - old) :=
    fun r hr => if_neg (Nat.not_lt.2 hr)
  have hsize : ys.size = xs.size + (xs.size - old) := h.size_eq.symm.trans (hnew _ hle)
  refine ⟨fun r hr => Renaming.continueAt_lt hr, ⟨fun r hr => ?_, fun q hq r hr hqr => ?_,
    fun r hr => ?_⟩, fun r x hx => ?_⟩
  · obtain ⟨hold, hlt⟩ := Set.mem_Ico.1 hr
    rw [hnew r hold, Set.mem_Ico]
    omega
  · rw [hnew q hq.1, hnew r hr.1] at hqr
    have hq := hq.1
    have hr := hr.1
    omega
  · obtain ⟨hold, hlt⟩ := Set.mem_Ico.1 hr
    refine ⟨old + (r - xs.size), Set.mem_Ico.2 (by omega), ?_⟩
    rw [hnew _ (Nat.le_add_right _ _)]
    omega
  · obtain ⟨y, hy, hxy⟩ := h.entry hx
    rw [hy, hR r x y hxy]

theorem carries_of_matches {s s₁ s₂ : Store} (hg : s.Grows s₁)
    (h : s₁.Matches (.ofNames (Renaming.identity.continued s s₁)) s₂) :
    (Renaming.identity.continued s s₁).Carries s s₁ s₂ := by
  have hframes : Corresponds (Renaming.continueAt id s.frames.size s₁.frames.size)
      (fun _ => True) (fun r f f' => f' = f.rename (Renaming.identity.continued s s₁))
      s₁.frames s₂.frames :=
    ⟨fun r f hf => ⟨_, h.frame_ofNames hf, rfl⟩, h.frames.next, h.frames.size_le⟩
  exact ⟨h.cells.carriesTable hg.cells fun _ _ _ hc => hc.renamed,
    h.closures.carriesTable hg.closures fun _ _ _ hc => hc.renamed,
    hframes.carriesTable hg.frames fun _ _ _ hf => hf, rfl⟩

/-- An action repeats if it defines nothing in the frames that there are and is echoed in stores
that match by a renaming of what is added. -/
theorem repeats_of_echoes {s : Store} {x : Action Value} (hs : s.Ready NoHook)
    (hrun : Evolves NoHook (fun q _ => s.frames.size ≤ q) s (x.after s))
    (hecho : ∀ ρ s', Renaming.Agrees s ρ .identity → s.Matches (.ofNames ρ) s' →
      Echoes (.ofNames ρ) (Renamed (.ofNames ρ)) s (x s) (x s')) : Repeats x s := by
  -- The store before the run matches that after it, with all that the run added passed over.
  have hm := (matches_ofNames_self hs).rephase hrun fun r hr _ => Nat.not_le.2 hr
  have hagrees := Renaming.agrees_continued .identity s (x.after s)
  have hagain := hecho _ _ hagrees hm
  have hgrows := Evolves.grows hrun
  unfold Repeats
  cases hx : x s with
  | error e s₁ =>
    rw [after_eq_error hx, hx] at hagain
    generalize hy : x s₁ = y at hagain
    cases hagain with
    | excused he => exact he.elim
    | error _ he =>
      subst he
      exact ⟨_, hy⟩
  | ok v s₁ =>
    rw [after_eq_ok hx] at hagain hgrows
    rw [hx] at hagain
    generalize hy : x s₁ = y at hagain
    cases hagain with
    | ok hst hv =>
      have hm₂ := hst.2
      obtain ⟨rfl, hknows⟩ := hv
      exact ⟨_, _, hy, carries_of_matches hgrows hm₂, fun text ht => hm₂.print hknows ht,
        fun room => hm₂.printWithin room hknows⟩

/-- An expression without a definition in an evaluated position, evaluated twice, ends twice in the
same way.  So does a closure that is applied twice, whatever its body defines in the frames of the
calls.  Every reachable store is ready (`Reachable.ready_noHook`). -/
theorem evaluation_repeats {s : Store} (hs : s.Ready NoHook) (limit : Nat) :
    (∀ (e : Value) (frame : FrameRef), s.Admits NoHook e → frame < s.frames.size →
      (∀ name, ¬ s.Defines e name) → Repeats (eval limit e frame) s) ∧
    ∀ (r : ClosureRef) (args : List Value) (caller : FrameRef), r < s.closures.size →
      (∀ a ∈ args, s.Admits NoHook a) →
        Repeats (applyFunction limit (.closure r) args caller) s := by
  refine ⟨fun e frame he hf hnone => ?_, fun r args caller hr ha => ?_⟩
  · have hrun := ((runs_eval limit hs.sound he hf).weaken fun q n hw => show s.frames.size ≤ q from
      hw.elim id fun hw => (hw.2.elim (hnone n) not_hostWrites).elim).1
    refine repeats_of_echoes hs hrun fun ρ s' hagrees hm => ?_
    have hecho := echoes_eval limit hm (code_ofNames he) (located_ofNames hf)
    have hvalue : e.rename ρ = e := (hagrees.value he).trans e.rename_identity
    have hframe : ρ.frame frame = frame := hagrees.frame frame hf
    rwa [Matching.names_ofNames, hvalue, hframe] at hecho
  · have hrun := (Eval.runs_callClosure (fun part e frame s hs he hf =>
      Eval.runs_evalBelow NoHook limit part.gap part e frame s hs he hf) hs.sound limit r ha).1
    refine repeats_of_echoes hs hrun fun ρ s' hagrees hm => ?_
    have hecho := echoes_applyFunction limit hm (f := .closure r) (knows_ofNames hr)
      (fun a h => knows_ofNames (ha a h)) caller caller
    have hclosure : (Value.closure r).rename ρ = .closure r :=
      congrArg Value.closure (hagrees.closure r hr)
    have hargs : args.map (Value.rename ρ) = args :=
      (List.map_congr_left fun a h => (hagrees.value (ha a h)).trans a.rename_identity).trans
        (List.map_id args)
    rwa [Matching.names_ofNames, hclosure, hargs] at hecho

/-- `(lambda (x) (cons x x))` in a fresh global frame where it has been evaluated once, and the
function that this made. -/
theorem evaluation_repeats_lambda :
    let p := Store.empty.addGlobal.2.load (.list [.symbol "lambda", .list [.symbol "x"] .nil,
      .list [.symbol "cons", .symbol "x", .symbol "x"] .nil] .nil)
    let s := (eval 9 p.1 0).after p.2
    (s.Ready NoHook ∧ s.Admits NoHook p.1 ∧ 0 < s.frames.size ∧ (∀ name, ¬ s.Defines p.1 name) ∧
      0 < s.closures.size ∧ ∀ a ∈ [Value.symbol "a"], s.Admits NoHook a) ∧
    Repeats (eval 9 p.1 0) s ∧ Repeats (applyFunction 9 (.closure 0) [.symbol "a"] 0) s := by
  intro p s
  have he : p.2.Admits NoHook p.1 := (@evolves_load NoHook (fun _ _ => True) _ _).2
  have hs : s.Ready NoHook :=
    Reachable.ready_noHook (.eval 9 (.load _ (.addGlobal .empty)) he (by decide))
  have he' : s.Admits NoHook p.1 := show 6 < s.cells.size by decide +kernel
  have hf : 0 < s.frames.size := by decide +kernel
  have hr : 0 < s.closures.size := by decide +kernel
  have ha : ∀ a ∈ [Value.symbol "a"], s.Admits NoHook a := List.forall_mem_singleton.2 trivial
  have hl : s.Lists p.1 (.symbol "lambda" :: [.cell 0, .cell 3]) :=
    lists_iff_chain_eq.2 (by decide +kernel)
  have hnone : ∀ name, ¬ s.Defines p.1 name := by
    intro name h
    cases h with
    | define hl' | defun hl' => exact absurd (hl.unique hl').1 (by simp)
    | part hl' hp _ =>
      cases (hl.unique hl').1
      cases hp
  exact ⟨⟨hs, he', hf, hnone, hr, ha⟩, (evaluation_repeats hs 9).1 p.1 0 he' hf hnone,
    (evaluation_repeats hs 9).2 0 [.symbol "a"] 0 hr ha⟩

end MiniLisp
