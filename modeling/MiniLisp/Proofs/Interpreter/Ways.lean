import MiniLisp.Proofs.Interpreter.Journal
import MiniLisp.Proofs.Interpreter.Limit
import MiniLisp.Proofs.Rename.Ahead

/-!
Ways to run a text.  To feed it and to run it is the same but for what is kept of the values, and
the form that begins with `begin` and holds all its expressions does the same again, with cells in
other places (`ways_agree`).
-/
set_option autoImplicit false

namespace MiniLisp

open Store MiniLisp.Action

/-- The second store is the first with the cells in other places, those of `s` apart, and maybe
others between them. -/
structure Renaming.Embeds (ρ : Renaming) (s t t' : Store) : Prop where
  old : ∀ r < s.cells.size, ρ.cell r = r
  injective : ρ.cell.Injective
  others : ρ.closure = id ∧ ρ.frame = id ∧ ρ.serial = id
  cells : ∀ ⦃r : CellRef⦄ ⦃c : Cell⦄, t.cells[r]? = some c →
    t'.cells[ρ.cell r]? = some (c.rename ρ)
  closures : t'.closures = t.closures.map (Closure.rename ρ)
  frames : t'.frames = t.frames.map (Frame.rename ρ)

/-- The same error, or a value that is the same but for the places of cells and prints alike. -/
inductive EndsElsewhere (s : Store) : Ending → Ending → Prop where
  | ok {ρ : Renaming} {v : Value} {t t' : Store} : ρ.Embeds s t t' →
      (∀ text, t.print v = .ok text → t'.print (v.rename ρ) = .ok text) →
      EndsElsewhere s (.ok v t) (.ok (v.rename ρ) t')
  | error {ρ : Renaming} {e : Error} {t t' : Store} : ρ.Embeds s t t' →
      EndsElsewhere s (.error e t) (.error e t')

theorem Store.Ahead.embeds {s t t' : Store} {ρ : Renaming} {base bound : Nat}
    (h : s.Ahead ρ base bound t t') : ρ.Embeds s t t' := by
  have hm := h.matched
  refine ⟨h.cell, h.injective, h.others, fun r c hc => ?_, ?_, ?_⟩
  · obtain ⟨c', hc', hcc⟩ := hm.cells.entry hc
    exact hc'.trans (congrArg some hcc.renamed)
  · exact hm.closures.eq_map h.others.1 fun _ _ _ hc => hc.renamed
  · have hframes : Corresponds ρ.frame (fun _ => True) (fun _ f f' => f' = Frame.rename ρ f)
        t.frames t'.frames :=
      ⟨fun r f hf => ⟨_, hm.frame_ofNames hf, rfl⟩, hm.frames.next, hm.frames.size_le⟩
    exact hframes.eq_map h.others.2.1 fun _ _ _ hf => hf

theorem Store.EndsAhead.elsewhere {s : Store} {bound : Nat} {x y : Ending}
    (h : s.EndsAhead bound x y) : EndsElsewhere s x y := by
  cases h with
  | ok h hknows => exact .ok h.embeds fun text ht => h.matched.print hknows ht
  | error h => exact .error h.embeds

namespace Interpreter

section

variable (limit : Nat) (frame : FrameRef)

theorem foldlM_evaluate (ds : List Datum) (a : Value) (s : Store) :
    ds.foldlM (fun _ d => evaluate limit frame d) a s =
      match (evaluateAll limit frame ds s).1.error with
      | none => .ok ((evaluateAll limit frame ds s).1.values.getLastD a)
        (evaluateAll limit frame ds s).2
      | some e => .error e (evaluateAll limit frame ds s).2 := by
  induction ds generalizing a s with
  | nil => rfl
  | cons d ds ih =>
    rw [List.foldlM_cons, evaluateAll]
    cases hd : evaluate limit frame d s with
    | error e t => rw [bind_error hd]
    | ok v t =>
      rw [bind_ok hd, ih]
      cases herror : (evaluateAll limit frame ds t).1.error with
      | none => simp only [List.getLastD_cons]
      | some e => simp only

theorem evaluateAll_take (ds : List Datum) (s : Store) : ∃ t,
    evaluateAll limit frame (ds.take (evaluateAll limit frame ds s).1.values.length) s =
      (⟨(evaluateAll limit frame ds s).1.values, none⟩, t) := by
  induction ds generalizing s with
  | nil => exact ⟨s, rfl⟩
  | cons d ds ih =>
    rw [evaluateAll]
    cases hd : evaluate limit frame d s with
    | error e t => exact ⟨s, rfl⟩
    | ok v t =>
      obtain ⟨u, hu⟩ := ih t
      refine ⟨u, ?_⟩
      simp only [List.length_cons, List.take_succ_cons]
      rw [evaluateAll, hd]
      simp only [hu]

theorem run_eq (source : String) (s : Store) :
    run limit frame source s =
      match (feed limit frame source s).1.error with
      | none => .ok (feed limit frame source s).1.value (feed limit frame source s).2
      | some e => .error e (feed limit frame source s).2 := by
  have hfold := foldlM_evaluate limit frame (readAll limit source).data .nil s
  rw [feed_eq, evaluateReading]
  cases hall : evaluateAll limit frame (readAll limit source).data s with
  | mk o t =>
    obtain ⟨values, error⟩ := o
    rw [hall] at hfold
    cases error with
    | some e => exact bind_error hfold
    | none =>
      refine (bind_ok hfold).trans ?_
      cases (readAll limit source).error <;> rfl

def beginForm (ds : List Datum) : Datum := .list (.symbol "begin" :: ds) .nil

variable {frame} in
theorem endsElsewhere_begin {s : Store} (hs : s.Ready NoHook) (hf : frame < s.frames.size)
    (ds : List Datum) : EndsElsewhere s (ds.foldlM (fun _ d => evaluate limit frame d) .nil s)
      (evaluate (limit + 2) frame (beginForm ds) s) := by
  have hload : s.load (beginForm ds) =
      (loadAll ds s).2.list (.symbol "begin" :: (loadAll ds s).1) .nil :=
    load_list (.symbol "begin" :: ds) s
  obtain ⟨hlists, hkeeps⟩ := list_spec (loadAll ds s).2 (.symbol "begin" :: (loadAll ds s).1)
  rw [← hload] at hlists hkeeps
  have hform : evaluate (limit + 2) frame (beginForm ds) s =
      (loadAll ds s).1.foldlM (fun _ v => eval limit v frame) .nil (s.load (beginForm ds)).2 :=
    @Eval.step_special _ _ _ _ _ .begin _ hlists
  rw [hform]
  exact (endsAhead_foldlM limit ds (ahead_load hs _) hkeeps (size_le_of_keepsCells hkeeps) hf
    (knows_atom (v := .nil) trivial rfl)).elsewhere

end

/-- Running a text ends in the store that feeding it leaves, with the last of the values or with the
error, and the values before an error are those of as many expressions evaluated by themselves.  The
form that holds the expressions of a text without reading errors ends as the text does, two levels
further down, and within any other limit too unless one of them goes too deep.  Every reachable
store is ready (`Reachable.ready_noHook`). -/
theorem ways_agree (limit : Nat) (frame : FrameRef) (source : String) (s : Store) :
    (match (feed limit frame source s).1.error with
      | none => run limit frame source s =
        .ok (feed limit frame source s).1.value (feed limit frame source s).2
      | some e => run limit frame source s = .error e (feed limit frame source s).2 ∧
        ∃ t, evaluateAll limit frame
            ((readAll limit source).data.take (feed limit frame source s).1.values.length) s =
          (⟨(feed limit frame source s).1.values, none⟩, t)) ∧
    (s.Ready NoHook → frame < s.frames.size → (readAll limit source).error = none →
      EndsElsewhere s (run limit frame source s)
        (evaluate (limit + 2) frame (beginForm (readAll limit source).data) s) ∧
      ∀ limit', (∃ t, run limit frame source s = .error .recursionTooDeep t) ∨
        (∃ t, evaluate limit' frame (beginForm (readAll limit source).data) s =
          .error .recursionTooDeep t) ∨
        EndsElsewhere s (run limit frame source s)
          (evaluate limit' frame (beginForm (readAll limit source).data) s)) := by
  have hrun := run_eq limit frame source s
  refine ⟨?_, fun hs hf hread => ?_⟩
  · cases herror : (feed limit frame source s).1.error with
    | none => rwa [herror] at hrun
    | some e =>
      rw [herror] at hrun
      exact ⟨hrun, evaluateAll_take limit frame (readAll limit source).data s⟩
  · have hfold : run limit frame source s =
        (readAll limit source).data.foldlM (fun _ d => evaluate limit frame d) .nil s := by
      cases hx : (readAll limit source).data.foldlM (fun _ d => evaluate limit frame d) .nil s with
      | error e t => exact bind_error hx
      | ok v t =>
        refine (bind_ok hx).trans ?_
        rw [hread]
        rfl
    have hbegin := endsElsewhere_begin limit hs hf (readAll limit source).data
    rw [← hfold] at hbegin
    refine ⟨hbegin, fun limit' => ?_⟩
    rcases Nat.le_total limit' (limit + 2) with hle | hle
    · rcases agrees_evaluate hle frame (beginForm (readAll limit source).data) s with hdeep | heq
      · exact .inr (.inl hdeep)
      · exact .inr (.inr (heq ▸ hbegin))
    · rcases agrees_evaluate hle frame (beginForm (readAll limit source).data) s with
        ⟨t, hdeep⟩ | heq
      · rw [hdeep] at hbegin
        generalize run limit frame source s = x at hbegin
        cases hbegin with
        | error _ => exact .inl ⟨_, rfl⟩
      · exact .inr (.inr (heq ▸ hbegin))

/-- A text of which the second expression fails. -/
theorem ways_agree_failing :
    let s := Store.empty.addGlobal.2
    let source := "(define x '(a)) (car y) x"
    (s.Ready NoHook ∧ 0 < s.frames.size ∧ (readAll 100 source).error = none) ∧
    (run 100 0 source s = .error (.unbound "y") (feed 100 0 source s).2 ∧
      ∃ t, evaluateAll 100 0 ((readAll 100 source).data.take 1) s =
        (⟨(feed 100 0 source s).1.values, none⟩, t)) ∧
    EndsElsewhere s (run 100 0 source s)
      (evaluate 102 0 (beginForm (readAll 100 source).data) s) := by
  intro s source
  have hs : s.Ready NoHook := Reachable.ready_noHook (.addGlobal .empty)
  have hf : 0 < s.frames.size := by decide
  have hread : (readAll 100 source).error = none := by decide +kernel
  have herror : (feed 100 0 source s).1.error = some (.unbound "y") := by decide +kernel
  have hlength : (feed 100 0 source s).1.values.length = 1 := by decide +kernel
  have hways := ways_agree 100 0 source s
  rw [herror, hlength] at hways
  exact ⟨⟨hs, hf, hread⟩, hways.1, (hways.2 hs hf hread).1⟩

end Interpreter
end MiniLisp
