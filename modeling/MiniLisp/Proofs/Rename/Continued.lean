import MiniLisp.Proofs.Rename.Matching
import MiniLisp.Proofs.Tree.Alike

/-!
How two stores come to match.  A store matches itself (`matches_self`), and one that is matched goes
on to match the second store after a run that this one makes on its own: what was added there is
passed over, so the names that are to come move on (`Matches.rephase`).
-/
set_option autoImplicit false

namespace MiniLisp

open Store

def Matching.ofNames (ρ : Renaming) : Matching := ⟨ρ, fun _ => True, fun _ _ => false⟩

@[simp] theorem Matching.names_ofNames (ρ : Renaming) : (ofNames ρ).names = ρ := rfl

namespace Renaming

def identity : Renaming := ⟨id, id, id, id⟩

/-- The references below `size` keep the names that `f` gives; the others come after `next`. -/
def continueAt (f : Nat → Nat) (size next r : Nat) : Nat :=
  if r < size then f r else next + (r - size)

/-- As `ρ` on the entries of `s`; what is added after them is added after those of `t`. -/
def continued (ρ : Renaming) (s t : Store) : Renaming where
  cell := continueAt ρ.cell s.cells.size t.cells.size
  closure := continueAt ρ.closure s.closures.size t.closures.size
  frame := continueAt ρ.frame s.frames.size t.frames.size
  serial := ρ.serial

section

variable {f : Nat → Nat} {size next r : Nat}

theorem continueAt_lt (h : r < size) : continueAt f size next r = f r := if_pos h

theorem continueAt_add (k : Nat) : continueAt f size next (size + k) = next + k := by
  simp [continueAt]

theorem continueAt_ne {other : Nat} (hf : ∀ q < size, f q ≠ other) (hlt : other < next) (r : Nat) :
    continueAt f size next r ≠ other := by
  unfold continueAt
  split
  · next hr => exact hf r hr
  · exact Nat.ne_of_gt (Nat.lt_of_lt_of_le hlt (Nat.le_add_right _ _))

theorem continueAt_strictMono (hf : StrictMono f) (hlt : ∀ r < size, f r < next) :
    StrictMono (continueAt f size next) := by
  intro q r hqr
  unfold continueAt
  split
  · next hq =>
    split
    · exact hf hqr
    · exact Nat.lt_of_lt_of_le (hlt q hq) (Nat.le_add_right _ _)
  · rw [if_neg (by omega)]
    omega

end

structure Agrees (s : Store) (ρ ρ' : Renaming) : Prop where
  cell : ∀ r < s.cells.size, ρ.cell r = ρ'.cell r
  closure : ∀ r < s.closures.size, ρ.closure r = ρ'.closure r
  frame : ∀ r < s.frames.size, ρ.frame r = ρ'.frame r
  serial : ρ.serial = ρ'.serial

variable {ρ ρ' : Renaming} {s : Store}

theorem agrees_continued (ρ : Renaming) (s t : Store) : Agrees s (ρ.continued s t) ρ :=
  ⟨fun _ h => continueAt_lt h, fun _ h => continueAt_lt h, fun _ h => continueAt_lt h, rfl⟩

theorem Agrees.value (h : Agrees s ρ ρ') {v : Value} (hv : s.Admits NoHook v) :
    v.rename ρ = v.rename ρ' := by
  cases v with
  | cell r => exact congrArg Value.cell (h.cell r hv)
  | closure r => exact congrArg Value.closure (h.closure r hv)
  | primitive p serial => exact congrArg (Value.primitive p) (congrFun h.serial serial)
  | _ => rfl

theorem Agrees.cells (h : Agrees s ρ ρ') (hs : s.Sound NoHook) {r : CellRef} {c : Cell}
    (hc : s.cells[r]? = some c) : c.rename ρ = c.rename ρ' := by
  rw [Cell.rename, h.value (hs.cell hc).1, h.value (hs.cell hc).2, ← Cell.rename]

theorem Agrees.closures (h : Agrees s ρ ρ') (hs : s.Sound NoHook) {r : ClosureRef} {c : Closure}
    (hc : s.closures[r]? = some c) : c.rename ρ = c.rename ρ' := by
  obtain ⟨hp, hb, hscope⟩ := hs.closure hc
  rw [Closure.rename, h.value hp, h.value hb, h.frame _ hscope, ← Closure.rename]

theorem Agrees.frames (h : Agrees s ρ ρ') (hs : s.Sound NoHook) {r : FrameRef} {f : Frame}
    (hf : s.frames[r]? = some f) : f.rename ρ = f.rename ρ' := by
  have hbound : f.bindings.map (fun b => (b.1, b.2.rename ρ)) =
      f.bindings.map (fun b => (b.1, b.2.rename ρ')) :=
    List.map_congr_left fun b hb => by rw [h.value (hs.bound hf b hb)]
  have houter : f.outer.map ρ.frame = f.outer.map ρ'.frame := by
    cases ho : f.outer with
    | none => rfl
    | some o =>
      have hr := (Array.getElem?_eq_some_iff.1 hf).1
      exact congrArg some (h.frame o (Nat.lt_trans (hs.outer hf o ho) hr))
  rw [Frame.rename, hbound, houter, ← Frame.rename]

end Renaming

/-- What has been added to the second table alone is passed over from now on. -/
theorem Corresponds.rephase {α β : Type} {f : Nat → Nat} {fresh : Nat → Prop}
    {R R' : Nat → α → β → Prop} {xs : Array α} {ys zs : Array β} (h : Corresponds f fresh R xs ys)
    (hkeeps : ∀ r < xs.size, ∀ y, ys[f r]? = some y → zs[f r]? = some y)
    (hsize : ys.size ≤ zs.size) (hR : ∀ r x y, xs[r]? = some x → R r x y → R' r x y) :
    Corresponds (Renaming.continueAt f xs.size zs.size) (fun _ => True) R' xs zs := by
  refine ⟨fun r x hx => ?_, fun k => ⟨Renaming.continueAt_add k, trivial⟩,
    Nat.le_trans h.size_le hsize⟩
  have hr := (Array.getElem?_eq_some_iff.1 hx).1
  obtain ⟨y, hy, hxy⟩ := h.entry hx
  exact ⟨y, by rw [Renaming.continueAt_lt hr, hkeeps r hr y hy], hR r x y hx hxy⟩

@[simp] theorem Value.rename_identity (v : Value) : v.rename .identity = v := by cases v <;> rfl

@[simp] theorem Cell.rename_identity (c : Cell) : c.rename .identity = c := by simp [rename]

@[simp] theorem Closure.rename_identity (c : Closure) : c.rename .identity = c := by
  simp only [rename, Value.rename_identity]
  rfl

@[simp] theorem Frame.rename_identity (f : Frame) : f.rename .identity = f := by
  simp only [rename, Value.rename_identity]
  simp [Renaming.identity]

namespace Store

def Has (s : Store) : Node → Prop
  | .cell r => r < s.cells.size
  | .closure r => r < s.closures.size
  | .frame r => r < s.frames.size

/-- A store matches itself, in a region that nothing there leads out of and whatever is hidden that
no code there mentions. -/
theorem matches_self {s : Store} (hs : s.Ready NoHook) {region : Node → Prop}
    {hidden : FrameRef → String → Bool} (hfresh : ∀ n, ¬ s.Has n → region n)
    (hclosed : ∀ n, region n → ∀ k ∈ s.nodes n, region k)
    (hplain : ∀ r c, region (.closure r) → s.closures[r]? = some c →
      Matching.Plain ⟨.identity, region, hidden⟩ s c.body) :
    s.Matches ⟨.identity, region, hidden⟩ s := by
  have hlater : ∀ {n k : Nat}, ¬ n + k < n := fun {n k} => Nat.not_lt.2 (Nat.le_add_right n k)
  refine ⟨hs, strictMono_id, ⟨fun r c hc => ?_, fun k => ⟨rfl, hfresh _ hlater⟩, Nat.le_refl _⟩,
    ⟨fun r c hc => ?_, fun k => ⟨rfl, hfresh _ hlater⟩, Nat.le_refl _⟩,
    ⟨fun r f hf => ?_, fun k => ⟨rfl, hfresh _ hlater⟩, Nat.le_refl _⟩⟩
  · have hnodes : s.nodes (.cell r) = c.nodes := by simp [nodes, hc]
    exact ⟨c, hc, (Cell.rename_identity c).symm, fun hr =>
      ⟨fun n hn => hclosed _ hr n (by simp_all [Cell.nodes]),
        fun n hn => hclosed _ hr n (by simp_all [Cell.nodes])⟩⟩
  · have hnodes : s.nodes (.closure r) = c.nodes := by simp [nodes, hc]
    exact ⟨c, hc, (Closure.rename_identity c).symm, fun hr =>
      ⟨fun n hn => hclosed _ hr n (by simp_all [Closure.nodes]),
        fun n hn => hclosed _ hr n (by simp_all [Closure.nodes]),
        hclosed _ hr _ (by simp_all [Closure.nodes])⟩, fun hr => hplain r c hr hc⟩
  · have hnodes : s.nodes (.frame r) = f.nodes := by simp [nodes, hf]
    exact ⟨f, hf, (Frame.rename_identity _).symm, fun hr o ho =>
      hclosed _ hr _ (by simp_all [Frame.nodes]), fun hr b hb n hn =>
      hclosed _ hr n (hnodes ▸ List.mem_append_right _ (List.mem_filterMap.2 ⟨b, hb, hn⟩))⟩

theorem matches_ofNames_self {s : Store} (hs : s.Ready NoHook) :
    s.Matches (.ofNames .identity) s :=
  matches_self hs (fun _ _ => trivial) (fun _ _ _ _ => trivial) fun _ _ _ _ _ _ h => by cases h

variable {writable : FrameRef → String → Prop} {s s' t' : Store} {ρ : Renaming}

theorem Change.retains (h : Change NoHook writable s s') : s.Retains s' := by
  cases h with
  | cons _ _ => exact retains_cons _ _ _
  | setHead hf _ _ => exact absurd rfl (hf .setCar)
  | setTail hf _ _ => exact absurd rfl (hf .setCdr)
  | closure _ _ _ => exact retains_addClosure _ _
  | frame _ _ => exact retains_addFrame _ _
  | define _ _ => exact retains_define _ _ _ _
  | record e => exact retains_record _ _

theorem Evolves.retains (h : Evolves NoHook writable s s') : s.Retains s' := by
  induction h with
  | refl => exact .refl s
  | tail _ hc ih => exact ih.trans hc.retains

theorem knows_ofNames {v : Value} (h : s.Admits NoHook v) : s.Knows (.ofNames ρ) v :=
  ⟨h, fun _ _ => trivial⟩

theorem code_ofNames {e : Value} (h : s.Admits NoHook e) : s.Code (.ofNames ρ) e :=
  ⟨knows_ofNames h, fun _ _ h => by cases h⟩

theorem Matches.frame_ofNames (h : s.Matches (.ofNames ρ) s') {r : FrameRef} {f : Frame}
    (hf : s.frames[r]? = some f) : s'.frames[ρ.frame r]? = some (f.rename ρ) := by
  obtain ⟨f', hf', hff⟩ := h.frames.entry hf
  have hrenamed : f'.except (fun _ => false) = (f.except fun _ => false).rename ρ := hff.renamed
  rw [Frame.except_none, Frame.except_none] at hrenamed
  exact hrenamed ▸ hf'

theorem located_ofNames {r : FrameRef} (h : r < s.frames.size) : s.Located (.ofNames ρ) r :=
  ⟨h, trivial⟩

theorem Matches.frame_lt {m : Matching} (h : s.Matches m s') {r : FrameRef}
    (hr : r < s.frames.size) : m.names.frame r < s'.frames.size := by
  obtain ⟨_, hf', _⟩ := h.frames.entry (Array.getElem?_eq_getElem hr)
  exact (Array.getElem?_eq_some_iff.1 hf').1

/-- What the second store adds by itself does no harm, as long as it defines nothing in the frames
that have a counterpart. -/
theorem Matches.rephase (h : s.Matches (.ofNames ρ) s') (he : Evolves NoHook writable s' t')
    (hw : ∀ r < s.frames.size, ∀ n, ¬ writable (ρ.frame r) n) :
    s.Matches (.ofNames (ρ.continued s t')) t' := by
  have hs := h.ready.sound
  have hkeeps := Evolves.retains he
  have hgrows := Evolves.grows he
  have hsame := Renaming.agrees_continued ρ s t'
  refine ⟨h.ready, Renaming.continueAt_strictMono h.age fun r hr =>
    Nat.lt_of_lt_of_le (h.frame_lt hr) hgrows.frames, ?_, ?_, ?_⟩
  · exact h.cells.rephase (fun r _ c hc => hkeeps.cells hc) hgrows.cells fun r c c' hc hcc =>
      ⟨hcc.renamed.trans (hsame.cells hs hc).symm, fun _ => hcc.holds trivial⟩
  · exact h.closures.rephase (fun r _ c hc => hkeeps.closures hc) hgrows.closures
      fun r c c' hc hcc => ⟨hcc.renamed.trans (hsame.closures hs hc).symm,
        fun _ => hcc.holds trivial, fun _ => hcc.plain trivial⟩
  · -- Frames can be written to, so here it matters that those with a counterpart are not.
    refine h.frames.rephase (fun r hr f hf => ?_) hgrows.frames fun r f f' hf hff => ?_
    · exact (Evolves.keepsFrame he (h.frame_lt hr) (hw r hr)).trans hf
    · refine ⟨hff.renamed.trans ?_, fun _ => hff.outer trivial, fun _ => hff.bound trivial⟩
      exact (Frame.except_rename _ f).symm.trans
        ((congrArg _ (hsame.frames hs hf).symm).trans (Frame.except_rename _ f))

end Store
end MiniLisp
