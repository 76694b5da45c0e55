import MiniLisp.Proofs.Rename.Continued

/-!
The age of entries.  References count up as entries come about, and without operations that assign
cells an entry leads to older ones only: the cells in a cell are older (`Aged.cell`), and so is the
frame around a frame (`Aged.frame`).  Cells and closures lead to each other, but not around in a
circle, so that no value is nested more deeply than there are entries (`Evolves.nested`).
-/
set_option autoImplicit false

namespace MiniLisp

namespace Store

/-- What an entry leads to came about before it. -/
structure Aged (s : Store) : Prop where
  cell : ∀ ⦃r : CellRef⦄ ⦃c : Cell⦄, s.cells[r]? = some c →
    ∀ q, c.head = .cell q ∨ c.tail = .cell q → q < r
  frame : ∀ ⦃r : FrameRef⦄ ⦃f : Frame⦄, s.frames[r]? = some f → ∀ o ∈ f.outer, o < r

/-- Cells and closures stand no more than `n` deep inside each other in the value. -/
inductive Nested (s : Store) : Nat → Value → Prop where
  | atom {n : Nat} {v : Value} : v.node? = none → s.Nested n v
  | cell {n : Nat} {r : CellRef} {c : Cell} : s.cells[r]? = some c → s.Nested n c.head →
      s.Nested n c.tail → s.Nested (n + 1) (.cell r)
  | closure {n : Nat} {r : ClosureRef} {c : Closure} : s.closures[r]? = some c →
      s.Nested n c.parameters → s.Nested n c.body → s.Nested (n + 1) (.closure r)

def NestedAll (s : Store) : Prop :=
  ∀ v, s.Admits NoHook v → s.Nested (s.cells.size + s.closures.size) v

variable {writable : FrameRef → String → Prop} {s s' : Store}

theorem Change.aged (h : Change NoHook writable s s') (hs : s.Sound NoHook) (ha : s.Aged) :
    s'.Aged := by
  refine ⟨?_, (h.sound hs).outer⟩
  cases h with
  | @cons a d hhead htail =>
    intro r c hc q hq
    rw [Store.cons, Array.getElem?_push] at hc
    split at hc
    · next hr =>
      obtain rfl := Option.some.inj hc
      subst hr
      rcases hq with rfl | rfl
      · exact hhead
      · exact htail
    · exact ha.cell hc q hq
  | setHead hf _ _ => exact absurd rfl (hf .setCar)
  | setTail hf _ _ => exact absurd rfl (hf .setCdr)
  | _ => exact ha.cell

theorem Nested.mono {v : Value} {m n : Nat} (h : s.Nested m v) (hle : m ≤ n)
    (hk : s.Retains s') : s'.Nested n v := by
  induction h generalizing n with
  | atom hv => exact .atom hv
  | cell hc _ _ ihh iht =>
    obtain ⟨n, rfl⟩ := Nat.exists_eq_add_of_le' (Nat.le_of_add_left_le hle)
    exact .cell (hk.cells hc) (ihh (by omega)) (iht (by omega))
  | closure hc _ _ ihp ihb =>
    obtain ⟨n, rfl⟩ := Nat.exists_eq_add_of_le' (Nat.le_of_add_left_le hle)
    exact .closure (hk.closures hc) (ihp (by omega)) (ihb (by omega))

theorem Change.nestedAll (h : Change NoHook writable s s') (ha : s.NestedAll) :
    s'.NestedAll := by
  have hk := h.retains
  have hg := h.grows
  have hle : s.cells.size + s.closures.size ≤ s'.cells.size + s'.closures.size :=
    Nat.add_le_add hg.cells hg.closures
  have hold : ∀ {v}, s.Admits NoHook v →
      s'.Nested (s'.cells.size + s'.closures.size) v := fun hv => (ha _ hv).mono hle hk
  intro v hv
  cases h with
  | @cons a d hhead htail =>
    cases v with
    | cell r =>
      rcases Nat.lt_succ_iff_lt_or_eq.1 (show r < s.cells.size + 1 by simpa [Admits, Store.cons]
        using hv) with hr | rfl
      · exact hold hr
      · have hsize : (s.cons a d).2.cells.size + (s.cons a d).2.closures.size =
            s.cells.size + s.closures.size + 1 := by
          simp only [Store.cons, Array.size_push]
          omega
        rw [hsize]
        exact .cell (cons_new s a d) ((ha a hhead).mono (Nat.le_refl _) hk)
          ((ha d htail).mono (Nat.le_refl _) hk)
    | _ => exact hold hv
  | setHead hf _ _ => exact absurd rfl (hf .setCar)
  | setTail hf _ _ => exact absurd rfl (hf .setCdr)
  | @closure c hp hb _ =>
    cases v with
    | closure r =>
      rcases Nat.lt_succ_iff_lt_or_eq.1 (show r < s.closures.size + 1 by
        simpa [Admits, addClosure] using hv) with hr | rfl
      · exact hold hr
      · have hnew : (s.addClosure c).2.closures[s.closures.size]? = some c := by
          simp [addClosure]
        have hsize : (s.addClosure c).2.cells.size + (s.addClosure c).2.closures.size =
            s.cells.size + s.closures.size + 1 := by
          simp only [addClosure, Array.size_push]
          omega
        rw [hsize]
        exact .closure hnew ((ha _ hp).mono (Nat.le_refl _) hk)
          ((ha _ hb).mono (Nat.le_refl _) hk)
    | _ => exact hold hv
  | define _ _ => cases v <;> exact hold hv
  | frame _ _ => cases v <;> exact hold hv
  | record _ => cases v <;> exact hold hv

theorem Evolves.aged (h : Evolves NoHook writable .empty s) : s.Aged := by
  induction h with
  | refl => exact ⟨fun r c hc => by simp [empty] at hc, fun r f hf => by simp [empty] at hf⟩
  | tail he hc ih => exact hc.aged (Evolves.sound he sound_empty) ih

theorem Evolves.nestedAll (h : Evolves NoHook writable .empty s) : s.NestedAll := by
  induction h with
  | refl =>
    intro v hv
    cases v with
    | cell r => exact absurd hv (Nat.not_lt_zero r)
    | closure r => exact absurd hv (Nat.not_lt_zero r)
    | _ => exact .atom rfl
  | tail _ hc ih => exact hc.nestedAll ih

end Store

theorem Reachable.aged {s : Store} (h : Reachable NoHook s) : s.Aged := Store.Evolves.aged h.evolves

theorem Reachable.nestedAll {s : Store} (h : Reachable NoHook s) : s.NestedAll :=
  Store.Evolves.nestedAll h.evolves

end MiniLisp
