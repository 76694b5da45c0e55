import MiniLisp.Proofs.Store.Copy
import MiniLisp.Store.Copy

/-!
Copying cell by cell.  A stage says what stands for the cells copied so far and what is in the
copies.  To copy a cell is to make one that stands for it, to go on with its head and tail, and to
put into the new cell what stands for them (`Advances.cell`).  What is made so from a value without
functions is a copy of it in which every Nil is Nil itself (`Advances.copies`).
-/
set_option autoImplicit false

namespace MiniLisp

structure Stage where
  place : CellRef → Option Object
  made : Made

namespace Stage

def size (σ : Stage) : Nat := σ.made.cells.size

def image (σ : Stage) : Value → Option Object
  | .cell r => σ.place r
  | v => some v.object

def opened (s : Store) (σ : Stage) (r : CellRef) : Stage where
  place q := if q = r then some (.entry (.cell (s.cells.size + σ.size))) else σ.place q
  made := { σ.made with cells := σ.made.cells.push [] }

def closed (σ : Stage) (i : Nat) (head tail : Object) : Stage where
  place := σ.place
  made := { σ.made with cells := σ.made.cells.setIfInBounds i [head, tail] }

def Fits (s : Store) (σ : Stage) : Prop :=
  ∀ r o, σ.place r = some o → ∃ q : Nat, q < s.cells.size + σ.size ∧ o = .entry (.cell q)

end Stage

/-- From one stage to a later one cells of a region have been copied, each once, and nothing else. -/
structure Advances (s : Store) (region : CellRef → Prop) (σ τ : Stage) : Prop where
  keeps : ∀ r o, σ.place r = some o → τ.place r = some o
  size_le : σ.size ≤ τ.size
  placed : ∀ r o, τ.place r = some o → σ.place r = some o ∨
    ∃ q : Nat, o = .entry (.cell q) ∧ s.cells.size + σ.size ≤ q ∧ q < s.cells.size + τ.size
  distinct : ∀ p r (q : Nat), s.cells.size + σ.size ≤ q → τ.place p = some (.entry (.cell q)) →
    τ.place r = some (.entry (.cell q)) → p = r
  before : ∀ i < σ.size, τ.made.cells[i]? = σ.made.cells[i]?
  filled : ∀ i, σ.size ≤ i → i < τ.size → ∃ r c head tail, region r ∧ s.cells[r]? = some c ∧
    τ.place r = some (.entry (.cell (s.cells.size + i))) ∧ τ.image c.head = some head ∧
    τ.image c.tail = some tail ∧ τ.made.cells[i]? = some [head, tail]
  rest : τ.made.closures = σ.made.closures ∧ τ.made.frames = σ.made.frames

namespace Advances

variable {s : Store} {region wider : CellRef → Prop} {σ τ υ : Stage} {v : Value} {o : Object}
  {r : CellRef} {c : Cell}

theorem image_eq (h : Advances s region σ τ) (ho : σ.image v = some o) : τ.image v = some o := by
  cases v with
  | cell r => exact h.keeps r o ho
  | _ => exact ho

theorem fits (h : Advances s region σ τ) (hσ : σ.Fits s) : τ.Fits s := by
  intro r o ho
  rcases h.placed r o ho with hold | ⟨q, rfl, -, hq⟩
  · obtain ⟨q, hq, rfl⟩ := hσ r o hold
    exact ⟨q, Nat.lt_of_lt_of_le hq (Nat.add_le_add_left h.size_le _), rfl⟩
  · exact ⟨q, hq, rfl⟩

theorem place_of_lt (h : Advances s region σ τ) {q : CellRef}
    (hr : τ.place r = some (.entry (.cell q))) (hq : q < s.cells.size + σ.size) :
    σ.place r = some (.entry (.cell q)) := by
  rcases h.placed r _ hr with hold | ⟨p, hp, hle, -⟩
  · exact hold
  · cases hp
    exact absurd hq (Nat.not_lt.2 hle)

theorem refl (s : Store) (region : CellRef → Prop) {σ : Stage} (hσ : σ.Fits s) :
    Advances s region σ σ where
  keeps _ _ h := h
  size_le := Nat.le_refl _
  placed _ _ h := .inl h
  distinct p r q hle hp _ := by
    obtain ⟨_, hlt, hq⟩ := hσ p _ hp
    cases hq
    exact absurd hlt (Nat.not_lt.2 hle)
  before _ _ := rfl
  filled _ hle hlt := absurd hlt (Nat.not_lt.2 hle)
  rest := ⟨rfl, rfl⟩

theorem mono (h : Advances s region σ τ) (hwider : ∀ r, region r → wider r) :
    Advances s wider σ τ where
  keeps := h.keeps
  size_le := h.size_le
  placed := h.placed
  distinct := h.distinct
  before := h.before
  filled i hle hlt := by
    obtain ⟨r, c, head, tail, hr, hrest⟩ := h.filled i hle hlt
    exact ⟨r, c, head, tail, hwider r hr, hrest⟩
  rest := h.rest

theorem trans (h : Advances s region σ τ) (h' : Advances s region τ υ) :
    Advances s region σ υ where
  keeps r o hr := h'.keeps r o (h.keeps r o hr)
  size_le := Nat.le_trans h.size_le h'.size_le
  placed r o hr := by
    have hle := h.size_le
    have hle' := h'.size_le
    rcases h'.placed r o hr with hτ | ⟨q, rfl, hlow, hhigh⟩
    · rcases h.placed r o hτ with hσ | ⟨q, rfl, hlow, hhigh⟩
      · exact .inl hσ
      · exact .inr ⟨q, rfl, hlow, by omega⟩
    · exact .inr ⟨q, rfl, by omega, hhigh⟩
  distinct p r q hle hp hr := by
    rcases Nat.lt_or_ge q (s.cells.size + τ.size) with hlt | hge
    · exact h.distinct p r q hle (h'.place_of_lt hp hlt) (h'.place_of_lt hr hlt)
    · exact h'.distinct p r q hge hp hr
  before i hi := (h'.before i (Nat.lt_of_lt_of_le hi h.size_le)).trans (h.before i hi)
  filled i hle hlt := by
    rcases Nat.lt_or_ge i τ.size with hi | hi
    · obtain ⟨r, c, head, tail, hr, hc, hplace, hhead, htail, hcell⟩ := h.filled i hle hi
      exact ⟨r, c, head, tail, hr, hc, h'.keeps r _ hplace, h'.image_eq hhead, h'.image_eq htail,
        (h'.before i hi).trans hcell⟩
    · exact h'.filled i hi hlt
  rest := ⟨h'.rest.1.trans h.rest.1, h'.rest.2.trans h.rest.2⟩

end Advances

namespace Stage

variable {s : Store} {σ : Stage} {r : CellRef}

@[simp] theorem size_opened : (σ.opened s r).size = σ.size + 1 := Array.size_push _

@[simp] theorem size_closed {i : Nat} {head tail : Object} :
    (σ.closed i head tail).size = σ.size := Array.size_setIfInBounds

theorem place_opened_self : (σ.opened s r).place r = some (.entry (.cell (s.cells.size + σ.size))) :=
  if_pos rfl

theorem place_opened {q : CellRef} (h : q ≠ r) : (σ.opened s r).place q = σ.place q := if_neg h

theorem cells_opened {i : Nat} (h : i < σ.size) :
    (σ.opened s r).made.cells[i]? = σ.made.cells[i]? :=
  Array.getElem?_push.trans (if_neg (Nat.ne_of_lt h))

theorem cells_closed_self {i : Nat} (h : i < σ.size) (head tail : Object) :
    (σ.closed i head tail).made.cells[i]? = some [head, tail] :=
  (Array.getElem?_setIfInBounds ..).trans ((if_pos rfl).trans (if_pos h))

theorem cells_closed {i j : Nat} (h : i ≠ j) (head tail : Object) :
    (σ.closed i head tail).made.cells[j]? = σ.made.cells[j]? :=
  (Array.getElem?_setIfInBounds ..).trans (if_neg h)

theorem fits_opened (h : σ.Fits s) : (σ.opened s r).Fits s := by
  intro q o ho
  rw [size_opened]
  by_cases hqr : q = r
  · rw [hqr, place_opened_self] at ho
    cases ho
    exact ⟨_, by omega, rfl⟩
  · rw [place_opened hqr] at ho
    obtain ⟨p, hp, rfl⟩ := h q o ho
    exact ⟨p, by omega, rfl⟩

end Stage

namespace Advances

variable {s : Store} {region : CellRef → Prop} {σ τ : Stage} {head tail : Object} {r : CellRef}
  {c : Cell}

theorem place_opened (h : Advances s region (σ.opened s r) τ) :
    τ.place r = some (.entry (.cell (s.cells.size + σ.size))) :=
  h.keeps r _ Stage.place_opened_self

/-- The copy of a cell stands for it while its head and tail are copied. -/
theorem cell (hσ : σ.Fits s) (hnew : σ.place r = none) (hr : region r) (hc : s.cells[r]? = some c)
    (h : Advances s region (σ.opened s r) τ) (hhead : τ.image c.head = some head)
    (htail : τ.image c.tail = some tail) :
    Advances s region σ (τ.closed σ.size head tail) := by
  have hself := h.place_opened
  have hsize : σ.size + 1 ≤ τ.size := Stage.size_opened ▸ h.size_le
  have hold : ∀ q o, σ.place q = some o → q ≠ r := by
    rintro q o ho rfl
    rw [hnew] at ho
    cases ho
  refine ⟨?keeps, ?size, ?placed, ?distinct, ?before, ?filled, h.rest⟩
  case keeps => exact fun q o ho => h.keeps q o ((Stage.place_opened (hold q o ho)).trans ho)
  case size =>
    rw [Stage.size_closed]
    omega
  case placed =>
    intro q o ho
    rw [Stage.size_closed]
    rcases h.placed q o ho with hopened | ⟨p, rfl, hlow, hhigh⟩
    · by_cases hqr : q = r
      · rw [hqr, Stage.place_opened_self] at hopened
        cases hopened
        exact .inr ⟨_, rfl, Nat.le_refl _, by omega⟩
      · exact .inl (Stage.place_opened hqr ▸ hopened)
    · rw [Stage.size_opened] at hlow
      exact .inr ⟨p, rfl, by omega, hhigh⟩
  case distinct =>
    intro p q i hle hp hq
    rcases Nat.lt_or_ge i (s.cells.size + (σ.opened s r).size) with hlt | hge
    · -- Only the new cell can be meant, and nothing else stands there yet.
      have hmeant : ∀ x, τ.place x = some (.entry (.cell i)) → x = r := by
        intro x hx
        by_contra hxr
        have hopened := h.place_of_lt hx hlt
        rw [Stage.place_opened hxr] at hopened
        obtain ⟨j, hj, hij⟩ := hσ x _ hopened
        cases hij
        exact absurd hj (Nat.not_lt.2 hle)
      rw [hmeant p hp, hmeant q hq]
    · exact h.distinct p q i hge hp hq
  case before =>
    intro i hi
    rw [Stage.cells_closed (Nat.ne_of_gt hi), h.before i (by rw [Stage.size_opened]; omega),
      Stage.cells_opened hi]
  case filled =>
    intro i hle hlt
    rw [Stage.size_closed] at hlt
    rcases Nat.eq_or_lt_of_le hle with rfl | hgt
    · exact ⟨r, c, head, tail, hr, hc, hself, hhead, htail, Stage.cells_closed_self hlt _ _⟩
    · obtain ⟨q, d, a, b, hq, hd, hplace, ha, hb, hcell⟩ :=
        h.filled i (by rw [Stage.size_opened]; omega) hlt
      exact ⟨q, d, a, b, hq, hd, hplace, ha, hb,
        (Stage.cells_closed (Nat.ne_of_lt hgt) _ _).trans hcell⟩

end Advances

namespace Stage

variable {s : Store} {τ : Stage} {v : Value} {o : Object}

def start (s : Store) : Stage := ⟨fun _ => none, .start s⟩

theorem fits_start (s : Store) : (start s).Fits s := fun _ _ h => by cases h

def toRenaming (τ : Stage) : Renaming where
  cell r :=
    match τ.place r with
    | some (.entry (.cell q)) => q
    | _ => r
  closure := id
  frame := id
  serial := id

theorem toRenaming_cell {r q : CellRef} (h : τ.place r = some (.entry (.cell q))) :
    τ.toRenaming.cell r = q := by
  simp only [toRenaming, h]

theorem value?_of_image (hτ : τ.Fits s) (h : τ.image v = some o) :
    o.value? = some (v.rename τ.toRenaming) := by
  cases v with
  | cell r =>
    obtain ⟨q, -, rfl⟩ := hτ r o h
    rw [Value.rename, toRenaming_cell h]
    rfl
  | _ =>
    cases h
    rfl

end Stage

namespace Advances

variable {s : Store} {region : CellRef → Prop} {τ : Stage} {v : Value} {o : Object} {r : CellRef}

theorem filled_of_place (h : Advances s region (.start s) τ) (hr : τ.place r = some o) :
    ∃ i c head tail, o = .entry (.cell (s.cells.size + i)) ∧ i < τ.size ∧ s.cells[r]? = some c ∧
      τ.image c.head = some head ∧ τ.image c.tail = some tail ∧
      τ.made.cells[i]? = some [head, tail] := by
  rcases h.placed r o hr with hnone | ⟨q, rfl, hlow, hhigh⟩
  · cases hnone
  · obtain ⟨i, rfl⟩ := Nat.exists_eq_add_of_le hlow
    have hi : i < τ.size := Nat.lt_of_add_lt_add_left hhigh
    obtain ⟨p, c, head, tail, -, hc, hp, hrest⟩ := h.filled i (Nat.zero_le i) hi
    obtain rfl := h.distinct r p _ hlow hr hp
    exact ⟨i, c, head, tail, rfl, hi, hc, hrest⟩

theorem exists_place (h : Advances s region (.start s) τ) (hv : τ.image v = some o)
    (hr : s.Leads v r) : ∃ p, τ.place r = some p := by
  induction hr generalizing o with
  | here r => exact ⟨o, hv⟩
  | head hc _ ih =>
    obtain ⟨i, c, head, tail, -, -, hc', hhead, -⟩ := h.filled_of_place hv
    obtain rfl := Option.some.inj (hc.symm.trans hc')
    exact ih hhead
  | tail hc _ ih =>
    obtain ⟨i, c, head, tail, -, -, hc', -, htail, -⟩ := h.filled_of_place hv
    obtain rfl := Option.some.inj (hc.symm.trans hc')
    exact ih htail

theorem ofSlots?_of_image {c : Cell} {head tail : Object} (hτ : τ.Fits s)
    (hhead : τ.image c.head = some head) (htail : τ.image c.tail = some tail) :
    Cell.ofSlots? [head, tail] = some (c.rename τ.toRenaming) := by
  rw [Cell.ofSlots?, Stage.value?_of_image hτ hhead, Stage.value?_of_image hτ htail]
  rfl

theorem mapM_eq_some {α β : Type} {f : α → Option β} {xs : List α} {ys : List β}
    (h : List.Forall₂ (fun x y => f x = some y) xs ys) : xs.mapM f = some ys := by
  induction h with
  | nil => rfl
  | cons hx _ ih =>
    rw [List.mapM_cons, hx, ih]
    rfl

/-- All that has been made are cells, and what they hold are values. -/
theorem exists_store (h : Advances s region (.start s) τ) : ∃ t cells,
    τ.made.store? s = some t ∧ t.cells = s.cells ++ cells.toArray ∧ t.closures = s.closures ∧
      t.frames = s.frames ∧
      List.Forall₂ (fun slots c => Cell.ofSlots? slots = some c) τ.made.cells.toList cells := by
  have hτ := h.fits (Stage.fits_start s)
  obtain ⟨cells, hcells⟩ : ∃ cells, List.Forall₂
      (fun slots c => Cell.ofSlots? slots = some c) τ.made.cells.toList cells := by
    refine exists_forall₂ fun slots hslots => ?_
    obtain ⟨i, hi, rfl⟩ := List.getElem_of_mem hslots
    obtain ⟨r, c, head, tail, -, -, -, hhead, htail, hcell⟩ := h.filled i (Nat.zero_le i) hi
    have hget : τ.made.cells.toList[i] = [head, tail] :=
      Option.some.inj ((List.getElem?_eq_getElem hi).symm.trans
        (Array.getElem?_toList.trans hcell))
    exact ⟨_, hget ▸ ofSlots?_of_image hτ hhead htail⟩
  have hmap : τ.made.cells.toList.mapM Cell.ofSlots? = some cells := mapM_eq_some hcells
  have hrest : τ.made.closures = #[] ∧ τ.made.frames = #[] := h.rest
  refine ⟨{ s with cells := s.cells ++ cells.toArray, serials := τ.made.serials }, cells, ?_, rfl,
    rfl, rfl, hcells⟩
  rw [Made.store?, hmap, hrest.1, hrest.2]
  simp

/-- Copied cell by cell, a value without functions becomes a copy of it. -/
theorem copies (h : Advances s (s.Leads v) (.start s) τ) (hfree : s.FunctionFree v)
    (hv : τ.image v = some o) : ∃ t, τ.made.value? s o = some (v.rename τ.toRenaming, t) ∧
      s.Copies v τ.toRenaming t ∧ t.closures = s.closures ∧ t.frames = s.frames := by
  have hτ := h.fits (Stage.fits_start s)
  obtain ⟨t, cells, ht, htcells, hclosures, hframes, hcells⟩ := h.exists_store
  -- Where a cell that the value leads to stands once more, and with what in it.
  have hplace : ∀ {r}, s.Leads v r → ∃ i c, τ.place r = some (.entry (.cell (s.cells.size + i))) ∧
      s.cells[r]? = some c ∧ cells[i]? = some (c.rename τ.toRenaming) := by
    intro r hr
    obtain ⟨p, hp⟩ := h.exists_place hv hr
    obtain ⟨i, c, head, tail, rfl, hi, hc, hhead, htail, hcell⟩ := h.filled_of_place hp
    refine ⟨i, c, hp, hc, ?_⟩
    have hlen : i < cells.length := hcells.length_eq ▸ hi
    have hslots : Cell.ofSlots? τ.made.cells.toList[i] = some cells[i] := hcells.get hi hlen
    have hget : τ.made.cells.toList[i] = [head, tail] :=
      Option.some.inj ((List.getElem?_eq_getElem hi).symm.trans
        (Array.getElem?_toList.trans hcell))
    rw [hget, ofSlots?_of_image hτ hhead htail] at hslots
    exact (List.getElem?_eq_getElem hlen).trans hslots.symm
  refine ⟨t, ?_, ?_, hclosures, hframes⟩
  · rw [Made.value?, Stage.value?_of_image hτ hv, ht]
    rfl
  · refine ⟨hfree, fun r hr => ?_, fun r hr => ?_, fun q r hq hr hqr => ?_, fun r c hc => ?_⟩
    · obtain ⟨i, c, hp, hc, hi⟩ := hplace hr
      refine ⟨c, hc, ?_⟩
      rw [Stage.toRenaming_cell hp, htcells, Array.getElem?_append_right (Nat.le_add_right _ i),
        Nat.add_sub_cancel_left, List.getElem?_toArray]
      exact hi
    · obtain ⟨i, c, hp, -, -⟩ := hplace hr
      rw [Stage.toRenaming_cell hp]
      exact Nat.le_add_right _ i
    · obtain ⟨i, c, hp, -, -⟩ := hplace hq
      obtain ⟨j, d, hp', -, -⟩ := hplace hr
      rw [Stage.toRenaming_cell hp, Stage.toRenaming_cell hp'] at hqr
      exact h.distinct q r _ (Nat.le_add_right _ i) hp (hqr ▸ hp')
    · rw [htcells]
      exact (Array.getElem?_append_left (Array.getElem?_eq_some_iff.1 hc).1).trans hc

end Advances

namespace Copying

def stage (c : Copying) : Stage := ⟨fun r => c.memo.lookup (.entry (.cell r)), c.made⟩

def opened (s : Store) (c : Copying) (r : CellRef) : Copying :=
  ⟨(.entry (.cell r), .entry (.cell (s.cells.size + c.made.cells.size))) :: c.memo,
    { c.made with cells := c.made.cells.push [] }⟩

def closed (s : Store) (c : Copying) (i : Nat) (head tail : Object) : Copying :=
  { c with made := c.made.fill s [head, tail] (.cell (s.cells.size + i)) }

theorem stage_opened (s : Store) (c : Copying) (r : CellRef) :
    (c.opened s r).stage = c.stage.opened s r := by
  refine congrArg (Stage.mk · _) (funext fun q => ?_)
  rw [opened, List.lookup_cons]
  by_cases hqr : q = r
  · simp [hqr, Stage.size, stage]
  · have hne : (Object.entry (.cell q) == .entry (.cell r)) = false :=
      beq_false_of_ne fun h => hqr (Node.cell.inj (Object.entry.inj h))
    simp [hqr, hne, stage]

theorem stage_closed (s : Store) (c : Copying) (i : Nat) (head tail : Object) :
    (c.closed s i head tail).stage = c.stage.closed i head tail := by
  rw [closed, Made.fill, Nat.add_sub_cancel_left]
  rfl

end Copying

namespace Store

variable {foreign : Value → Prop} {s : Store} {room : Nat} {c : Copying} {v : Value} {r : CellRef}
  {cell : Cell} {o : Object}

theorem copyObject_atom (hcell : ∀ r, v ≠ .cell r) (hfree : v.isFunction = false) (room : Nat)
    (c : Copying) : (s.copyObject room v.object).run c = .ok (v.object, c) := by
  cases v with
  | cell r => exact absurd rfl (hcell r)
  | primitive p serial => cases hfree
  | closure r => cases hfree
  | _ =>
    simp only [Value.object, copyObject]
    rfl

theorem copyObject_short (h : room < 7) (n : Node) (c : Copying) :
    (s.copyObject room (.entry n)).run c = .error .recursionTooDeep := by
  rw [copyObject]
  · rfl
  · omega

theorem copyObject_remembered (h : c.memo.lookup (.entry (.cell r)) = some o) :
    (s.copyObject (room + 7) (.entry (.cell r))).run c = .ok (o, c) := by
  rw [copyObject]
  simp only [bind_pure_comp, StateT.run_bind, StateT.run_get, pure_bind, h, StateT.run_pure]
  rfl

theorem copyObject_cell (room : Nat) (h : c.memo.lookup (.entry (.cell r)) = none)
    (hc : s.cells[r]? = some cell) : (s.copyObject (room + 7) (.entry (.cell r))).run c =
      ((s.copyObject room cell.head.object).run (c.opened s r)).bind fun head =>
        ((s.copyObject room cell.tail.object).run head.2).bind fun tail =>
          .ok (.entry (.cell (s.cells.size + c.made.cells.size)),
            tail.2.closed s c.made.cells.size head.1 tail.1) := by
  rw [copyObject]
  simp only [Made.create, layout, hc, Option.map_some, Cell.slots, Option.getD_some,
    List.mapM_cons, List.mapM_nil, bind_pure_comp, map_pure, Functor.map_map, bind_assoc,
    bind_map_left, StateT.run_bind, StateT.run_get, pure_bind, h, StateT.run_set, StateT.run_map,
    StateT.run_modify]
  refine congrArg (Except.bind _) (funext fun head => ?_)
  cases (s.copyObject room cell.tail.object).run head.2 <;> rfl

/-- Either the value has been copied cell by cell, or it is too deep for the room. -/
def Outcome (s : Store) (room : Nat) (v : Value) (c : Copying) : Prop :=
  (∃ o c', (s.copyObject room v.object).run c = .ok (o, c') ∧
    Advances s (s.Leads v) c.stage c'.stage ∧ c'.stage.image v = some o) ∨
  (s.copyObject room v.object).run c = .error .recursionTooDeep ∧
    ∀ n, s.Layered n v → room < 7 * n

theorem outcome_atom (hcell : ∀ r, v ≠ .cell r) (hfree : v.isFunction = false)
    (hfits : c.stage.Fits s) : s.Outcome room v c := by
  refine .inl ⟨_, c, copyObject_atom hcell hfree room c, .refl s _ hfits, ?_⟩
  cases v with
  | cell r => exact absurd rfl (hcell r)
  | _ => rfl

theorem Layered.lt_of_cell {levels n : Nat} (h : s.Layered n (.cell r)) (hroom : room < levels) :
    room < levels * n := by
  cases h with
  | atom hr => exact absurd rfl (hr r)
  | @cell m _ _ _ _ _ => exact Nat.lt_of_lt_of_le hroom (Nat.le_mul_of_pos_right _ m.succ_pos)

theorem Layered.lt_of_side {levels n : Nat} (h : s.Layered n (.cell r))
    (hc : s.cells[r]? = some cell) (d : Side)
    (hside : ∀ m, s.Layered m (cell.side d) → room < levels * m) :
    room + levels < levels * n := by
  obtain ⟨m, rfl, hm⟩ := h.side hc d
  have := hside m hm
  rw [Nat.mul_succ]
  omega

theorem outcome_cell (hfits : c.stage.Fits s) (hc : s.cells[r]? = some cell)
    (hhead : (c.opened s r).stage.Fits s → s.Outcome room cell.head (c.opened s r))
    (htail : ∀ c₁ : Copying, c₁.stage.Fits s → s.Outcome room cell.tail c₁) :
    s.Outcome (room + 7) (.cell r) c := by
  cases hmemo : c.memo.lookup (.entry (.cell r)) with
  | some o => exact .inl ⟨o, c, copyObject_remembered hmemo, .refl s _ hfits, hmemo⟩
  | none =>
    have hrun := copyObject_cell room hmemo hc
    have hopened : (c.opened s r).stage.Fits s := by
      rw [Copying.stage_opened]
      exact Stage.fits_opened hfits
    rcases hhead hopened with ⟨head, c₁, hfirst, hadvance, himage⟩ | ⟨hfirst, hdeep⟩
    · rcases htail c₁ (hadvance.fits hopened) with
        ⟨tail, c₂, hsecond, hadvance', himage'⟩ | ⟨hsecond, hdeep⟩
      · have hparts : Advances s (s.Leads (.cell r)) (c.stage.opened s r) c₂.stage := by
          rw [← Copying.stage_opened]
          exact (hadvance.mono fun q hq => .head hc hq).trans
            (hadvance'.mono fun q hq => .tail hc hq)
        have hdone := hparts.cell hfits hmemo (.here r) hc (hadvance'.image_eq himage) himage'
        rw [← Copying.stage_closed s] at hdone
        refine .inl ⟨.entry (.cell (s.cells.size + c.stage.size)), _, hrun.trans ?_, hdone,
          hparts.place_opened⟩
        rw [hfirst]
        change Except.bind ((s.copyObject room cell.tail.object).run c₁) _ = _
        rw [hsecond]
        rfl
      · refine .inr ⟨hrun.trans ?_, fun n hn => hn.lt_of_side hc .tail hdeep⟩
        rw [hfirst]
        change Except.bind ((s.copyObject room cell.tail.object).run c₁) _ = _
        rw [hsecond]
        rfl
    · refine .inr ⟨hrun.trans ?_, fun n hn => hn.lt_of_side hc .head hdeep⟩
      rw [hfirst]
      rfl

theorem outcome (hs : s.Sound foreign) (room : Nat) (hv : s.Admits foreign v)
    (hfree : s.FunctionFree v) (hfits : c.stage.Fits s) : s.Outcome room v c := by
  induction room using room_induction 6 generalizing v c with
  | short room hroom =>
    by_cases hcell : ∃ r, v = .cell r
    · obtain ⟨r, rfl⟩ := hcell
      exact .inr ⟨copyObject_short hroom _ c, fun n hn => hn.lt_of_cell hroom⟩
    · exact outcome_atom (fun r hr => hcell ⟨r, hr⟩) (hfree [] v rfl) hfits
  | call room ih =>
    by_cases hcell : ∃ r, v = .cell r
    · obtain ⟨r, rfl⟩ := hcell
      have hc := Array.getElem?_eq_getElem (show r < s.cells.size from hv)
      exact outcome_cell hfits hc (ih (hs.cell hc).1 (hfree.side hc .head))
        fun c₁ hc₁ => ih (hs.cell hc).2 (hfree.side hc .tail) hc₁
    · exact outcome_atom (fun r hr => hcell ⟨r, hr⟩) (hfree [] v rfl) hfits

/-- A deep copy has been given, or the error where the value is too deep for the room. -/
def GivesCopy (s : Store) (levels room : Nat) (v : Value)
    (found : Except Error (Option (Value × Store))) : Prop :=
  (∃ w t, found = .ok (some (w, t)) ∧ s.DeepCopied v t w) ∨
    found = .error .recursionTooDeep ∧ ∀ n, s.Layered n v → room < levels * n

theorem givesCopy_of_advances {τ : Stage} {levels : Nat} (hs : s.Sound foreign) (ha : s.Acyclic)
    (hv : s.Admits foreign v) (hfree : s.FunctionFree v)
    (h : Advances s (s.Leads v) (.start s) τ) (himage : τ.image v = some o) :
    s.GivesCopy levels room v (.ok (τ.made.value? s o)) := by
  obtain ⟨t, hvalue, hcopies, hrest⟩ := h.copies hfree himage
  exact .inl ⟨_, t, congrArg Except.ok hvalue, hcopies.deepCopied hs ha hv hrest⟩

theorem givesCopy_deepCopy (hs : s.Sound foreign) (ha : s.Acyclic) (hv : s.Admits foreign v)
    (hfree : s.FunctionFree v) (room : Nat) : s.GivesCopy 7 room v (s.deepCopy room v) := by
  rcases outcome hs room hv hfree (c := ⟨[], .start s⟩) (Stage.fits_start s) with
    ⟨o, c, hrun, hadvance, himage⟩ | ⟨hrun, hdeep⟩
  · rw [deepCopy, hrun]
    exact givesCopy_of_advances hs ha hv hfree hadvance himage
  · refine .inr ⟨?_, hdeep⟩
    rw [deepCopy, hrun]
    rfl

end Store
end MiniLisp
