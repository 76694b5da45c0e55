import MiniLisp.Proofs.Store.Copying
import MiniLisp.Store.Pickle

/-!
Pickling.  Where the machine has given the objects the numbers that they were written under
(`Loading.Aligned`), what is read next stands for what is written next: it comes on top of the
stack, whatever is below (`Rebuilds`).
-/
set_option autoImplicit false

namespace MiniLisp

namespace Loading

variable {s : Store} {l : Loading} {numbers : List (Object × Nat)} {o x : Object} {number : Nat}
  {r : CellRef}

structure Aligned (l : Loading) (numbers : List (Object × Nat)) : Prop where
  size : l.numbered.size = numbers.length
  lookup : ∀ o number, numbers.lookup o = some number → number < numbers.length
  nil : ∀ i number, numbers.lookup (.nil i) = some number →
    l.numbered[number]? = some (.nil NilClass.first.1)
  kept : l.nilClass.kept? = some NilClass.first.1

/-- For a cell stands what has its number. -/
def stage (l : Loading) (numbers : List (Object × Nat)) : Stage where
  place r := (numbers.lookup (.entry (.cell r))).bind (l.numbered[·]?)
  made := l.made

theorem numbered_enter (h : l.Aligned numbers) (x : Object) (hlt : number < numbers.length) :
    (l.enter x).numbered[number]? = l.numbered[number]? := by
  rw [enter, Array.getElem?_push, if_neg (Nat.ne_of_lt (h.size ▸ hlt))]

theorem lookup_enter (o p : Object) (number : Nat) (numbers : List (Object × Nat)) :
    ((o, number) :: numbers).lookup p = if p = o then some number else numbers.lookup p := by
  rw [List.lookup_cons]
  by_cases hpo : p = o
  · simp [hpo]
  · simp [hpo, beq_false_of_ne hpo]

theorem Aligned.enter (h : l.Aligned numbers)
    (hx : ∀ i, o = .nil i → x = .nil NilClass.first.1) :
    (l.enter x).Aligned ((o, numbers.length) :: numbers) where
  size := (Array.size_push _).trans (congrArg (· + 1) h.size)
  lookup p number hp := by
    rw [lookup_enter] at hp
    split at hp
    · exact Option.some.inj hp ▸ Nat.lt_succ_self _
    · exact Nat.lt_succ_of_lt (h.lookup p number hp)
  nil i number hi := by
    rw [lookup_enter] at hi
    split at hi
    · next hio =>
      obtain rfl := Option.some.inj hi
      rw [Loading.enter, ← h.size, Array.getElem?_push_size, hx i hio.symm]
    · exact (numbered_enter h x (h.lookup _ _ hi)).trans (h.nil i number hi)
  kept := h.kept

theorem place_enter (h : l.Aligned numbers) (x : Object) (hne : .entry (.cell r) ≠ o) :
    ((l.enter x).stage ((o, numbers.length) :: numbers)).place r = (l.stage numbers).place r := by
  simp only [stage, lookup_enter, if_neg hne]
  cases hr : numbers.lookup (.entry (.cell r)) with
  | none => rfl
  | some number => exact numbered_enter h x (h.lookup _ _ hr)

def opened (s : Store) (l : Loading) : Loading :=
  Loading.enter { l with made := (l.made.create s .cell).2 }
    (.entry (.cell (s.cells.size + l.made.cells.size)))

theorem Aligned.opened (h : l.Aligned numbers) (s : Store) (r : CellRef) :
    (l.opened s).Aligned ((.entry (.cell r), numbers.length) :: numbers) :=
  Aligned.enter (l := { l with made := _ }) ⟨h.size, h.lookup, h.nil, h.kept⟩
    fun _ hr => by cases hr

theorem stage_opened (h : l.Aligned numbers) (s : Store) (r : CellRef) :
    (l.opened s).stage ((.entry (.cell r), numbers.length) :: numbers) =
      (l.stage numbers).opened s r := by
  refine congrArg (Stage.mk · _) (funext fun q => ?_)
  by_cases hqr : q = r
  · subst hqr
    simp only [lookup_enter, if_pos, Option.bind_some]
    rw [opened, Loading.enter, ← h.size]
    exact Array.getElem?_push_size
  · have hne : Object.entry (.cell q) ≠ .entry (.cell r) :=
      fun hq => hqr (Node.cell.inj (Object.entry.inj hq))
    rw [if_neg hqr]
    exact place_enter (l := { l with made := _ }) ⟨h.size, h.lookup, h.nil, h.kept⟩ _ hne

def closed (s : Store) (l : Loading) (i : Nat) (head tail : Object) (rest : List Object) :
    Loading :=
  { l with
    stack := .entry (.cell (s.cells.size + i)) :: rest
    made := l.made.fill s [head, tail] (.cell (s.cells.size + i)) }

theorem stage_closed (s : Store) (l : Loading) (numbers : List (Object × Nat)) (i : Nat)
    (head tail : Object) (rest : List Object) :
    (l.closed s i head tail rest).stage numbers = (l.stage numbers).closed i head tail := by
  rw [closed, Made.fill, Nat.add_sub_cancel_left]
  rfl

theorem step_fill {i : Nat} {head tail : Object} {rest : List Object}
    (h : l.stack = tail :: head :: .entry (.cell (s.cells.size + i)) :: rest) :
    step s l (.fill 2) = some (l.closed s i head tail rest) := by
  simp only [step, h]
  rfl

theorem run_cons (s : Store) (l : Loading) (i : Instruction) (code : List Instruction) :
    run s l (i :: code) = (step s l i).bind (run s · code) := List.foldlM_cons

theorem run_append (s : Store) (l : Loading) (code more : List Instruction) :
    run s l (code ++ more) = (run s l code).bind (run s · more) := List.foldlM_append

end Loading

namespace Store

variable {foreign : Value → Prop} {s : Store} {room : Nat} {v : Value} {r : CellRef} {cell : Cell}
  {numbers : List (Object × Nat)} {code : List Instruction} {number : Nat}

/-- Read by a machine with these numbers, the code puts on the stack what stands for the value. -/
def Rebuilds (s : Store) (v : Value) (numbers : List (Object × Nat)) (code : List Instruction)
    (numbers' : List (Object × Nat)) : Prop :=
  ∀ l : Loading, l.Aligned numbers → (l.stage numbers).Fits s → ∃ o l',
    Loading.run s l code = some l' ∧ l'.stack = o :: l.stack ∧ l'.Aligned numbers' ∧
      Advances s (s.Leads v) (l.stage numbers) (l'.stage numbers') ∧
      (l'.stage numbers').image v = some o

/-- Either code has been written that rebuilds the value, or it is too deep for the room. -/
def Written (s : Store) (room : Nat) (v : Value) (numbers : List (Object × Nat)) : Prop :=
  (∃ code numbers', (s.writeObject room v.object).run numbers = .ok (code, numbers') ∧
    s.Rebuilds v numbers code numbers') ∨
  (s.writeObject room v.object).run numbers = .error .recursionTooDeep ∧
    ∀ n, s.Layered n v → room < 4 * n

theorem rebuilds_push (hobject : v.object = .atom v) (hcell : ∀ r, v ≠ .cell r)
    (numbers : List (Object × Nat)) : s.Rebuilds v numbers [.push v] numbers := by
  refine fun l hl hfits => ⟨.atom v, l.push (.atom v), rfl, rfl, ⟨hl.size, hl.lookup, hl.nil,
    hl.kept⟩, .refl s _ hfits, ?_⟩
  cases v with
  | cell r => exact absurd rfl (hcell r)
  | _ => exact congrArg some hobject

theorem rebuilds_recall {o : Object} (hnumber : numbers.lookup o = some number)
    (himage : ∀ l : Loading, l.Aligned numbers →
      (l.stage numbers).image v = l.numbered[number]?) :
    s.Rebuilds v numbers [.recall number] numbers := by
  intro l hl hfits
  have hlt : number < l.numbered.size := hl.size ▸ hl.lookup o number hnumber
  have hget := Array.getElem?_eq_getElem hlt
  refine ⟨l.numbered[number], l.push l.numbered[number], ?_, rfl, ⟨hl.size, hl.lookup, hl.nil,
    hl.kept⟩, .refl s _ hfits, (himage l hl).trans hget⟩
  rw [Loading.run_cons, Loading.step, hget]
  rfl

/-- Called again, the class of Nil gives Nil. -/
theorem rebuilds_callNil (s : Store) (numbers : List (Object × Nat)) :
    s.Rebuilds .nil numbers [.callNil] ((.nil NilClass.first.1, numbers.length) :: numbers) := by
  intro l hl hfits
  have hcall : l.nilClass.call = (NilClass.first.1, l.nilClass) := by
    rw [NilClass.call, hl.kept]
  have hstage : (l.enter (.nil NilClass.first.1)).stage
      ((.nil NilClass.first.1, numbers.length) :: numbers) = l.stage numbers :=
    congrArg (Stage.mk · _) (funext fun r => Loading.place_enter hl _ fun hr => by cases hr)
  refine ⟨_, l.enter (.nil NilClass.first.1), ?_, rfl, hl.enter fun _ _ => rfl, ?_, rfl⟩
  · rw [Loading.run_cons, Loading.step, hcall]
    rfl
  · rw [hstage]
    exact .refl s _ hfits

theorem rebuilds_cell {n₁ n₂ : List (Object × Nat)} {first second : List Instruction}
    (hnew : numbers.lookup (.entry (.cell r)) = none) (hc : s.cells[r]? = some cell)
    (hhead : s.Rebuilds cell.head ((.entry (.cell r), numbers.length) :: numbers) first n₁)
    (htail : s.Rebuilds cell.tail n₁ second n₂) :
    s.Rebuilds (.cell r) numbers (.create .cell :: (first ++ second) ++ [.fill 2]) n₂ := by
  intro l hl hfits
  have hopened := hl.opened s r
  have hstage := Loading.stage_opened hl s r
  have hfits₀ : ((l.opened s).stage ((.entry (.cell r), numbers.length) :: numbers)).Fits s := by
    rw [hstage]
    exact Stage.fits_opened hfits
  obtain ⟨a, l₁, hrun₁, hstack₁, hl₁, hadvance₁, himage₁⟩ := hhead _ hopened hfits₀
  obtain ⟨b, l₂, hrun₂, hstack₂, hl₂, hadvance₂, himage₂⟩ := htail l₁ hl₁ (hadvance₁.fits hfits₀)
  have hparts : Advances s (s.Leads (.cell r)) ((l.stage numbers).opened s r) (l₂.stage n₂) := by
    rw [← hstage]
    exact (hadvance₁.mono fun q hq => .head hc hq).trans
      (hadvance₂.mono fun q hq => .tail hc hq)
  have hplace : (l.stage numbers).place r = none := by simp only [Loading.stage, hnew, Option.bind]
  have hdone := hparts.cell hfits hplace (.here r) hc (hadvance₂.image_eq himage₁) himage₂
  have hfill := Loading.step_fill (hstack₂.trans (congrArg (b :: ·) hstack₁))
  refine ⟨_, l₂.closed s l.made.cells.size a b l.stack, ?_, rfl,
    ⟨hl₂.size, hl₂.lookup, hl₂.nil, hl₂.kept⟩, ?_, hparts.place_opened⟩
  · rw [Loading.run_append, Loading.run_cons]
    change ((Loading.run s (l.opened s) (first ++ second)).bind _) = _
    rw [Loading.run_append, hrun₁, Option.bind_some, hrun₂, Option.bind_some, Loading.run_cons,
      hfill]
    rfl
  · rw [Loading.stage_closed]
    exact hdone

theorem writeObject_short (h : room < 4) (n : Node) (numbers : List (Object × Nat)) :
    (s.writeObject room (.entry n)).run numbers = .error .recursionTooDeep := by
  rw [writeObject]
  · rfl
  · omega

theorem writeObject_recalled (h : numbers.lookup (.entry (.cell r)) = some number) :
    (s.writeObject (room + 4) (.entry (.cell r))).run numbers = .ok ([.recall number], numbers) := by
  rw [writeObject]
  simp only [bind_pure_comp, StateT.run_bind, StateT.run_get, pure_bind, h, StateT.run_pure]
  rfl

theorem writeObject_cell (room : Nat) (h : numbers.lookup (.entry (.cell r)) = none)
    (hc : s.cells[r]? = some cell) : (s.writeObject (room + 4) (.entry (.cell r))).run numbers =
      ((s.writeObject room cell.head.object).run
          ((.entry (.cell r), numbers.length) :: numbers)).bind fun head =>
        ((s.writeObject room cell.tail.object).run head.2).bind fun tail =>
          .ok (.create .cell :: (head.1 ++ tail.1) ++ [.fill 2], tail.2) := by
  rw [writeObject]
  simp only [layout, Writer.enter, hc, Option.map_some, Cell.slots, Option.getD_some,
    List.mapM_cons, List.mapM_nil, bind_pure_comp, map_pure, Functor.map_map, StateT.run_bind,
    StateT.run_get, pure_bind, h, StateT.run_map, StateT.run_modify]
  generalize (s.writeObject room cell.head.object).run _ = first
  cases first with
  | error e => rfl
  | ok head =>
    change Except.map _ (Except.map _ ((s.writeObject room cell.tail.object).run head.2)) =
      Except.bind ((s.writeObject room cell.tail.object).run head.2) _
    generalize (s.writeObject room cell.tail.object).run head.2 = second
    cases second with
    | error e => rfl
    | ok tail => simp [Except.map, Except.bind]

theorem written_atom (hcell : ∀ r, v ≠ .cell r) (hfree : v.isFunction = false)
    (numbers : List (Object × Nat)) : s.Written room v numbers := by
  cases v with
  | cell r => exact absurd rfl (hcell r)
  | primitive p serial => cases hfree
  | closure r => cases hfree
  | nil =>
    cases hnumber : numbers.lookup (.nil NilClass.first.1) with
    | none =>
      refine .inl ⟨_, _, ?_, rebuilds_callNil s numbers⟩
      simp only [Value.object, writeObject, Writer.once, Writer.enter, bind_pure_comp,
        StateT.run_bind, StateT.run_get, pure_bind, hnumber, StateT.run_map, StateT.run_modify]
      rfl
    | some number =>
      refine .inl ⟨_, _, ?_, rebuilds_recall hnumber fun l hl => (hl.nil _ _ hnumber).symm⟩
      simp only [Value.object, writeObject, Writer.once, StateT.run_bind, StateT.run_get,
        pure_bind, hnumber, StateT.run_pure]
      rfl
  | _ =>
    refine .inl ⟨_, _, ?_, rebuilds_push rfl (fun r hr => by cases hr) numbers⟩
    simp only [Value.object, writeObject]
    rfl

theorem written_cell (hc : s.cells[r]? = some cell)
    (hhead : ∀ numbers, s.Written room cell.head numbers)
    (htail : ∀ numbers, s.Written room cell.tail numbers) (numbers : List (Object × Nat)) :
    s.Written (room + 4) (.cell r) numbers := by
  cases hnumber : numbers.lookup (.entry (.cell r)) with
  | some number =>
    refine .inl ⟨_, _, writeObject_recalled hnumber, rebuilds_recall hnumber fun l hl => ?_⟩
    simp only [Loading.stage, Stage.image, hnumber, Option.bind]
  | none =>
    have hrun := writeObject_cell room hnumber hc
    rcases hhead ((.entry (.cell r), numbers.length) :: numbers) with
      ⟨first, n₁, hfirst, hrebuilds₁⟩ | ⟨hfirst, hdeep⟩
    · rcases htail n₁ with ⟨second, n₂, hsecond, hrebuilds₂⟩ | ⟨hsecond, hdeep⟩
      · refine .inl ⟨_, n₂, hrun.trans ?_, rebuilds_cell hnumber hc hrebuilds₁ hrebuilds₂⟩
        rw [hfirst]
        change Except.bind ((s.writeObject room cell.tail.object).run n₁) _ = _
        rw [hsecond]
        rfl
      · refine .inr ⟨hrun.trans ?_, fun n hn => hn.lt_of_side hc .tail hdeep⟩
        rw [hfirst]
        change Except.bind ((s.writeObject room cell.tail.object).run n₁) _ = _
        rw [hsecond]
        rfl
    · refine .inr ⟨hrun.trans ?_, fun n hn => hn.lt_of_side hc .head hdeep⟩
      rw [hfirst]
      rfl

theorem written (hs : s.Sound foreign) (room : Nat) (hv : s.Admits foreign v)
    (hfree : s.FunctionFree v) (numbers : List (Object × Nat)) : s.Written room v numbers := by
  induction room using room_induction 3 generalizing v numbers with
  | short room hroom =>
    by_cases hcell : ∃ r, v = .cell r
    · obtain ⟨r, rfl⟩ := hcell
      exact .inr ⟨writeObject_short hroom _ numbers, fun n hn => hn.lt_of_cell hroom⟩
    · exact written_atom (fun r hr => hcell ⟨r, hr⟩) (hfree [] v rfl) numbers
  | call room ih =>
    by_cases hcell : ∃ r, v = .cell r
    · obtain ⟨r, rfl⟩ := hcell
      have hc := Array.getElem?_eq_getElem (show r < s.cells.size from hv)
      exact written_cell hc (ih (hs.cell hc).1 (hfree.side hc .head))
        (ih (hs.cell hc).2 (hfree.side hc .tail)) numbers
    · exact written_atom (fun r hr => hcell ⟨r, hr⟩) (hfree [] v rfl) numbers

theorem givesCopy_pickle (hs : s.Sound foreign) (ha : s.Acyclic) (hv : s.Admits foreign v)
    (hfree : s.FunctionFree v) (room : Nat) : s.GivesCopy 4 room v (s.pickle room v) := by
  rcases written hs room hv hfree [] with ⟨code, numbers, hrun, hrebuilds⟩ | ⟨hrun, hdeep⟩
  · have hstart : Loading.Aligned ⟨[], #[], .start s, NilClass.first.2⟩ [] :=
      ⟨rfl, fun _ _ h => (by cases h), fun _ _ h => (by cases h), rfl⟩
    obtain ⟨o, l, hload, hstack, -, hadvance, himage⟩ :=
      hrebuilds _ hstart (Stage.fits_start s)
    have hvalue : s.unpickle code = l.made.value? s o := by
      rw [unpickle, hload]
      simp only [Option.bind_eq_bind, Option.bind_some, hstack]
    rw [pickle, pickled, hrun]
    change s.GivesCopy 4 room v (.ok (s.unpickle code))
    rw [hvalue]
    exact givesCopy_of_advances hs ha hv hfree hadvance himage
  · refine .inr ⟨?_, hdeep⟩
    rw [pickle, pickled, hrun]
    rfl

/-- By either way the copy of a value without functions is faithful and detached. -/
theorem copying_faithful (hs : s.Sound foreign) (ha : s.Acyclic) (hv : s.Admits foreign v)
    (hfree : s.FunctionFree v) (room : Nat) :
    s.GivesCopy 7 room v (s.deepCopy room v) ∧ s.GivesCopy 4 room v (s.pickle room v) :=
  ⟨givesCopy_deepCopy hs ha hv hfree room, givesCopy_pickle hs ha hv hfree room⟩

/-- A cell that holds the list `(a)` on both sides: so do the copies. -/
theorem copying_faithful_shared :
    let p := Store.empty.load (.list [.symbol "a"] .nil)
    let q := p.2.cons p.1 p.1
    let s := q.2
    (s.Sound NoHook ∧ s.Acyclic ∧ s.Admits NoHook q.1 ∧ s.FunctionFree q.1) ∧
      ∀ found ∈ [s.deepCopy 14 q.1, s.pickle 8 q.1], ∃ w t, found = .ok (some (w, t)) ∧
        s.DeepCopied q.1 t w ∧
        ∃ r, t.follow [.head] w = some (.cell r) ∧ t.follow [.tail] w = some (.cell r) := by
  intro p q s
  have hp : p.2.Admits NoHook p.1 := (@evolves_load NoHook (fun _ _ => True) _ _).2
  have hreach : Reachable NoHook s := .cons (.load _ .empty) hp hp
  have hq : s.Admits NoHook q.1 := Nat.one_lt_two
  have hlist : p.2.Unfolds p.1 (.list [.symbol "a"] .nil) := unfolds_load _ _
  have hfree : s.FunctionFree q.1 :=
    (Unfolds.cell (cons_new _ _ _) (hlist.mono (keepsCells_cons _ _ _))
      (hlist.mono (keepsCells_cons _ _ _))).functionFree
  have hlayer : s.Layered 2 q.1 := by
    have hlist : s.Layered 1 (.cell 0) := .cell rfl (.atom nofun) (.atom nofun)
    exact .cell rfl hlist hlist
  have hgives := copying_faithful hreach.sound hreach.aged.acyclic hq hfree
  refine ⟨⟨hreach.sound, hreach.aged.acyclic, hq, hfree⟩, fun found hfound => ?_⟩
  have hcopied : ∃ w t, found = .ok (some (w, t)) ∧ s.DeepCopied q.1 t w := by
    rcases List.mem_pair.1 hfound with rfl | rfl
    · exact (hgives 14).1.resolve_right fun h => absurd (h.2 2 hlayer) (by decide)
    · exact (hgives 8).2.resolve_right fun h => absurd (h.2 2 hlayer) (by decide)
  obtain ⟨w, t, rfl, h⟩ := hcopied
  exact ⟨w, t, rfl, h, (h.shared [.head] [.tail]).2 ⟨0, rfl, rfl⟩⟩

/-- The list `(NIL NIL)`, where there is room for its first cell only. -/
theorem copying_long :
    let s := ((Store.empty.cons .nil .nil).2.cons .nil (.cell 0)).2
    s.Acyclic ∧ s.FunctionFree (.cell 1) ∧ s.isProperList (.cell 1) = true ∧
      s.deepCopy 13 (.cell 1) = .error .recursionTooDeep ∧
      s.pickle 7 (.cell 1) = .error .recursionTooDeep := by
  intro s
  have hs : Reachable NoHook s :=
    .cons (.cons .empty trivial trivial) trivial Nat.one_pos
  have hlist : s.Unfolds (.cell 1) (.list [.nil, .nil] .nil) :=
    .cell rfl .nil (.cell rfl .nil .nil)
  exact ⟨hs.aged.acyclic, hlist.functionFree, rfl, rfl, rfl⟩

end Store
end MiniLisp
