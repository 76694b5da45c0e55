import MiniLisp.Proofs.Interpreter.Isolation

/-!
Data read ahead.  One run reads each datum when it comes to it, and another has read them all before
it evaluates the first.  The cells of a datum then stand behind all others in the first store, and
in the second where they were put (`load_shift`).  So the stores match by names that are changed at
each datum (`Ahead.load`), and both runs end alike (`endsAhead_foldlM`).
-/
set_option autoImplicit false

namespace MiniLisp

open MiniLisp.Action

def Datum.pairs : Datum → Nat
  | .cons a d => a.pairs + d.pairs + 1
  | _ => 0

namespace Renaming

def withCells (ρ : Renaming) (f : CellRef → CellRef) : Renaming := { ρ with cell := f }

@[simp] theorem cell_withCells (ρ : Renaming) (f : CellRef → CellRef) :
    (ρ.withCells f).cell = f := rfl

/-- As `f` on the first `old` references; the next `count` go to where `start` is, and the others
come after `next`. -/
def leap (f : Nat → Nat) (old count start next : Nat) : Nat → Nat :=
  continueAt (continueAt f old start) (old + count) next

section

variable {f : Nat → Nat} {old count start next bound : Nat}

theorem leap_old {r : Nat} (h : r < old) : leap f old count start next r = f r :=
  (continueAt_lt (Nat.lt_add_right _ h)).trans (continueAt_lt h)

theorem leap_datum {k : Nat} (h : k < count) : leap f old count start next (old + k) = start + k :=
  (continueAt_lt (Nat.add_lt_add_left h _)).trans (continueAt_add k)

theorem leap_new (k : Nat) : leap f old count start next (old + count + k) = next + k :=
  continueAt_add k

theorem lt_or_datum_or_new (old count r : Nat) :
    r < old ∨ (∃ k < count, r = old + k) ∨ ∃ k, r = old + count + k := by
  rcases Nat.lt_or_ge r old with hold | hold
  · exact .inl hold
  · rcases Nat.lt_or_ge r (old + count) with hdatum | hdatum
    · exact .inr (.inl ⟨r - old, by omega, by omega⟩)
    · exact .inr (.inr ⟨r - (old + count), by omega⟩)

variable (hreserved : ∀ r, start ≤ f r → bound ≤ f r) (hnext : bound ≤ next)

include hreserved hnext

theorem leap_reserved (r : Nat) (h : start + count ≤ leap f old count start next r) :
    bound ≤ leap f old count start next r := by
  rcases lt_or_datum_or_new old count r with hr | ⟨k, hk, rfl⟩ | ⟨k, rfl⟩
  · rw [leap_old hr] at h ⊢
    exact hreserved r (Nat.le_of_add_right_le h)
  · rw [leap_datum hk] at h
    omega
  · rw [leap_new]
    omega

theorem leap_injective (hcount : start + count ≤ bound) (hf : f.Injective) (hold : ∀ r < old, f r < next) :
    (leap f old count start next).Injective := by
  intro q r hqr
  rcases lt_or_datum_or_new old count q with hq | ⟨j, hj, rfl⟩ | ⟨j, rfl⟩ <;>
    rcases lt_or_datum_or_new old count r with hr | ⟨k, hk, rfl⟩ | ⟨k, rfl⟩ <;>
    simp only [leap_old, leap_datum, leap_new, *] at hqr
  · exact hf hqr
  · have := hreserved q
    omega
  · have := hold q hq
    omega
  · have := hreserved r
    omega
  · omega
  · omega
  · have := hold r hr
    omega
  · omega
  · omega

end

/-- The names once a datum has been loaded behind the entries of `t`, for which `t'` has cells that
come after those of `u`. -/
def leaping (ρ : Renaming) (d : Datum) (t u t' : Store) : Renaming :=
  ρ.withCells (leap ρ.cell t.cells.size d.pairs u.cells.size t'.cells.size)

theorem agrees_leaping (ρ : Renaming) (d : Datum) (t u t' : Store) :
    Agrees t (ρ.leaping d t u t') ρ :=
  ⟨fun _ hr => leap_old hr, fun _ _ => rfl, fun _ _ => rfl, rfl⟩

end Renaming

namespace Store

theorem closures_load (s : Store) (d : Datum) : (s.load d).2.closures = s.closures := by
  induction d generalizing s with
  | cons a d iha ihd => exact (ihd (s.load a).2).trans (iha s)
  | _ => rfl

theorem size_load (s : Store) (d : Datum) :
    (s.load d).2.cells.size = s.cells.size + d.pairs := by
  induction d generalizing s with
  | cons a d iha ihd =>
    simp only [load, Store.cons, Array.size_push, ihd, iha, Datum.pairs]
    omega
  | _ => rfl

theorem load_shift {ρ : Renaming} (d : Datum) (s t : Store)
    (h : ∀ k < d.pairs, ρ.cell (s.cells.size + k) = t.cells.size + k) :
    (t.load d).1 = (s.load d).1.rename ρ ∧
    ∀ k < d.pairs, ∃ c, (s.load d).2.cells[s.cells.size + k]? = some c ∧
      (t.load d).2.cells[t.cells.size + k]? = some (c.rename ρ) := by
  induction d generalizing s t with
  | cons a d iha ihd =>
    obtain ⟨hva, hca⟩ := iha s t fun k hk => h k (by simp only [Datum.pairs]; omega)
    obtain ⟨hvd, hcd⟩ := ihd (s.load a).2 (t.load a).2 fun k hk => by
      rw [size_load, size_load, Nat.add_assoc, Nat.add_assoc]
      exact h (a.pairs + k) (by simp only [Datum.pairs]; omega)
    have hsize : ∀ u : Store, ((u.load a).2.load d).2.cells.size =
        u.cells.size + (a.pairs + d.pairs) := fun u => by
      rw [size_load, size_load, Nat.add_assoc]
    have hlast := h (a.pairs + d.pairs) (by simp only [Datum.pairs]; omega)
    have hkeepsD : ∀ u : Store, ((u.load a).2.load d).2.KeepsCells (u.load (.cons a d)).2 :=
      fun u => keepsCells_cons _ _ _
    have hkeepsA : ∀ u : Store, (u.load a).2.KeepsCells (u.load (.cons a d)).2 :=
      fun u => (keepsCells_load _ d).trans (hkeepsD u)
    refine ⟨?_, fun k hk => ?_⟩
    · simp only [load, Store.cons, Value.rename, hsize, hlast]
    · -- A cell of the head, one of the tail, or that of the pair itself.
      rcases Nat.lt_or_ge k a.pairs with hka | hka
      · obtain ⟨c, hc, hc'⟩ := hca k hka
        exact ⟨c, hkeepsA s hc, hkeepsA t hc'⟩
      · obtain ⟨j, rfl⟩ := Nat.exists_eq_add_of_le hka
        rcases Nat.lt_or_ge j d.pairs with hjd | hjd
        · obtain ⟨c, hc, hc'⟩ := hcd j hjd
          rw [size_load, Nat.add_assoc] at hc hc'
          exact ⟨c, hkeepsD s hc, hkeepsD t hc'⟩
        · obtain rfl : j = d.pairs := by
            simp only [Datum.pairs] at hk
            omega
          have hnew : ∀ u : Store, (u.load (.cons a d)).2.cells[u.cells.size +
              (a.pairs + d.pairs)]? = some ⟨(u.load a).1, ((u.load a).2.load d).1⟩ := fun u => by
            rw [← hsize u]
            exact cons_new _ _ _
          refine ⟨_, hnew s, (hnew t).trans ?_⟩
          rw [Cell.rename, ← hva, ← hvd]
  | _ => exact ⟨rfl, fun k hk => absurd hk (Nat.not_lt_zero k)⟩

def loadAll : List Datum → Store → List Value × Store
  | [], s => ([], s)
  | d :: ds, s =>
    let p := s.load d
    let q := loadAll ds p.2
    (p.1 :: q.1, q.2)

/-- The items of a list come first, and then the cells that hold them together. -/
theorem load_list (ds : List Datum) (s : Store) :
    s.load (.list ds .nil) = (loadAll ds s).2.list (loadAll ds s).1 .nil := by
  induction ds generalizing s with
  | nil => rfl
  | cons d ds ih =>
    have hlist : s.load (.list (d :: ds) .nil) = ((s.load d).2.load (.list ds .nil)).2.cons
      (s.load d).1 ((s.load d).2.load (.list ds .nil)).1 := rfl
    rw [hlist, ih]
    rfl

theorem keepsCells_loadAll (ds : List Datum) (s : Store) : s.KeepsCells (loadAll ds s).2 := by
  induction ds generalizing s with
  | nil => exact .refl s
  | cons d ds ih => exact (keepsCells_load s d).trans (ih _)

theorem size_le_of_keepsCells {s t : Store} (h : s.KeepsCells t) : s.cells.size ≤ t.cells.size := by
  by_contra hlt
  have hlast := h (Array.getElem?_eq_getElem (Nat.lt_of_not_le hlt))
  exact absurd (Array.getElem?_eq_some_iff.1 hlast).1 (Nat.lt_irrefl _)

theorem chain_list {s : Store} {tail last : Value} {items : List Value}
    (h : s.Chain tail items last) (xs : List Value) :
    (s.list xs tail).2.Chain (s.list xs tail).1 (xs ++ items) last ∧
      s.KeepsCells (s.list xs tail).2 := by
  induction xs with
  | nil => exact ⟨h, .refl s⟩
  | cons x xs ih =>
    have hcons := keepsCells_cons (s.list xs tail).2 x (s.list xs tail).1
    exact ⟨.link (cons_new _ _ _) (ih.1.mono hcons), ih.2.trans hcons⟩

theorem list_spec (s : Store) (items : List Value) :
    (s.list items .nil).2.Lists (s.list items .nil).1 items ∧
      s.KeepsCells (s.list items .nil).2 := by
  have h := chain_list (s := s) (.stop (show ∀ r, Value.nil ≠ .cell r by simp)) items
  rwa [List.append_nil] at h

section

variable {ρ : Renaming} {t t' u u' : Store}

/-- Cells may be added to either store, if their names are such that they match. -/
theorem Matches.withCells (h : t.Matches (.ofNames ρ) t') (hu : u.Ready NoHook)
    {f : CellRef → CellRef} (hf : ∀ r < t.cells.size, f r = ρ.cell r)
    (hclosures : u.closures = t.closures ∧ u'.closures = t'.closures)
    (hframes : u.frames = t.frames ∧ u'.frames = t'.frames)
    (hcells : Corresponds f (fun _ => True) (fun _ c c' => c' = c.rename (ρ.withCells f))
      u.cells u'.cells) : u.Matches (.ofNames (ρ.withCells f)) u' := by
  have hagrees : Renaming.Agrees t (ρ.withCells f) ρ :=
    ⟨hf, fun _ _ => rfl, fun _ _ => rfl, rfl⟩
  have hs := h.ready.sound
  refine ⟨hu, h.age, hcells.mono fun r c c' _ hc => ⟨hc, fun _ => ⟨?_, ?_⟩⟩, ?_, ?_⟩
  · exact fun _ _ => trivial
  · exact fun _ _ => trivial
  · rw [hclosures.1, hclosures.2]
    exact h.closures.mono fun r c c' hc hcc =>
      ⟨hcc.renamed.trans (hagrees.closures hs hc).symm, fun _ => hcc.holds trivial,
        fun _ => (code_ofNames (hu.sound.closure (hclosures.1 ▸ hc)).2.1).plain⟩
  · rw [hframes.1, hframes.2]
    exact h.frames.mono fun r f f' hf hff => by
      refine ⟨?_, fun _ => hff.outer trivial, fun _ => hff.bound trivial⟩
      refine hff.renamed.trans ?_
      exact (Frame.except_rename _ f).symm.trans
        ((congrArg _ (hagrees.frames hs hf).symm).trans (Frame.except_rename _ f))

end

/-- The second of two runs from `s` has data ready from `base` on, which have no counterpart in the
first yet.  Up to `bound` nothing else has its place there. -/
structure Ahead (s : Store) (ρ : Renaming) (base bound : Nat) (t t' : Store) : Prop where
  matched : t.Matches (.ofNames ρ) t'
  sound : t'.Sound NoHook
  old : s.cells.size ≤ t.cells.size
  cell : ∀ r < s.cells.size, ρ.cell r = r
  others : ρ.closure = id ∧ ρ.frame = id ∧ ρ.serial = id
  injective : ρ.cell.Injective
  reserved : ∀ r, base ≤ ρ.cell r → bound ≤ ρ.cell r
  base_le : base ≤ bound
  bound_le : bound ≤ t'.cells.size
  size_le : t.cells.size + (bound - base) ≤ t'.cells.size

namespace Ahead

variable {s t t' u : Store} {ρ : Renaming} {base bound : Nat}

theorem cell_lt (h : s.Ahead ρ base bound t t') {r : CellRef} (hr : r < t.cells.size) :
    ρ.cell r < t'.cells.size := by
  obtain ⟨_, hc, _⟩ := h.matched.cells.entry (Array.getElem?_eq_getElem hr)
  exact (Array.getElem?_eq_some_iff.1 hc).1

theorem evolves (h : s.Ahead ρ base bound t t') {v v' : Store} (hg : t.Grows v)
    (hsound : v'.Sound NoHook) (hm : v.Matches (.ofNames ρ) v') : s.Ahead ρ base bound v v' := by
  have hle := hg.cells
  have hsize : v'.cells.size = t'.cells.size + (v.cells.size - t.cells.size) := by
    have hnext := (h.matched.cells.next (v.cells.size - t.cells.size)).1
    rw [Nat.add_sub_cancel' hle] at hnext
    exact hm.cells.size_eq.symm.trans hnext
  have hold := h.old
  have hbound := h.bound_le
  have hroom := h.size_le
  exact ⟨hm, hsound, by omega, h.cell, h.others, h.injective, h.reserved, h.base_le, by omega,
    by omega⟩

section

variable (h : s.Ahead ρ u.cells.size bound t t') (d : Datum)
  (hkeeps : (u.load d).2.KeepsCells t') (hbound : (u.load d).2.cells.size ≤ bound)

include h hkeeps hbound

theorem cells_load : Corresponds (ρ.leaping d t u t').cell (fun _ => True)
    (fun _ c c' => c' = c.rename (ρ.leaping d t u t')) (t.load d).2.cells t'.cells := by
  have hsize := size_load t d
  have hroom := h.size_le
  rw [size_load] at hbound
  obtain ⟨_, hcell⟩ := @load_shift (ρ.leaping d t u t') d t u fun k hk => Renaming.leap_datum hk
  refine ⟨fun r c hc => ?_, fun k => ⟨?_, trivial⟩, by omega⟩
  · rcases Renaming.lt_or_datum_or_new t.cells.size d.pairs r with hold | ⟨k, hk, rfl⟩ | ⟨k, rfl⟩
    · have hcell := Array.getElem?_eq_getElem hold
      obtain rfl := Option.some.inj ((keepsCells_load t d hcell).symm.trans hc)
      obtain ⟨c', hc', hcc⟩ := h.matched.cells.entry hcell
      have hagrees := ρ.agrees_leaping d t u t'
      refine ⟨c', (congrArg (t'.cells[·]?) (hagrees.cell r hold)).trans hc', ?_⟩
      exact hcc.renamed.trans (hagrees.cells h.matched.ready.sound hcell).symm
    · obtain ⟨e, he, he'⟩ := hcell k hk
      obtain rfl := Option.some.inj (he.symm.trans hc)
      exact ⟨_, (congrArg (t'.cells[·]?) (Renaming.leap_datum hk)).trans (hkeeps he'), rfl⟩
    · have := (Array.getElem?_eq_some_iff.1 hc).1
      omega
  · rw [hsize]
    exact Renaming.leap_new k

theorem load : s.Ahead (ρ.leaping d t u t') (u.load d).2.cells.size bound (t.load d).2 t' ∧
    (u.load d).1 = (t.load d).1.rename (ρ.leaping d t u t') := by
  have hagrees := ρ.agrees_leaping d t u t'
  have hready : (t.load d).2.Ready NoHook := h.matched.ready.evolves (fun hf => hf .setCdr rfl)
    (@evolves_load NoHook (fun _ _ => True) t d).1
  have hmatched := h.matched.withCells hready hagrees.cell ⟨closures_load t d, rfl⟩
    ⟨(retains_load t d).2, rfl⟩ (h.cells_load d hkeeps hbound)
  have hold := h.old
  have hroom := h.size_le
  refine ⟨?_, (load_shift d t u fun k hk => Renaming.leap_datum hk).1⟩
  rw [size_load] at hbound ⊢
  refine ⟨hmatched, h.sound, ?_, fun r hr => ?_, h.others,
    Renaming.leap_injective h.reserved h.bound_le hbound h.injective fun r hr => h.cell_lt hr,
    Renaming.leap_reserved h.reserved h.bound_le, hbound, h.bound_le, ?_⟩
  · rw [size_load]
    omega
  · exact (hagrees.cell r (Nat.lt_of_lt_of_le hr hold)).trans (h.cell r hr)
  · rw [size_load]
    omega

end

end Ahead

theorem Matches.admits_rename {m : Matching} {s s' : Store} (h : s.Matches m s') {v : Value}
    (hv : s.Knows m v) : s'.Admits NoHook (v.rename m.names) := by
  cases v with
  | cell r =>
    obtain ⟨_, _, hc', _⟩ := h.exists_cell hv
    exact (Array.getElem?_eq_some_iff.1 hc').1
  | closure r =>
    obtain ⟨_, _, hc', _⟩ := h.exists_closure hv
    exact (Array.getElem?_eq_some_iff.1 hc').1
  | _ => exact hv.admits

theorem ahead_load {s : Store} (hs : s.Ready NoHook) (d : Datum) :
    s.Ahead (Renaming.identity.withCells (Renaming.continueAt id s.cells.size
      (s.load d).2.cells.size)) s.cells.size (s.load d).2.cells.size s (s.load d).2 := by
  have hsize := size_le_load s d
  have hold : ∀ r < s.cells.size,
      Renaming.continueAt id s.cells.size (s.load d).2.cells.size r = r :=
    fun r hr => Renaming.continueAt_lt hr
  have hagrees : Renaming.Agrees s (Renaming.identity.withCells (Renaming.continueAt id
      s.cells.size (s.load d).2.cells.size)) .identity :=
    ⟨hold, fun _ _ => rfl, fun _ _ => rfl, rfl⟩
  have hcells : Corresponds (Renaming.continueAt id s.cells.size (s.load d).2.cells.size)
      (fun _ => True) (fun _ c c' => c' = c.rename (Renaming.identity.withCells
        (Renaming.continueAt id s.cells.size (s.load d).2.cells.size)))
      s.cells (s.load d).2.cells := by
    refine ⟨fun r c hc => ⟨c, ?_, ?_⟩, fun k => ⟨Renaming.continueAt_add k, trivial⟩, hsize⟩
    · rw [hold r (Array.getElem?_eq_some_iff.1 hc).1]
      exact keepsCells_load s d hc
    · exact ((hagrees.cells hs.sound hc).trans c.rename_identity).symm
  have hmatched := (matches_ofNames_self hs).withCells hs hold ⟨rfl, closures_load s d⟩
    ⟨rfl, (retains_load s d).2⟩ hcells
  refine ⟨hmatched, Evolves.sound (@evolves_load NoHook (fun _ _ => True) s d).1 hs.sound,
    Nat.le_refl _, hold, ⟨rfl, rfl, rfl⟩, ?_, fun r hr => ?_, hsize, Nat.le_refl _, by omega⟩
  · exact (Renaming.continueAt_strictMono strictMono_id fun r hr =>
      Nat.lt_of_lt_of_le hr hsize).injective
  · rcases Nat.lt_or_ge r s.cells.size with hlt | hge
    · rw [Renaming.cell_withCells, hold r hlt] at hr
      omega
    · obtain ⟨k, rfl⟩ := Nat.exists_eq_add_of_le hge
      rw [Renaming.cell_withCells, Renaming.continueAt_add]
      exact Nat.le_add_right _ _

inductive EndsAhead (s : Store) (bound : Nat) : Ending → Ending → Prop where
  | ok {ρ : Renaming} {base : Nat} {v : Value} {t t' : Store} : s.Ahead ρ base bound t t' →
      t.Knows (.ofNames ρ) v → EndsAhead s bound (.ok v t) (.ok (v.rename ρ) t')
  | error {ρ : Renaming} {base : Nat} {e : Error} {t t' : Store} : s.Ahead ρ base bound t t' →
      EndsAhead s bound (.error e t) (.error e t')

section

variable {s t t' u : Store} {ρ : Renaming} {bound : Nat} {frame : FrameRef}

/-- One run reads and evaluates one datum after the other, and one evaluates what has been read. -/
theorem endsAhead_foldlM (limit : Nat) (ds : List Datum) (h : s.Ahead ρ u.cells.size bound t t')
    (hkeeps : (loadAll ds u).2.KeepsCells t') (hbound : (loadAll ds u).2.cells.size ≤ bound)
    (hf : frame < t.frames.size) {a : Value} (ha : t.Knows (.ofNames ρ) a) :
    EndsAhead s bound (ds.foldlM (fun _ d => Interpreter.evaluate limit frame d) a t)
      ((loadAll ds u).1.foldlM (fun _ v => eval limit v frame) (a.rename ρ) t') := by
  induction ds generalizing ρ t t' u a with
  | nil => exact .ok h ha
  | cons d ds ih =>
    have hlater := keepsCells_loadAll ds (u.load d).2
    obtain ⟨hload, hvalue⟩ := h.load d (hlater.trans hkeeps)
      (Nat.le_trans (size_le_of_keepsCells hlater) hbound)
    generalize hρ' : ρ.leaping d t u t' = ρ' at hload hvalue
    obtain ⟨hevolves, hadmits⟩ := @evolves_load NoHook (fun _ _ => True) t d
    have hf := Nat.lt_of_lt_of_le hf (Evolves.grows hevolves).frames
    have hframe : ρ'.frame frame = frame := congrFun hload.others.2.1 frame
    have hecho := echoes_eval limit hload.matched (code_ofNames hadmits) (located_ofNames hf)
    rw [Matching.names_ofNames, ← hvalue, hframe] at hecho
    have hrun := (runs_eval limit hload.sound
      (hvalue ▸ hload.matched.admits_rename (knows_ofNames hadmits))
      (hframe ▸ hload.matched.frame_lt hf)).1
    rw [List.foldlM_cons, loadAll, List.foldlM_cons]
    have hfirst : Interpreter.evaluate limit frame d t =
        eval limit (t.load d).1 frame (t.load d).2 := rfl
    generalize hx : eval limit (t.load d).1 frame (t.load d).2 = x at hecho
    generalize hy : eval limit (u.load d).1 frame t' = y at hecho
    cases hecho with
    | excused h => exact h.elim
    | error hst h =>
      obtain ⟨he, hm⟩ := hst
      subst h
      rw [after_eq_error hy] at hrun
      rw [bind_error (hfirst.trans hx), bind_error hy]
      exact .error (hload.evolves (Evolves.grows he) (Evolves.sound hrun hload.sound) hm)
    | ok hst hv =>
      obtain ⟨he, hm⟩ := hst
      obtain ⟨rfl, hknows⟩ := hv
      rw [after_eq_ok hy] at hrun
      rw [bind_ok (hfirst.trans hx), bind_ok hy]
      exact ih (hload.evolves (Evolves.grows he) (Evolves.sound hrun hload.sound) hm)
        (hkeeps.trans (keepsCells_of_noHook hrun)) hbound
        (Nat.lt_of_lt_of_le hf (Evolves.grows he).frames) hknows

end

end Store
end MiniLisp
