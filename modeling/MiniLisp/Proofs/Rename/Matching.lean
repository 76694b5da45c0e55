import MiniLisp.Proofs.Eval.Mentions
import MiniLisp.Proofs.Eval.WriteSet
import MiniLisp.Proofs.Rename.Renaming
import Mathlib.Order.Monotone.Basic

/-!
Stores that match up to names.  A matching renames the entries of the first store to those of the
second.  It may hide bindings, which need not match, as long as nothing in its region mentions their
names; whatever the first store adds from now on lies in the region.  The steps of a run keep two
stores matched when both take them.
-/
set_option autoImplicit false

namespace MiniLisp

open Store

section

variable {ρ : Renaming}

@[simp] theorem Value.rename_nil : Value.nil.rename ρ = .nil := rfl

@[simp] theorem Value.rename_eq_nil_iff {v : Value} : v.rename ρ = .nil ↔ v = .nil := by
  cases v <;> simp [rename]

@[simp] theorem Value.rename_eq_symbol_iff {v : Value} {name : String} :
    v.rename ρ = .symbol name ↔ v = .symbol name := by cases v <;> simp [rename]

theorem Value.rename_ne_cell {v : Value} (h : ∀ r, v ≠ .cell r) (r : CellRef) :
    v.rename ρ ≠ .cell r := by
  cases v with
  | cell q => exact absurd rfl (h q)
  | _ => simp [rename]

@[simp] theorem Value.isFunction_rename (v : Value) : (v.rename ρ).isFunction = v.isFunction := by
  cases v <;> rfl

@[simp] theorem Value.rename_truth (b : Bool) : (truth b).rename ρ = truth b := by cases b <;> rfl

end

namespace Frame

def except (hidden : String → Bool) (f : Frame) : Frame :=
  { f with bindings := f.bindings.filter (fun b => !hidden b.1) }

@[simp] theorem except_none (f : Frame) : f.except (fun _ => false) = f :=
  congrArg (Frame.mk · f.outer) (List.filter_eq_self.2 fun _ _ => rfl)

section

variable {hidden : String → Bool} {name : String}

theorem filter_put (h : hidden name = false) (v : Value) (bs : List (String × Value)) :
    (put name v bs).filter (fun b => !hidden b.1) =
      put name v (bs.filter (fun b => !hidden b.1)) := by
  induction bs with
  | nil => simp [put, h]
  | cons b bs ih =>
    obtain ⟨n, w⟩ := b
    by_cases hn : n = name
    · subst hn
      simp [put, h]
    · by_cases hh : hidden n = true
      · simp [put, hn, hh, ih]
      · simp [put, hn, hh, ih]

theorem filter_put_hidden (h : hidden name = true) (v : Value) (bs : List (String × Value)) :
    (put name v bs).filter (fun b => !hidden b.1) = bs.filter (fun b => !hidden b.1) := by
  induction bs with
  | nil => simp [put, h]
  | cons b bs ih =>
    obtain ⟨n, w⟩ := b
    by_cases hn : n = name
    · subst hn
      simp [put, h]
    · simp [put, hn, List.filter_cons, ih]

theorem except_define (h : hidden name = false) (f : Frame) (v : Value) :
    (f.define name v).except hidden = (f.except hidden).define name v :=
  congrArg (Frame.mk · f.outer) (filter_put h v f.bindings)

theorem except_define_hidden (h : hidden name = true) (f : Frame) (v : Value) :
    (f.define name v).except hidden = f.except hidden :=
  congrArg (Frame.mk · f.outer) (filter_put_hidden h v f.bindings)

theorem get?_except (h : hidden name = false) (f : Frame) :
    (f.except hidden).get? name = f.get? name := by
  obtain ⟨bs, outer⟩ := f
  simp only [except, get?]
  induction bs with
  | nil => rfl
  | cons b bs ih =>
    obtain ⟨n, w⟩ := b
    by_cases hh : hidden n = true
    · have hn : name ≠ n := by
        rintro rfl
        simp [h] at hh
      simp [hh, lookup_cons_if, hn, ih]
    · simp [hh, lookup_cons_if, ih]

end

section

variable {ρ : Renaming}

theorem rename_define (f : Frame) (name : String) (v : Value) :
    (f.define name v).rename ρ = (f.rename ρ).define name (v.rename ρ) :=
  congrArg (Frame.mk · (f.outer.map ρ.frame)) (put_map (Value.rename ρ) name v f.bindings)

theorem rename_update (f : Frame) (vars : List (String × Value)) :
    (f.update vars).rename ρ = (f.rename ρ).update (vars.map (fun x => (x.1, x.2.rename ρ))) :=
  update_map (Value.rename ρ) rename_define f vars

theorem except_rename (hidden : String → Bool) (f : Frame) :
    (f.rename ρ).except hidden = (f.except hidden).rename ρ :=
  congrArg (Frame.mk · (f.outer.map ρ.frame)) List.filter_map

theorem get?_rename (f : Frame) (name : String) :
    (f.rename ρ).get? name = (f.get? name).map (Value.rename ρ) :=
  lookup_map (Value.rename ρ) f.bindings name

end

end Frame

/-- Each entry of the first table has one of the second, `f` says where, and an entry added to both
lies in `fresh` and again where `f` says. -/
structure Corresponds {α β : Type} (f : Nat → Nat) (fresh : Nat → Prop) (R : Nat → α → β → Prop)
    (xs : Array α) (ys : Array β) : Prop where
  entry : ∀ ⦃r : Nat⦄ ⦃x : α⦄, xs[r]? = some x → ∃ y, ys[f r]? = some y ∧ R r x y
  next : ∀ k, f (xs.size + k) = ys.size + k ∧ fresh (xs.size + k)
  size_le : xs.size ≤ ys.size

namespace Corresponds

variable {α β : Type} {f : Nat → Nat} {fresh : Nat → Prop} {R R' : Nat → α → β → Prop}
  {xs : Array α} {ys : Array β}

theorem size_eq (h : Corresponds f fresh R xs ys) : f xs.size = ys.size := (h.next 0).1

theorem fresh_size (h : Corresponds f fresh R xs ys) : fresh xs.size := (h.next 0).2

theorem mono (h : Corresponds f fresh R xs ys)
    (hR : ∀ r x y, xs[r]? = some x → R r x y → R' r x y) : Corresponds f fresh R' xs ys := by
  refine ⟨fun r x hx => ?_, h.next, h.size_le⟩
  obtain ⟨y, hy, hxy⟩ := h.entry hx
  exact ⟨y, hy, hR r x y hx hxy⟩

theorem push (h : Corresponds f fresh R xs ys) {x : α} {y : β} (hxy : R xs.size x y) :
    Corresponds f fresh R (xs.push x) (ys.push y) := by
  refine ⟨fun r z hz => ?_, fun k => ?_, by simp [h.size_le]⟩
  · rw [Array.getElem?_push] at hz
    split at hz
    · next hr =>
      obtain rfl := Option.some.inj hz
      subst hr
      exact ⟨y, by rw [h.size_eq, Array.getElem?_push_size], hxy⟩
    · obtain ⟨w, hw, hzw⟩ := h.entry hz
      have hlt := (Array.getElem?_eq_some_iff.1 hw).1
      exact ⟨w, by rw [Array.getElem?_push_lt hlt, ← hw, Array.getElem?_eq_getElem hlt], hzw⟩
  · have hnext := h.next (k + 1)
    simp only [Array.size_push]
    rwa [Nat.add_right_comm, Nat.add_assoc, Nat.add_right_comm ys.size, Nat.add_assoc ys.size]

theorem modify (h : Corresponds f fresh R xs ys) (hf : f.Injective) (r : Nat) {g : α → α}
    {g' : β → β} (hg : ∀ x y, R r x y → R r (g x) (g' y)) :
    Corresponds f fresh R (xs.modify r g) (ys.modify (f r) g') := by
  refine ⟨fun q x hx => ?_, fun k => ?_, by simpa using h.size_le⟩
  · rw [Array.getElem?_modify] at hx
    rw [Array.getElem?_modify]
    split at hx
    · next hq =>
      subst hq
      obtain ⟨z, hz, rfl⟩ := Option.map_eq_some_iff.1 hx
      obtain ⟨y, hy, hzy⟩ := h.entry hz
      exact ⟨g' y, by rw [if_pos rfl, hy, Option.map_some], hg z y hzy⟩
    · next hq =>
      obtain ⟨y, hy, hxy⟩ := h.entry hx
      exact ⟨y, by rw [if_neg (mt (@hf r q) hq), hy], hxy⟩
  · simpa using h.next k

end Corresponds

/-- How the entries of a store are renamed, and what of it concerns the runs that are compared. -/
structure Matching where
  names : Renaming
  /-- All that the first run comes upon lies here. -/
  region : Node → Prop
  /-- Bindings that need not match. -/
  hidden : FrameRef → String → Bool

namespace Matching

variable (m : Matching)

def Holds (v : Value) : Prop := ∀ n ∈ v.node?, m.region n

def Plain (s : Store) (e : Value) : Prop := ∀ r name, m.hidden r name = true → ¬ s.Mentions name e

structure Cells (r : CellRef) (c c' : Cell) : Prop where
  renamed : c' = c.rename m.names
  holds : m.region (.cell r) → m.Holds c.head ∧ m.Holds c.tail

structure Closures (s : Store) (r : ClosureRef) (c c' : Closure) : Prop where
  renamed : c' = c.rename m.names
  holds : m.region (.closure r) →
    m.Holds c.parameters ∧ m.Holds c.body ∧ m.region (.frame c.scope)
  plain : m.region (.closure r) → m.Plain s c.body

structure Frames (r : FrameRef) (f f' : Frame) : Prop where
  renamed : f'.except (m.hidden r) = (f.except (m.hidden r)).rename m.names
  outer : m.region (.frame r) → ∀ o ∈ f.outer, m.region (.frame o)
  bound : m.region (.frame r) → ∀ b ∈ f.bindings, m.Holds b.2

end Matching

namespace Store

/-- The second store has the entries of the first under their new names, and maybe others. -/
structure Matches (m : Matching) (s s' : Store) : Prop where
  ready : s.Ready NoHook
  age : StrictMono m.names.frame
  cells : Corresponds m.names.cell (fun r => m.region (.cell r)) m.Cells s.cells s'.cells
  closures : Corresponds m.names.closure (fun r => m.region (.closure r)) (m.Closures s)
    s.closures s'.closures
  frames : Corresponds m.names.frame (fun r => m.region (.frame r)) m.Frames s.frames s'.frames

/-- A value of the first store that its run may come upon. -/
structure Knows (m : Matching) (s : Store) (v : Value) : Prop where
  admits : s.Admits NoHook v
  holds : m.Holds v

/-- An expression that it may evaluate. -/
structure Code (m : Matching) (s : Store) (e : Value) : Prop where
  knows : s.Knows m e
  plain : m.Plain s e

/-- A frame that it may evaluate in. -/
structure Located (m : Matching) (s : Store) (r : FrameRef) : Prop where
  lt : r < s.frames.size
  region : m.region (.frame r)

variable {m : Matching} {writable : FrameRef → String → Prop} {s s' t t' : Store}

theorem Knows.evolves {v : Value} (h : s.Knows m v) (he : Evolves NoHook writable s t) :
    t.Knows m v := ⟨h.admits.grows (Evolves.grows he), h.holds⟩

theorem Located.evolves {r : FrameRef} (h : s.Located m r) (he : Evolves NoHook writable s t) :
    t.Located m r := ⟨Nat.lt_of_lt_of_le h.lt (Evolves.grows he).frames, h.region⟩

theorem plain_evolves {e : Value} (hs : s.Sound NoHook) (h : m.Plain s e)
    (he : s.Admits NoHook e) (hev : Evolves NoHook writable s t) : m.Plain t e :=
  fun r name hn hm => h r name hn (hm.of_keepsCells hs (keepsCells_of_noHook hev) he)

theorem Code.evolves {e : Value} (hs : s.Sound NoHook) (h : s.Code m e)
    (he : Evolves NoHook writable s t) : t.Code m e :=
  ⟨h.knows.evolves he, plain_evolves hs h.plain h.knows.admits he⟩

theorem knows_atom {v : Value} (ha : s.Admits NoHook v) (hv : v.node? = none) : s.Knows m v :=
  ⟨ha, by simp [Matching.Holds, hv]⟩

theorem knows_cell {r : CellRef} (hr : r < s.cells.size) (h : m.region (.cell r)) :
    s.Knows m (.cell r) := ⟨hr, by rintro n ⟨⟩; exact h⟩

theorem knows_closure {r : ClosureRef} (hr : r < s.closures.size) (h : m.region (.closure r)) :
    s.Knows m (.closure r) := ⟨hr, by rintro n ⟨⟩; exact h⟩

namespace Matches

variable (h : s.Matches m s')

include h

theorem cell {r : CellRef} {c : Cell} (hv : s.Knows m (.cell r)) (hc : s.cells[r]? = some c) :
    s'.cells[m.names.cell r]? = some (c.rename m.names) ∧ s.Knows m c.head ∧
      s.Knows m c.tail := by
  obtain ⟨c', hc', hcc⟩ := h.cells.entry hc
  obtain ⟨hhead, htail⟩ := hcc.holds (hv.holds _ rfl)
  obtain ⟨hadmits, hadmits'⟩ := h.ready.sound.cell hc
  exact ⟨hcc.renamed ▸ hc', ⟨hadmits, hhead⟩, ⟨hadmits', htail⟩⟩

theorem exists_cell {r : CellRef} (hv : s.Knows m (.cell r)) : ∃ c, s.cells[r]? = some c ∧
    s'.cells[m.names.cell r]? = some (c.rename m.names) ∧ s.Knows m c.head ∧
      s.Knows m c.tail := by
  have hc := Array.getElem?_eq_getElem (show r < s.cells.size from hv.admits)
  exact ⟨_, hc, h.cell hv hc⟩

theorem exists_closure {r : ClosureRef} (hv : s.Knows m (.closure r)) : ∃ c,
    s.closures[r]? = some c ∧ s'.closures[m.names.closure r]? = some (c.rename m.names) ∧
      s.Knows m c.parameters ∧ s.Code m c.body ∧ s.Located m c.scope := by
  have hc := Array.getElem?_eq_getElem (show r < s.closures.size from hv.admits)
  obtain ⟨c', hc', hcc⟩ := h.closures.entry hc
  have hr := hv.holds _ rfl
  obtain ⟨hp, hb, hscope⟩ := hcc.holds hr
  obtain ⟨hpa, hba, hlt⟩ := h.ready.sound.closure hc
  exact ⟨_, hc, hcc.renamed ▸ hc', ⟨hpa, hp⟩, ⟨⟨hba, hb⟩, hcc.plain hr⟩, ⟨hlt, hscope⟩⟩

theorem ready_of_change (hc : Change NoHook (fun _ _ => True) s t) : t.Ready NoHook :=
  h.ready.evolves (fun hf => hf .setCdr rfl) (.single hc)

theorem closures_of_change (hc : Change NoHook (fun _ _ => True) s t) :
    Corresponds m.names.closure (fun r => m.region (.closure r)) (m.Closures t)
      s.closures s'.closures :=
  h.closures.mono fun _ _ _ hr hcc => ⟨hcc.renamed, hcc.holds, fun hregion =>
    plain_evolves h.ready.sound (hcc.plain hregion) (h.ready.sound.closure hr).2.1 (.single hc)⟩

theorem cons {a d : Value} (ha : s.Knows m a) (hd : s.Knows m d) :
    (s.cons a d).2.Matches m (s'.cons (a.rename m.names) (d.rename m.names)).2 ∧
      (s'.cons (a.rename m.names) (d.rename m.names)).1 = (s.cons a d).1.rename m.names ∧
      (s.cons a d).2.Knows m (s.cons a d).1 := by
  have hc : Change NoHook (fun _ _ => True) s (s.cons a d).2 := .cons ha.admits hd.admits
  refine ⟨⟨h.ready_of_change hc, h.age, h.cells.push ⟨rfl, fun _ => ⟨ha.holds, hd.holds⟩⟩,
    h.closures_of_change hc, h.frames⟩, congrArg Value.cell h.cells.size_eq.symm, ?_⟩
  exact knows_cell (by simp [Store.cons]) h.cells.fresh_size

theorem addClosure {c : Closure} (hp : s.Knows m c.parameters) (hb : s.Code m c.body)
    (hscope : s.Located m c.scope) :
    (s.addClosure c).2.Matches m (s'.addClosure (c.rename m.names)).2 ∧
      (s'.addClosure (c.rename m.names)).1 = m.names.closure (s.addClosure c).1 ∧
      (s.addClosure c).2.Knows m (.closure (s.addClosure c).1) := by
  have hc : Change NoHook (fun _ _ => True) s (s.addClosure c).2 :=
    .closure hp.admits hb.knows.admits hscope.lt
  have hnew : m.Closures (s.addClosure c).2 s.closures.size c (c.rename m.names) :=
    ⟨rfl, fun _ => ⟨hp.holds, hb.knows.holds, hscope.region⟩, fun _ =>
      plain_evolves h.ready.sound hb.plain hb.knows.admits (.single hc)⟩
  refine ⟨⟨h.ready_of_change hc, h.age, h.cells, (h.closures_of_change hc).push hnew, h.frames⟩,
    h.closures.size_eq.symm, ?_⟩
  exact knows_closure (by simp [Store.addClosure]) h.closures.fresh_size

theorem addFrame {f : Frame} (ho : ∀ o ∈ f.outer, s.Located m o)
    (hb : ∀ b ∈ f.bindings, s.Knows m b.2) :
    (s.addFrame f).2.Matches m (s'.addFrame (f.rename m.names)).2 ∧
      (s'.addFrame (f.rename m.names)).1 = m.names.frame (s.addFrame f).1 ∧
      (s.addFrame f).2.Located m (s.addFrame f).1 := by
  have hc : Change NoHook (fun _ _ => True) s (s.addFrame f).2 :=
    .frame (fun o h => (ho o h).lt) fun b h => (hb b h).admits
  refine ⟨⟨h.ready_of_change hc, h.age, h.cells, h.closures_of_change hc, h.frames.push
    ⟨Frame.except_rename _ f, fun _ o h => (ho o h).region, fun _ b h => (hb b h).holds⟩⟩,
    h.frames.size_eq.symm, ?_⟩
  exact ⟨by simp [Store.addFrame], h.frames.fresh_size⟩

theorem define (r : FrameRef) {name : String} (hname : ∀ q, m.hidden q name = false) {v : Value}
    (hv : s.Knows m v) :
    (s.define r name v).Matches m (s'.define (m.names.frame r) name (v.rename m.names)) := by
  have hc : Change NoHook (fun _ _ => True) s (s.define r name v) := .define trivial hv.admits
  have hframe : ∀ f f', m.Frames r f f' →
      m.Frames r (f.define name v) (f'.define name (v.rename m.names)) := by
    intro f f' hf
    refine ⟨?_, hf.outer, fun hr b hb => ?_⟩
    · rw [Frame.except_define (hname r), Frame.except_define (hname r), Frame.rename_define,
        hf.renamed]
    · rcases mem_put hb with hb | hb
      · exact hf.bound hr b hb
      · exact hb ▸ hv.holds
  exact ⟨h.ready_of_change hc, h.age, h.cells, h.closures_of_change hc,
    h.frames.modify h.age.injective r hframe⟩

theorem record (e e' : Event) : (s.record e).Matches m (s'.record e') :=
  ⟨h.ready_of_change (.record e), h.age, h.cells, h.closures_of_change (.record e), h.frames⟩

/-- A hidden binding of the second store may be any. -/
theorem define_hidden {r : FrameRef} {name : String} (hname : m.hidden r name = true) (v : Value) :
    s.Matches m (s'.define (m.names.frame r) name v) := by
  refine ⟨h.ready, h.age, h.cells, h.closures, fun q f hf => ?_, by
    simpa [Store.define] using h.frames.next, by simpa [Store.define] using h.frames.size_le⟩
  obtain ⟨f', hf', hff⟩ := h.frames.entry hf
  rw [define_frame]
  split
  · next hq =>
    obtain rfl := h.age.injective hq
    exact ⟨_, by rw [hf', Option.map_some], by rw [Frame.except_define_hidden hname, hff.renamed],
      hff.outer, hff.bound⟩
  · exact ⟨f', hf', hff⟩

end Matches

end Store

end MiniLisp
