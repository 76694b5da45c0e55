import MiniLisp.Proofs.Store.Tree
import MiniLisp.Store.Scope
import Mathlib.Logic.Relation

/-!
Sound stores and how they change.  In a sound store every reference has an entry, scopes stand
inside older ones, and of the values that only a host makes just those it admits occur.  A run
changes a store by small steps (`Change`), so an invariant is shown for one step and holds along
`Evolves`.
-/
set_option autoImplicit false

namespace MiniLisp

namespace Store

/-- The value has its entries in the store.  Those that no text denotes must be admitted by the
host. -/
def Admits (foreign : Value → Prop) (s : Store) : Value → Prop
  | .cell r => r < s.cells.size
  | .closure r => r < s.closures.size
  | .integer i => foreign (.integer i)
  | .bool b => foreign (.bool b)
  | .hook h => foreign (.hook h)
  | _ => True

structure Sound (foreign : Value → Prop) (s : Store) : Prop where
  cell : ∀ ⦃r : CellRef⦄ ⦃c : Cell⦄, s.cells[r]? = some c →
    s.Admits foreign c.head ∧ s.Admits foreign c.tail
  closure : ∀ ⦃r : ClosureRef⦄ ⦃c : Closure⦄, s.closures[r]? = some c →
    s.Admits foreign c.parameters ∧ s.Admits foreign c.body ∧ c.scope < s.frames.size
  outer : ∀ ⦃r : FrameRef⦄ ⦃f : Frame⦄, s.frames[r]? = some f → ∀ o ∈ f.outer, o < r
  bound : ∀ ⦃r : FrameRef⦄ ⦃f : Frame⦄, s.frames[r]? = some f →
    ∀ b ∈ f.bindings, s.Admits foreign b.2

structure Grows (s s' : Store) : Prop where
  cells : s.cells.size ≤ s'.cells.size
  closures : s.closures.size ≤ s'.closures.size
  frames : s.frames.size ≤ s'.frames.size

theorem Grows.refl (s : Store) : s.Grows s := ⟨Nat.le_refl _, Nat.le_refl _, Nat.le_refl _⟩

theorem Grows.trans {s₁ s₂ s₃ : Store} (h : s₁.Grows s₂) (h' : s₂.Grows s₃) : s₁.Grows s₃ :=
  ⟨Nat.le_trans h.cells h'.cells, Nat.le_trans h.closures h'.closures,
    Nat.le_trans h.frames h'.frames⟩

section

variable {foreign : Value → Prop} {s s' : Store}

theorem Admits.grows {v : Value} (h : s.Admits foreign v) (hg : s.Grows s') :
    s'.Admits foreign v := by
  cases v with
  | cell r => exact Nat.lt_of_lt_of_le h hg.cells
  | closure r => exact Nat.lt_of_lt_of_le h hg.closures
  | _ => exact h

/-- One step of a run.  `writable` says which names of which frames it may define. -/
inductive Change (foreign : Value → Prop) (writable : FrameRef → String → Prop) (s : Store) :
    Store → Prop where
  | cons {a d : Value} : s.Admits foreign a → s.Admits foreign d →
      Change foreign writable s (s.cons a d).2
  | setHead {r : CellRef} {c : Cell} {v : Value} : foreign (.hook .setCar) →
      s.cells[r]? = some c → s.Admits foreign v →
      Change foreign writable s (s.setCell r { c with head := v })
  | setTail {r : CellRef} {c : Cell} {v : Value} : foreign (.hook .setCdr) →
      s.cells[r]? = some c → s.Admits foreign v →
      Change foreign writable s (s.setCell r { c with tail := v })
  | closure {c : Closure} : s.Admits foreign c.parameters → s.Admits foreign c.body →
      c.scope < s.frames.size → Change foreign writable s (s.addClosure c).2
  | frame {f : Frame} : (∀ o ∈ f.outer, o < s.frames.size) →
      (∀ b ∈ f.bindings, s.Admits foreign b.2) → Change foreign writable s (s.addFrame f).2
  | define {r : FrameRef} {name : String} {v : Value} : writable r name → s.Admits foreign v →
      Change foreign writable s (s.define r name v)
  | record (e : Event) : Change foreign writable s (s.record e)

abbrev Evolves (foreign : Value → Prop) (writable : FrameRef → String → Prop) :
    Store → Store → Prop := Relation.ReflTransGen (Change foreign writable)

variable {writable : FrameRef → String → Prop}

theorem Change.grows (h : Change foreign writable s s') : s.Grows s' := by
  cases h <;> constructor <;> simp [Store.cons, setCell, addClosure, addFrame, Store.define,
    Store.record]

theorem Evolves.grows (h : Evolves foreign writable s s') : s.Grows s' := by
  induction h with
  | refl => exact .refl s
  | tail _ hc ih => exact ih.trans hc.grows

theorem Evolves.weaken {wider : FrameRef → String → Prop} (h : Evolves foreign writable s s')
    (hw : ∀ q n, writable q n → wider q n) : Evolves foreign wider s s' := by
  refine Relation.ReflTransGen.mono (fun s s' hc => ?_) _ _ h
  cases hc with
  | cons ha hd => exact .cons ha hd
  | setHead hf hc hv => exact .setHead hf hc hv
  | setTail hf hc hv => exact .setTail hf hc hv
  | closure hp hb hs => exact .closure hp hb hs
  | frame ho hb => exact .frame ho hb
  | define hr hv => exact .define (hw _ _ hr) hv
  | record e => exact .record e

theorem mem_put {name : String} {v : Value} {bs : List (String × Value)} {b : String × Value}
    (h : b ∈ Frame.put name v bs) : b ∈ bs ∨ b.2 = v := by
  induction bs with
  | nil => exact .inr (congrArg Prod.snd (List.mem_singleton.1 h))
  | cons c bs ih =>
    rw [Frame.put] at h
    split at h
    · rcases List.mem_cons.1 h with h | h
      · exact .inr (congrArg Prod.snd h)
      · exact .inl (List.mem_cons_of_mem _ h)
    · rcases List.mem_cons.1 h with h | h
      · exact .inl (h ▸ List.mem_cons_self ..)
      · exact (ih h).imp_left (List.mem_cons_of_mem _)

theorem define_frame (s : Store) (r q : FrameRef) (name : String) (v : Value) :
    (s.define r name v).frames[q]? =
      if r = q then s.frames[q]?.map (·.define name v) else s.frames[q]? := by
  rw [Store.define, Array.getElem?_modify]

theorem Sound.setCell (hs : s.Sound foreign) (r : CellRef) {c : Cell}
    (hh : s.Admits foreign c.head) (ht : s.Admits foreign c.tail) :
    (s.setCell r c).Sound foreign := by
  have hg : s.Grows (s.setCell r c) := by constructor <;> simp [Store.setCell]
  refine ⟨fun q d hd => ?_, fun q d hd => ?_, hs.outer, fun q f hf b hb => ?_⟩
  · rw [Store.setCell, Array.getElem?_setIfInBounds] at hd
    split at hd
    · split at hd
      · obtain rfl := Option.some.inj hd
        exact ⟨hh.grows hg, ht.grows hg⟩
      · cases hd
    · exact ⟨(hs.cell hd).1.grows hg, (hs.cell hd).2.grows hg⟩
  · exact ⟨(hs.closure hd).1.grows hg, (hs.closure hd).2.1.grows hg, (hs.closure hd).2.2⟩
  · exact (hs.bound hf b hb).grows hg

theorem Change.sound (h : Change foreign writable s s') (hs : s.Sound foreign) :
    s'.Sound foreign := by
  have hg := h.grows
  have hclosure : ∀ ⦃c : Closure⦄, s.Admits foreign c.parameters ∧ s.Admits foreign c.body ∧
      c.scope < s.frames.size → s'.Admits foreign c.parameters ∧ s'.Admits foreign c.body ∧
      c.scope < s'.frames.size := fun c hc =>
    ⟨hc.1.grows hg, hc.2.1.grows hg, Nat.lt_of_lt_of_le hc.2.2 hg.frames⟩
  have hbound : ∀ ⦃r : FrameRef⦄ ⦃f : Frame⦄, s.frames[r]? = some f →
      ∀ b ∈ f.bindings, s'.Admits foreign b.2 := fun r f hf b hb => (hs.bound hf b hb).grows hg
  have hcell : ∀ ⦃r : CellRef⦄ ⦃c : Cell⦄, s.cells[r]? = some c →
      s'.Admits foreign c.head ∧ s'.Admits foreign c.tail := fun r c hc =>
    ⟨(hs.cell hc).1.grows hg, (hs.cell hc).2.grows hg⟩
  cases h with
  | @cons a d ha hd =>
    refine ⟨fun r c hc => ?_, fun r c hc => hclosure (hs.closure hc), hs.outer, hbound⟩
    rw [Store.cons, Array.getElem?_push] at hc
    split at hc
    · obtain rfl := Option.some.inj hc
      exact ⟨ha.grows hg, hd.grows hg⟩
    · exact hcell hc
  | setHead _ hc hv => exact hs.setCell _ hv (hs.cell hc).2
  | setTail _ hc hv => exact hs.setCell _ (hs.cell hc).1 hv
  | @closure c hp hb hscope =>
    refine ⟨hcell, fun r d hd => ?_, hs.outer, hbound⟩
    rw [addClosure, Array.getElem?_push] at hd
    split at hd
    · obtain rfl := Option.some.inj hd
      exact hclosure ⟨hp, hb, hscope⟩
    · exact hclosure (hs.closure hd)
  | @frame f ho hb =>
    refine ⟨hcell, fun r c hc => hclosure (hs.closure hc), fun r g hg' => ?_, fun r g hg' => ?_⟩
    · rw [addFrame, Array.getElem?_push] at hg'
      split at hg'
      · obtain rfl := Option.some.inj hg'
        subst r
        exact ho
      · exact hs.outer hg'
    · rw [addFrame, Array.getElem?_push] at hg'
      split at hg'
      · obtain rfl := Option.some.inj hg'
        exact fun b hb' => (hb b hb').grows hg
      · exact hbound hg'
  | @define r name v _ hv =>
    refine ⟨hcell, fun r c hc => hclosure (hs.closure hc), fun q g hg' => ?_, fun q g hg' => ?_⟩
    · rw [define_frame] at hg'
      split at hg'
      · obtain ⟨f, hf, rfl⟩ := Option.map_eq_some_iff.1 hg'
        have ho : ∀ o ∈ f.outer, o < q := hs.outer hf
        exact ho
      · exact hs.outer hg'
    · rw [define_frame] at hg'
      split at hg'
      · obtain ⟨f, hf, rfl⟩ := Option.map_eq_some_iff.1 hg'
        intro b hb
        rcases mem_put hb with hb | hb
        · exact hbound hf b hb
        · exact hb ▸ hv.grows hg
      · exact hbound hg'
  | record e => exact ⟨hcell, fun r c hc => hclosure (hs.closure hc), hs.outer, hbound⟩

theorem Evolves.sound (h : Evolves foreign writable s s') (hs : s.Sound foreign) :
    s'.Sound foreign := by
  induction h with
  | refl => exact hs
  | tail _ hc ih => exact hc.sound ih

theorem Chain.admits (hs : s.Sound foreign) {v last : Value} {items : List Value}
    (h : s.Chain v items last) (hv : s.Admits foreign v) :
    (∀ i ∈ items, s.Admits foreign i) ∧ s.Admits foreign last := by
  induction h with
  | stop _ => exact ⟨List.forall_mem_nil _, hv⟩
  | link hc _ ih =>
    obtain ⟨hi, hl⟩ := ih (hs.cell hc).2
    exact ⟨List.forall_mem_cons.2 ⟨(hs.cell hc).1, hi⟩, hl⟩

theorem evolves_list {items : List Value} {tail : Value}
    (hi : ∀ i ∈ items, s.Admits foreign i) (ht : s.Admits foreign tail) :
    Evolves foreign writable s (s.list items tail).2 ∧
      (s.list items tail).2.Admits foreign (s.list items tail).1 := by
  induction items with
  | nil => exact ⟨.refl, ht⟩
  | cons x xs ih =>
    obtain ⟨hx, hxs⟩ := List.forall_mem_cons.1 hi
    obtain ⟨he, ha⟩ := ih hxs
    refine ⟨he.tail (.cons (hx.grows he.grows) ha), ?_⟩
    simp [Admits, Store.list, Store.cons]

theorem Change.keepsCells (h : Change foreign writable s s') (hcar : ¬ foreign (.hook .setCar))
    (hcdr : ¬ foreign (.hook .setCdr)) : s.KeepsCells s' := by
  cases h with
  | cons _ _ => exact keepsCells_cons _ _ _
  | setHead hf _ _ => exact absurd hf hcar
  | setTail hf _ _ => exact absurd hf hcdr
  | _ => exact .refl s

theorem Evolves.keepsCells (h : Evolves foreign writable s s')
    (hcar : ¬ foreign (.hook .setCar)) (hcdr : ¬ foreign (.hook .setCdr)) : s.KeepsCells s' := by
  induction h with
  | refl => exact .refl s
  | tail _ hc ih => exact ih.trans (hc.keepsCells hcar hcdr)

theorem Change.keepsFrame (h : Change foreign writable s s') {q : FrameRef}
    (hq : q < s.frames.size) (hw : ∀ n, ¬ writable q n) : s'.frames[q]? = s.frames[q]? := by
  cases h with
  | frame _ _ => rw [addFrame, Array.getElem?_push_lt hq, Array.getElem?_eq_getElem hq]
  | @define r name v hr _ =>
    have hne : r ≠ q := by
      intro h
      subst h
      exact hw name hr
    rw [define_frame, if_neg hne]
  | _ => rfl

theorem Evolves.keepsFrame (h : Evolves foreign writable s s') {q : FrameRef}
    (hq : q < s.frames.size) (hw : ∀ n, ¬ writable q n) : s'.frames[q]? = s.frames[q]? := by
  induction h with
  | refl => rfl
  | tail hb hc ih =>
    have hgrows := Evolves.grows hb
    rw [hc.keepsFrame (Nat.lt_of_lt_of_le hq hgrows.frames) hw, ih]

end

end Store

namespace Frame

/-- The second frame stands where the first one does and has its names, in their order.  Beyond them
and under new values it has the names of `may` only. -/
structure Extends (may : String → Prop) (f f' : Frame) : Prop where
  outer : f'.outer = f.outer
  names : f.bindings.map Prod.fst <+: f'.bindings.map Prod.fst
  get? : ∀ n, ¬ may n → f'.get? n = f.get? n

theorem Extends.refl (may : String → Prop) (f : Frame) : f.Extends may f :=
  ⟨rfl, List.prefix_rfl, fun _ _ => rfl⟩

theorem Extends.trans {may : String → Prop} {f₁ f₂ f₃ : Frame} (h : f₁.Extends may f₂)
    (h' : f₂.Extends may f₃) : f₁.Extends may f₃ :=
  ⟨h'.outer.trans h.outer, h.names.trans h'.names, fun n hn => (h'.get? n hn).trans (h.get? n hn)⟩

theorem extends_define {may : String → Prop} (f : Frame) {name : String} (h : may name)
    (v : Value) : f.Extends may (f.define name v) := by
  refine ⟨rfl, ?_, fun n hn => ?_⟩
  · have hnames := names_put name v f.bindings
    rw [define, hnames]
    split
    · exact List.prefix_rfl
    · exact List.prefix_append _ _
  · have hne : n ≠ name := by
      intro h'
      subst h'
      exact hn h
    rw [get?_define, if_neg hne]

end Frame

namespace Store

variable {foreign : Value → Prop} {writable : FrameRef → String → Prop} {s s' : Store}

theorem Change.extends (h : Change foreign writable s s') {q : FrameRef} {f : Frame}
    (hf : s.frames[q]? = some f) : ∃ f', s'.frames[q]? = some f' ∧ f.Extends (writable q) f' := by
  have hq := (Array.getElem?_eq_some_iff.1 hf).1
  cases h with
  | frame _ _ => exact ⟨f, by rw [addFrame, Array.getElem?_push_lt hq, ← hf,
      Array.getElem?_eq_getElem hq], .refl _ f⟩
  | @define r name v hr _ =>
    rw [define_frame]
    split
    · next h =>
      subst h
      exact ⟨_, by rw [hf]; rfl, f.extends_define hr v⟩
    · exact ⟨f, hf, .refl _ f⟩
  | _ => exact ⟨f, hf, .refl _ f⟩

theorem Evolves.extends (h : Evolves foreign writable s s') {q : FrameRef} {f : Frame}
    (hf : s.frames[q]? = some f) : ∃ f', s'.frames[q]? = some f' ∧ f.Extends (writable q) f' := by
  induction h with
  | refl => exact ⟨f, hf, .refl _ f⟩
  | tail _ hc ih =>
    obtain ⟨f', hf', he⟩ := ih
    obtain ⟨f'', hf'', he'⟩ := hc.extends hf'
    exact ⟨f'', hf'', he.trans he'⟩

def ChainsEnd (s : Store) : Prop :=
  ∀ r < s.cells.size, ∃ items last, s.Chain (.cell r) items last

theorem Chain.mono {v last : Value} {items : List Value} (hk : s.KeepsCells s')
    (h : s.Chain v items last) : s'.Chain v items last := by
  induction h with
  | stop hv => exact .stop hv
  | link hc _ ih => exact .link (hk hc) ih

theorem ChainsEnd.chain (hc : s.ChainsEnd) {v : Value} (hv : s.Admits foreign v) :
    ∃ items last, s.Chain v items last := by
  cases v with
  | cell r => exact hc r hv
  | _ => exact ⟨[], _, .stop (by simp)⟩

theorem ChainsEnd.of_cells_eq (hs : s.ChainsEnd) (h : s'.cells = s.cells) : s'.ChainsEnd := by
  intro r hr
  rw [h] at hr
  obtain ⟨items, last, hchain⟩ := hs r hr
  exact ⟨items, last, hchain.mono fun q c hc => by rw [h, hc]⟩

theorem Chain.setHead {r : CellRef} {c : Cell} (hc : s.cells[r]? = some c) (w : Value)
    {v last : Value} {items : List Value} (h : s.Chain v items last) :
    ∃ items, (s.setCell r { c with head := w }).Chain v items last := by
  induction h with
  | stop hv => exact ⟨_, .stop hv⟩
  | @link q d items last hd _ ih =>
    obtain ⟨items, ht⟩ := ih
    have hq := (Array.getElem?_eq_some_iff.1 hd).1
    have hcell : ∃ e : Cell, (s.setCell r { c with head := w }).cells[q]? = some e ∧
        e.tail = d.tail := by
      rw [setCell, Array.getElem?_setIfInBounds]
      split
      · next h =>
        subst h
        obtain rfl := Option.some.inj (hc.symm.trans hd)
        exact ⟨_, if_pos hq, rfl⟩
      · exact ⟨d, hd, rfl⟩
    obtain ⟨e, he, htail⟩ := hcell
    exact ⟨_, .link he (htail ▸ ht)⟩

theorem Change.chainsEnd (h : Change foreign writable s s') (hcdr : ¬ foreign (.hook .setCdr))
    (hs : s.ChainsEnd) : s'.ChainsEnd := by
  cases h with
  | @cons a d ha hd =>
    intro r hr
    have hk := keepsCells_cons s a d
    rw [Store.cons, Array.size_push] at hr
    rcases Nat.lt_succ_iff_lt_or_eq.1 hr with hr | hr
    · obtain ⟨items, last, hchain⟩ := hs r hr
      exact ⟨items, last, hchain.mono hk⟩
    · subst hr
      obtain ⟨items, last, hchain⟩ := hs.chain hd
      exact ⟨_, last, .link (cons_new s a d) (hchain.mono hk)⟩
  | @setHead r c v _ hc _ =>
    intro q hq
    rw [setCell, Array.size_setIfInBounds] at hq
    obtain ⟨items, last, hchain⟩ := hs q hq
    obtain ⟨items, hchain⟩ := hchain.setHead hc v
    exact ⟨items, last, hchain⟩
  | setTail hf _ _ => exact absurd hf hcdr
  | _ => exact hs.of_cells_eq rfl

theorem Evolves.chainsEnd (h : Evolves foreign writable s s') (hcdr : ¬ foreign (.hook .setCdr))
    (hs : s.ChainsEnd) : s'.ChainsEnd := by
  induction h with
  | refl => exact hs
  | tail _ hc ih => exact hc.chainsEnd hcdr ih

structure Ready (foreign : Value → Prop) (s : Store) : Prop where
  sound : s.Sound foreign
  chainsEnd : s.ChainsEnd

theorem Ready.evolves (hcdr : ¬ foreign (.hook .setCdr)) (hs : s.Ready foreign)
    (h : Evolves foreign writable s s') : s'.Ready foreign :=
  ⟨h.sound hs.sound, h.chainsEnd hcdr hs.chainsEnd⟩

end Store
end MiniLisp
