import MiniLisp.Proofs.Rename.Evaluation

set_option autoImplicit false

namespace MiniLisp

open Store MiniLisp.Action

namespace Store

def Reaches (s : Store) : Node → Node → Prop := Relation.ReflTransGen fun n k => k ∈ s.nodes n

def InReach (s : Store) (e : Value) (frame : FrameRef) (n : Node) : Prop :=
  ∃ root ∈ Node.frame frame :: e.node?.toList, s.Reaches root n

/-- The stores are the same but for the value of a name in one frame, and for the place that it has
among the names there. -/
structure DiffersAt (q : FrameRef) (name : String) (v : Value) (s s' : Store) : Prop where
  cells : s'.cells = s.cells
  closures : s'.closures = s.closures
  frames : ∀ r, r ≠ q → s'.frames[r]? = s.frames[r]?
  frame : ∃ f f', s.frames[q]? = some f ∧ s'.frames[q]? = some f' ∧
    f'.except (· == name) = f.except (· == name) ∧ f'.get? name = some v

end Store

inductive EndsBut (q : FrameRef) (name : String) (v : Value) : Ending → Ending → Prop where
  | ok {w : Value} {t t' : Store} : t.DiffersAt q name v t' → EndsBut q name v (.ok w t) (.ok w t')
  | error {e : Error} {t t' : Store} : t.DiffersAt q name v t' →
      EndsBut q name v (.error e t) (.error e t')

theorem Corresponds.eq_map {α β : Type} {f : Nat → Nat} {fresh : Nat → Prop}
    {R : Nat → α → β → Prop} {xs : Array α} {ys : Array β} {g : α → β}
    (h : Corresponds f fresh R xs ys) (hf : f = id) (hR : ∀ r x y, R r x y → y = g x) :
    ys = xs.map g := by
  subst hf
  refine Array.ext_getElem? fun r => ?_
  rw [Array.getElem?_map]
  cases hx : xs[r]? with
  | some x =>
    obtain ⟨y, hy, hxy⟩ := h.entry hx
    exact hy.trans (congrArg some (hR r x y hxy))
  | none =>
    have hsize : xs.size = ys.size := h.size_eq
    exact Array.getElem?_eq_none (hsize ▸ Array.getElem?_eq_none_iff.1 hx)

theorem Corresponds.eq_of_same {α : Type} {fresh : Nat → Prop} {R : Nat → α → α → Prop}
    {xs ys : Array α} (h : Corresponds id fresh R xs ys) (hR : ∀ r x y, R r x y → y = x) :
    ys = xs := (h.eq_map rfl hR).trans (Array.map_id xs)

/-- All that an expression leads to, and all that is yet to come; there a name is hidden. -/
def Matching.hiding (s : Store) (e : Value) (frame q : FrameRef) (name : String) : Matching where
  names := .identity
  region n := s.InReach e frame n ∨ ¬ s.Has n
  hidden r n := decide (r = q) && n == name

section

variable {s t t' : Store} {e : Value} {frame q : FrameRef} {name : String}

theorem hiding_plain {v : Value} (h : ¬ t.Mentions name v) :
    (Matching.hiding s e frame q name).Plain t v := by
  intro r n hn hmention
  obtain ⟨-, hname⟩ := Bool.and_eq_true_iff.1 hn
  exact h (beq_iff_eq.1 hname ▸ hmention)

theorem matches_hiding (hs : s.Ready NoHook) (hcode : ∀ r c, s.InReach e frame (.closure r) →
    s.closures[r]? = some c → ¬ s.Mentions name c.body) (v : Value) :
    s.Matches (.hiding s e frame q name) (s.define q name v) := by
  have hself : s.Matches (.hiding s e frame q name) s := by
    refine matches_self hs (fun n hn => .inr hn) (fun n hn k hk => ?_) fun r c hr hc => ?_
    · rcases hn with ⟨root, hroot, hreach⟩ | hn
      · exact .inl ⟨root, hroot, hreach.tail hk⟩
      · -- What is yet to come leads nowhere so far.
        cases n with
        | cell r => simp [nodes, Array.getElem?_eq_none (Nat.not_lt.1 hn)] at hk
        | closure r => simp [nodes, Array.getElem?_eq_none (Nat.not_lt.1 hn)] at hk
        | frame r => simp [nodes, Array.getElem?_eq_none (Nat.not_lt.1 hn)] at hk
    · rcases hr with hr | hr
      · exact hiding_plain (hcode r c hr hc)
      · exact absurd (Array.getElem?_eq_some_iff.1 hc).1 hr
  have hhidden : (Matching.hiding s e frame q name).hidden q name = true := by
    simp [Matching.hiding]
  exact hself.define_hidden hhidden v

theorem differsAt_of_matches {v : Value} {f' : Frame}
    (h : t.Matches (.hiding s e frame q name) t') (hf' : t'.frames[q]? = some f')
    (hv : f'.get? name = some v) : t.DiffersAt q name v t' := by
  have hframe : ∀ (r : FrameRef) (f : Frame), t.frames[r]? = some f → ∃ f' : Frame,
      t'.frames[r]? = some f' ∧
      f'.except (fun n => decide (r = q) && n == name) =
        f.except (fun n => decide (r = q) && n == name) := by
    intro r f hf
    obtain ⟨g, hg, hfg⟩ := h.frames.entry hf
    exact ⟨g, hg, hfg.renamed.trans (Frame.rename_identity _)⟩
  have hsize : t.frames.size = t'.frames.size := h.frames.size_eq
  refine ⟨h.cells.eq_of_same fun r c c' hc => hc.renamed.trans c.rename_identity,
    h.closures.eq_of_same fun r c c' hc => hc.renamed.trans c.rename_identity, fun r hr => ?_, ?_⟩
  · cases hf : t.frames[r]? with
    | none => exact Array.getElem?_eq_none (hsize ▸ Array.getElem?_eq_none_iff.1 hf)
    | some f =>
      obtain ⟨g, hg, hfg⟩ := hframe r f hf
      simp only [hr, decide_false, Bool.false_and, Frame.except_none] at hfg
      rw [hg, hfg]
  · have hq : q < t.frames.size := hsize ▸ (Array.getElem?_eq_some_iff.1 hf').1
    obtain ⟨f, hf⟩ : ∃ f, t.frames[q]? = some f := ⟨_, Array.getElem?_eq_getElem hq⟩
    obtain ⟨g, hg, hfg⟩ := hframe q f hf
    obtain rfl := Option.some.inj (hf'.symm.trans hg)
    simp only [decide_true, Bool.true_and] at hfg
    exact ⟨f, f', hf, hf', hfg, hv⟩

theorem eval_keeps_binding (hs : s.Sound NoHook) (he : s.Admits NoHook e)
    (hf : frame < s.frames.size) (hname : ¬ s.Mentions name e) (hq : q < s.frames.size) (v : Value)
    (hv : s.Admits NoHook v) (limit : Nat) :
    ∃ f', ((eval limit e frame).after (s.define q name v)).frames[q]? = some f' ∧
      f'.get? name = some v := by
  have hchange : Change NoHook (fun _ _ => True) s (s.define q name v) := .define trivial hv
  have hg := hchange.grows
  have hrun := (runs_eval limit (hchange.sound hs) (he.grows hg)
    (Nat.lt_of_lt_of_le hf hg.frames)).1
  obtain ⟨f, hq⟩ : ∃ f, s.frames[q]? = some f := ⟨_, Array.getElem?_eq_getElem hq⟩
  have hbound : (s.define q name v).frames[q]? = some (f.define name v) := by
    rw [define_frame, if_pos rfl, hq, Option.map_some]
  obtain ⟨f', hf', hextends⟩ := Evolves.extends hrun hbound
  refine ⟨f', hf', ?_⟩
  rw [hextends.get? name fun hw => ?_, Frame.get?_define, if_pos rfl]
  rcases hw with hw | ⟨_, hw | hw⟩
  · exact absurd (Array.getElem?_eq_some_iff.1 hbound).1 (Nat.not_lt.2 hw)
  · exact hname (hw.mentions.of_keepsCells hs (keepsCells_of_noHook (.single hchange)) he)
  · exact not_hostWrites hw

end

/-- Binding a name that neither the expression nor the body of any function in its reach mentions
changes nothing but that binding.  Functions may have it as a parameter.  Every reachable store is
ready (`Reachable.ready_noHook`). -/
theorem eval_irrelevant_binding {s : Store} {e : Value} {frame q : FrameRef} {name : String}
    {v : Value} (hs : s.Ready NoHook) (he : s.Admits NoHook e) (hf : frame < s.frames.size)
    (hq : q < s.frames.size) (hv : s.Admits NoHook v) (hname : ¬ s.Mentions name e)
    (hcode : ∀ r c, s.InReach e frame (.closure r) → s.closures[r]? = some c →
      ¬ s.Mentions name c.body) (limit : Nat) :
    EndsBut q name v (eval limit e frame s) (eval limit e frame (s.define q name v)) := by
  have hroot : ∀ n ∈ Node.frame frame :: e.node?.toList, s.InReach e frame n :=
    fun n hn => ⟨n, hn, .refl⟩
  have hknows : s.Knows (.hiding s e frame q name) e :=
    ⟨he, fun n hn => .inl (hroot n (List.mem_cons_of_mem _ (Option.mem_toList.2 hn)))⟩
  have hecho := echoes_eval limit (matches_hiding hs hcode v) ⟨hknows, hiding_plain hname⟩
    ⟨hf, .inl (hroot _ (List.mem_cons_self ..))⟩
  have hsecond : eval limit (e.rename (Matching.hiding s e frame q name).names)
      ((Matching.hiding s e frame q name).names.frame frame) = eval limit e frame :=
    congrArg (eval limit · frame) e.rename_identity
  obtain ⟨f', hf', hbound⟩ := eval_keeps_binding hs.sound he hf hname hq v hv limit
  rw [hsecond] at hecho
  generalize eval limit e frame s = x at hecho
  generalize hy : eval limit e frame (s.define q name v) = y at hecho
  cases hecho with
  | excused he => exact he.elim
  | @ok w w' _ _ hst hw =>
    obtain rfl : w' = w := hw.1.trans w.rename_identity
    rw [after_eq_ok hy] at hf'
    exact .ok (differsAt_of_matches hst.2 hf' hbound)
  | error hst he =>
    subst he
    rw [after_eq_error hy] at hf'
    exact .error (differsAt_of_matches hst.2 hf' hbound)

/-- `(f NIL)` after `(defun f (y) (if y y ()))` in a global frame that may bind `if`. -/
theorem eval_irrelevant_binding_if :
    let p := Store.empty.addGlobal.2.load (.list [.symbol "defun", .symbol "f",
      .list [.symbol "y"] .nil, .list [.symbol "if", .symbol "y", .symbol "y", .nil] .nil] .nil)
    let c := ((eval 9 p.1 0).after p.2).load (.list [.symbol "f", .symbol "NIL"] .nil)
    let s := c.2
    (s.Ready NoHook ∧ s.Admits NoHook c.1 ∧ 0 < s.frames.size ∧ s.Admits NoHook (.symbol "z") ∧
      ¬ s.Mentions "if" c.1 ∧ ∀ r k, s.InReach c.1 0 (.closure r) → s.closures[r]? = some k →
        ¬ s.Mentions "if" k.body) ∧
    EndsBut 0 "if" (.symbol "z") (eval 9 c.1 0 s)
      (eval 9 c.1 0 (s.define 0 "if" (.symbol "z"))) := by
  intro p c s
  have hp : p.2.Admits NoHook p.1 := (@evolves_load NoHook (fun _ _ => True) _ _).2
  have hs : s.Ready NoHook := Reachable.ready_noHook
    (.load _ (.eval 9 (.load _ (.addGlobal .empty)) hp (by decide)))
  have he : s.Admits NoHook c.1 := (@evolves_load NoHook (fun _ _ => True) _ _).2
  have hf : 0 < s.frames.size := by decide +kernel
  have hv : s.Admits NoHook (.symbol "z") := trivial
  have hcall : s.Lists c.1 [.symbol "f", .symbol "NIL"] := lists_iff_chain_eq.2 (by decide +kernel)
  have hbody : s.Lists (.cell 4) [.symbol "if", .symbol "y", .symbol "y", .nil] :=
    lists_iff_chain_eq.2 (by decide +kernel)
  have hname : ¬ s.Mentions "if" c.1 := by
    rw [mentions_chain_iff hcall]
    simp [mentions_atom_iff]
  have hcode : ∀ r k, s.InReach c.1 0 (.closure r) → s.closures[r]? = some k →
      ¬ s.Mentions "if" k.body := by
    intro r k _ hk
    have hr : r < 1 := (Array.getElem?_eq_some_iff.1 hk).1
    have hfirst : s.closures[0]? = some ⟨.cell 0, .cell 4, 0⟩ := by decide +kernel
    obtain rfl := Nat.lt_one_iff.1 hr
    obtain rfl := Option.some.inj (hfirst.symm.trans hk)
    rw [mentions_chain_iff hbody]
    simp [mentions_atom_iff, Eval.specialForm?, SpecialForm.ofName?]
  exact ⟨⟨hs, he, hf, hv, hname, hcode⟩, eval_irrelevant_binding hs he hf hf hv hname hcode 9⟩

end MiniLisp
