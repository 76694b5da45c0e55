import MiniLisp.Proofs.Store.Position

/-!
What structural equality means.  On stores without cycles an answer of the comparison is that of a
descent without a bound (`equal_iff_equals`).  It is symmetric and transitive, also where it takes a
cell with NaN inside for equal to itself; without NaN, values are equal whose trees are, whatever
cells they share.  Where heads are nested too deeply for the room there is no answer
(`equality_laws`).
-/
set_option autoImplicit false

namespace MiniLisp

namespace Value

inductive Agree : Value → Value → Prop where
  | cells (q r : CellRef) : Agree (.cell q) (.cell r)
  | atoms {v w : Value} : (∀ r, v ≠ .cell r) → (∀ r, w ≠ .cell r) → v.equalAtoms w = true →
      Agree v w

end Value

namespace Store

/-- A descent that ends and meets nothing that tells the values apart. -/
inductive Equals (s : Store) : Value → Value → Prop where
  | same (r : CellRef) : s.Equals (.cell r) (.cell r)
  | cells {q r : CellRef} {c d : Cell} : q ≠ r → s.cells[q]? = some c → s.cells[r]? = some d →
      s.Equals c.head d.head → s.Equals c.tail d.tail → s.Equals (.cell q) (.cell r)
  | atoms {v w : Value} : (∀ r, v ≠ .cell r) → (∀ r, w ≠ .cell r) → v.equalAtoms w = true →
      s.Equals v w

/-- From two distinct cells a descent goes to their heads and to their tails. -/
inductive Descends (s : Store) : Value × Value → Value × Value → Prop where
  | heads {q r : CellRef} {c d : Cell} : q ≠ r → s.cells[q]? = some c → s.cells[r]? = some d →
      s.Descends (.cell q, .cell r) (c.head, d.head)
  | tails {q r : CellRef} {c d : Cell} : q ≠ r → s.cells[q]? = some c → s.cells[r]? = some d →
      s.Descends (.cell q, .cell r) (c.tail, d.tail)

abbrev Meets (s : Store) (a b v w : Value) : Prop :=
  Relation.ReflTransGen s.Descends (a, b) (v, w)

variable {foreign : Value → Prop} {s t : Store} {a b c v w : Value} {n : Nat}

theorem Equals.agree (h : s.Equals v w) : v.Agree w := by
  cases h with
  | same r => exact .cells r r
  | cells _ _ _ _ _ => exact .cells _ _
  | atoms hv hw h => exact .atoms hv hw h

theorem Equals.refl (h : v ≠ .number .nan) : s.Equals v v := by
  by_cases hcell : ∃ r, v = .cell r
  · obtain ⟨r, rfl⟩ := hcell
    exact .same r
  · have hv : ∀ r, v ≠ .cell r := fun r hr => hcell ⟨r, hr⟩
    exact .atoms hv hv (Value.equalAtoms_self h)

theorem equals_iff_equalAtoms (hcells : ¬ ∃ q r, v = .cell q ∧ w = .cell r) :
    s.Equals v w ↔ v.equalAtoms w = true := by
  constructor
  · intro h
    cases h with
    | same r => exact absurd ⟨r, r, rfl, rfl⟩ hcells
    | @cells q r => exact absurd ⟨q, r, rfl, rfl⟩ hcells
    | atoms _ _ h => exact h
  · intro h
    obtain ⟨hv, hw⟩ := Value.equalAtoms_ne_cell hcells h
    exact .atoms hv hw h

theorem equals_cells_iff {q r : CellRef} {c d : Cell} (hne : q ≠ r) (hc : s.cells[q]? = some c)
    (hd : s.cells[r]? = some d) :
    s.Equals (.cell q) (.cell r) ↔ s.Equals c.head d.head ∧ s.Equals c.tail d.tail := by
  constructor
  · intro h
    cases h with
    | same _ => exact absurd rfl hne
    | cells _ hc' hd' hh ht =>
      obtain rfl := Option.some.inj (hc.symm.trans hc')
      obtain rfl := Option.some.inj (hd.symm.trans hd')
      exact ⟨hh, ht⟩
    | atoms hv _ _ => exact absurd rfl (hv q)
  · exact fun ⟨hh, ht⟩ => .cells hne hc hd hh ht

theorem equalAlong_iff_equals {equal : Value → Value → Except Error Bool} {fuel : Nat} {same : Bool}
    (h : DecidesAtoms equal)
    (hequal : ∀ v w same, s.Layered s.cells.size v → equal v w = .ok same →
      (same = true ↔ s.Equals v w))
    (hv : s.Layered fuel v) (hsame : s.equalAlong equal fuel v w = .ok same) :
    same = true ↔ s.Equals v w := by
  have hplace := s.along fuel v w
  induction hplace with
  | atoms hcells =>
    rw [equalAlong_atoms hcells] at hsame
    rw [equals_iff_equalAtoms hcells, Except.ok.inj hsame]
  | self r =>
    rw [equalAlong_self] at hsame
    exact iff_of_true (Except.ok.inj hsame).symm (.same r)
  | @stop fuel q r hne hstop =>
    rw [equalAlong_stop hne hstop] at hsame
    refine iff_of_false (by simp [← Except.ok.inj hsame]) fun hequals => ?_
    cases hequals with
    | same _ => exact hne rfl
    | cells _ hc hd _ _ =>
      cases hv with
      | atom hv => exact hv q rfl
      | cell _ _ _ => simp [hc, hd] at hstop
    | atoms hq _ _ => exact hq q rfl
  | @cells fuel q r c d hne hc hd _ ih =>
    cases hv with
    | atom hv => exact absurd rfl (hv q)
    | cell hc' hhead htail =>
      obtain rfl := Option.some.inj (hc.symm.trans hc')
      rw [equalAlong_cells h hne hc hd] at hsame
      rw [equals_cells_iff hne hc hd]
      cases hheads : equal c.head d.head with
      | error e =>
        rw [hheads] at hsame
        cases hsame
      | ok found =>
        rw [hheads] at hsame
        have hfound := hequal _ _ _ hhead.within_size hheads
        cases found with
        | false =>
          refine iff_of_false (by simp [← Except.ok.inj hsame]) fun hequals => ?_
          cases hfound.2 hequals.1
        | true =>
          exact (ih htail hsame).trans (and_iff_right (hfound.1 rfl)).symm

theorem Layered.equal_iff_equals {room : Nat} {same : Bool} (h : s.Layered s.cells.size v)
    (hsame : s.equal room v w = .ok same) : same = true ↔ s.Equals v w := by
  induction room using room_induction 2 generalizing v w same with
  | short room hroom =>
    have hcells := not_cells_of_short hroom hsame
    rw [s.decidesAtoms_equal room v w hcells] at hsame
    rw [equals_iff_equalAtoms hcells, Except.ok.inj hsame]
  | call room ih =>
    exact equalAlong_iff_equals (s.decidesAtoms_equal room) (fun v w same hv => ih hv) h hsame

theorem Layered.headed (h : s.Layered n v) : s.Headed n v := by
  induction h with
  | atom hv => exact .atom hv
  | cell hc _ _ ihh iht => exact .cell hc ihh (iht.mono (Nat.le_succ _) (.refl s))

theorem Equals.of_step (h : s.Equals a b) (hstep : s.Descends (a, b) (v, w)) : s.Equals v w := by
  cases hstep with
  | heads hne hc hd =>
    cases h with
    | same _ => exact absurd rfl hne
    | cells _ hc' hd' hh _ =>
      obtain rfl := Option.some.inj (hc.symm.trans hc')
      obtain rfl := Option.some.inj (hd.symm.trans hd')
      exact hh
    | atoms hv _ _ => exact absurd rfl (hv _)
  | tails hne hc hd =>
    cases h with
    | same _ => exact absurd rfl hne
    | cells _ hc' hd' _ ht =>
      obtain rfl := Option.some.inj (hc.symm.trans hc')
      obtain rfl := Option.some.inj (hd.symm.trans hd')
      exact ht
    | atoms hv _ _ => exact absurd rfl (hv _)

theorem Equals.of_meets (h : s.Equals a b) (hmeets : s.Meets a b v w) : s.Equals v w := by
  -- The induction is on the last step, so the pair that it leads to has to be a variable.
  have hpair : ∀ p, Relation.ReflTransGen s.Descends (a, b) p → s.Equals p.1 p.2 := by
    intro p hp
    induction hp with
    | refl => exact h
    | tail _ hstep ih => exact ih.of_step hstep
  exact hpair _ hmeets

/-- The descent from a value that ends, however often it comes by the same cells. -/
theorem equals_of_meets (hs : s.Sound foreign) (h : s.Layered n a) (hb : s.Admits foreign b)
    (hmeets : ∀ v w, s.Meets a b v w → v.Agree w) : s.Equals a b := by
  induction h generalizing b with
  | atom ha =>
    cases hmeets _ _ .refl with
    | cells q _ => exact absurd rfl (ha q)
    | atoms _ hb h => exact .atoms ha hb h
  | @cell n q c hc _ _ ihh iht =>
    cases hmeets _ _ .refl with
    | cells _ r =>
      by_cases hqr : q = r
      · exact hqr ▸ .same q
      · obtain ⟨d, hd⟩ : ∃ d, s.cells[r]? = some d := ⟨_, Array.getElem?_eq_getElem hb⟩
        exact .cells hqr hc hd
          (ihh (hs.cell hd).1 fun v w h => hmeets v w (.head (.heads hqr hc hd) h))
          (iht (hs.cell hd).2 fun v w h => hmeets v w (.head (.tails hqr hc hd) h))
    | atoms hv _ _ => exact absurd rfl (hv q)

theorem rel_agree_self (h : ¬ s.HoldsNaN v) (path : List Side) :
    Option.Rel Value.Agree (s.follow path v) (s.follow path v) := by
  cases hw : s.follow path v with
  | none => exact .none
  | some w =>
    refine .some (Equals.refl (s := s) fun hnan => h ⟨path, ?_⟩).agree
    rw [hw, hnan]

theorem Equals.rel_follow (h : s.Equals a b) (hnan : ¬ s.HoldsNaN a) (path : List Side) :
    Option.Rel Value.Agree (s.follow path a) (s.follow path b) := by
  induction path generalizing a b with
  | nil => exact .some h.agree
  | cons side path ih =>
    cases h with
    | same r => exact rel_agree_self hnan _
    | cells hne hc hd hh ht =>
      rw [follow_cell hc, follow_cell hd]
      cases side with
      | head => exact ih hh fun h => hnan (h.of_side hc .head)
      | tail => exact ih ht fun h => hnan (h.of_side hc .tail)
    | atoms hv hw _ =>
      rw [follow_atom hv, follow_atom hw]
      exact .none

theorem equals_of_follow (hs : s.Sound foreign) (h : s.Layered n a) (hb : s.Admits foreign b)
    (hrel : ∀ path, Option.Rel Value.Agree (s.follow path a) (s.follow path b)) :
    s.Equals a b := by
  induction h generalizing b with
  | atom ha =>
    cases hrel [] with
    | some hagree =>
      cases hagree with
      | cells q _ => exact absurd rfl (ha q)
      | atoms _ hb h => exact .atoms ha hb h
  | @cell n q c hc _ _ ihh iht =>
    cases hrel [] with
    | some hagree =>
      cases hagree with
      | cells _ r =>
        obtain ⟨d, hd⟩ : ∃ d, s.cells[r]? = some d := ⟨_, Array.getElem?_eq_getElem hb⟩
        have hside : ∀ side path, Option.Rel Value.Agree (s.follow path (c.side side))
            (s.follow path (d.side side)) := by
          intro side path
          have := hrel (side :: path)
          rwa [follow_cell hc, follow_cell hd] at this
        by_cases hqr : q = r
        · exact hqr ▸ .same q
        · exact .cells hqr hc hd (ihh (hs.cell hd).1 (hside .head))
            (iht (hs.cell hd).2 (hside .tail))
      | atoms hv _ _ => exact absurd rfl (hv q)

/-- Equality cannot tell a value from another one with the same tree, if there is no NaN in it.  A
descent that passes over what is one and the same cell decides in every case.  The only error is that
both values are nested too deeply in their heads. -/
structure EqualityLaws (foreign : Value → Prop) (s : Store) : Prop where
  symm : ∀ room a b, s.equal room a b = s.equal room b a
  trans : ∀ room a b c, s.equal room a b = .ok true → s.equal room b c = .ok true →
    s.equal room a c = .ok true
  self : ∀ room r, s.equal (room + 3) (.cell r) (.cell r) = .ok true
  differ : ∀ room a b, s.differ room a b = (s.equal room a b).map (!·)
  apart : ∀ room r v, (∀ q, v ≠ .cell q) →
    s.equal room (.cell r) v = .ok false ∧ s.equal room v (.cell r) = .ok false
  trees : ∀ room a b same, s.Admits foreign a → s.Admits foreign b → ¬ s.HoldsNaN a →
    ¬ s.HoldsNaN b → s.equal room a b = .ok same →
      (same = true ↔ ∀ path, Option.Rel Value.Agree (s.follow path a) (s.follow path b))
  descent : ∀ room a b same, s.Admits foreign a → s.Admits foreign b →
    s.equal room a b = .ok same → (same = true ↔ ∀ v w, s.Meets a b v w → v.Agree w)
  answers : ∀ n room a b, s.Headed n a ∨ s.Headed n b → 3 * n ≤ room →
    ∃ same, s.equal room a b = .ok same
  headed : ∀ a, s.Admits foreign a → s.Headed s.cells.size a
  error : ∀ room a b e, s.equal room a b = .error e → e = .recursionTooDeep
  more : ∀ room a b same, s.equal room a b = .ok same → ∀ more, room ≤ more →
    s.equal more a b = .ok same

end Store

open Store

theorem equality_laws {foreign : Value → Prop} {s : Store} (hs : s.Sound foreign)
    (ha : s.Acyclic) : s.EqualityLaws foreign where
  symm := s.equal_comm
  trans _ _ _ _ := equal_trans
  self := s.equal_self
  differ := s.differ_eq
  apart room r v hv := by
    rw [s.equal_comm room (.cell r) v, equal_atom hv, (Value.equalAtoms_cell hv).2]
    exact ⟨rfl, rfl⟩
  trees room a b same haa hab hnan _ hsame := by
    have hlayer := ha.layered hs haa
    rw [hlayer.equal_iff_equals hsame]
    exact ⟨fun h => h.rel_follow hnan, equals_of_follow hs hlayer hab⟩
  descent room a b same haa hab hsame := by
    have hlayer := ha.layered hs haa
    rw [hlayer.equal_iff_equals hsame]
    exact ⟨fun h v w hmeets => (h.of_meets hmeets).agree, equals_of_meets hs hlayer hab⟩
  answers _ _ _ _ := equal_answers
  headed _ haa := (ha.layered hs haa).headed
  error _ _ _ _ := equal_error
  more _ _ _ _ hsame _ hle := equal_more hle hsame

/-- A cell with NaN in it, and a pair of one of the host's integers and that cell. -/
theorem equality_laws_nan :
    let s := ((Store.empty.addGlobal.2.cons (.number .nan) .nil).2.cons (.integer 1) (.cell 0)).2
    (s.Sound NoHook ∧ s.Acyclic) ∧ s.EqualityLaws NoHook := by
  intro s
  have hs : Reachable NoHook s :=
    .cons (.cons (.addGlobal .empty) trivial trivial) nofun Nat.one_pos
  exact ⟨⟨hs.sound, hs.aged.acyclic⟩, equality_laws hs.sound hs.aged.acyclic⟩

/-- The list `((NIL))` twice: the trees are the same, and with room for one call only there is no
answer. -/
theorem equality_laws_nested :
    let s := ((((Store.empty.cons .nil .nil).2.cons (.cell 0) .nil).2.cons .nil .nil).2.cons
      (.cell 2) .nil).2
    s.Acyclic ∧ ¬ s.HoldsNaN (.cell 1) ∧ ¬ s.HoldsNaN (.cell 3) ∧
      (∀ path, Option.Rel Value.Agree (s.follow path (.cell 1)) (s.follow path (.cell 3))) ∧
      s.equal 5 (.cell 1) (.cell 3) = .error .recursionTooDeep := by
  intro s
  have hs : Reachable NoHook s :=
    .cons (.cons (.cons (.cons .empty trivial trivial) Nat.one_pos trivial) trivial trivial)
      (show 2 < 3 by decide) trivial
  have hequals : s.Equals (.cell 1) (.cell 3) := by
    have hinner : s.Equals (.cell 0) (.cell 2) :=
      .cells (by decide) rfl rfl (.refl nofun) (.refl nofun)
    exact .cells (by decide) rfl rfl hinner (.refl nofun)
  have hnil : ¬ s.HoldsNaN .nil := not_holdsNaN_atom nofun nofun
  have hnan : ∀ q r, s.cells[q]? = some ⟨.nil, .nil⟩ → s.cells[r]? = some ⟨.cell q, .nil⟩ →
      ¬ s.HoldsNaN (.cell r) := fun q r hq hr =>
    not_holdsNaN_cell hr (not_holdsNaN_cell hq hnil hnil) hnil
  exact ⟨hs.aged.acyclic, hnan 0 1 rfl rfl, hnan 2 3 rfl rfl,
    hequals.rel_follow (hnan 0 1 rfl rfl), rfl⟩

end MiniLisp
