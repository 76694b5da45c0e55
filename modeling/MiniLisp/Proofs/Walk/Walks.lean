import MiniLisp.Proofs.Eval.Raised
import MiniLisp.Proofs.Store.Comparing
import MiniLisp.Proofs.Walk.Age

/-!
What walks through a store.  Looking up a name, comparing values and printing are stated here as the
loops that they are, without any bound on how far they go: a derivation is a walk that ends.  Where
entries lead to older ones only, each of them ends, and with what the bounded function gives
(`finds_find?`, `compares_equal`, `prints_print`).
-/
set_option autoImplicit false

namespace MiniLisp

namespace Store

inductive Finds (s : Store) (name : String) : FrameRef → Option FrameRef → Prop where
  | here {r : FrameRef} {f : Frame} : s.frames[r]? = some f → (f.get? name).isSome = true →
      Finds s name r (some r)
  | outward {r o : FrameRef} {f : Frame} {q : Option FrameRef} : s.frames[r]? = some f →
      f.get? name = none → f.outer = some o → Finds s name o q → Finds s name r q
  | nowhere {r : FrameRef} {f : Frame} : s.frames[r]? = some f → f.get? name = none →
      f.outer = none → Finds s name r none

/-- Whether two values are equal: a cell and itself are, other cells if their heads are and then
their tails. -/
inductive Compares (s : Store) : Value → Value → Bool → Prop where
  | same (r : CellRef) : Compares s (.cell r) (.cell r) true
  | heads {q r : CellRef} {c d : Cell} : q ≠ r → s.cells[q]? = some c → s.cells[r]? = some d →
      Compares s c.head d.head false → Compares s (.cell q) (.cell r) false
  | tails {q r : CellRef} {c d : Cell} {b : Bool} : q ≠ r → s.cells[q]? = some c →
      s.cells[r]? = some d → Compares s c.head d.head true → Compares s c.tail d.tail b →
      Compares s (.cell q) (.cell r) b
  | atoms {v w : Value} : ¬ (∃ q r, v = .cell q ∧ w = .cell r) → Compares s v w (v.equalAtoms w)

/-- Writing a value, or inside a pair what follows its head, behind a text that may have failed. -/
inductive Prints (s : Store) : (inside : Bool) → Value → Except Error String →
    Except Error String → Prop where
  | failed {inside : Bool} {v : Value} {e : Error} : Prints s inside v (.error e) (.error e)
  | atom {v : Value} {out : String} : v.node? = none → Prints s false v (.ok out) (s.write 1 v out)
  | noParameters {r : ClosureRef} {c : Closure} {out : String} : s.closures[r]? = some c →
      c.parameters = .nil → Prints s false (.closure r) (.ok out) (.ok (out ++ "<closure ()>"))
  | parameters {r : ClosureRef} {c : Closure} {out : String} {x : Except Error String} :
      s.closures[r]? = some c → c.parameters ≠ .nil →
      Prints s false c.parameters (.ok (out ++ "<closure ")) x →
      Prints s false (.closure r) (.ok out) (x.map (·.push '>'))
  | pair {r : CellRef} {c : Cell} {out : String} {x y : Except Error String} :
      s.cells[r]? = some c → Prints s false c.head (.ok (out.push '(')) x →
      Prints s true c.tail x y → Prints s false (.cell r) (.ok out) y
  | next {r : CellRef} {c : Cell} {out : String} {x y : Except Error String} :
      s.cells[r]? = some c → Prints s false c.head (.ok (out.push ' ')) x →
      Prints s true c.tail x y → Prints s true (.cell r) (.ok out) y
  | close {out : String} : Prints s true .nil (.ok out) (.ok (out.push ')'))
  | dotted {v : Value} {out : String} {x : Except Error String} : v ≠ .nil → (∀ r, v ≠ .cell r) →
      Prints s false v (.ok (out ++ " . ")) x → Prints s true v (.ok out) (x.map (·.push ')'))

variable {s : Store}

theorem finds_find? (hs : s.Aged) (name : String) {r : FrameRef} (hr : r < s.frames.size) :
    s.Finds name r (s.find? r name) := by
  induction r using Nat.strongRecOn with
  | ind r ih =>
    obtain ⟨f, hf⟩ : ∃ f, s.frames[r]? = some f := ⟨_, Array.getElem?_eq_getElem hr⟩
    rw [find?, hf]
    cases hname : f.get? name with
    | some v =>
      simp only [hname, Option.isSome_some, if_true]
      exact .here hf (by rw [hname]; rfl)
    | none =>
      simp only [hname, Option.isSome_none, Bool.false_eq_true, if_false]
      cases ho : f.outer with
      | none => exact .nowhere hf hname ho
      | some o =>
        have hlt := hs.frame hf o ho
        simp only [if_pos hlt]
        exact .outward hf hname ho (ih o hlt (Nat.lt_trans hlt hr))

theorem lookup_find? (hs : s.Aged) (name : String) {r : FrameRef} (hr : r < s.frames.size) :
    (s.find? r name = none ∧ s.lookup r name = .error (.unbound name)) ∨
      ∃ q f v, s.find? r name = some q ∧ s.frames[q]? = some f ∧ f.get? name = some v ∧
        s.lookup r name = .ok v := by
  have hfound := finds_find? hs name hr
  unfold lookup
  generalize s.find? r name = x at hfound
  induction hfound with
  | @here r f hf hname =>
    obtain ⟨v, hv⟩ := Option.isSome_iff_exists.1 hname
    exact .inr ⟨r, f, v, rfl, hf, hv, by simp [hf, hv]⟩
  | outward hf _ ho _ ih => exact ih (Nat.lt_trans (hs.frame hf _ ho) hr)
  | nowhere _ _ _ => exact .inl ⟨rfl, rfl⟩

/-- The loop passes ever older cells, so it does not come to the end of its fuel. -/
theorem compares_equalAlong {equal : Value → Value → Except Error Bool} {fuel : Nat} {v w : Value}
    {same : Bool} (hs : s.Aged) (hready : s.Sound NoHook) (h : DecidesAtoms equal)
    (hequal : ∀ v w same, s.Admits NoHook v → s.Admits NoHook w → equal v w = .ok same →
      s.Compares v w same)
    (hv : s.Admits NoHook v) (hw : s.Admits NoHook w) (hfuel : ∀ r, v = .cell r → r < fuel)
    (hsame : s.equalAlong equal fuel v w = .ok same) : s.Compares v w same := by
  have hplace := s.along fuel v w
  induction hplace with
  | atoms hcells =>
    rw [equalAlong_atoms hcells] at hsame
    exact Except.ok.inj hsame ▸ .atoms hcells
  | self r =>
    rw [equalAlong_self] at hsame
    exact Except.ok.inj hsame ▸ .same r
  | @stop fuel q r hne hstop =>
    rcases hstop with rfl | hnone | hnone
    · exact absurd (hfuel q rfl) (Nat.not_lt_zero q)
    · exact absurd hv (Nat.not_lt.2 (Array.getElem?_eq_none_iff.1 hnone))
    · exact absurd hw (Nat.not_lt.2 (Array.getElem?_eq_none_iff.1 hnone))
  | @cells fuel q r c d hne hc hd _ ih =>
    rw [equalAlong_cells h hne hc hd] at hsame
    cases hheads : equal c.head d.head with
    | error e =>
      rw [hheads] at hsame
      cases hsame
    | ok found =>
      rw [hheads] at hsame
      have hhead := hequal _ _ _ (hready.cell hc).1 (hready.cell hd).1 hheads
      cases found with
      | false => exact Except.ok.inj hsame ▸ .heads hne hc hd hhead
      | true =>
        exact .tails hne hc hd hhead <| ih (hready.cell hc).2 (hready.cell hd).2
          (fun p hp => Nat.lt_of_lt_of_le (hs.cell hc p (.inr hp))
            (Nat.le_of_lt_succ (hfuel q rfl))) hsame

theorem compares_of_equal {room : Nat} {v w : Value} {same : Bool} (hs : s.Aged)
    (hready : s.Sound NoHook) (hv : s.Admits NoHook v) (hw : s.Admits NoHook w)
    (hsame : s.equal room v w = .ok same) : s.Compares v w same := by
  induction room using room_induction 2 generalizing v w same with
  | short room h =>
    have hcells := not_cells_of_short h hsame
    rw [s.decidesAtoms_equal room v w hcells] at hsame
    exact Except.ok.inj hsame ▸ .atoms hcells
  | call room ih =>
    refine compares_equalAlong hs hready (s.decidesAtoms_equal room) (fun v w same => ih) hv hw
      (fun r hr => ?_) hsame
    subst hr
    exact hv

theorem Aged.headed (hs : s.Aged) (hready : s.Sound NoHook) (n : Nat) {v : Value}
    (hv : s.Admits NoHook v) (hn : ∀ r, v = .cell r → r < n) : s.Headed n v := by
  induction n generalizing v with
  | zero => exact .atom fun r hr => Nat.not_lt_zero r (hn r hr)
  | succ n ih =>
    by_cases hcell : ∃ r, v = .cell r
    · obtain ⟨r, rfl⟩ := hcell
      have hc := Array.getElem?_eq_getElem (show r < s.cells.size from hv)
      have hle : r ≤ n := Nat.le_of_lt_succ (hn r rfl)
      have hhead := ih (hready.cell hc).1 fun p hp =>
        Nat.lt_of_lt_of_le (hs.cell hc p (.inl hp)) hle
      have htail := ih (hready.cell hc).2 fun p hp =>
        Nat.lt_of_lt_of_le (hs.cell hc p (.inr hp)) hle
      exact .cell hc hhead (htail.mono (Nat.le_succ n) (.refl s))
    · exact .atom fun r hr => hcell ⟨r, hr⟩

theorem compares_equal (hs : s.Aged) (hready : s.Sound NoHook) {v w : Value}
    (hv : s.Admits NoHook v) (hw : s.Admits NoHook w) : ∃ same, s.Compares v w same ∧
      ∀ room, s.equal room v w = .ok same ∨
        s.equal room v w = .error .recursionTooDeep ∧ room < 3 * s.cells.size := by
  have hheaded : s.Headed s.cells.size v := hs.headed hready _ hv fun r hr => by
    subst hr
    exact hv
  obtain ⟨same, hsame⟩ := equal_answers (b := w) (.inl hheaded) (Nat.le_refl _)
  refine ⟨same, compares_of_equal hs hready hv hw hsame, fun room => ?_⟩
  rcases s.equal_or_deep room v w with ⟨found, hfound⟩ | ⟨hdeep, hless⟩
  · -- Within the greater of the two rooms both answers are given.
    have hmore := equal_more (Nat.le_max_left room (3 * s.cells.size)) hfound
    rw [equal_more (Nat.le_max_right room (3 * s.cells.size)) hsame] at hmore
    exact .inl (hfound.trans hmore.symm)
  · exact .inr ⟨hdeep, hless _ (.inl hheaded)⟩

theorem write_atom {v : Value} (hv : v.node? = none) (room : Nat) (out : String) :
    s.write (room + 1) v out = s.write 1 v out := by
  cases v with
  | cell r => cases hv
  | closure r => cases hv
  | _ => rfl

theorem prints_dotted {v : Value} (hnil : v ≠ .nil) (hcell : ∀ r, v ≠ .cell r) {n : Nat}
    (h : ∀ room out, n ≤ room → s.Prints false v (.ok out) (s.write (room + 1) v out)) :
    ∃ items last, s.Chain v items last ∧ ∀ room x, n ≤ room →
      s.Prints true v x (x.bind (s.writeTail (room + 1) items last)) := by
  refine ⟨[], v, .stop hcell, fun room x hr => ?_⟩
  cases x with
  | error e => exact .failed
  | ok out =>
    have htail : s.writeTail (room + 1) [] v out =
        (s.write (room + 1) v (out ++ " . ")).map (·.push ')') := if_neg hnil
    change s.Prints true v (.ok out) (s.writeTail (room + 1) [] v out)
    rw [htail]
    exact .dotted hnil hcell (h room _ hr)

theorem Nested.prints {n : Nat} {v : Value} (h : s.Nested n v) :
    (∀ room out, n ≤ room → s.Prints false v (.ok out) (s.write (room + 1) v out)) ∧
    ∃ items last, s.Chain v items last ∧ ∀ room x, n ≤ room →
      s.Prints true v x (x.bind (s.writeTail (room + 1) items last)) := by
  induction h with
  | @atom n v hv =>
    have halone : ∀ room out, n ≤ room →
        s.Prints false v (.ok out) (s.write (room + 1) v out) := fun room out _ =>
      write_atom hv room out ▸ .atom hv
    refine ⟨halone, ?_⟩
    by_cases hnil : v = .nil
    · subst hnil
      refine ⟨[], .nil, .stop (by simp), fun room x _ => ?_⟩
      cases x with
      | error e => exact .failed
      | ok out => exact .close
    · exact prints_dotted hnil (fun r h => by subst h; cases hv) halone
  | @closure n r c hc _ _ ihp _ =>
    have halone : ∀ room out, n + 1 ≤ room →
        s.Prints false (.closure r) (.ok out) (s.write (room + 1) (.closure r) out) := by
      intro room out hr
      obtain ⟨room, rfl⟩ := Nat.exists_eq_add_of_le' (Nat.le_of_add_left_le hr)
      rw [write]
      simp only [hc]
      by_cases hnil : c.parameters = .nil
      · rw [if_pos hnil]
        exact .noParameters hc hnil
      · rw [if_neg hnil]
        exact .parameters hc hnil (ihp.1 room _ (by omega))
    exact ⟨halone, prints_dotted (by simp) (by simp) halone⟩
  | @cell n r c hc _ _ ihh iht =>
    obtain ⟨items, last, hchain, htail⟩ := iht.2
    constructor
    · intro room out hr
      obtain ⟨room, rfl⟩ := Nat.exists_eq_add_of_le' (Nat.le_of_add_left_le hr)
      rw [write_cell hc hchain]
      exact .pair hc (ihh.1 room _ (by omega)) (htail room _ (by omega))
    · refine ⟨c.head :: items, last, .link hc hchain, fun room x hr => ?_⟩
      cases x with
      | error e => exact .failed
      | ok out =>
        change s.Prints true (.cell r) (.ok out) (s.writeTail (room + 1) (c.head :: items) last out)
        rw [writeTail_cons]
        exact .next hc (ihh.1 room _ (by omega)) (htail room _ (by omega))

theorem prints_print (hs : s.NestedAll) {v : Value} (hv : s.Admits NoHook v) :
    s.Prints false v (.ok "") (s.print v) := (hs v hv).prints.1 _ "" (Nat.le_refl _)

/-- Without a bound there is no error of going beyond it. -/
theorem Prints.ne_deep {inside : Bool} {v : Value} {x y : Except Error String}
    (h : s.Prints inside v x y) (hx : x ≠ .error .recursionTooDeep) :
    y ≠ .error .recursionTooDeep := by
  have hok : ∀ {α : Type} (a : α), (.ok a : Except Error α) ≠ .error .recursionTooDeep :=
    fun _ => by simp
  have hmap : ∀ {α : Type} {z : Except Error α} {f : α → String},
      z ≠ .error .recursionTooDeep → z.map f ≠ .error .recursionTooDeep := by
    intro α z f hz
    cases z with
    | error e => exact fun h => hz (congrArg Except.error (Except.error.inj h))
    | ok text => exact hok _
  induction h with
  | failed => exact hx
  | @atom v out hv =>
    cases v with
    | cell r => cases hv
    | closure r => cases hv
    | integer i =>
      have hnumber : Double.ofInteger i ≠ .error .recursionTooDeep := by
        rw [ofInteger_eq]
        cases Double.ofInt? i with
        | none => simp
        | some x => exact hok x
      rw [write]
      exact hmap hnumber
    | _ => exact hok _
  | noParameters _ _ => exact hok _
  | parameters _ _ _ ih => exact hmap (ih (hok _))
  | pair _ _ _ ihh iht => exact iht (ihh (hok _))
  | next _ _ _ ihh iht => exact iht (ihh (hok _))
  | close => exact hok _
  | dotted _ _ _ ih => exact hmap (ih (hok _))

def PartOf (s : Store) (q r : CellRef) : Prop :=
  ∃ c, s.cells[r]? = some c ∧ (c.head = .cell q ∨ c.tail = .cell q)

def Encloses (s : Store) (o r : FrameRef) : Prop := ∃ f, s.frames[r]? = some f ∧ f.outer = some o

theorem lt_of_transGen {R : Nat → Nat → Prop} (hR : ∀ q r, R q r → q < r) {q r : Nat}
    (h : Relation.TransGen R q r) : q < r := by
  induction h with
  | single h => exact hR _ _ h
  | tail _ h ih => exact Nat.lt_trans ih (hR _ _ h)

theorem Aged.lt_of_partOf (hs : s.Aged) {q r : CellRef} (h : Relation.TransGen s.PartOf q r) :
    q < r := lt_of_transGen (fun _ _ ⟨_, hc, hq⟩ => hs.cell hc _ hq) h

theorem Aged.lt_of_encloses (hs : s.Aged) {o r : FrameRef}
    (h : Relation.TransGen s.Encloses o r) : o < r :=
  lt_of_transGen (fun _ _ ⟨_, hf, ho⟩ => hs.frame hf _ ho) h

/-- What is older than what refers to it, so that nothing leads back to itself and every walk comes
to an end. -/
structure Founded (s : Store) : Prop where
  aged : s.Aged
  lists : ∀ r, ¬ Relation.TransGen s.PartOf r r
  scopes : ∀ r, ¬ Relation.TransGen s.Encloses r r
  finds : ∀ r < s.frames.size, ∀ name, s.Finds name r (s.find? r name)
  looksUp : ∀ r < s.frames.size, ∀ name,
    (s.find? r name = none ∧ s.lookup r name = .error (.unbound name)) ∨
      ∃ q f v, s.find? r name = some q ∧ s.frames[q]? = some f ∧ f.get? name = some v ∧
        s.lookup r name = .ok v
  iterates : ∀ v, s.Admits NoHook v → ∃ items last, s.Chain v items last ∧
    s.toList? v = (if last = .nil then .ok items else .error .improperList) ∧
    s.isProperList v = decide (last = .nil)
  compares : ∀ v w, s.Admits NoHook v → s.Admits NoHook w → ∃ same, s.Compares v w same ∧
    ∀ room, s.equal room v w = .ok same ∨
      s.equal room v w = .error .recursionTooDeep ∧ room < 3 * s.cells.size
  prints : ∀ v, s.Admits NoHook v →
    s.Prints false v (.ok "") (s.print v) ∧ s.print v ≠ .error .recursionTooDeep

end Store

open Store

/-- With the given operations alone no state is reached, by whatever failed on the way either, in
which a walk along cells or frames goes on for ever.  To feed a text is among the ways to reach one.
-/
theorem founded_of_reachable {s : Store} (h : Reachable NoHook s) :
    s.Founded ∧ ∀ limit frame source, frame < s.frames.size →
      Reachable NoHook (Interpreter.feed limit frame source s).2 := by
  have hs := h.aged
  refine ⟨⟨hs, fun r hr => Nat.lt_irrefl r (hs.lt_of_partOf hr),
    fun r hr => Nat.lt_irrefl r (hs.lt_of_encloses hr), fun r hr name => finds_find? hs name hr,
    fun r hr name => lookup_find? hs name hr, fun v hv => ?_,
    fun v w hv hw => compares_equal hs h.sound hv hw, fun v hv => ?_⟩,
    fun limit frame source hf => h.feed limit hf source⟩
  · obtain ⟨items, last, hchain⟩ := h.ready_noHook.chainsEnd.chain hv
    refine ⟨items, last, hchain, ?_, ?_⟩
    · rw [toList?, hchain.chain_eq]
    · rw [isProperList, hchain.chain_eq]
  · have hprints := prints_print h.nestedAll hv
    exact ⟨hprints, hprints.ne_deep (by simp)⟩

/-- After a definition, a list and a call that fails. -/
theorem founded_feed_cons :
    let s := (Interpreter.feed 100 0 "(define f (lambda (y) (cons y (list y)))) (f 'a) (f)"
      Store.empty.addGlobal.2).2
    Reachable NoHook s ∧ s.Founded ∧ ∀ limit frame source, frame < s.frames.size →
      Reachable NoHook (Interpreter.feed limit frame source s).2 := by
  intro s
  have hs : Reachable NoHook s := Reachable.feed 100 (.addGlobal .empty) (by decide) _
  exact ⟨hs, founded_of_reachable hs⟩

end MiniLisp
