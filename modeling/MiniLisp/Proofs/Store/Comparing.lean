import MiniLisp.Proofs.Store.EqualAtoms
import MiniLisp.Proofs.Store.Tree

/-!
Comparing within a room.  The laws of equality do not depend on how much room there is: errors
change sides with the values (`equal_comm`), what has been found equal stays so along a chain of
values (`equal_trans`), and more room changes no answer (`equal_more`).  There is room enough for
values whose heads are nested less deeply than that (`equal_answers`).
-/
set_option autoImplicit false

namespace MiniLisp

def DecidesAtoms (equal : Value → Value → Except Error Bool) : Prop :=
  ∀ a b, ¬ (∃ q r, a = .cell q ∧ b = .cell r) → equal a b = .ok (a.equalAtoms b)

theorem Value.differBy_eq {equal : Value → Value → Except Error Bool} (h : DecidesAtoms equal)
    (a b : Value) : a.differBy equal b = (equal a b).map (!·) := by
  by_cases hcell : (∃ q, a = .cell q) ∨ ∃ r, b = .cell r
  · rcases hcell with ⟨q, rfl⟩ | ⟨r, rfl⟩
    · rfl
    · cases a <;> rfl
  · have ha : ∀ q, a ≠ .cell q := fun q hq => hcell (.inl ⟨q, hq⟩)
    have hb : ∀ r, b ≠ .cell r := fun r hr => hcell (.inr ⟨r, hr⟩)
    rw [differBy, differAtoms_eq, h a b fun ⟨q, _, hq, _⟩ => ha q hq]
    · rfl
    · exact ha
    · exact hb

namespace Store

variable {s t : Store} {equal equal' : Value → Value → Except Error Bool} {a b c : Value}
  {q r : CellRef} {x y : Cell} {room fuel n : Nat} {same : Bool}

/-- Cells stand no more than `n` deep inside each other's heads in the value. -/
inductive Headed (s : Store) : Nat → Value → Prop where
  | atom {n : Nat} {v : Value} : (∀ r, v ≠ .cell r) → s.Headed n v
  | cell {n : Nat} {r : CellRef} {c : Cell} : s.cells[r]? = some c → s.Headed n c.head →
      s.Headed (n + 1) c.tail → s.Headed (n + 1) (.cell r)

theorem Headed.mono {m : Nat} {v : Value} (h : s.Headed m v) (hle : m ≤ n)
    (hk : s.KeepsCells t) : t.Headed n v := by
  induction h generalizing n with
  | atom hv => exact .atom hv
  | cell hc _ _ ihh iht =>
    obtain ⟨n, rfl⟩ := Nat.exists_eq_add_of_le' (Nat.le_of_add_left_le hle)
    exact .cell (hk hc) (ihh (Nat.le_of_add_le_add_right hle)) (iht hle)

theorem equalAlong_atoms (h : ¬ ∃ q r, a = .cell q ∧ b = .cell r) :
    s.equalAlong equal fuel a b = .ok (a.equalAtoms b) := by
  rw [equalAlong]
  exact fun q r hq hr => h ⟨q, r, hq, hr⟩

theorem equalAlong_self (r : CellRef) :
    s.equalAlong equal fuel (.cell r) (.cell r) = .ok true := by
  rw [equalAlong.eq_def]
  exact if_pos rfl

theorem equalAlong_cells (h : DecidesAtoms equal) (hne : q ≠ r) (hx : s.cells[q]? = some x)
    (hy : s.cells[r]? = some y) : s.equalAlong equal (fuel + 1) (.cell q) (.cell r) =
      (equal x.head y.head).bind fun same =>
        if same then s.equalAlong equal fuel x.tail y.tail else .ok false := by
  rw [equalAlong.eq_def]
  simp only [if_neg hne, hx, hy, Value.differBy_eq h, bind]
  cases equal x.head y.head with
  | error e => rfl
  | ok same => cases same <;> rfl

/-- The loop stops at distinct cells that it cannot go on from. -/
theorem equalAlong_stop (hne : q ≠ r)
    (h : fuel = 0 ∨ s.cells[q]? = none ∨ s.cells[r]? = none) :
    s.equalAlong equal fuel (.cell q) (.cell r) = .ok false := by
  rw [equalAlong.eq_def]
  simp only [if_neg hne]
  split
  · next hx hy => simp [hx, hy] at h
  · rfl

/-- Where the loop stands: at the end of one of the lists, at one cell, or at two that it stops at
or goes on from. -/
inductive Along (s : Store) : Nat → Value → Value → Prop where
  | atoms {fuel : Nat} {a b : Value} : ¬ (∃ q r, a = .cell q ∧ b = .cell r) → s.Along fuel a b
  | self {fuel : Nat} (r : CellRef) : s.Along fuel (.cell r) (.cell r)
  | stop {fuel : Nat} {q r : CellRef} : q ≠ r →
      fuel = 0 ∨ s.cells[q]? = none ∨ s.cells[r]? = none → s.Along fuel (.cell q) (.cell r)
  | cells {fuel : Nat} {q r : CellRef} {x y : Cell} : q ≠ r → s.cells[q]? = some x →
      s.cells[r]? = some y → s.Along fuel x.tail y.tail → s.Along (fuel + 1) (.cell q) (.cell r)

theorem along (s : Store) (fuel : Nat) (a b : Value) : s.Along fuel a b := by
  induction fuel generalizing a b with
  | zero =>
    by_cases hcells : ∃ q r, a = .cell q ∧ b = .cell r
    · obtain ⟨q, r, rfl, rfl⟩ := hcells
      by_cases hqr : q = r
      · exact hqr ▸ .self q
      · exact .stop hqr (.inl rfl)
    · exact .atoms hcells
  | succ fuel ih =>
    by_cases hcells : ∃ q r, a = .cell q ∧ b = .cell r
    · obtain ⟨q, r, rfl, rfl⟩ := hcells
      by_cases hqr : q = r
      · exact hqr ▸ .self q
      · cases hx : s.cells[q]? with
        | none => exact .stop hqr (.inr (.inl hx))
        | some x =>
          cases hy : s.cells[r]? with
          | none => exact .stop hqr (.inr (.inr hy))
          | some y => exact .cells hqr hx hy (ih _ _)
    · exact .atoms hcells

theorem equalAlong_cells_true (h : DecidesAtoms equal) (hne : q ≠ r) (hx : s.cells[q]? = some x)
    (hy : s.cells[r]? = some y) : s.equalAlong equal (fuel + 1) (.cell q) (.cell r) = .ok true ↔
      equal x.head y.head = .ok true ∧ s.equalAlong equal fuel x.tail y.tail = .ok true := by
  rw [equalAlong_cells h hne hx hy]
  cases equal x.head y.head with
  | error e => simp [Except.bind]
  | ok same => cases same <;> simp [Except.bind]

theorem equalAlong_comm (h : DecidesAtoms equal) (hcomm : ∀ a b, equal a b = equal b a)
    (fuel : Nat) (a b : Value) : s.equalAlong equal fuel a b = s.equalAlong equal fuel b a := by
  have hplace := s.along fuel a b
  induction hplace with
  | atoms hcells =>
    rw [equalAlong_atoms hcells, equalAlong_atoms fun ⟨q, r, hq, hr⟩ => hcells ⟨r, q, hr, hq⟩,
      Value.equalAtoms_comm]
  | self r => rfl
  | stop hne hstop =>
    rw [equalAlong_stop hne hstop, equalAlong_stop hne.symm (hstop.imp_right Or.symm)]
  | cells hne hx hy _ ih =>
    rw [equalAlong_cells h hne hx hy, equalAlong_cells h hne.symm hy hx, hcomm, ih]

/-- Where the outer two are one cell, the comparison of the others does not matter. -/
theorem equalAlong_trans (h : DecidesAtoms equal)
    (htrans : ∀ a b c, equal a b = .ok true → equal b c = .ok true → equal a c = .ok true)
    (hab : s.equalAlong equal fuel a b = .ok true)
    (hbc : s.equalAlong equal fuel b c = .ok true) : s.equalAlong equal fuel a c = .ok true := by
  have hplace := s.along fuel a b
  induction hplace generalizing c with
  | atoms hcells =>
    rw [equalAlong_atoms hcells] at hab
    have hsame := Except.ok.inj hab
    obtain ⟨ha, hb⟩ := Value.equalAtoms_ne_cell hcells hsame
    rw [equalAlong_atoms fun ⟨q, _, hq, _⟩ => hb q hq] at hbc
    rw [equalAlong_atoms fun ⟨q, _, hq, _⟩ => ha q hq,
      Value.equalAtoms_trans hsame (Except.ok.inj hbc)]
  | self r => exact hbc
  | stop hne hstop =>
    rw [equalAlong_stop hne hstop] at hab
    cases hab
  | @cells fuel q r x y hne hx hy _ ih =>
    obtain ⟨hheads, htails⟩ := (equalAlong_cells_true h hne hx hy).1 hab
    have hplace' := s.along (fuel + 1) (.cell r) c
    cases hplace' with
    | atoms hcells =>
      rw [equalAlong_atoms hcells] at hbc
      exact absurd rfl ((Value.equalAtoms_ne_cell hcells (Except.ok.inj hbc)).1 r)
    | self _ => exact hab
    | stop hne' hstop =>
      rw [equalAlong_stop hne' hstop] at hbc
      cases hbc
    | @cells _ _ p y' z hne' hy' hz _ =>
      obtain rfl := Option.some.inj (hy.symm.trans hy')
      obtain ⟨hheads', htails'⟩ := (equalAlong_cells_true h hne' hy hz).1 hbc
      by_cases hqp : q = p
      · exact hqp ▸ equalAlong_self q
      · exact (equalAlong_cells_true h hqp hx hz).2
          ⟨htrans _ _ _ hheads hheads', ih htails htails'⟩

theorem equalAlong_mono (h : DecidesAtoms equal) (h' : DecidesAtoms equal')
    (hmore : ∀ a b same, equal a b = .ok same → equal' a b = .ok same)
    (hab : s.equalAlong equal fuel a b = .ok same) :
    s.equalAlong equal' fuel a b = .ok same := by
  have hplace := s.along fuel a b
  induction hplace with
  | atoms hcells => rwa [equalAlong_atoms hcells] at hab ⊢
  | self r => rwa [equalAlong_self] at hab ⊢
  | stop hne hstop => rwa [equalAlong_stop hne hstop] at hab ⊢
  | @cells fuel q r x y hne hx hy _ ih =>
    rw [equalAlong_cells h hne hx hy] at hab
    rw [equalAlong_cells h' hne hx hy]
    cases hheads : equal x.head y.head with
    | error e =>
      rw [hheads] at hab
      cases hab
    | ok found =>
      rw [hheads] at hab
      rw [hmore _ _ _ hheads]
      cases found with
      | false => exact hab
      | true => exact ih hab

theorem equalAlong_error (h : DecidesAtoms equal) {e : Error}
    (herror : ∀ a b e, equal a b = .error e → e = .recursionTooDeep)
    (hab : s.equalAlong equal fuel a b = .error e) : e = .recursionTooDeep := by
  have hplace := s.along fuel a b
  induction hplace with
  | atoms hcells =>
    rw [equalAlong_atoms hcells] at hab
    cases hab
  | self r =>
    rw [equalAlong_self] at hab
    cases hab
  | stop hne hstop =>
    rw [equalAlong_stop hne hstop] at hab
    cases hab
  | @cells fuel q r x y hne hx hy _ ih =>
    rw [equalAlong_cells h hne hx hy] at hab
    cases hheads : equal x.head y.head with
    | error e' =>
      rw [hheads] at hab
      exact Except.error.inj hab ▸ herror _ _ _ hheads
    | ok found =>
      rw [hheads] at hab
      cases found with
      | false => cases hab
      | true => exact ih hab

theorem equalAlong_answers (h : DecidesAtoms equal)
    (hheads : ∀ v w, s.Headed n v → ∃ same, equal v w = .ok same)
    (ha : s.Headed (n + 1) a) : ∃ same, s.equalAlong equal fuel a b = .ok same := by
  have hplace := s.along fuel a b
  induction hplace with
  | atoms hcells => exact ⟨_, equalAlong_atoms hcells⟩
  | self r => exact ⟨_, equalAlong_self r⟩
  | stop hne hstop => exact ⟨_, equalAlong_stop hne hstop⟩
  | @cells fuel q r x y hne hx hy _ ih =>
    cases ha with
    | atom ha => exact absurd rfl (ha q)
    | cell hx' hhead htail =>
      obtain rfl := Option.some.inj (hx.symm.trans hx')
      rw [equalAlong_cells h hne hx hy]
      obtain ⟨found, hfound⟩ := hheads x.head y.head hhead
      rw [hfound]
      cases found with
      | false => exact ⟨_, rfl⟩
      | true => exact ih htail

theorem decidesAtoms_equal (s : Store) (room : Nat) : DecidesAtoms (s.equal room) := by
  intro a b hcells
  rw [Store.equal.eq_def]
  split
  · exact equalAlong_atoms hcells
  · exact absurd ⟨_, _, rfl, rfl⟩ hcells
  · rfl

theorem equal_atom (ha : ∀ r, a ≠ .cell r) (room : Nat) (b : Value) :
    s.equal room a b = .ok (a.equalAtoms b) :=
  s.decidesAtoms_equal room a b fun ⟨q, _, hq, _⟩ => ha q hq

theorem equal_short (h : room < 3) (q r : CellRef) :
    s.equal room (.cell q) (.cell r) = .error .recursionTooDeep := by
  match room, h with
  | 0, _ => rfl
  | 1, _ => rfl
  | 2, _ => rfl

theorem room_induction (levels : Nat) {p : Nat → Prop} (short : ∀ room < levels + 1, p room)
    (call : ∀ room, p room → p (room + (levels + 1))) (room : Nat) : p room := by
  induction room using Nat.strongRecOn with
  | ind room ih =>
    by_cases h : room < levels + 1
    · exact short room h
    · obtain ⟨less, rfl⟩ := Nat.exists_eq_add_of_le' (Nat.not_lt.1 h)
      exact call less (ih less (by omega))

theorem equal_comm (s : Store) (room : Nat) (a b : Value) :
    s.equal room a b = s.equal room b a := by
  induction room using room_induction 2 generalizing a b with
  | short room h =>
    by_cases hcells : ∃ q r, a = .cell q ∧ b = .cell r
    · obtain ⟨q, r, rfl, rfl⟩ := hcells
      rw [equal_short h, equal_short h]
    · rw [s.decidesAtoms_equal room a b hcells, Value.equalAtoms_comm,
        s.decidesAtoms_equal room b a fun ⟨q, r, hq, hr⟩ => hcells ⟨r, q, hr, hq⟩]
  | call room ih => exact equalAlong_comm (s.decidesAtoms_equal room) ih _ _ _

theorem not_cells_of_short (h : room < 3) (hab : s.equal room a b = .ok same) :
    ¬ ∃ q r, a = .cell q ∧ b = .cell r := by
  rintro ⟨q, r, rfl, rfl⟩
  rw [equal_short h] at hab
  cases hab

theorem equal_trans (hab : s.equal room a b = .ok true) (hbc : s.equal room b c = .ok true) :
    s.equal room a c = .ok true := by
  induction room using room_induction 2 generalizing a b c with
  | short room h =>
    have hcells := not_cells_of_short h hab
    rw [s.decidesAtoms_equal room a b hcells] at hab
    have hsame := Except.ok.inj hab
    obtain ⟨ha, hb⟩ := Value.equalAtoms_ne_cell hcells hsame
    rw [equal_atom hb] at hbc
    rw [equal_atom ha, Value.equalAtoms_trans hsame (Except.ok.inj hbc)]
  | call room ih => exact equalAlong_trans (s.decidesAtoms_equal room) (fun _ _ _ => ih) hab hbc

theorem equal_self (s : Store) (room : Nat) (r : CellRef) :
    s.equal (room + 3) (.cell r) (.cell r) = .ok true := equalAlong_self r

theorem differ_eq (s : Store) (room : Nat) (a b : Value) :
    s.differ room a b = (s.equal room a b).map (!·) :=
  Value.differBy_eq (s.decidesAtoms_equal room) a b

theorem equal_more {more : Nat} (hle : room ≤ more) (hab : s.equal room a b = .ok same) :
    s.equal more a b = .ok same := by
  induction room using room_induction 2 generalizing a b same more with
  | short room h =>
    have hcells := not_cells_of_short h hab
    rwa [s.decidesAtoms_equal room a b hcells, ← s.decidesAtoms_equal more a b hcells] at hab
  | call room ih =>
    obtain ⟨more, rfl⟩ := Nat.exists_eq_add_of_le' (Nat.le_of_add_left_le hle)
    exact equalAlong_mono (s.decidesAtoms_equal room) (s.decidesAtoms_equal more)
      (fun _ _ _ => ih (Nat.le_of_add_le_add_right hle)) hab

theorem equal_error {e : Error} (hab : s.equal room a b = .error e) : e = .recursionTooDeep := by
  induction room using room_induction 2 generalizing a b e with
  | short room h =>
    by_cases hcells : ∃ q r, a = .cell q ∧ b = .cell r
    · obtain ⟨q, r, rfl, rfl⟩ := hcells
      rw [equal_short h] at hab
      exact (Except.error.inj hab).symm
    · rw [s.decidesAtoms_equal room a b hcells] at hab
      cases hab
  | call room ih =>
    exact equalAlong_error (s.decidesAtoms_equal room) (fun _ _ _ => ih) hab

/-- One of the values is enough: the comparison goes no deeper than either. -/
theorem equal_answers (h : s.Headed n a ∨ s.Headed n b) (hroom : 3 * n ≤ room) :
    ∃ same, s.equal room a b = .ok same := by
  have hleft : ∀ {n a b room}, s.Headed n a → 3 * n ≤ room →
      ∃ same, s.equal room a b = .ok same := by
    intro n
    induction n with
    | zero =>
      intro a b room ha _
      cases ha with
      | atom ha => exact ⟨_, equal_atom ha room b⟩
    | succ n ih =>
      intro a b room ha hroom
      obtain ⟨room, rfl⟩ : ∃ less, room = less + 3 := ⟨room - 3, by omega⟩
      exact equalAlong_answers (s.decidesAtoms_equal room)
        (fun v w hv => ih hv (by omega)) ha
  rcases h with h | h
  · exact hleft h hroom
  · rw [equal_comm]
    exact hleft h hroom

theorem equal_or_deep (s : Store) (room : Nat) (a b : Value) :
    (∃ same, s.equal room a b = .ok same) ∨
      s.equal room a b = .error .recursionTooDeep ∧
        ∀ n, s.Headed n a ∨ s.Headed n b → room < 3 * n := by
  cases hfound : s.equal room a b with
  | ok same => exact .inl ⟨same, rfl⟩
  | error e =>
    refine .inr ⟨congrArg Except.error (equal_error hfound), fun n hn => Nat.lt_of_not_le ?_⟩
    intro hroom
    obtain ⟨same, hsame⟩ := equal_answers hn hroom
    rw [hsame] at hfound
    cases hfound

end Store
end MiniLisp
