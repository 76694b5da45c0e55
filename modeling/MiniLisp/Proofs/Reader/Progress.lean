import MiniLisp.Proofs.Reader.JoinedText
import MiniLisp.Proofs.Reader.Recognition
import Mathlib.Logic.Function.Iterate

/-!
How far reading goes.  Its cursor moves over the tokens of one list, never back and never past the
end, and from before the end it does move, as only the tail of a dotted list leaves a token unread
(`step_refused`).  So reading again and again, errors or not, comes to the end of the list.  For
each list there is a limit of depth that is enough (`reading_progresses`).
-/
set_option autoImplicit false

namespace MiniLisp

theorem readAll_mono {limit limit' : Nat} (h : limit ≤ limit') (c : Cursor) :
    c.readAll limit' = c.readAll limit ∨
      (c.readAll limit).error = some .nestedTooDeeply ∧
        ∃ ds, (c.readAll limit').data = (c.readAll limit).data ++ ds := by
  -- What is read takes tokens away, so the induction is on how many there are.
  induction hn : c.rest.length using Nat.strongRecOn generalizing c with
  | ind n ih =>
    subst hn
    obtain ⟨index, ts⟩ := c
    cases ts with
    | nil => exact .inl (by rw [readAll_end, readAll_end])
    | cons t ts =>
      cases hread : Cursor.read limit ⟨index, t :: ts⟩ with
      | mk x next =>
        rcases Reader.resume_mono h (.expression []) index (t :: ts) with hdeep | heq
        · obtain rfl : x = .error .nestedTooDeeply := (congrArg Prod.fst hread).symm.trans hdeep
          rw [readAll_error (by simp) hread]
          exact .inr ⟨rfl, _, rfl⟩
        · have hread' : Cursor.read limit' ⟨index, t :: ts⟩ = (x, next) := heq.trans hread
          cases x with
          | error e =>
            rw [readAll_error (by simp) hread, readAll_error (by simp) hread']
            exact .inl rfl
          | ok d =>
            rw [readAll_ok hread, readAll_ok hread']
            rcases ih _ (Reader.resume_ok_shorter limit _ hread) next rfl with
              heq | ⟨hdeep, ds, hds⟩
            · exact .inl (by rw [heq])
            · exact .inr ⟨hdeep, ds, by rw [hds, List.cons_append]⟩

namespace Reader

variable {limit index : Nat} {start : Pending} {t : Token}

theorem step_refused {e : Error} : step limit index start t = .refused e →
    ∃ read stack, start = .expression (.dotted read :: stack) := by
  have henter (c : Context) (stack : List Context) : enter limit c stack ≠ .refused e := by
    intro h
    rw [enter] at h
    split at h <;> cases h
  fun_cases step limit index start t with
  | case6 read stack => exact fun _ => ⟨read, stack, rfl⟩
  | case1 | case5 | case10 | case11 => exact fun h => absurd h (deliver_ne_refused _ _ e)
  | case3 | case4 | case9 => exact fun h => absurd h (henter _ _)
  | case2 | case7 | case8 =>
    intro h
    cases h

theorem resume_place (limit : Nat) (start : Pending) (index : Nat) (ts : List Token) :
    ∃ n ≤ ts.length, (resume limit start index ts).2 = ⟨index + n, ts.drop n⟩ := by
  induction ts generalizing start index with
  | nil => exact ⟨0, Nat.le_refl 0, rfl⟩
  | cons t ts ih =>
    rw [resume]
    cases step limit index start t with
    | more q =>
      obtain ⟨n, hn, hcursor⟩ := ih q (index + 1)
      refine ⟨n + 1, Nat.succ_le_succ hn, hcursor.trans ?_⟩
      rw [List.drop_succ_cons, Nat.add_right_comm, Nat.add_assoc]
    | complete d => exact ⟨1, Nat.le_add_left _ _, rfl⟩
    | failed e => exact ⟨1, Nat.le_add_left _ _, rfl⟩
    | refused e => exact ⟨0, Nat.zero_le _, rfl⟩

/-- No tail is due, so that a token may not be refused. -/
def Pending.Starts (start : Pending) : Prop :=
  ∀ read stack, start ≠ .expression (.dotted read :: stack)

theorem resume_cons_place (h : start.Starts) (limit index : Nat) (t : Token) (ts : List Token) :
    ∃ n ≤ ts.length, (resume limit start index (t :: ts)).2 = ⟨index + 1 + n, ts.drop n⟩ := by
  rw [resume]
  cases hs : step limit index start t with
  | more q => exact resume_place limit q (index + 1) ts
  | complete d => exact ⟨0, Nat.zero_le _, rfl⟩
  | failed e => exact ⟨0, Nat.zero_le _, rfl⟩
  | refused e =>
    obtain ⟨read, stack, rfl⟩ := step_refused hs
    exact absurd rfl (h read stack)

/-- What a way of reading does at a place of the tokens, be there an error or not. -/
structure Progresses (read : Nat → Cursor → Except Error Datum × Cursor) (ts : List Token)
    (p : Nat) : Prop where
  moves : ∀ limit, ∃ q, (read limit (.into ts p)).2 = .into ts q ∧ p ≤ q ∧ q ≤ ts.length ∧
    (p < ts.length ∨ (∃ d, (read limit (.into ts p)).1 = .ok d) → p < q)
  reaches : ∀ limit n, ts.length ≤ p + n →
    (fun c => (read limit c).2)^[n] (.into ts p) = .into ts ts.length
  settles : ∀ limit, 2 * ts.length + 3 ≤ limit →
    (read limit (.into ts p)).1 ≠ .error .nestedTooDeeply ∧
      ∀ limit', limit ≤ limit' → read limit' (.into ts p) = read limit (.into ts p)
  shifts : ∀ limit, read limit (.into ts p) =
    ((read limit (.start (ts.drop p))).1.mapError (·.shift p),
      (read limit (.start (ts.drop p))).2.shift p)

structure Exhausts (ts : List Token) (p : Nat) : Prop where
  moves : ∀ limit, ∃ q, ((Cursor.into ts p).readAll limit).cursor = .into ts q ∧ p ≤ q ∧
    q ≤ ts.length ∧ (p < ts.length → p < q) ∧
    (((Cursor.into ts p).readAll limit).error = none → q = ts.length)
  settles : ∀ limit, 2 * ts.length < limit →
    ((Cursor.into ts p).readAll limit).error ≠ some .nestedTooDeeply ∧
      ∀ limit', limit ≤ limit' →
        (Cursor.into ts p).readAll limit' = (Cursor.into ts p).readAll limit
  shifts : ∀ limit, (Cursor.into ts p).readAll limit =
    ((Cursor.start (ts.drop p)).readAll limit).shift p

variable {ts : List Token} {p : Nat}

theorem resume_into (hstart : start.Starts) (hp : p ≤ ts.length) (limit : Nat) :
    ∃ q, (resume limit start p (ts.drop p)).2 = .into ts q ∧ p ≤ q ∧ q ≤ ts.length ∧
      (p < ts.length → p < q) := by
  rcases Nat.lt_or_ge p ts.length with hlt | hge
  · rw [List.drop_eq_getElem_cons hlt]
    obtain ⟨n, hn, hcursor⟩ := resume_cons_place hstart limit p ts[p] (ts.drop (p + 1))
    rw [List.length_drop] at hn
    refine ⟨p + 1 + n, hcursor.trans ?_, by omega, by omega, fun _ => by omega⟩
    rw [List.drop_drop]
    rfl
  · obtain rfl : p = ts.length := Nat.le_antisymm hp hge
    rw [List.drop_length]
    exact ⟨ts.length, by rw [Cursor.into, List.drop_length]; rfl, Nat.le_refl _, Nat.le_refl _,
      fun h => absurd h (Nat.lt_irrefl _)⟩

/-- Reading that may start has moved on where it succeeds, and needs little depth. -/
theorem progresses (hstart : start.Starts) (hdepth : start.depth ≤ 2) (hp : p ≤ ts.length) :
    Progresses (fun limit c => resume limit start c.position c.rest) ts p := by
  refine ⟨fun limit => ?_, fun limit n hn => ?_, fun limit hlimit => ?_, fun limit => ?_⟩
  · obtain ⟨q, hq, hle, hlength, hlt⟩ := resume_into hstart hp limit
    refine ⟨q, hq, hle, hlength, ?_⟩
    rintro (h | ⟨d, hd⟩)
    · exact hlt h
    · have hshorter : (ts.drop q).length < (ts.drop p).length :=
        resume_ok_shorter limit (ts.drop p) (Prod.ext hd hq)
      rw [List.length_drop, List.length_drop] at hshorter
      omega
  · induction n generalizing p with
    | zero =>
      obtain rfl : p = ts.length := Nat.le_antisymm hp hn
      rfl
    | succ n ih =>
      obtain ⟨q, hq, hle, hlength, hlt⟩ := resume_into hstart hp limit
      rw [Function.iterate_succ_apply]
      refine (congrArg _ hq).trans (ih hlength ?_)
      omega
  · have hdeep : (resume limit start p (ts.drop p)).1 ≠ .error .nestedTooDeeply := by
      refine resume_ne_nestedTooDeeply p ?_
      rw [List.length_drop]
      omega
    exact ⟨hdeep, fun limit' h => (resume_mono h start p (ts.drop p)).resolve_left hdeep⟩
  · have hshift := resume_shift limit p start 0 (ts.drop p)
    rw [Nat.zero_add] at hshift
    exact hshift

theorem starts_expression : (Pending.expression []).Starts := nofun

theorem starts_items : (Pending.expression [.items []]).Starts := nofun

theorem readAll_into (limit : Nat) (hp : p ≤ ts.length) :
    ∃ q, ((Cursor.into ts p).readAll limit).cursor = .into ts q ∧ p ≤ q ∧ q ≤ ts.length ∧
      (p < ts.length → p < q) ∧
      (((Cursor.into ts p).readAll limit).error = none → q = ts.length) ∧
      ∀ e, ((Cursor.into ts p).readAll limit).error = some e →
        ∃ r, ((Cursor.into ts r).read limit).1 = .error e := by
  induction hn : ts.length - p using Nat.strongRecOn generalizing p with
  | ind n ih =>
    subst hn
    rcases Nat.lt_or_ge p ts.length with hlt | hge
    · have hne : (Cursor.into ts p).rest ≠ [] := by
        intro h
        exact Nat.not_le_of_lt hlt (List.drop_eq_nil_iff.1 h)
      obtain ⟨q, hq, hle, hlength, hmoves⟩ := resume_into starts_expression hp limit
      have hpq := hmoves hlt
      cases hx : ((Cursor.into ts p).read limit).1 with
      | error e =>
        rw [readAll_error hne (Prod.ext hx hq)]
        refine ⟨q, rfl, hle, hlength, hmoves, fun h => ?_, fun e' he => ⟨p, ?_⟩⟩
        · cases h
        · rw [hx, Option.some.inj he]
      | ok d =>
        obtain ⟨r, hr, hqr, hrest⟩ := ih (ts.length - q) (by omega) hlength rfl
        rw [readAll_ok (Prod.ext hx hq)]
        exact ⟨r, hr, by omega, hrest.1, fun _ => by omega, hrest.2.2⟩
    · obtain rfl : p = ts.length := Nat.le_antisymm hp hge
      rw [Cursor.into, List.drop_length, readAll_end]
      refine ⟨ts.length, ?_, Nat.le_refl _, Nat.le_refl _, fun h => ?_, fun _ => rfl,
        fun e he => ?_⟩
      · rw [Cursor.into, List.drop_length]
      · exact absurd h (Nat.lt_irrefl _)
      · cases he

theorem exhausts (hp : p ≤ ts.length) : Exhausts ts p := by
  refine ⟨fun limit => ?_, fun limit hlimit => ?_, fun limit => ?_⟩
  · obtain ⟨q, hq, hle, hlength, hlt, hend, -⟩ := readAll_into limit hp
    exact ⟨q, hq, hle, hlength, hlt, hend⟩
  · have hdeep : ((Cursor.into ts p).readAll limit).error ≠ some .nestedTooDeeply := by
      intro h
      obtain ⟨_, _, _, _, _, _, herror⟩ := readAll_into limit hp
      obtain ⟨r, hr⟩ := herror _ h
      refine resume_ne_nestedTooDeeply r ?_ hr
      change 0 + 2 * (ts.drop r).length < limit
      rw [List.length_drop]
      omega
    refine ⟨hdeep, fun limit' h => ?_⟩
    rcases readAll_mono h (.into ts p) with heq | ⟨hnested, -⟩
    · exact heq
    · exact absurd hnested hdeep
  · have hshift := readAll_shift limit p (.start (ts.drop p))
    rw [Cursor.start, Cursor.shift, Nat.zero_add] at hshift
    exact hshift

/-- Wherever it starts in a list of tokens, reading keeps to them and comes further; what it finds
there it finds in the rest of the tokens alone. -/
theorem reading_progresses (hp : p ≤ ts.length) :
    Progresses (fun limit c => c.read limit) ts p ∧
      Progresses (fun limit c => c.readList limit) ts p ∧ Exhausts ts p :=
  ⟨progresses starts_expression (Nat.zero_le 2) hp, progresses starts_items (Nat.le_refl 2) hp,
    exhausts hp⟩

/-- From a paren out of place reading comes to the end in two steps, by the atom behind it. -/
theorem reading_progresses_unexpectedClose :
    let ts : List Token := [.atom "a", .closeParen, .atom "b"]
    1 ≤ ts.length ∧ (Cursor.read 9 (.into ts 1)).1 = .error (.unexpectedClose 1) ∧
      (fun c => (Cursor.read 9 c).2)^[2] (.into ts 1) = .into ts 3 := by
  intro ts
  have hp : 1 ≤ ts.length := Nat.le_add_left 1 2
  exact ⟨hp, rfl, (reading_progresses hp).1.reaches 9 2 (Nat.le_refl 3)⟩

end Reader
end MiniLisp
