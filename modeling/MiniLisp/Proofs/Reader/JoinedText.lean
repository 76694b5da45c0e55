import MiniLisp.Proofs.Reader.Continuation
import MiniLisp.Proofs.Reader.RoundTrip

set_option autoImplicit false

namespace MiniLisp

namespace Token

theorem takeWhile_endsAtom (cs : List Char) {rest : List Char} (h : EndsAtom rest) :
    (cs ++ rest).takeWhile isAtomChar = cs.takeWhile isAtomChar := by
  induction cs with
  | nil =>
    cases rest with
    | nil => rfl
    | cons c rest => simp [h c rfl]
  | cons c cs ih => cases hc : isAtomChar c <;> simp [hc, ih]

theorem dropWhile_endsAtom (cs : List Char) {rest : List Char} (h : EndsAtom rest) :
    (cs ++ rest).dropWhile isAtomChar = cs.dropWhile isAtomChar ++ rest := by
  induction cs with
  | nil =>
    cases rest with
    | nil => rfl
    | cons c rest => simp [h c rfl]
  | cons c cs ih => cases hc : isAtomChar c <;> simp [hc, ih]

theorem scan_append (cs : List Char) {rest : List Char} (h : EndsAtom rest) :
    scan (cs ++ rest) = scan cs ++ scan rest := by
  fun_induction scan cs with
  | case1 => rfl
  | case2 cs ih => rw [List.cons_append, scan_openParen, ih, List.cons_append]
  | case3 cs _ ih => rw [List.cons_append, scan_closeParen, ih, List.cons_append]
  | case4 cs _ _ ih => rw [List.cons_append, scan_quoteMark, ih, List.cons_append]
  | case5 c cs hopen hclose hquote hblank ih =>
    rw [List.cons_append, scan, if_neg hopen, if_neg hclose, if_neg hquote, if_pos hblank, ih]
  | case6 c cs hopen hclose hquote hblank ih =>
    rw [List.cons_append, scan, if_neg hopen, if_neg hclose, if_neg hquote, if_neg hblank,
      takeWhile_endsAtom cs h, dropWhile_endsAtom cs h, ih, List.cons_append]

theorem scan_blanks {w : List Char} (hw : ∀ c ∈ w, Text.isBlank c = true) (cs : List Char) :
    scan (w ++ cs) = scan cs := by
  induction w with
  | nil => rfl
  | cons c w ih =>
    obtain ⟨hc, hw⟩ := List.forall_mem_cons.1 hw
    have hne : ∀ x, Text.isBlank x = false → c ≠ x := by
      rintro x hx rfl
      rw [hc] at hx
      cases hx
    rw [List.cons_append, scan, if_neg (hne '(' (by decide)), if_neg (hne ')' (by decide)),
      if_neg (hne '\'' (by decide)), if_pos hc, ih hw]

end Token

theorem tokenize_joined {w : String} (hw : w ≠ "") (hb : ∀ c ∈ w.toList, Text.isBlank c = true)
    (a b : String) : tokenize (a ++ w ++ b) = tokenize a ++ tokenize b := by
  have hends : Token.EndsAtom (w.toList ++ b.toList) := by
    cases hcs : w.toList with
    | nil => exact absurd (String.toList_eq_nil_iff.1 hcs) hw
    | cons c cs =>
      have hc := hb c (by simp [hcs])
      simp [Token.EndsAtom, Token.isAtomChar, hc]
  rw [tokenize, String.toList_append, String.toList_append, List.append_assoc,
    Token.scan_append _ hends, Token.scan_blanks hb]
  rfl

section

variable {limit : Nat} {c next : Cursor}

theorem readAll_end (limit index : Nat) :
    Cursor.readAll limit ⟨index, []⟩ = ⟨[], none, ⟨index, []⟩⟩ := by
  rw [Cursor.readAll]
  rfl

theorem readAll_error {e : Error} (hne : c.rest ≠ []) (h : c.read limit = (.error e, next)) :
    c.readAll limit = ⟨[], some e, next⟩ := by
  have hend : ¬ c.atEnd = true := by simpa [Cursor.atEnd] using hne
  rw [Cursor.readAll, if_neg hend]
  split
  · next heq =>
    rw [h] at heq
    cases heq
    rfl
  · next heq =>
    rw [h] at heq
    cases heq

theorem readAll_ok {d : Datum} (h : c.read limit = (.ok d, next)) : c.readAll limit =
    { next.readAll limit with data := d :: (next.readAll limit).data } := by
  have hend : ¬ c.atEnd = true := by
    have := Reader.resume_ok_shorter limit c.rest h
    intro hend
    rw [Cursor.atEnd, List.isEmpty_iff] at hend
    simp [hend] at this
  rw [Cursor.readAll, if_neg hend]
  split
  · next heq =>
    rw [h] at heq
    cases heq
  · next heq =>
    rw [h] at heq
    cases heq
    rfl

theorem read_ok_place {d : Datum} (h : c.read limit = (.ok d, next)) :
    next.position + next.rest.length = c.position + c.rest.length := by
  obtain ⟨used, rest, hts, _, rfl⟩ := Reader.derives_of_resume h
  rw [hts, List.length_append, ← Nat.add_assoc]

/-- An expression, or an error that more tokens could not have kept away, is read whatever
follows. -/
theorem read_followedBy {x : Except Error Datum} (h : c.read limit = (x, next))
    (hx : ∀ e, x = .error e → ¬ e.IsIncomplete) (us : List Token) :
    (c.followedBy us).read limit = (x, next.followedBy us) := by
  rcases Reader.waits_or_resume_append limit (.expression []) c.position c.rest with
    ⟨q, hq⟩ | happend
  · have heq := hq.resume_eq.symm.trans h
    cases heq
    exact absurd (Reader.missing_isIncomplete q) (hx _ rfl)
  · have hread := happend us
    rwa [show Reader.resume limit (.expression []) c.position c.rest = (x, next) from h] at hread

/-- What is read is read first, whatever tokens follow.  If there was no error, they are read next,
and behind one that they cannot mend nothing is. -/
theorem readAll_followedBy (limit : Nat) (us : List Token) (c : Cursor) :
    ∃ more : Reading, (c.followedBy us).readAll limit =
        { more with data := (c.readAll limit).data ++ more.data } ∧
      match (c.readAll limit).error with
      | none => more = Cursor.readAll limit ⟨c.position + c.rest.length, us⟩
      | some e => ¬ e.IsIncomplete →
        more = ⟨[], some e, (c.readAll limit).cursor.followedBy us⟩ := by
  induction hn : c.rest.length using Nat.strongRecOn generalizing c with
  | ind n ih =>
    subst hn
    obtain ⟨index, ts⟩ := c
    cases ts with
    | nil => exact ⟨_, by rw [readAll_end]; rfl, by rw [readAll_end]; rfl⟩
    | cons t ts =>
      cases hread : Cursor.read limit ⟨index, t :: ts⟩ with
      | mk x next =>
        cases x with
        | error e =>
          rw [readAll_error (by simp) hread]
          by_cases he : e.IsIncomplete
          · exact ⟨_, rfl, fun hno => absurd he hno⟩
          · have hmore := read_followedBy hread (fun e' h => by cases h; exact he) us
            exact ⟨⟨[], some e, next.followedBy us⟩,
              readAll_error (by simp [Cursor.followedBy]) hmore, fun _ => rfl⟩
        | ok d =>
          have hmore := read_followedBy hread (fun e h => by cases h) us
          have hshorter := Reader.resume_ok_shorter limit _ hread
          obtain ⟨more, hall, herror⟩ := ih _ hshorter next rfl
          rw [readAll_ok hread, readAll_ok hmore, hall]
          refine ⟨more, rfl, ?_⟩
          rw [read_ok_place hread] at herror
          exact herror

def Reading.shift (n : Nat) (r : Reading) : Reading :=
  ⟨r.data, r.error.map (·.shift n), r.cursor.shift n⟩

theorem readAll_shift (limit n : Nat) (c : Cursor) :
    (c.shift n).readAll limit = (c.readAll limit).shift n := by
  induction hn : c.rest.length using Nat.strongRecOn generalizing c with
  | ind m ih =>
    subst hn
    obtain ⟨index, ts⟩ := c
    cases ts with
    | nil =>
      rw [Cursor.shift, readAll_end, readAll_end]
      rfl
    | cons t ts =>
      have hshift : (Cursor.shift n ⟨index, t :: ts⟩).read limit = _ :=
        Reader.resume_shift limit n (.expression []) index (t :: ts)
      cases hread : Cursor.read limit ⟨index, t :: ts⟩ with
      | mk x next =>
        rw [show Reader.resume limit (.expression []) index (t :: ts) = (x, next) from hread]
          at hshift
        cases x with
        | error e =>
          rw [readAll_error (by simp) hread, readAll_error (by simp [Cursor.shift]) hshift]
          rfl
        | ok d =>
          have hshorter := Reader.resume_ok_shorter limit _ hread
          rw [readAll_ok hread, readAll_ok hshift, ih _ hshorter next rfl]
          rfl

end

end MiniLisp
