import MiniLisp.Proofs.Reader.Continuation

set_option autoImplicit false

namespace MiniLisp.Reader

def conclude : Except Error Datum × Cursor → Except Error Datum
  | (.error e, _) => .error e
  | (.ok d, next) =>
    match next.peek with
    | none => .ok d
    | some token => .error (.trailingInput token.text)

def parseTokens (limit : Nat) (ts : List Token) : Except Error Datum :=
  conclude (resume limit (.expression []) 0 ts)

theorem parse_eq_parseTokens (limit : Nat) (source : String) :
    parse limit source = parseTokens limit (tokenize source) := rfl

/-- The tokens are one expression, if there is depth enough to read it. -/
def Accepts (ts : List Token) : Prop := ∃ limit d, parseTokens limit ts = .ok d

def Completable (ts : List Token) : Prop := ∃ us, Accepts (ts ++ us)

def closers : List Context → List Token
  | [] => []
  | .quoted :: stack => closers stack
  | .items _ :: stack | .dotted _ :: stack => .closeParen :: closers stack

def Pending.completion : Pending → List Token
  | .expression stack => .atom "x" :: closers stack
  | .closing _ _ stack => .closeParen :: closers stack

theorem resumeAfter_closers (limit : Nat) (d : Datum) (stack : List Context) (index : Nat) :
    ∃ e, resumeAfter limit d stack index (closers stack) =
      (.ok e, ⟨index + (closers stack).length, []⟩) := by
  induction stack generalizing d index with
  | nil => exact ⟨d, rfl⟩
  | cons c stack ih =>
    cases c with
    | quoted => exact ih d.quote index
    | items read =>
      obtain ⟨e, he⟩ := ih (.list (d :: read).reverse .nil) (index + 1)
      refine ⟨e, ?_⟩
      rw [resumeAfter_items, closers, resume_deliver rfl, he, List.length_cons]
      congr 2
      omega
    | dotted read =>
      obtain ⟨e, he⟩ := ih (.list read.reverse d) (index + 1)
      refine ⟨e, ?_⟩
      rw [resumeAfter_dotted, closers, resume_deliver rfl, he, List.length_cons]
      congr 2
      omega

theorem resume_completion (limit : Nat) (q : Pending) (index : Nat) :
    ∃ e c, resume limit q index q.completion = (.ok e, c) ∧ c.rest = [] := by
  cases q with
  | expression stack =>
    have hfits : Fits stack [.atom "x"] := fits_iff.2 fun _ _ _ => by decide
    obtain ⟨e, he⟩ := resumeAfter_closers limit (.ofAtom "x") stack (index + 1)
    exact ⟨e, _, (resume_deliver (step_atom hfits limit index) _).trans he, rfl⟩
  | closing read tail stack =>
    obtain ⟨e, he⟩ := resumeAfter_closers limit (.list read.reverse tail) stack (index + 1)
    exact ⟨e, _, (resume_deliver rfl _).trans he, rfl⟩

section

variable {limit : Nat} {q : Pending} {ts : List Token}

theorem Waits.parseTokens_eq (h : Waits limit (.expression []) 0 ts q) :
    parseTokens limit ts = .error q.missing := by
  rw [parseTokens, h.resume_eq, conclude]

theorem Waits.parseTokens_append (h : Waits limit (.expression []) 0 ts q) (us : List Token) :
    parseTokens limit (ts ++ us) = conclude (resume limit q (0 + ts.length) us) := by
  rw [parseTokens, h.resume_append]

theorem Waits.completable (h : Waits limit (.expression []) 0 ts q) : Completable ts := by
  obtain ⟨d, c, hread, hrest⟩ := resume_completion limit q (0 + ts.length)
  refine ⟨q.completion, limit, d, ?_⟩
  rw [h.parseTokens_append, hread]
  simp only [conclude, Cursor.peek, hrest, List.head?_nil]

variable (limit ts) in
/-- The tokens are incomplete, or what they are to the parser they stay: an expression that takes no
more tokens, or an error. -/
theorem parseTokens_cases : (∃ q, Waits limit (.expression []) 0 ts q) ∨
    (∃ d, parseTokens limit ts = .ok d ∧
      ∀ us, us ≠ [] → ∃ t, parseTokens limit (ts ++ us) = .error (.trailingInput t)) ∨
    ∃ e, (e = .nestedTooDeeply ∨ e.IsWrong) ∧ ∀ us, parseTokens limit (ts ++ us) = .error e := by
  rcases waits_or_resume_append limit (.expression []) 0 ts with h | happend
  · exact .inl h
  rcases waits_or_final limit (.expression []) 0 ts with h | ⟨d, hd⟩ | ⟨e, he, hfinal⟩
  · exact .inl h
  · have hparse : ∀ us, parseTokens limit (ts ++ us) =
        match ((resume limit (.expression []) 0 ts).2.rest ++ us).head? with
        | none => .ok d
        | some token => .error (.trailingInput token.text) := by
      intro us
      rw [parseTokens, happend us, hd]
      rfl
    cases hrest : (resume limit (.expression []) 0 ts).2.rest with
    | nil =>
      rw [hrest] at hparse
      refine .inr (.inl ⟨d, by simpa using hparse [], fun us hus => ?_⟩)
      obtain ⟨t, us, rfl⟩ := List.exists_cons_of_ne_nil hus
      exact ⟨t.text, hparse (t :: us)⟩
    | cons t rest =>
      rw [hrest] at hparse
      exact .inr (.inr ⟨.trailingInput t.text, .inr trivial, hparse⟩)
  · refine .inr (.inr ⟨e, hfinal, fun us => ?_⟩)
    rw [parseTokens, happend us, he, conclude]

end

theorem conclude_of_error {x : Except Error Datum × Cursor} {e : Error} (h : x.1 = .error e) :
    conclude x = .error e := by
  obtain ⟨x, c⟩ := x
  subst h
  rfl

theorem parseTokens_mono {limit limit' : Nat} (h : limit ≤ limit') (ts : List Token) :
    parseTokens limit ts = .error .nestedTooDeeply ∨
      parseTokens limit' ts = parseTokens limit ts := by
  rcases resume_mono h (.expression []) 0 ts with hdeep | heq
  · exact .inl (conclude_of_error hdeep)
  · right
    rw [parseTokens, parseTokens, heq]

theorem not_accepts_of_error {limit : Nat} {ts : List Token} {e : Error}
    (h : parseTokens limit ts = .error e) (he : e ≠ .nestedTooDeeply) : ¬ Accepts ts := by
  rintro ⟨limit', d, hd⟩
  rcases parseTokens_mono (Nat.le_max_left limit limit') ts with hdeep | heq
  · rw [h] at hdeep
    exact he (Except.error.inj hdeep)
  rcases parseTokens_mono (Nat.le_max_right limit limit') ts with hdeep | heq'
  · rw [hd] at hdeep
    cases hdeep
  · rw [heq, h, hd] at heq'
    cases heq'

theorem error_of_conclude {x : Except Error Datum × Cursor} {e : Error}
    (h : conclude x = .error e) : x.1 = .error e ∨ ∃ text, e = .trailingInput text := by
  obtain ⟨x, c⟩ := x
  cases x with
  | error e' => exact .inl h
  | ok d =>
    rw [conclude] at h
    split at h
    · cases h
    · exact .inr ⟨_, (Except.error.inj h).symm⟩

theorem parseTokens_ne_nestedTooDeeply {limit : Nat} {ts : List Token}
    (h : 2 * ts.length < limit) : parseTokens limit ts ≠ .error .nestedTooDeeply := by
  intro hdeep
  rcases error_of_conclude hdeep with hread | ⟨text, ht⟩
  · exact resume_ne_nestedTooDeeply 0 (by simpa [Pending.depth, depth] using h) hread
  · cases ht

theorem closes_of_resume {limit index k : Nat} {q : Pending} {t : Token} {us : List Token}
    (hstop : ∀ r, step limit index q t ≠ .more r)
    (h : (resume limit q index (t :: us)).1 = .error (.unexpectedClose k)) :
    t = .closeParen ∧ ∀ limit index, step limit index q t = .failed (.unexpectedClose index) := by
  rw [resume] at h
  cases effect q t with
  | closes ht hs => exact ⟨ht, hs⟩
  | delivers d stack _ hs =>
    rcases deliver_cases d stack with ⟨r, _, heq⟩ | ⟨d', heq⟩
    · exact absurd ((hs _ _).trans heq) (hstop r)
    · rw [hs, heq] at h
      cases h
  | enters c stack _ hs =>
    rw [hs, enter] at h
    by_cases hd : depth (c :: stack) < limit
    · exact absurd ((hs _ _).trans (if_pos hd)) (hstop _)
    · rw [if_neg hd] at h
      cases h
  | fails e _ he hs | refuses e _ he hs =>
    rw [hs] at h
    obtain rfl := Except.error.inj h
    have hmoved := he 1
    simp [Error.shift] at hmoved

/-- The paren that an error complains of is the first token that no completion can have there. -/
theorem unexpectedClose_place {limit k : Nat} {ts : List Token}
    (h : parseTokens limit ts = .error (.unexpectedClose k)) :
    ts[k]? = some .closeParen ∧ Completable (ts.take k) ∧ ¬ Completable (ts.take (k + 1)) := by
  rcases waits_or_stops limit (.expression []) 0 ts with
    ⟨q, hq⟩ | ⟨before, t, after, q, rfl, hq, hstop⟩
  · rw [hq.parseTokens_eq, Except.error.injEq] at h
    rcases missing_isIncomplete q with hm | hm <;> rw [hm] at h <;> cases h
  have hread := error_of_conclude ((hq.parseTokens_append _).symm.trans h)
  obtain ⟨rfl, hs⟩ := closes_of_resume hstop (hread.resolve_right (by simp))
  have herror : ∀ us, parseTokens limit (before ++ .closeParen :: us) =
      .error (.unexpectedClose before.length) := by
    intro us
    rw [hq.parseTokens_append, resume, hs, Nat.zero_add, conclude]
  rw [herror] at h
  obtain rfl : before.length = k := by cases h; rfl
  have htake : (before ++ .closeParen :: after).take (before.length + 1) =
      before ++ [.closeParen] := List.take_length_add_append 1
  refine ⟨by simp, ?_, ?_⟩
  · rw [List.take_left]
    exact hq.completable
  · rw [htake]
    rintro ⟨us, hus⟩
    rw [List.append_assoc] at hus
    exact not_accepts_of_error (herror us) (by simp) hus

structure Tells (ts : List Token) (answer : Except Error Datum) : Prop where
  accepted : (∃ d, answer = .ok d) ↔ Accepts ts
  incomplete : (∃ e, answer = .error e ∧ e.IsIncomplete) ↔ ¬ Accepts ts ∧ Completable ts
  wrong : (∃ e, answer = .error e ∧ e.IsWrong) ↔ ¬ Accepts ts ∧ ∀ us, ¬ Accepts (ts ++ us)
  final : Accepts ts → ∀ us, us ≠ [] → ¬ Accepts (ts ++ us)
  unexpectedClose (k : Nat) : answer = .error (.unexpectedClose k) →
    ts[k]? = some .closeParen ∧ Completable (ts.take k) ∧ ¬ Completable (ts.take (k + 1))

/-- Depth aside, tokens are accepted, incomplete or wrong, and the parser says which. -/
theorem parse_tells_incomplete_from_wrong (ts : List Token) :
    (∀ limit, 2 * ts.length < limit → parseTokens limit ts ≠ .error .nestedTooDeeply) ∧
    ∀ limit, parseTokens limit ts ≠ .error .nestedTooDeeply → Tells ts (parseTokens limit ts) := by
  refine ⟨fun limit => parseTokens_ne_nestedTooDeeply, fun limit hdeep => ?_⟩
  rcases parseTokens_cases limit ts with ⟨q, hq⟩ | ⟨d, hd, hmore⟩ | ⟨e, he, hmore⟩
  · have hno : ¬ Accepts ts := by
      refine not_accepts_of_error hq.parseTokens_eq ?_
      rcases missing_isIncomplete q with hm | hm <;> rw [hm] <;> simp
    have hwrong : ¬ q.missing.IsWrong := fun hw => hw.not_isIncomplete (missing_isIncomplete q)
    refine ⟨?_, ?_, ?_, fun h => absurd h hno, fun k => unexpectedClose_place⟩
    · simp [hq.parseTokens_eq, hno]
    · simp [hq.parseTokens_eq, hno, missing_isIncomplete, hq.completable]
    · obtain ⟨us, hus⟩ := hq.completable
      simpa [hq.parseTokens_eq, hno, hwrong] using ⟨us, hus⟩
  · have hyes : Accepts ts := ⟨limit, d, hd⟩
    refine ⟨?_, ?_, ?_, fun _ us hus => ?_, fun k => unexpectedClose_place⟩
    · simp [hd, hyes]
    · simp [hd, hyes]
    · simp [hd, hyes]
    · obtain ⟨t, ht⟩ := hmore us hus
      exact not_accepts_of_error ht (by simp)
  · have hparse : parseTokens limit ts = .error e := by simpa using hmore []
    rw [hparse] at hdeep
    have hne : e ≠ .nestedTooDeeply := fun h => hdeep (by rw [h])
    have hw : e.IsWrong := he.resolve_left hne
    have hnone : ∀ us, ¬ Accepts (ts ++ us) := fun us => not_accepts_of_error (hmore us) hne
    have hno : ¬ Accepts ts := not_accepts_of_error hparse hne
    have hcompletable : ¬ Completable ts := fun ⟨us, hus⟩ => hnone us hus
    refine ⟨?_, ?_, ?_, fun h => absurd h hno, fun k => unexpectedClose_place⟩
    · simp [hparse, hno]
    · simp [hparse, hno, hcompletable, hw.not_isIncomplete]
    · simp [hparse, hno, hw, hnone]

end MiniLisp.Reader
