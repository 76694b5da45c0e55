import MiniLisp.Proofs.Reader.Grammar

/-!
Reading where more tokens may follow.  Either it takes up all the tokens and waits for more
(`Waits`), or one of them ends it, and then what follows makes no difference (`resume_append`).
Where it begins only moves the places it tells of (`resume_shift`), and the limit of depth only
decides whether there is too little of it (`resume_mono`, `resume_ne_nestedTooDeeply`).
-/
set_option autoImplicit false

namespace MiniLisp

namespace Error

/-- More tokens could complete the input. -/
def IsIncomplete (e : Error) : Prop := e = .unexpectedEnd ∨ e = .unclosedList

/-- No tokens that follow could mend the input. -/
def IsWrong : Error → Prop
  | unexpectedClose _ | nothingBeforeDot | nothingAfterDot | severalAfterDot
  | trailingInput _ => True
  | _ => False

def shift (n : Nat) : Error → Error
  | unexpectedClose i => unexpectedClose (i + n)
  | e => e

theorem IsWrong.not_isIncomplete {e : Error} (h : e.IsWrong) : ¬ e.IsIncomplete := by
  rintro (rfl | rfl) <;> exact h

end Error

namespace Cursor

def followedBy (c : Cursor) (us : List Token) : Cursor := ⟨c.position, c.rest ++ us⟩

def shift (n : Nat) (c : Cursor) : Cursor := ⟨c.position + n, c.rest⟩

end Cursor

namespace Reader

def Pending.depth : Pending → Nat
  | .expression stack | .closing _ _ stack => Reader.depth stack

/-- All that a token can do, which is the same at every place and within every limit. -/
inductive Effect (p : Pending) (t : Token) : Prop where
  | delivers (d : Datum) (stack : List Context) : depth stack ≤ p.depth →
      (∀ limit index, step limit index p t = deliver d stack) → Effect p t
  | enters (c : Context) (stack : List Context) : depth (c :: stack) ≤ p.depth + 2 →
      (∀ limit index, step limit index p t = enter limit c stack) → Effect p t
  | fails (e : Error) : e.IsWrong → (∀ n, e.shift n = e) →
      (∀ limit index, step limit index p t = .failed e) → Effect p t
  | refuses (e : Error) : e.IsWrong → (∀ n, e.shift n = e) →
      (∀ limit index, step limit index p t = .refused e) → Effect p t
  | closes : t = .closeParen →
      (∀ limit index, step limit index p t = .failed (.unexpectedClose index)) → Effect p t

theorem effect (p : Pending) (t : Token) : Effect p t := by
  cases p with
  | closing read tail stack =>
    cases t with
    | closeParen => exact .delivers _ stack (Nat.le_refl _) fun _ _ => rfl
    | _ => exact .fails .severalAfterDot trivial (fun _ => rfl) fun _ _ => rfl
  | expression stack =>
    cases t with
    | openParen =>
      refine .enters (.items []) stack ?_ fun _ _ => rfl
      simp only [depth, Context.levels, Pending.depth]
      omega
    | quoteMark =>
      refine .enters .quoted stack ?_ fun _ _ => rfl
      simp only [depth, Context.levels, Pending.depth]
      omega
    | closeParen =>
      cases stack with
      | nil => exact .closes rfl fun _ _ => rfl
      | cons c stack =>
        cases c with
        | quoted => exact .closes rfl fun _ _ => rfl
        | items read => exact .delivers _ stack (Nat.le_add_left _ _) fun _ _ => rfl
        | dotted read => exact .refuses .nothingAfterDot trivial (fun _ => rfl) fun _ _ => rfl
    | atom text =>
      cases stack with
      | nil => exact .delivers _ _ (Nat.le_refl _) fun _ _ => rfl
      | cons c stack =>
        cases c with
        | quoted | dotted _ => exact .delivers _ _ (Nat.le_refl _) fun _ _ => rfl
        | items read =>
          by_cases hdot : text = "."
          · by_cases hread : read = []
            · refine .fails .nothingBeforeDot trivial (fun _ => rfl) fun _ _ => ?_
              simp only [step, if_pos hdot, if_pos hread]
            · refine .enters (.dotted read) stack ?_ fun _ _ => by
                simp only [step, if_pos hdot, if_neg hread]
              simp only [depth, Context.levels, Pending.depth]
              omega
          · refine .delivers (.ofAtom text) (.items read :: stack) (Nat.le_refl _) fun _ _ => ?_
            simp only [step, if_neg hdot]

theorem deliver_cases (d : Datum) (stack : List Context) :
    (∃ q : Pending, q.depth ≤ depth stack ∧ deliver d stack = .more q) ∨
      ∃ e, deliver d stack = .complete e := by
  induction stack generalizing d with
  | nil => exact .inr ⟨d, rfl⟩
  | cons c stack ih =>
    cases c with
    | quoted =>
      rcases ih d.quote with ⟨q, hq, h⟩ | ⟨e, h⟩
      · exact .inl ⟨q, Nat.le_trans hq (Nat.le_add_left _ _), h⟩
      · exact .inr ⟨e, h⟩
    | items read => exact .inl ⟨_, Nat.le_refl _, rfl⟩
    | dotted read => exact .inl ⟨.closing read d stack, Nat.le_add_left _ _, rfl⟩

theorem step_more_depth {limit index : Nat} {p q : Pending} {t : Token}
    (h : step limit index p t = .more q) : q.depth ≤ p.depth + 2 := by
  cases effect p t with
  | delivers d stack hd hs =>
    rw [hs] at h
    rcases deliver_cases d stack with ⟨r, hr, heq⟩ | ⟨e, heq⟩
    · rw [heq] at h
      cases h
      omega
    · rw [heq] at h
      cases h
  | enters c stack hd hs =>
    rw [hs, enter] at h
    split at h
    · cases h
      exact hd
    · cases h
  | fails e _ _ hs | refuses e _ _ hs | closes _ hs =>
    rw [hs] at h
    cases h

def Step.Raises (x : Step) (e : Error) : Prop := x = .failed e ∨ x = .refused e

theorem step_raises {limit index : Nat} {p : Pending} {t : Token} {e : Error}
    (h : (step limit index p t).Raises e) :
    e = .nestedTooDeeply ∧ limit ≤ p.depth + 2 ∨ e.IsWrong := by
  cases effect p t with
  | delivers d stack _ hs =>
    rw [hs] at h
    rcases deliver_cases d stack with ⟨q, _, heq⟩ | ⟨d', heq⟩ <;> rw [heq] at h <;>
      rcases h with h | h <;> cases h
  | enters c stack hd hs =>
    rw [hs, enter] at h
    split at h <;> rcases h with h | h <;> cases h
    exact .inl ⟨rfl, by omega⟩
  | fails e' hw _ hs | refuses e' hw _ hs =>
    rw [hs] at h
    rcases h with h | h <;> cases h
    exact .inr hw
  | closes _ hs =>
    rw [hs] at h
    rcases h with h | h <;> cases h
    exact .inr trivial

/-- The tokens have been taken up, and reading waits for more at `q`. -/
inductive Waits (limit : Nat) : Pending → Nat → List Token → Pending → Prop where
  | nil (p : Pending) (index : Nat) : Waits limit p index [] p
  | cons {p q r : Pending} {index : Nat} {t : Token} {ts : List Token} :
      step limit index p t = .more q → Waits limit q (index + 1) ts r →
      Waits limit p index (t :: ts) r

section

variable {limit : Nat} {p q : Pending} {index : Nat} {ts : List Token}

theorem Waits.resume_append (h : Waits limit p index ts q) (us : List Token) :
    resume limit p index (ts ++ us) = resume limit q (index + ts.length) us := by
  induction h with
  | nil p index => rfl
  | cons hs _ ih =>
    rw [List.cons_append, resume, hs]
    simp only [ih, List.length_cons]
    congr 1
    omega

theorem Waits.resume_eq (h : Waits limit p index ts q) :
    resume limit p index ts = (.error q.missing, ⟨index + ts.length, []⟩) := by
  have hread := h.resume_append []
  rwa [List.append_nil] at hread

theorem missing_isIncomplete (p : Pending) : p.missing.IsIncomplete := by
  unfold Pending.missing
  split
  · exact .inl rfl
  · exact .inl rfl
  · exact .inr rfl

theorem resume_stop {t : Token} (h : ∀ q, step limit index p t ≠ .more q) (ts us : List Token) :
    resume limit p index (t :: ts ++ us) = ((resume limit p index (t :: ts)).1,
      (resume limit p index (t :: ts)).2.followedBy us) := by
  rw [List.cons_append, resume, resume]
  cases hs : step limit index p t with
  | more q => exact absurd hs (h q)
  | _ => rfl

variable (limit p index ts) in
theorem waits_or_stops : (∃ q, Waits limit p index ts q) ∨
    ∃ before t after q, ts = before ++ t :: after ∧ Waits limit p index before q ∧
      ∀ r, step limit (index + before.length) q t ≠ .more r := by
  induction ts generalizing p index with
  | nil => exact .inl ⟨p, .nil p index⟩
  | cons t ts ih =>
    by_cases h : ∃ q, step limit index p t = .more q
    · obtain ⟨q, hq⟩ := h
      rcases ih q (index + 1) with ⟨r, hr⟩ | ⟨before, u, after, r, rfl, hr, hstop⟩
      · exact .inl ⟨r, .cons hq hr⟩
      · refine .inr ⟨t :: before, u, after, r, rfl, .cons hq hr, fun q' => ?_⟩
        rw [List.length_cons, Nat.add_comm before.length, ← Nat.add_assoc]
        exact hstop q'
    · exact .inr ⟨[], t, ts, p, rfl, .nil p index, fun q hq => h ⟨q, hq⟩⟩

variable (limit p index ts) in
theorem waits_or_resume_append : (∃ q, Waits limit p index ts q) ∨
    ∀ us, resume limit p index (ts ++ us) =
      ((resume limit p index ts).1, (resume limit p index ts).2.followedBy us) := by
  rcases waits_or_stops limit p index ts with h | ⟨before, t, after, q, rfl, hw, hstop⟩
  · exact .inl h
  · refine .inr fun us => ?_
    rw [List.append_assoc, hw.resume_append, hw.resume_append, resume_stop hstop]

variable (limit p index ts) in
/-- What reading has not found in tokens that it does not wait behind, it will not find. -/
theorem waits_or_final : (∃ q, Waits limit p index ts q) ∨
    (∃ d, (resume limit p index ts).1 = .ok d) ∨
    ∃ e, (resume limit p index ts).1 = .error e ∧ (e = .nestedTooDeeply ∨ e.IsWrong) := by
  rcases waits_or_stops limit p index ts with h | ⟨before, t, after, q, rfl, hw, hstop⟩
  · exact .inl h
  · rw [hw.resume_append, resume]
    cases hs : step limit (index + before.length) q t with
    | more r => exact absurd hs (hstop r)
    | complete d => exact .inr (.inl ⟨d, rfl⟩)
    | failed e => exact .inr (.inr ⟨e, rfl, (step_raises (.inl hs)).imp_left And.left⟩)
    | refused e => exact .inr (.inr ⟨e, rfl, (step_raises (.inr hs)).imp_left And.left⟩)

end

theorem resume_mono {limit limit' : Nat} (h : limit ≤ limit') (p : Pending) (index : Nat)
    (ts : List Token) : (resume limit p index ts).1 = .error .nestedTooDeeply ∨
      resume limit' p index ts = resume limit p index ts := by
  induction ts generalizing p index with
  | nil => exact .inr rfl
  | cons t ts ih =>
    rw [resume, resume]
    cases effect p t with
    | delivers d stack _ hs =>
      rw [hs, hs]
      rcases deliver_cases d stack with ⟨q, _, heq⟩ | ⟨e, heq⟩
      · rw [heq]
        exact ih q (index + 1)
      · rw [heq]
        exact .inr rfl
    | enters c stack _ hs =>
      rw [hs, hs, enter, enter]
      by_cases hd : depth (c :: stack) < limit
      · rw [if_pos hd, if_pos (Nat.lt_of_lt_of_le hd h)]
        exact ih _ (index + 1)
      · rw [if_neg hd]
        exact .inl rfl
    | fails e _ _ hs | refuses e _ _ hs | closes _ hs =>
      rw [hs, hs]
      exact .inr rfl

/-- Two levels for each token are depth enough. -/
theorem resume_ne_nestedTooDeeply {limit : Nat} {p : Pending} (index : Nat) {ts : List Token}
    (h : p.depth + 2 * ts.length < limit) :
    (resume limit p index ts).1 ≠ .error .nestedTooDeeply := by
  induction ts generalizing p index with
  | nil =>
    have hm := missing_isIncomplete p
    intro hn
    rw [resume, Except.error.injEq] at hn
    rw [hn] at hm
    rcases hm with hm | hm <;> cases hm
  | cons t ts ih =>
    rw [List.length_cons] at h
    rw [resume]
    cases hs : step limit index p t with
    | more q =>
      have hq := step_more_depth hs
      exact ih (index + 1) (by omega)
    | complete d => simp
    | failed e | refused e =>
      intro hn
      obtain rfl := Except.error.inj hn
      have hraises : (step limit index p t).Raises .nestedTooDeeply := by simp [hs, Step.Raises]
      rcases step_raises hraises with ⟨-, hl⟩ | hw
      · omega
      · exact hw

theorem resume_shift (limit n : Nat) (p : Pending) (index : Nat) (ts : List Token) :
    resume limit p (index + n) ts = ((resume limit p index ts).1.mapError (·.shift n),
      (resume limit p index ts).2.shift n) := by
  induction ts generalizing p index with
  | nil =>
    rcases missing_isIncomplete p with h | h <;> simp only [resume, h] <;>
      exact congrArg (fun place => (_, Cursor.mk place [])) (Nat.add_right_comm index n 0)
  | cons t ts ih =>
    have hplace : index + n + 1 = index + 1 + n := by omega
    rw [resume, resume, hplace]
    cases effect p t with
    | delivers d stack _ hs =>
      rw [hs, hs]
      rcases deliver_cases d stack with ⟨q, _, heq⟩ | ⟨e, heq⟩ <;> rw [heq]
      · exact ih q (index + 1)
      · rfl
    | enters c stack _ hs =>
      rw [hs, hs, enter]
      by_cases hd : depth (c :: stack) < limit
      · rw [if_pos hd]
        exact ih _ (index + 1)
      · rw [if_neg hd]
        rfl
    | fails e _ he hs | refuses e _ he hs =>
      rw [hs, hs]
      exact Prod.ext (congrArg Except.error (he n).symm) rfl
    | closes _ hs =>
      rw [hs, hs]
      rfl

end Reader
end MiniLisp
