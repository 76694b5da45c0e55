import MiniLisp.Proofs.Eval.Depth
import MiniLisp.Proofs.Number.Quotient
import MiniLisp.Proofs.Walk.Walks

/-!
Errors that quote a value.  The text may be missing, and then the failure to make it takes the place
of the error.  It is missing only where there is not room for how deeply the value is nested, or for
an integer that no number is near to (`Nested.printWithin_or_deep`).  Of several values the leftmost
that fails decides (`mapM_leftmost`).
-/
set_option autoImplicit false

namespace MiniLisp

/-- The error holds the text, or is what keeps the text from being made. -/
inductive Quotes (text : Except Error String) (mk : String → Error) : Error → Prop where
  | text {t : String} : text = .ok t → Quotes text mk (mk t)
  | failed {e : Error} : text = .error e → Quotes text mk e

theorem exists_quotes {α : Type} (text : Except Error String) (mk : String → Error) :
    ∃ e, (do throw (mk (← text)) : Except Error α) = .error e ∧ Quotes text mk e := by
  cases text with
  | ok t => exact ⟨mk t, rfl, .text rfl⟩
  | error e => exact ⟨e, rfl, .failed rfl⟩

theorem Quotes.text_or {text : Except Error String} {mk : String → Error} {e failure : Error}
    {p : Prop} (h : Quotes text mk e) (ht : (∃ t, text = .ok t) ∨ p ∧ text = .error failure) :
    (∃ t, e = mk t) ∨ p ∧ e = failure := by
  cases h with
  | text _ => exact .inl ⟨_, rfl⟩
  | failed h =>
    rcases ht with ⟨t, ht⟩ | ⟨hp, ht⟩
    · rw [ht] at h
      cases h
    · rw [ht] at h
      cases h
      exact .inr ⟨hp, rfl⟩

section

variable {α β : Type} {f : α → Except Error β}

theorem exists_mapM_ok {xs : List α} (h : ∀ x ∈ xs, ∃ y, f x = .ok y) :
    ∃ ys, xs.mapM f = .ok ys := by
  induction xs with
  | nil => exact ⟨[], rfl⟩
  | cons x xs ih =>
    obtain ⟨hx, hxs⟩ := List.forall_mem_cons.1 h
    obtain ⟨y, hy⟩ := hx
    obtain ⟨ys, hys⟩ := ih hxs
    refine ⟨y :: ys, ?_⟩
    rw [List.mapM_cons, hy, hys]
    rfl

theorem mapM_leftmost {before after : List α} {x : α} {e : Error}
    (hbefore : ∀ y ∈ before, ∃ z, f y = .ok z) (hx : f x = .error e) :
    (before ++ x :: after).mapM f = .error e := by
  obtain ⟨zs, hzs⟩ := exists_mapM_ok hbefore
  rw [List.mapM_append, hzs, List.mapM_cons, hx]
  rfl

end

namespace Store

/-- Near each of the host's integers there is a number. -/
def Presentable (foreign : Value → Prop) : Prop :=
  ∀ i, foreign (.integer i) → (Double.ofInt? i).isSome

variable {foreign : Value → Prop} {s : Store} {v : Value}

theorem write_atom_ok (hf : Presentable foreign) (hv : v.node? = none) (ha : s.Admits foreign v)
    (out : String) : ∃ t, s.write 1 v out = .ok t := by
  cases v with
  | cell r => cases hv
  | closure r => cases hv
  | integer i =>
    obtain ⟨x, hx⟩ := Option.isSome_iff_exists.1 (hf i ha)
    rw [write, ofInteger_eq, hx]
    exact ⟨_, rfl⟩
  | _ => exact ⟨_, rfl⟩

theorem Prints.ok {inside : Bool} {x y : Except Error String} (hf : Presentable foreign)
    (hs : s.Sound foreign) (h : s.Prints inside v x y) (hv : s.Admits foreign v)
    (hx : ∃ t, x = .ok t) : ∃ t, y = .ok t := by
  have hmap : ∀ {z : Except Error String} (f : String → String),
      (∃ t, z = .ok t) → ∃ t, z.map f = .ok t := by
    rintro _ f ⟨t, rfl⟩
    exact ⟨f t, rfl⟩
  -- `x` is the text so far: a failure would have to be in it already.
  induction h with
  | failed =>
    obtain ⟨t, ht⟩ := hx
    cases ht
  | atom hatom => exact write_atom_ok hf hatom hv _
  | noParameters _ _ => exact ⟨_, rfl⟩
  | parameters hc _ _ ih => exact hmap _ (ih (hs.closure hc).1 ⟨_, rfl⟩)
  | pair hc _ _ ihh iht => exact iht (hs.cell hc).2 (ihh (hs.cell hc).1 ⟨_, rfl⟩)
  | next hc _ _ ihh iht => exact iht (hs.cell hc).2 (ihh (hs.cell hc).1 ⟨_, rfl⟩)
  | close => exact ⟨_, rfl⟩
  | dotted _ _ _ ih => exact hmap _ (ih hv ⟨_, rfl⟩)

theorem Nested.printWithin_ok {n room : Nat} (h : s.Nested n v) (hf : Presentable foreign)
    (hs : s.Sound foreign) (hv : s.Admits foreign v) (hroom : n < room) :
    ∃ t, s.printWithin room v = .ok t := by
  obtain ⟨room, rfl⟩ := Nat.exists_eq_add_of_lt hroom
  exact (h.prints.1 (n + room) "" (Nat.le_add_right n room)).ok hf hs hv ⟨"", rfl⟩

theorem Nested.printWithin_or_deep {n : Nat} (h : s.Nested n v) (hf : Presentable foreign)
    (hs : s.Sound foreign) (hv : s.Admits foreign v) (room : Nat) :
    (∃ t, s.printWithin room v = .ok t) ∨
      room ≤ n ∧ s.printWithin room v = .error .recursionTooDeep := by
  rcases Nat.lt_or_ge n room with hroom | hroom
  · exact .inl (h.printWithin_ok hf hs hv hroom)
  · rcases s.deepOrEq_printWithin (Nat.le_succ_of_le hroom) v with hdeep | heq
    · exact .inr ⟨hroom, hdeep⟩
    · rw [heq]
      exact .inl (h.printWithin_ok hf hs hv (Nat.lt_succ_self n))

theorem Nested.displayWithin_or_deep {n : Nat} (h : s.Nested n v) (hf : Presentable foreign)
    (hs : s.Sound foreign) (hv : s.Admits foreign v) (room : Nat) :
    (∃ t, s.displayWithin room v = .ok t) ∨
      room ≤ n ∧ s.displayWithin room v = .error .recursionTooDeep := by
  cases v with
  | number x => exact .inl ⟨_, rfl⟩
  | integer i => exact .inl ⟨_, rfl⟩
  | _ => exact h.printWithin_or_deep hf hs hv room

theorem ofInteger_large {i : Int} (h : 2 ^ 1024 ≤ i.natAbs) :
    Double.ofInteger i = .error .integerTooLarge := by
  have hlimit : unitLimit * 1 ≤ i.natAbs * unitsPerOne := by
    rw [Nat.mul_one, Double.unitLimit_eq]
    apply Nat.mul_le_mul_right unitsPerOne
    exact h
  have hnone := Magnitude.nearest?_of_le (unitLimit_le_roundUnits Nat.one_pos hlimit)
  rw [ofInteger_eq, Double.ofInt?, hnone]
  rfl

theorem large_ten_pow : 2 ^ 1024 ≤ ((10 ^ 400 : Nat) : Int).natAbs := by
  rw [Int.natAbs_natCast]
  apply Double.two_pow_le_ten_pow
  decide

theorem write_large (s : Store) {i : Int} (h : 2 ^ 1024 ≤ i.natAbs) (room : Nat) (out : String) :
    ∃ e, s.write room (.integer i) out = .error e ∧
      (e = .recursionTooDeep ∨ e = .integerTooLarge) := by
  cases room with
  | zero => exact ⟨_, rfl, .inl rfl⟩
  | succ room =>
    refine ⟨.integerTooLarge, ?_, .inr rfl⟩
    rw [write, ofInteger_large h]
    rfl

def dottedPair (head : Value) : Store := ⟨#[⟨head, .symbol "x"⟩], #[], #[⟨[], none⟩], 0, []⟩

theorem chain_dottedPair (head : Value) :
    (dottedPair head).Chain (.cell 0) [head] (.symbol "x") :=
  Chain.link (show (dottedPair head).cells[0]? = some ⟨head, .symbol "x"⟩ from rfl)
    (.stop (by simp))

theorem dottedPair_not_lists (head : Value) :
    ¬ ∃ items, (dottedPair head).Lists (.cell 0) items := by
  rintro ⟨items, h⟩
  cases (h.unique (chain_dottedPair head)).2

theorem printWithin_dottedPair_large (room : Nat) :
    ∃ e, (dottedPair (.integer (10 ^ 400 : Nat))).printWithin room (.cell 0) = .error e ∧
      (e = .recursionTooDeep ∨ e = .integerTooLarge) := by
  cases room with
  | zero => exact ⟨_, rfl, .inl rfl⟩
  | succ room =>
    obtain ⟨e, he, hfailure⟩ :=
      (dottedPair (.integer (10 ^ 400 : Nat))).write_large large_ten_pow room "("
    refine ⟨e, ?_, hfailure⟩
    rw [printWithin, write, (chain_dottedPair _).chain_eq]
    change ((dottedPair _).write room (.integer (10 ^ 400 : Nat)) "(" >>= _) = _
    rw [he]
    rfl

end Store
end MiniLisp
