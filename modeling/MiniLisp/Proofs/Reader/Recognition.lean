import MiniLisp.Proofs.Reader.Grammar
import MiniLisp.Proofs.Store.Tree

/-!
Reading at any place of a token list accepts just the expressions of the grammar.  The main
statement is `read_recognizes`.
-/
set_option autoImplicit false

namespace MiniLisp

def Cursor.into (ts : List Token) (p : Nat) : Cursor := ⟨p, ts.drop p⟩

namespace Reader

/-- The tokens from `p` up to before `q`, with those of `lead` in front, are an expression. -/
def Spans (lead ts : List Token) (p q : Nat) (d : Datum) : Prop :=
  p ≤ q ∧ q ≤ ts.length ∧ Derives (lead ++ ts.extract p q) d

/-- A way of reading accepts the expressions that the tokens of `lead` begin, and no others.  Depth
aside, it finds the one expression that begins at its place, moves past it and looks no further. -/
structure Recognizes (read : Nat → Cursor → Except Error Datum × Cursor) (lead : List Token) :
    Prop where
  accepts (ts : List Token) (p q : Nat) (d : Datum) :
    (∃ limit, read limit (.into ts p) = (.ok d, .into ts q)) ↔ Spans lead ts p q d
  advances {ts : List Token} {p q : Nat} {d : Datum} : Spans lead ts p q d → p < q
  unique {ts : List Token} {p q q' : Nat} {d d' : Datum} : Spans lead ts p q d →
    Spans lead ts p q' d' → q = q' ∧ d = d'
  ignores_rest {ts us : List Token} {p q limit : Nat} {d : Datum} : Spans lead ts p q d →
    us.take q = ts.take q → 3 * (lead.length + (q - p)) ≤ limit →
    read limit (.into us p) = (.ok d, .into us q)

section

variable {read : Nat → Cursor → Except Error Datum × Cursor} {lead : List Token}

theorem Spans.split {ts us : List Token} {p q : Nat} {d : Datum} (h : Spans lead ts p q d)
    (ht : us.take q = ts.take q) : ∃ used, Derives (lead ++ used) d ∧ q = p + used.length ∧
      used = ts.extract p q ∧ us.drop p = used ++ us.drop q := by
  obtain ⟨hpq, hq, hd⟩ := h
  have hu : us.extract p q = ts.extract p q := by
    rw [List.extract_eq_take_drop, List.extract_eq_take_drop, ← List.drop_take, ← List.drop_take,
      ht]
  refine ⟨ts.extract p q, hd, ?_, rfl, ?_⟩
  · simp only [List.extract_eq_take_drop, List.length_take, List.length_drop]
    omega
  · rw [← hu, List.extract_eq_take_drop]
    have hdrop : us.drop q = (us.drop p).drop (q - p) := by rw [List.drop_drop]; congr 1; omega
    rw [hdrop, List.take_append_drop]

theorem recognizes_of_split
    (sound : ∀ {limit p : Nat} {ts : List Token} {d : Datum} {next : Cursor},
      read limit ⟨p, ts⟩ = (.ok d, next) →
        ∃ used rest, ts = used ++ rest ∧ Derives (lead ++ used) d ∧ next = ⟨p + used.length, rest⟩)
    (complete : ∀ {limit p : Nat} {used rest : List Token} {d : Datum}, Derives (lead ++ used) d →
      3 * (lead.length + used.length) ≤ limit →
        read limit ⟨p, used ++ rest⟩ = (.ok d, ⟨p + used.length, rest⟩))
    (nonempty : ∀ {d : Datum}, ¬ Derives (lead ++ []) d) : Recognizes read lead := by
  have ignores_rest : ∀ {ts us : List Token} {p q limit : Nat} {d : Datum}, Spans lead ts p q d →
      us.take q = ts.take q → 3 * (lead.length + (q - p)) ≤ limit →
      read limit (.into us p) = (.ok d, .into us q) := by
    intro ts us p q limit d h ht hl
    obtain ⟨used, hd, rfl, -, hu⟩ := h.split ht
    rw [Nat.add_sub_cancel_left] at hl
    rw [Cursor.into, hu, complete hd hl]
    rfl
  refine ⟨?_, ?_, ?_, ignores_rest⟩
  · intro ts p q d
    constructor
    · rintro ⟨limit, h⟩
      obtain ⟨used, rest, ht, hd, hn⟩ := sound h
      obtain ⟨rfl, hrest⟩ := Cursor.mk.inj hn
      have hp : p ≤ ts.length := by
        rcases Nat.lt_or_ge ts.length p with hlt | hge
        · rw [List.drop_eq_nil_of_le (Nat.le_of_lt hlt)] at ht
          obtain ⟨rfl, -⟩ := List.append_eq_nil_iff.1 ht.symm
          exact absurd hd nonempty
        · exact hge
      have hlen := congrArg List.length ht
      rw [List.length_drop, List.length_append] at hlen
      refine ⟨Nat.le_add_right _ _, by omega, ?_⟩
      rwa [List.extract_eq_take_drop, Nat.add_sub_cancel_left, ht, List.take_left]
    · intro h
      exact ⟨_, ignores_rest h rfl (Nat.le_refl _)⟩
  · intro ts p q d h
    obtain ⟨used, hd, rfl, -, -⟩ := h.split rfl
    cases used with
    | nil => exact absurd hd nonempty
    | cons t used => simp
  · intro ts p q q' d d' h h'
    have hr := ignores_rest h rfl (Nat.le_max_left _ (3 * (lead.length + (q' - p))))
    rw [ignores_rest h' rfl (Nat.le_max_right _ _)] at hr
    obtain ⟨hd, hc⟩ := Prod.mk.inj hr
    exact ⟨(Cursor.mk.inj hc).1.symm, (Except.ok.inj hd).symm⟩

end

theorem resume_items_of_derives {limit index : Nat} {used rest : List Token} {d : Datum}
    (h : Derives (.openParen :: used) d) (hl : 3 * (1 + used.length) ≤ limit) :
    resume limit (.expression [.items []]) index (used ++ rest) =
      (.ok d, ⟨index + used.length, rest⟩) := by
  generalize ht : Token.openParen :: used = ts at h
  cases h with
  | atom text => cases ht
  | quote h => cases ht
  | list items hi hd =>
    rw [List.cons_append] at ht
    obtain ⟨-, rfl⟩ := List.cons.inj ht
    simp only [List.length_append, List.length_cons, List.length_nil] at hl
    rw [List.append_assoc, List.singleton_append,
      resume_list (fun i h => resume_of_derives (hi i h)) hd _ _
        (by simp only [depth, Context.levels]; omega)]
    simp [Nat.add_assoc]
  | @dotted items us d hi hd hne hu =>
    rw [List.append_assoc, List.cons_append] at ht
    obtain ⟨-, rfl⟩ := List.cons.inj ht
    simp only [List.length_append, List.length_cons, List.length_nil] at hl
    have hts : items.flatMap (·.1) ++ (dot :: us ++ [.closeParen]) ++ rest =
        items.flatMap (·.1) ++ dot :: (us ++ .closeParen :: rest) := by simp
    rw [hts, resume_dotted (fun i h => resume_of_derives (hi i h)) hd hne (resume_of_derives hu) _ _
      (by simp only [depth, Context.levels]; omega), resumeAfter_nil]
    congr 2
    simp only [List.length_append, List.length_cons, List.length_nil]
    omega

/-- Expressions are read by the grammar, and so is a list whose opening paren stands before the
cursor.  What is read comes in new cells. -/
theorem read_recognizes :
    Recognizes (fun limit c => c.read limit) [] ∧
    Recognizes (fun limit c => c.readList limit) [.openParen] ∧
    ∀ (d : Datum) (s : Store), (s.load d).2.Unfolds (s.load d).1 d ∧
      ∀ r, (s.load d).2.Leads (s.load d).1 r → s.cells.size ≤ r := by
  refine ⟨?_, ?_, fun d s => ⟨s.unfolds_load d, fun r => s.size_le_of_leads_load d⟩⟩
  · refine recognizes_of_split derives_of_resume ?_ (fun h => h.ne_nil rfl)
    intro limit p used rest d h hl
    have hread := resume_of_derives h limit p [] rest (by simpa [depth] using hl) trivial
    rwa [resumeAfter_nil] at hread
  · refine recognizes_of_split derives_of_resume_items (fun h hl => ?_) (fun h => ?_)
    · exact resume_items_of_derives h hl
    · have hread := resume_of_derives h 3 0 [] [] (Nat.le_refl _) trivial
      simp [resume, step, enter, depth, Context.levels, Pending.missing] at hread

end Reader
end MiniLisp
