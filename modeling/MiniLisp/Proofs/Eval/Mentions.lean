import MiniLisp.Proofs.Eval.Evolution

set_option autoImplicit false

namespace MiniLisp.Store

/-- The name stands somewhere in the expression, other than at the head of a special form. -/
inductive Mentions (s : Store) (name : String) : Value → Prop where
  | symbol : s.Mentions name (.symbol name)
  | head {e head last : Value} {rest : List Value} : s.Chain e (head :: rest) last →
      Eval.specialForm? head = none → s.Mentions name head → s.Mentions name e
  | rest {e head last p : Value} {rest : List Value} : s.Chain e (head :: rest) last →
      p ∈ last :: rest → s.Mentions name p → s.Mentions name e

variable {foreign : Value → Prop} {s s' : Store} {name : String}

theorem Mentions.of_keepsCells (hs : s.Sound foreign) (hk : s.KeepsCells s') {v : Value}
    (h : s'.Mentions name v) (hv : s.Admits foreign v) : s.Mentions name v := by
  induction h with
  | symbol => exact .symbol
  | head hl hh _ ih =>
    have hl' := hl.of_keepsCells hs hk hv
    exact .head hl' hh (ih ((hl'.admits hs hv).1 _ (List.mem_cons_self ..)))
  | @rest e head last p rest hl hp _ ih =>
    have hl' := hl.of_keepsCells hs hk hv
    obtain ⟨hitems, hlast⟩ := hl'.admits hs hv
    refine .rest hl' hp (ih ?_)
    rcases List.mem_cons.1 hp with rfl | hp
    · exact hlast
    · exact hitems p (List.mem_cons_of_mem head hp)

theorem mentions_atom_iff {v : Value} (hv : ∀ r, v ≠ .cell r) :
    s.Mentions name v ↔ v = .symbol name := by
  constructor
  · intro h
    cases h with
    | symbol => rfl
    | head hl _ _ | rest hl _ _ =>
      cases hl with
      | @link r => exact absurd rfl (hv r)
  · rintro rfl
    exact .symbol

theorem mentions_chain_iff {e head last : Value} {rest : List Value}
    (hl : s.Chain e (head :: rest) last) : s.Mentions name e ↔
      Eval.specialForm? head = none ∧ s.Mentions name head ∨
        ∃ p ∈ last :: rest, s.Mentions name p := by
  constructor
  · intro h
    cases h with
    | symbol => cases hl
    | head hl' hh h =>
      obtain ⟨heq, rfl⟩ := hl.unique hl'
      cases heq
      exact .inl ⟨hh, h⟩
    | rest hl' hp h =>
      obtain ⟨heq, rfl⟩ := hl.unique hl'
      cases heq
      exact .inr ⟨_, hp, h⟩
  · rintro (⟨hh, h⟩ | ⟨p, hp, h⟩)
    · exact .head hl hh h
    · exact .rest hl hp h

theorem Defines.mentions {e : Value} (h : s.Defines e name) : s.Mentions name e := by
  induction h with
  | define hl => exact .rest hl (by simp) .symbol
  | defun hl => exact .rest hl (by simp) .symbol
  | @part e head p operands name hl hp _ ih =>
    unfold Eval.evaluatedParts at hp
    split at hp
    · exact .rest hl (List.mem_cons_of_mem _ (SpecialForm.mem_of_mem_evaluated hp)) ih
    · next hh =>
      rcases List.mem_cons.1 hp with rfl | hp
      · exact .head hl hh ih
      · exact .rest hl (List.mem_cons_of_mem _ hp) ih

end MiniLisp.Store
