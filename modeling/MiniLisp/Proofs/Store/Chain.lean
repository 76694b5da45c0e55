import MiniLisp.Value
import Mathlib.Data.List.Perm.Subperm

set_option autoImplicit false

namespace MiniLisp

/-- References that each have one rank, with some reference on every lower rank: no rank is past the
number of references. -/
theorem rank_le_of_descent {size : Nat} (Ranked : Nat → Nat → Prop)
    (lt : ∀ r n, Ranked r n → r < size) (unique : ∀ r m n, Ranked r m → Ranked r n → m = n)
    (down : ∀ r n, Ranked r (n + 1) → n = 0 ∨ ∃ q, Ranked q n) {r n : Nat} (h : Ranked r n) :
    n ≤ size := by
  have path : ∀ n r, Ranked r n →
      ∃ rs : List Nat, rs.length = n ∧ rs.Nodup ∧ ∀ q ∈ rs, ∃ m ≤ n, Ranked q m := by
    intro n
    induction n with
    | zero => exact fun r _ => ⟨[], rfl, List.nodup_nil, by simp⟩
    | succ n ih =>
      intro r hr
      rcases down r n hr with rfl | ⟨q, hq⟩
      · exact ⟨[r], rfl, by simp, by simpa using ⟨1, Nat.le_refl 1, hr⟩⟩
      · obtain ⟨rs, hlen, hnodup, hranks⟩ := ih q hq
        have hnew : r ∉ rs := by
          intro hmem
          obtain ⟨m, hm, hrm⟩ := hranks r hmem
          have := unique r m (n + 1) hrm hr
          omega
        refine ⟨r :: rs, by simp [hlen], List.nodup_cons.2 ⟨hnew, hnodup⟩, ?_⟩
        rintro q (_ | ⟨_, hmem⟩)
        · exact ⟨n + 1, Nat.le_refl _, hr⟩
        · obtain ⟨m, hm, hqm⟩ := hranks q hmem
          exact ⟨m, by omega, hqm⟩
  obtain ⟨rs, hlen, hnodup, hranks⟩ := path n r h
  have hsub : rs ⊆ List.range size := by
    intro q hq
    obtain ⟨m, _, hm⟩ := hranks q hq
    exact List.mem_range.2 (lt q m hm)
  have := (List.subperm_of_subset hnodup hsub).length_le
  rwa [hlen, List.length_range] at this

namespace Store

/-- The chain that starts at a value holds the items and ends in `last`, which is no cell. -/
inductive Chain (s : Store) : Value → List Value → Value → Prop where
  | stop {v : Value} : (∀ r, v ≠ .cell r) → s.Chain v [] v
  | link {r : CellRef} {c : Cell} {items : List Value} {last : Value} : s.cells[r]? = some c →
      s.Chain c.tail items last → s.Chain (.cell r) (c.head :: items) last

abbrev Lists (s : Store) (v : Value) (items : List Value) : Prop := s.Chain v items .nil

variable {s : Store}

theorem Chain.unique {v last last' : Value} {items items' : List Value}
    (h : s.Chain v items last) (h' : s.Chain v items' last') : items = items' ∧ last = last' := by
  induction h generalizing items' with
  | stop hv =>
    cases h' with
    | stop _ => exact ⟨rfl, rfl⟩
    | @link r => exact absurd rfl (hv r)
  | @link r c items last hc _ ih =>
    cases h' with
    | stop hv => exact absurd rfl (hv r)
    | link hc' ht =>
      obtain rfl : c = _ := Option.some.inj (hc.symm.trans hc')
      obtain ⟨rfl, rfl⟩ := ih ht
      exact ⟨rfl, rfl⟩

theorem Chain.length_le {v last : Value} {items : List Value} (h : s.Chain v items last) :
    items.length ≤ s.cells.size := by
  cases h with
  | stop _ => exact Nat.zero_le _
  | @link r c items last hc ht =>
    refine rank_le_of_descent
      (fun r n => ∃ items last, s.Chain (.cell r) items last ∧ items.length = n)
      ?_ ?_ ?_ ⟨_, _, .link hc ht, rfl⟩
    · rintro r n ⟨_, _, h, _⟩
      cases h with
      | stop hv => exact absurd rfl (hv r)
      | link hc _ => exact (Array.getElem?_eq_some_iff.1 hc).1
    · rintro r m n ⟨_, _, h, rfl⟩ ⟨_, _, h', rfl⟩
      rw [(h.unique h').1]
    · rintro r n ⟨_, _, h, hn⟩
      cases h with
      | stop _ => simp at hn
      | @link _ c items last _ ht =>
        generalize c.tail = v at ht
        cases ht with
        | stop _ => exact .inl (by simpa using hn.symm)
        | @link q c _ _ hc ht => exact .inr ⟨q, c.head :: _, _, .link hc ht, by simpa using hn⟩

theorem Chain.chainFrom_eq {v last : Value} {items : List Value} (h : s.Chain v items last) :
    ∀ (fuel : Nat) (read : List Value), items.length ≤ fuel →
      s.chainFrom fuel v read = (read.reverse ++ items, last) := by
  induction h with
  | @stop v hv =>
    intro fuel read _
    rw [List.append_nil]
    cases v with
    | cell r => exact absurd rfl (hv r)
    | _ => cases fuel <;> rfl
  | @link r c items last hc _ ih =>
    intro fuel read hf
    cases fuel with
    | zero => simp at hf
    | succ fuel =>
      rw [chainFrom, hc]
      simp only
      rw [ih fuel _ (by simpa using hf)]
      simp

theorem Chain.chain_eq {v last : Value} {items : List Value} (h : s.Chain v items last) :
    s.chain v = (items, last) := by
  rw [chain, h.chainFrom_eq _ _ h.length_le]
  rfl

theorem chain_of_chainFrom {fuel : Nat} : ∀ {v last : Value} {read items : List Value},
    s.chainFrom fuel v read = (items, last) → (∀ r, last ≠ .cell r) →
      ∃ rest, items = read.reverse ++ rest ∧ s.Chain v rest last := by
  induction fuel with
  | zero =>
    intro v last read items h hl
    rw [chainFrom] at h
    · cases h
      exact ⟨[], by simp, .stop hl⟩
    · simp
  | succ fuel ih =>
    intro v last read items h hl
    cases v with
    | cell r =>
      rw [chainFrom] at h
      cases hc : s.cells[r]? with
      | none =>
        simp only [hc] at h
        cases h
        exact absurd rfl (hl r)
      | some c =>
        simp only [hc] at h
        obtain ⟨rest, rfl, ht⟩ := ih h hl
        exact ⟨c.head :: rest, by simp, .link hc ht⟩
    | _ =>
      cases h
      exact ⟨[], by simp, .stop hl⟩

theorem chain_of_chain_eq {v last : Value} {items : List Value} (h : s.chain v = (items, last))
    (hl : ∀ r, last ≠ .cell r) : s.Chain v items last := by
  obtain ⟨rest, rfl, hr⟩ := chain_of_chainFrom h hl
  simpa using hr

theorem lists_iff_chain_eq {v : Value} {items : List Value} :
    s.Lists v items ↔ s.chain v = (items, .nil) :=
  ⟨Chain.chain_eq, fun h => chain_of_chain_eq h (by simp)⟩

theorem toList?_of_chain {v last : Value} {items : List Value} (h : s.chain v = (items, last)) :
    s.toList? v = if last = .nil then .ok items else .error .improperList := by
  rw [toList?, h]

theorem toList?_eq_ok {v : Value} {items : List Value} :
    s.toList? v = .ok items ↔ s.Lists v items := by
  rw [lists_iff_chain_eq, toList?]
  cases s.chain v with
  | mk found last =>
    change (if last = .nil then Except.ok found else _) = _ ↔ _
    split
    · next hlast => simp [hlast]
    · next hlast => simp [hlast]

theorem toList?_eq_error {v : Value} (h : ¬ ∃ items, s.Lists v items) :
    s.toList? v = .error .improperList := by
  rw [toList?]
  exact if_neg fun hlast => h ⟨_, lists_iff_chain_eq.2 (Prod.ext rfl hlast)⟩

end Store
end MiniLisp
