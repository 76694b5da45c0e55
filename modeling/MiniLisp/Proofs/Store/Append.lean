import MiniLisp.Proofs.Store.Fresh
import MiniLisp.Proofs.Walk.Texts

set_option autoImplicit false

namespace MiniLisp

open Store MiniLisp.Action

/-- The complaint about a value that is not the proper list it should be. -/
def Value.notItems (operation : String) : Value → String → Error
  | .nil | .cell _ => .notProperList operation
  | _ => .notList operation

theorem Value.kind?_notItems (operation : String) (v : Value) (text : String) :
    (v.notItems operation text).kind? = some .type := by cases v <;> rfl

namespace Store

variable {foreign : Value → Prop} {s t : Store} {v : Value} {items : List Value} {args : List Value}
  {parts : List (List Value)}

theorem elements_of_lists (h : s.Lists v items) (room : Nat) (operation : String) :
    s.elements room operation v = .ok items := by
  have hv : v = .nil ∨ ∃ r, v = .cell r := by
    cases h with
    | stop _ => exact .inl rfl
    | link _ _ => exact .inr ⟨_, rfl⟩
  rw [elements_of_chain h.chain_eq hv, if_pos rfl]

theorem elements_refused (h : ¬ ∃ items, s.Lists v items) (room : Nat) (operation : String) :
    ∃ e, s.elements room operation v = .error e ∧
      Quotes (s.printWithin room v) (v.notItems operation) e := by
  by_cases hv : v = .nil ∨ ∃ r, v = .cell r
  · have hlast : (s.chain v).2 ≠ .nil := fun hnil =>
      h ⟨_, lists_iff_chain_eq.2 (Prod.ext rfl hnil)⟩
    obtain ⟨e, he, hq⟩ :=
      @exists_quotes (List Value) (s.printWithin room v) (.notProperList operation)
    have hchain : s.chain v = ((s.chain v).1, (s.chain v).2) := rfl
    refine ⟨e, ?_, ?_⟩
    · rw [elements_of_chain hchain hv, if_neg hlast, he]
    · obtain rfl | ⟨r, rfl⟩ := hv <;> exact hq
  · obtain ⟨e, he, hq⟩ := @exists_quotes (List Value) (s.printWithin room v) (.notList operation)
    refine ⟨e, ?_⟩
    cases v with
    | nil => exact absurd (.inl rfl) hv
    | cell r => exact absurd (.inr ⟨r, rfl⟩) hv
    | _ => exact ⟨he, hq⟩

theorem kind?_or_deep {n room : Nat} {operation : String} {e : Error}
    (h : Quotes (s.printWithin room v) (v.notItems operation) e) (hf : Presentable foreign)
    (hs : s.Sound foreign) (hv : s.Admits foreign v) (hn : s.Nested n v) :
    e.kind? = some .type ∨ room ≤ n ∧ e = .recursionTooDeep :=
  (h.text_or (hn.printWithin_or_deep hf hs hv room)).imp_left fun ⟨t, ht⟩ =>
    ht ▸ v.kind?_notItems operation t

theorem mapM_elements (h : List.Forall₂ s.Lists args parts) (room : Nat) (operation : String) :
    args.mapM (s.elements room operation) = .ok parts :=
  mapM_eq_ok.2 (h.imp fun _ _ hv => elements_of_lists hv room operation)

theorem exists_leftmost {α : Type} {p : α → Prop} {xs : List α} (h : ¬ ∀ x ∈ xs, p x) :
    ∃ before x after, xs = before ++ x :: after ∧ (∀ y ∈ before, p y) ∧ ¬ p x := by
  classical
  obtain ⟨x, hx⟩ : ∃ x, xs.find? (¬ p ·) = some x := by
    rw [← Option.isSome_iff_exists, List.find?_isSome]
    simpa using h
  obtain ⟨hnot, before, after, hsplit, hbefore⟩ := List.find?_eq_some_iff_append.1 hx
  exact ⟨before, x, after, hsplit, by simpa using hbefore, by simpa using hnot⟩

/-- The value is one new list of all the items.  Its cells are new, nothing that was there before
leads to them, and it and the arguments keep their items when cells of the other side are
assigned. -/
structure Appended (s : Store) (args : List Value) (parts : List (List Value)) (v : Value)
    (t : Store) : Prop where
  items : t.Lists v parts.flatten
  cells : s.KeepsCells t
  rest : t = { s with cells := t.cells }
  fresh : ∀ r, t.Spine v r → s.cells.size ≤ r ∧ ∀ n, s.Has n → ¬ t.Reaches n (.cell r)
  old : ∀ a ∈ args, ∀ r, t.Spine a r → r < s.cells.size
  keepsItems : ∀ changes : List (CellRef × Cell),
    (∀ change ∈ changes, change.1 < s.cells.size) → (t.assignAll changes).Lists v parts.flatten
  keepsArguments : ∀ changes : List (CellRef × Cell),
    (∀ change ∈ changes, s.cells.size ≤ change.1) →
      ∀ a ∈ args, ∀ items, s.Lists a items → (t.assignAll changes).Lists a items

theorem appended_list (hs : s.Sound foreign) (ha : ∀ a ∈ args, s.Admits foreign a)
    (h : List.Forall₂ s.Lists args parts) :
    s.Appended args parts (s.list parts.flatten .nil).1 (s.list parts.flatten .nil).2 := by
  obtain ⟨hitems, hkeeps⟩ := list_spec s parts.flatten
  have hrest := list_rest s parts.flatten .nil
  have hnew := fun r => @spine_list s parts.flatten r
  generalize (s.list parts.flatten .nil).2 = t at hitems hkeeps hrest hnew
  have hold : ∀ {a items r}, s.Lists a items → s.Admits foreign a → t.Spine a r →
      r < s.cells.size := fun ha hadmits hr => (ha.spine hkeeps hr).lt_size hs hadmits
  refine ⟨hitems, hkeeps, hrest, fun r hr => ?_, fun a hmem r hr => ?_, fun changes hc => ?_,
    fun changes hc a hmem items hlists => ?_⟩
  · exact ⟨hnew r hr, fun n hn => hs.not_reaches_new hkeeps hrest hn (hnew r hr)⟩
  · obtain ⟨items, hlists⟩ := exists_of_mem_forall₂ h hmem
    exact hold hlists (ha a hmem) hr
  · exact hitems.assignAll fun r hr change hmem =>
      Nat.ne_of_lt (Nat.lt_of_lt_of_le (hc change hmem) (hnew r hr))
  · refine (hlists.mono hkeeps).assignAll fun r hr change hchange => ?_
    exact Nat.ne_of_gt (Nat.lt_of_lt_of_le (hold hlists (ha a hmem) hr) (hc change hchange))

end Store

theorem run_append_ok {s : Store} {args : List Value} {parts : List (List Value)}
    (h : List.Forall₂ s.Lists args parts) (room : Nat) :
    Primitive.append.run room args s =
      .ok (s.list parts.flatten .nil).1 (s.list parts.flatten .nil).2 := by
  have hcheck : check (fun s => args.mapM (s.elements room "append")) s = .ok parts s := by
    rw [check, mapM_elements h]
  exact Action.bind_ok hcheck

theorem run_append_error {s : Store} {before after : List Value} {a : Value} {room : Nat}
    {e : Error} (hbefore : ∀ b ∈ before, ∃ items, s.Lists b items)
    (he : s.elements room "append" a = .error e) :
    Primitive.append.run room (before ++ a :: after) s = .error e s := by
  have hleft : (before ++ a :: after).mapM (s.elements room "append") = .error e :=
    mapM_leftmost (fun b hb => (hbefore b hb).imp fun _ h => elements_of_lists h room "append") he
  have hcheck : check (fun s => (before ++ a :: after).mapM (s.elements room "append")) s =
      .error e s := by rw [check, hleft]
  exact Action.bind_error hcheck

theorem run_append_refused {s : Store} {before after : List Value} {a : Value} {room : Nat}
    (hbefore : ∀ b ∈ before, ∃ items, s.Lists b items) (ha : ¬ ∃ items, s.Lists a items) :
    ∃ e, Primitive.append.run room (before ++ a :: after) s = .error e s ∧
      Quotes (s.printWithin room a) (a.notItems "append") e := by
  -- The arguments before it are walked first, and none of them fails.
  obtain ⟨e, he, hq⟩ := elements_refused ha room "append"
  exact ⟨e, run_append_error hbefore he, hq⟩

theorem run_length {s : Store} {v : Value} {items : List Value} (h : s.Lists v items)
    (room : Nat) : Primitive.length.run room [v] s = .ok (.number (.ofNat items.length)) s := by
  have hcheck : check (·.elements room "length" v) s = .ok items s := by
    rw [check, elements_of_lists h]
  exact Action.bind_ok hcheck

/-- Proper lists are appended to one new list.  Otherwise the leftmost argument that is none is
refused, and the store is as it was.  No error of type says so only where there is not room for its
text. -/
theorem append_concatenates {foreign : Value → Prop} {s : Store} (hs : s.Ready foreign)
    {args : List Value} (ha : ∀ a ∈ args, s.Admits foreign a) (room : Nat) :
    ((∃ v t, Primitive.append.run room args s = .ok v t) ↔
      ∀ a ∈ args, ∃ items, s.Lists a items) ∧
    (∀ parts, List.Forall₂ s.Lists args parts → ∃ v t,
      Primitive.append.run room args s = .ok v t ∧ s.Appended args parts v t ∧
        Primitive.length.run room [v] t =
          .ok (.number (.ofNat (parts.map List.length).sum)) t) ∧
    ∀ before a after, args = before ++ a :: after → (∀ b ∈ before, ∃ items, s.Lists b items) →
      (¬ ∃ items, s.Lists a items) → ∃ e,
        Primitive.append.run room args s = .error e s ∧
          Quotes (s.printWithin room a) (a.notItems "append") e ∧
          ∀ n, Presentable foreign → s.Nested n a →
            e.kind? = some .type ∨ room ≤ n ∧ e = .recursionTooDeep := by
  refine ⟨⟨fun ⟨v, t, hrun⟩ => ?_, fun hargs => ?_⟩, fun parts hparts => ?_, ?_⟩
  · by_contra hno
    obtain ⟨before, a, after, rfl, hbefore, hnot⟩ := exists_leftmost hno
    obtain ⟨e, he, -⟩ := @run_append_refused s before after a room hbefore hnot
    rw [he] at hrun
    cases hrun
  · obtain ⟨parts, hparts⟩ := exists_forall₂ hargs
    exact ⟨_, _, run_append_ok hparts room⟩
  · have happended := appended_list hs.sound ha hparts
    have hlength := run_length happended.items room
    rw [List.length_flatten] at hlength
    exact ⟨_, _, run_append_ok hparts room, happended, hlength⟩
  · rintro before a after rfl hbefore hnot
    obtain ⟨e, he, hq⟩ := @run_append_refused s before after a room hbefore hnot
    exact ⟨e, he, hq, fun n hf hn =>
      kind?_or_deep hq hf hs.sound (ha a (List.mem_append_right _ (List.mem_cons_self ..))) hn⟩

/-- The same list twice. -/
theorem append_concatenates_shared :
    let p := Store.empty.addGlobal.2.load (.list [.symbol "a"] .nil)
    let s := p.2
    let args := [p.1, p.1]
    (s.Ready NoHook ∧ ∀ a ∈ args, s.Admits NoHook a) ∧
      List.Forall₂ s.Lists args [[.symbol "a"], [.symbol "a"]] ∧
      ∃ v t, Primitive.append.run 9 args s = .ok v t ∧
        s.Appended args [[.symbol "a"], [.symbol "a"]] v t ∧
        Primitive.length.run 9 [v] t = .ok (.number (.ofNat 2)) t := by
  intro p s args
  have hs : s.Ready NoHook := Reachable.ready_noHook (.load _ (.addGlobal .empty))
  have hp : s.Admits NoHook p.1 := (@evolves_load NoHook (fun _ _ => True) _ _).2
  have ha : ∀ a ∈ args, s.Admits NoHook a := by simpa [args] using hp
  have hcell : s.cells[0]? = some ⟨.symbol "a", .nil⟩ := rfl
  have hlist : s.Lists p.1 [.symbol "a"] := Chain.link hcell (.stop (by simp))
  have hparts : List.Forall₂ s.Lists args [[.symbol "a"], [.symbol "a"]] :=
    .cons hlist (.cons hlist .nil)
  exact ⟨⟨hs, ha⟩, hparts, (append_concatenates hs ha 9).2.1 _ hparts⟩

theorem run_append_dottedPair {head : Value} {room : Nat} {e : Error}
    (h : (dottedPair head).printWithin room (.cell 0) = .error e) :
    Primitive.append.run room [.cell 0] (dottedPair head) = .error e (dottedPair head) := by
  have helements : (dottedPair head).elements room "append" (.cell 0) = .error e := by
    rw [elements_of_chain (chain_dottedPair head).chain_eq (.inr ⟨0, rfl⟩), if_neg (by simp), h]
    rfl
  exact @run_append_error _ [] [] (.cell 0) room e (List.forall_mem_nil _) helements

/-- A pair `(head . x)` is no list.  No error of type says so where there is not room for its text,
or the head is `10^400`, which has none. -/
theorem append_unprintable :
    (∀ head, ¬ ∃ items, (dottedPair head).Lists (.cell 0) items) ∧
      Primitive.append.run 1 [.cell 0] (dottedPair (.symbol "a")) =
        .error .recursionTooDeep (dottedPair (.symbol "a")) ∧
      ∀ room, ∃ e, Primitive.append.run room [.cell 0] (dottedPair (.integer (10 ^ 400 : Nat))) =
        .error e (dottedPair (.integer (10 ^ 400 : Nat))) ∧ e.kind? ≠ some .type := by
  refine ⟨dottedPair_not_lists, run_append_dottedPair rfl, fun room => ?_⟩
  obtain ⟨e, he, hfailure⟩ := printWithin_dottedPair_large room
  refine ⟨e, run_append_dottedPair he, ?_⟩
  rcases hfailure with rfl | rfl <;> decide

end MiniLisp
