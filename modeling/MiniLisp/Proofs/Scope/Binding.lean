import MiniLisp.Proofs.Eval.Adequacy
import MiniLisp.Proofs.Scope.Account
import MiniLisp.Proofs.Walk.Texts

set_option autoImplicit false

namespace MiniLisp

open Store MiniLisp.Action

/-- Each parameter stands in the frame once, in the order in which they first occur, and is bound to
the argument at its last occurrence. -/
structure Frame.Binds (f : Frame) (names : List String) (args : List Value) : Prop where
  listed : f.bindings.map Prod.fst = names.eraseDups
  once : (f.bindings.map Prod.fst).Nodup
  last : ∀ i name, names[i]? = some name → name ∉ names.drop (i + 1) → f.get? name = args[i]?

theorem lastGiven_cons (n : String) (v : Value) (given : List (String × Value)) (name : String) :
    lastGiven ((n, v) :: given) name =
      (lastGiven given name).or (if name = n then some v else none) := by
  rw [lastGiven, List.reverse_cons, List.lookup_append, Frame.lookup_cons_if, lastGiven]
  rfl

theorem lastGiven_eq_none {given : List (String × Value)} {name : String}
    (h : name ∉ given.map Prod.fst) : lastGiven given name = none := by
  induction given with
  | nil => rfl
  | cons x given ih =>
    rw [List.map_cons, List.mem_cons, not_or] at h
    rw [lastGiven_cons, ih h.2, if_neg h.1]
    rfl

theorem lastGiven_zip {names : List String} {args : List Value} (hlen : names.length = args.length)
    {i : Nat} {name : String} (hi : names[i]? = some name) (hlast : name ∉ names.drop (i + 1)) :
    lastGiven (names.zip args) name = args[i]? := by
  induction names generalizing args i with
  | nil => cases hi
  | cons n names ih =>
    obtain ⟨v, args, rfl⟩ := List.exists_cons_of_length_eq_add_one hlen.symm
    have hrest : names.length = args.length := Nat.succ.inj hlen
    rw [List.zip_cons_cons, lastGiven_cons]
    -- The first argument counts only where its name does not come again.
    cases i with
    | zero =>
      obtain rfl := Option.some.inj hi
      rw [lastGiven_eq_none, if_pos rfl]
      · rfl
      · rwa [List.map_fst_zip (Nat.le_of_eq hrest)]
    | succ i =>
      rw [ih hrest hi hlast, List.getElem?_cons_succ]
      obtain ⟨hlt, -⟩ := List.getElem?_eq_some_iff.1 hi
      rw [List.getElem?_eq_getElem (hrest ▸ Nat.lt_of_succ_lt_succ hlt)]
      rfl

theorem binds_update {names : List String} {args : List Value} (hlen : names.length = args.length)
    (outer : Option FrameRef) : (Frame.update ⟨[], outer⟩ (names.zip args)).Binds names args := by
  have haccount := (accounted_empty outer).update (names.zip args)
  rw [List.nil_append] at haccount
  refine ⟨?_, haccount.once, fun i name hi hlast => ?_⟩
  · rw [haccount.names, firstNames, List.map_fst_zip (Nat.le_of_eq hlen)]
  · rw [haccount.last, lastGiven_zip hlen hi hlast]

namespace Store

/-- What is wrong with a call, and the error for it: a parameter list that is improper, whatever is
in it; then the first parameter that is no symbol, however many there are; then their number. -/
inductive Refuses (s : Store) (room : Nat) (c : Closure) (args : List Value) : Error → Prop where
  | improper {e : Error} : (¬ ∃ items, s.Lists c.parameters items) →
      Quotes (s.displayWithin room c.parameters) .improperParameters e → s.Refuses room c args e
  | notSymbol {names : List String} {p : Value} {rest : List Value} {e : Error} :
      s.Lists c.parameters (names.map .symbol ++ p :: rest) → (∀ n, p ≠ .symbol n) →
      Quotes (s.displayWithin room p) .parameterNotSymbol e → s.Refuses room c args e
  | mismatch {names : List String} : s.Lists c.parameters (names.map .symbol) →
      names.length ≠ args.length →
      s.Refuses room c args (.argumentMismatch names.length args.length)

variable {s : Store} {room : Nat} {c : Closure} {args : List Value}

theorem accepts_or_refuses (s : Store) (room : Nat) (c : Closure) (args : List Value) :
    (∃ names : List String, s.Lists c.parameters (names.map .symbol) ∧
      names.length = args.length) ∨
    ∃ e, s.Refuses room c args e ∧ s.callFrame room c args = .error e := by
  by_cases hproper : ∃ items, s.Lists c.parameters items
  · obtain ⟨items, hitems⟩ := hproper
    rcases names_or_notSymbol items with ⟨names, rfl⟩ | ⟨names, p, rest, rfl, hp⟩
    · by_cases hlen : names.length = args.length
      · exact .inl ⟨names, hitems, hlen⟩
      · exact .inr ⟨_, .mismatch hitems hlen,
          Eval.callFrame_mismatch (Eval.formals_ok room hitems) hlen⟩
    · obtain ⟨e, he, hq⟩ :=
        @exists_quotes (List String) (s.displayWithin room p) .parameterNotSymbol
      exact .inr ⟨e, .notSymbol hitems hp hq,
        Eval.callFrame_error ((Eval.formals_notSymbol room hitems hp).trans he)⟩
  · have hlast : (s.chain c.parameters).2 ≠ .nil := fun h =>
      hproper ⟨_, lists_iff_chain_eq.2 (Prod.ext rfl h)⟩
    obtain ⟨e, he, hq⟩ :=
      @exists_quotes (List String) (s.displayWithin room c.parameters) .improperParameters
    exact .inr ⟨e, .improper hproper hq,
      Eval.callFrame_error ((Eval.formals_improper room rfl hlast).trans he)⟩

theorem Nested.items {n : Nat} {v last : Value} {items : List Value} (h : s.Nested n v)
    (hc : s.Chain v items last) : ∀ i ∈ items, s.Nested n i := by
  induction hc generalizing n with
  | stop _ => exact List.forall_mem_nil _
  | link hc _ ih =>
    cases h with
    | atom hv => cases hv
    | @cell n _ d hd hhead htail =>
      obtain rfl := Option.some.inj (hc.symm.trans hd)
      exact List.forall_mem_cons.2 ⟨hhead.mono (Nat.le_succ n) (.refl s),
        fun i hi => (ih htail i hi).mono (Nat.le_succ n) (.refl s)⟩

/-- The error is one of form, or what is wrong is nested too deeply to say so. -/
theorem Refuses.kind?_or_deep {foreign : Value → Prop} {n : Nat} {e : Error}
    (h : s.Refuses room c args e) (hf : Presentable foreign) (hs : s.Sound foreign)
    (hc : s.Admits foreign c.parameters) (hn : s.Nested n c.parameters) :
    e.kind? = some .form ∨ room ≤ n ∧ e = .recursionTooDeep := by
  cases h with
  | improper _ hq =>
    exact (hq.text_or (hn.displayWithin_or_deep hf hs hc room)).imp_left fun ⟨_, ht⟩ => ht ▸ rfl
  | @notSymbol names p rest _ hl _ hq =>
    have hmem : p ∈ names.map Value.symbol ++ p :: rest :=
      List.mem_append_right _ (List.mem_cons_self ..)
    have htext :=
      (hn.items hl _ hmem).displayWithin_or_deep hf hs ((hl.admits hs hc).1 _ hmem) room
    exact (hq.text_or htext).imp_left fun ⟨_, ht⟩ => ht ▸ rfl
  | mismatch _ _ => exact .inl rfl

/-- Arguments are bound to a proper list of as many symbols, in a new frame inside the closure's
scope.  Anything else is refused: the store is as it was, and a call comes to the same end whatever
evaluating the body would do.  No error of form says so only where there is not room for its text. -/
theorem extend_all_or_nothing (s : Store) (room : Nat) (c : Closure) (args : List Value) :
    (∀ names : List String, s.Lists c.parameters (names.map .symbol) →
      names.length = args.length → ∃ f : Frame, f.outer = some c.scope ∧ f.Binds names args ∧
        extend room c args s = .ok s.frames.size (s.addFrame f).2) ∧
    ((¬ ∃ names : List String, s.Lists c.parameters (names.map .symbol) ∧
      names.length = args.length) → ∃ e, s.Refuses room c args e ∧
        extend room c args s = .error e s ∧
        (∀ ev r, s.closures[r]? = some c → Eval.callClosure room ev r args s = .error e s) ∧
        ∀ (foreign : Value → Prop) (n : Nat), Presentable foreign → s.Sound foreign →
          s.Admits foreign c.parameters → s.Nested n c.parameters →
            e.kind? = some .form ∨ room ≤ n ∧ e = .recursionTooDeep) := by
  constructor
  · intro names hnames hlen
    have hframe := Eval.callFrame_names (Eval.formals_ok room hnames) hlen
    have houter := ((accounted_empty (some c.scope)).update (names.zip args)).outer
    exact ⟨_, houter, binds_update hlen _, Eval.extend_ok hframe⟩
  · intro hno
    obtain ⟨e, hrefuses, hframe⟩ := (accepts_or_refuses s room c args).resolve_left hno
    exact ⟨e, hrefuses, Eval.extend_error hframe, fun ev r hr => Eval.callClosure_error hr hframe,
      fun foreign n hf hs hc hn => hrefuses.kind?_or_deep hf hs hc hn⟩

/-- The parameter list `(1)`. -/
theorem extend_all_or_nothing_number :
    let s := (Store.empty.cons (.number .one) .nil).2
    let c : Closure := ⟨.cell 0, .nil, 0⟩
    ((¬ ∃ names : List String, s.Lists c.parameters (names.map .symbol) ∧ names.length = 0) ∧
      Presentable (fun _ => False) ∧ s.Sound (fun _ => False) ∧
      s.Admits (fun _ => False) c.parameters ∧ s.Nested 1 c.parameters) ∧
      ∃ e, extend 9 c [] s = .error e s ∧ e.kind? = some .form := by
  intro s c
  have hcell : s.cells[0]? = some ⟨.number .one, .nil⟩ := rfl
  have hno : ¬ ∃ names : List String, s.Lists c.parameters (names.map .symbol) ∧
      names.length = 0 := by
    rintro ⟨names, hlists, hlen⟩
    obtain rfl := List.eq_nil_of_length_eq_zero hlen
    cases hlists
  have hf : Presentable fun _ => False := fun _ h => h.elim
  have hs : Reachable (fun _ => False) s := .cons .empty trivial trivial
  have hc : s.Admits (fun _ => False) c.parameters := Nat.one_pos
  have hn : s.Nested 1 c.parameters := .cell hcell (.atom rfl) (.atom rfl)
  obtain ⟨e, -, he, -, hkind⟩ := (extend_all_or_nothing s 9 c []).2 hno
  refine ⟨⟨hno, hf, hs.sound, hc, hn⟩, e, he, ?_⟩
  exact (hkind _ 1 hf hs.sound hc hn).resolve_right fun h => absurd h.1 (by decide)

theorem extend_dottedPair {head : Value} {room : Nat} {e : Error}
    (h : (dottedPair head).printWithin room (.cell 0) = .error e) :
    extend room ⟨.cell 0, .nil, 0⟩ [] (dottedPair head) = .error e (dottedPair head) := by
  have hdisplay : (dottedPair head).displayWithin room (.cell 0) = .error e := h
  have hformals : (dottedPair head).formals room (.cell 0) = .error e := by
    rw [Eval.formals_improper room (chain_dottedPair head).chain_eq (by simp), hdisplay]
    rfl
  exact Eval.extend_error (Eval.callFrame_error hformals)

/-- A parameter list `(head . x)` is improper.  No error of form says so where there is not room for
its text, or the head is `10^400`, which has none. -/
theorem extend_unprintable :
    (∀ head, ¬ ∃ items, (dottedPair head).Lists (.cell 0) items) ∧
      extend 1 ⟨.cell 0, .nil, 0⟩ [] (dottedPair (.symbol "a")) =
        .error .recursionTooDeep (dottedPair (.symbol "a")) ∧
      ∀ room, ∃ e, extend room ⟨.cell 0, .nil, 0⟩ [] (dottedPair (.integer (10 ^ 400 : Nat))) =
        .error e (dottedPair (.integer (10 ^ 400 : Nat))) ∧ e.kind? ≠ some .form := by
  refine ⟨dottedPair_not_lists, extend_dottedPair rfl, fun room => ?_⟩
  obtain ⟨e, he, hfailure⟩ := printWithin_dottedPair_large room
  refine ⟨e, extend_dottedPair he, ?_⟩
  rcases hfailure with rfl | rfl <;> decide

end Store
end MiniLisp
