import MiniLisp.Proofs.Eval.Raised
import MiniLisp.Proofs.Scope.Binding
import MiniLisp.Proofs.Store.Append
import MiniLisp.Proofs.Store.Equality
import MiniLisp.Proofs.Walk.Layout

set_option autoImplicit false

namespace MiniLisp

open Store MiniLisp.Action

namespace Store

variable {foreign : Value → Prop} {s t : Store} {v last : Value} {items : List Value} {room : Nat}

theorem isProperList_eq_true : s.isProperList v = true ↔ ∃ items, s.Lists v items := by
  rw [isProperList, decide_eq_true_iff]
  refine ⟨fun h => ⟨_, lists_iff_chain_eq.2 (Prod.ext rfl h)⟩, fun h => ?_⟩
  obtain ⟨items, hlists⟩ := h
  rw [hlists.chain_eq]

theorem isProperList_eq_false : s.isProperList v = false ↔ ¬ ∃ items, s.Lists v items := by
  rw [← isProperList_eq_true, Bool.not_eq_true]

theorem length_returns_iff :
    (∃ w t, Primitive.length.run room [v] s = .ok w t) ↔ ∃ items, s.Lists v items := by
  refine ⟨fun ⟨w, t, hrun⟩ => ?_, fun ⟨items, h⟩ => ⟨_, _, run_length h room⟩⟩
  by_contra hno
  obtain ⟨e, he, -⟩ := elements_refused hno room "length"
  have hcheck : check (·.elements room "length" v) s = .error e s := by rw [check, he]
  have herror : Primitive.length.run room [v] s = .error e s := Action.bind_error hcheck
  rw [herror] at hrun
  cases hrun

theorem append_returns_iff :
    (∃ w t, Primitive.append.run room [v] s = .ok w t) ↔ ∃ items, s.Lists v items := by
  refine ⟨fun ⟨w, t, hrun⟩ => ?_, fun ⟨items, h⟩ =>
    ⟨_, _, run_append_ok (.cons h .nil) room⟩⟩
  by_contra hno
  obtain ⟨e, he, -⟩ := @run_append_refused s [] [] v room (List.forall_mem_nil _) hno
  have herror : Primitive.append.run room [v] s = .error e s := he
  rw [herror] at hrun
  cases hrun

section

variable {body : Value} {scope : FrameRef} {args : List Value}

theorem extend_improper (h : ¬ ∃ items, s.Lists v items) :
    ∃ e, extend room ⟨v, body, scope⟩ args s = .error e s ∧
      Quotes (s.displayWithin room v) .improperParameters e := by
  rcases s.accepts_or_refuses room ⟨v, body, scope⟩ args with ⟨names, hnames, -⟩ | ⟨e, he, hframe⟩
  · exact absurd ⟨_, hnames⟩ h
  · refine ⟨e, Eval.extend_error hframe, ?_⟩
    cases he with
    | improper _ hq => exact hq
    | notSymbol hl _ _ => exact absurd ⟨_, hl⟩ h
    | mismatch hl _ => exact absurd ⟨_, hl⟩ h

/-- With a proper list it may be the parameters in it that are wrong, or their number. -/
theorem extend_proper (h : s.Lists v items) (text : String) (t : Store) :
    extend room ⟨v, body, scope⟩ args s ≠ .error (.improperParameters text) t := by
  intro herror
  rcases s.accepts_or_refuses room ⟨v, body, scope⟩ args with ⟨names, hl, hlen⟩ | ⟨e, he, hframe⟩
  · rw [Eval.extend_ok (Eval.callFrame_names (Eval.formals_ok room hl) hlen)] at herror
    cases herror
  · rw [Eval.extend_error hframe] at herror
    cases herror
    cases he with
    | improper hno _ => exact hno ⟨items, h⟩
    | notSymbol _ _ hq =>
      cases hq with
      | failed hfailed =>
        rcases s.failsWith_displayWithin room _ _ hfailed with he | he <;> cases he

end

section

variable {r : CellRef} {head : Value} {ev : Eval.Evaluator} {frame : FrameRef}

theorem step_improper (hr : t.cells[r]? = some ⟨head, v⟩) (h : t.Chain v items last)
    (hlast : last ≠ .nil) : ∃ e, Eval.step room ev (.cell r) frame t = .error e t ∧
      Quotes (t.printWithin room (.cell r)) .malformedForm e := by
  obtain ⟨e, he, hq⟩ := @exists_quotes Value (t.printWithin room (.cell r)) .malformedForm
  refine ⟨e, ?_, hq⟩
  rw [Eval.step_malformed room ev (Chain.link hr h) hlast, report_eq, he]

theorem step_proper (hr : t.cells[r]? = some ⟨head, v⟩) (h : t.Lists v items) {text : String}
    {t' : Store} (herror : Eval.step room ev (.cell r) frame t = .error (.malformedForm text) t') :
    ∃ part x f u u', ev part x f u = .error (.malformedForm text) u' := by
  let p := fun e : Error =>
    (∀ form, e ≠ .malformedForm form) ∨ ∃ part x f u u', ev part x f u = .error e u'
  have hp : ∀ e : Error, e.OfOperation → p e := fun e he => .inl he.2
  have hev : ∀ part x f, Raises p (ev part x f) := fun part x f u e u' he =>
    .inr ⟨part, x, f, u, u', he⟩
  rw [Eval.step_list room ev (Chain.link hr h).chain_eq] at herror
  have hraised : p (.malformedForm text) := by
    cases hform : Eval.specialForm? head with
    | some form =>
      rw [hform] at herror
      exact Eval.raises_special hp hev room frame form items t _ t' herror
    | none =>
      rw [hform] at herror
      exact Eval.raises_call hp hev room frame head items t _ t' herror
  exact hraised.resolve_left fun hno => hno text rfl

end

/-- What closes a text with a tail is longer than what closes one without. -/
theorem closed_ne_dotted (front tail : String) : front ++ ")" ≠ front ++ " . " ++ tail ++ ")" := by
  intro hsame
  simp only [String.append_assoc, String.append_right_inj] at hsame
  have hlength := congrArg String.length hsame
  have hclose : ")".length = 1 := rfl
  have hdot : " . ".length = 3 := rfl
  rw [String.length_append, hclose, hdot] at hlength
  omega

theorem printWithin_ends (h : s.Chain v items last) {text : String}
    (ht : s.printWithin (room + 1) v = .ok text) : ∃ texts,
      items.mapM (s.printWithin room) = .ok texts ∧
      (last = .nil ↔ v = .nil ∨ (∃ r, v = .cell r) ∧
        ¬ ∃ tail, text = "(" ++ " ".intercalate texts ++ " . " ++ tail ++ ")") ∧
      (last = .nil → (∃ r, v = .cell r) → text = "(" ++ " ".intercalate texts ++ ")") := by
  cases h with
  | stop hv =>
    have hcell : ¬ ∃ r, v = .cell r := not_exists.2 hv
    exact ⟨[], rfl, (or_iff_left fun h => hcell h.1).symm, fun _ h => absurd h hcell⟩
  | @link r c items _ hc hrest =>
    have hcell : ∃ q, Value.cell r = .cell q := ⟨r, rfl⟩
    have hnil : Value.cell r ≠ .nil := fun h => by cases h
    rw [printWithin_chain (Chain.link hc hrest)] at ht
    cases htexts : (c.head :: items).mapM (s.printWithin room) with
    | error e =>
      rw [htexts] at ht
      cases ht
    | ok texts =>
      rw [htexts] at ht
      change (if last = .nil then _ else _) = _ at ht
      refine ⟨texts, rfl, ?_⟩
      rw [or_iff_right hnil, and_iff_right hcell]
      by_cases hlast : last = .nil
      · rw [if_pos hlast] at ht
        obtain rfl := Except.ok.inj ht
        refine ⟨iff_of_true hlast ?_, fun _ _ => rfl⟩
        rintro ⟨tail, htail⟩
        exact closed_ne_dotted _ tail htail
      · rw [if_neg hlast] at ht
        refine ⟨iff_of_false hlast (not_not_intro ?_), fun h => absurd h hlast⟩
        cases htail : s.printWithin room last with
        | error e =>
          rw [htail] at ht
          cases ht
        | ok tail =>
          rw [htail] at ht
          exact ⟨tail, (Except.ok.inj ht).symm⟩

theorem Chain.ne_nan (h : s.Chain v items last) (hnan : ¬ s.HoldsNaN v) :
    ∀ i ∈ items, i ≠ .number .nan := by
  induction h with
  | stop _ => exact List.forall_mem_nil _
  | @link r c items last hc _ ih =>
    have hhead : c.head ≠ .number .nan := fun h =>
      hnan (.of_side hc .head ⟨[], congrArg some h⟩)
    exact List.forall_mem_cons.2 ⟨hhead, ih fun h => hnan (h.of_side hc .tail)⟩

theorem equalAlong_items {equal : Value → Value → Except Error Bool} {fuel : Nat} {w : Value}
    (hequal : DecidesAtoms equal) (hw : s.Chain w items last) (hlast : last = .nil)
    (hv : s.Chain v items last) (hself : ∀ i ∈ items, equal i i = .ok true)
    (hfuel : items.length ≤ fuel) : s.equalAlong equal fuel w v = .ok true := by
  induction hw generalizing v fuel with
  | @stop w hw =>
    cases hv with
    | stop _ =>
      subst hlast
      exact equalAlong_atoms fun ⟨q, _, hq, _⟩ => hw q hq
  | @link q c items last hc _ ih =>
    obtain ⟨fuel, rfl⟩ := Nat.exists_eq_add_of_le' (Nat.le_of_add_left_le hfuel)
    obtain ⟨hhead, hitems⟩ := List.forall_mem_cons.1 hself
    generalize hchain : c.head :: items = found at hv
    cases hv with
    | stop _ => cases hchain
    | @link r d _ _ hd hv =>
      obtain ⟨hcd, rfl⟩ := List.cons.inj hchain
      by_cases hqr : q = r
      · exact hqr ▸ equalAlong_self q
      · refine (equalAlong_cells_true hequal hqr hc hd).2 ⟨hcd ▸ hhead, ?_⟩
        exact ih hlast hv hitems (Nat.le_of_succ_le_succ hfuel)

theorem Chain.equal {w : Value} (hw : s.Lists w items) (hv : s.Lists v items)
    (hnan : ∀ i ∈ items, i ≠ .number .nan) (room : Nat) :
    s.equal (room + 6) w v = .ok true := by
  have hself : ∀ i ∈ items, s.equal (room + 3) i i = .ok true := by
    intro i hi
    by_cases hcell : ∃ r, i = .cell r
    · obtain ⟨r, rfl⟩ := hcell
      exact s.equal_self room r
    · rw [equal_atom fun r hr => hcell ⟨r, hr⟩, Value.equalAtoms_self (hnan i hi)]
  exact equalAlong_items (s.decidesAtoms_equal _) hw rfl hv hself hw.length_le

end Store

/-- All that walk the chain of `v` give one answer to whether it is a proper list.  If it is none,
calls and evaluation quote it in their error, or fail in printing it. -/
structure WalksAgree (s : Store) (v : Value) : Prop where
  listed : (s.isProperList v = true ↔ ∃ items, s.toList? v = .ok items) ∧
    (s.isProperList v = false → s.toList? v = .error .improperList)
  counted : ∀ room,
    (s.isProperList v = true ↔ ∃ w t, Primitive.length.run room [v] s = .ok w t) ∧
    ∀ items, s.toList? v = .ok items →
      Primitive.length.run room [v] s = .ok (.number (.ofNat items.length)) s
  appended : ∀ room, s.isProperList v = true ↔ ∃ w t, Primitive.append.run room [v] s = .ok w t
  bound : ∀ room body scope args,
    (s.isProperList v = true →
      ∀ text t, extend room ⟨v, body, scope⟩ args s ≠ .error (.improperParameters text) t) ∧
    (s.isProperList v = false → ∃ e, extend room ⟨v, body, scope⟩ args s = .error e s ∧
      Quotes (s.displayWithin room v) .improperParameters e)
  /-- What the form's parts evaluate to is left open: what `ev` does not raise, the form does. -/
  evaluated : ∀ t r head, s.KeepsCells t → t.cells[r]? = some ⟨head, v⟩ → ∀ room ev frame,
    (s.isProperList v = true → ∀ text t',
      Eval.step room ev (.cell r) frame t = .error (.malformedForm text) t' →
        ∃ part x f u u', ev part x f u = .error (.malformedForm text) u') ∧
    (s.isProperList v = false → ∃ e, Eval.step room ev (.cell r) frame t = .error e t ∧
      Quotes (t.printWithin room (.cell r)) .malformedForm e)
  written : ∀ room text, s.printWithin (room + 1) v = .ok text → ∃ texts,
    (s.chain v).1.mapM (s.printWithin room) = .ok texts ∧
    (s.isProperList v = true ↔ v = .nil ∨ (∃ r, v = .cell r) ∧
      ¬ ∃ tail, text = "(" ++ " ".intercalate texts ++ " . " ++ tail ++ ")") ∧
    (s.isProperList v = true → (∃ r, v = .cell r) →
      text = "(" ++ " ".intercalate texts ++ ")")
  rebuilt : ∀ items, s.toList? v = .ok items → ¬ s.HoldsNaN v →
    ∀ depth, (s.list items .nil).2.equal (depth + 6) (s.list items .nil).1 v = .ok true
  extended : ∀ xs, (s.list xs v).2.isProperList (s.list xs v).1 = s.isProperList v ∧
    ∀ items, s.toList? v = .ok items → (s.list xs v).2.toList? (s.list xs v).1 = .ok (xs ++ items)

/-- On a store without cycles every chain has an end, and what stands there settles all of it. -/
theorem walks_agree {foreign : Value → Prop} {s : Store} {v : Value} (hs : s.Sound foreign)
    (ha : s.Acyclic) (hv : s.Admits foreign v) : WalksAgree s v := by
  have hlayer := ha.layered hs hv
  obtain ⟨items, last, hchain, -⟩ := hlayer.chain
  have hproper : s.isProperList v = true ↔ last = .nil := by
    rw [isProperList, hchain.chain_eq, decide_eq_true_iff]
  have hlists : s.isProperList v = true → s.Chain v items .nil := fun h => by
    rw [← hproper.1 h]
    exact hchain
  have hno : s.isProperList v = false → ¬ ∃ items, s.Lists v items := isProperList_eq_false.1
  exact {
    listed := by
      refine ⟨?_, fun h => toList?_eq_error (hno h)⟩
      simp only [isProperList_eq_true, toList?_eq_ok]
    counted := fun room => ⟨isProperList_eq_true.trans length_returns_iff.symm, fun items h =>
      run_length (toList?_eq_ok.1 h) room⟩
    appended := fun room => isProperList_eq_true.trans append_returns_iff.symm
    bound := fun room body scope args =>
      ⟨fun h => extend_proper (hlists h), fun h => extend_improper (hno h)⟩
    evaluated := fun t r head hk hr room ev frame => by
      refine ⟨fun h text t' => step_proper hr ((hlists h).mono hk), fun h => ?_⟩
      exact step_improper hr (hchain.mono hk) fun hlast => by simp [hproper.2 hlast] at h
    written := fun room text ht => by
      obtain ⟨texts, htexts, hends, hclosed⟩ := printWithin_ends hchain ht
      refine ⟨texts, ?_, hproper.trans hends, fun h => hclosed (hproper.1 h)⟩
      rw [hchain.chain_eq]
      exact htexts
    rebuilt := fun found h hnan => by
      have hl := toList?_eq_ok.1 h
      obtain ⟨hlist, hkeeps⟩ := s.list_spec found
      exact hlist.equal (hl.mono hkeeps) (hl.ne_nan hnan)
    extended := fun xs => by
      have hlist := (chain_list hchain xs).1
      refine ⟨?_, fun found h => toList?_eq_ok.2 ?_⟩
      · rw [isProperList, isProperList, hlist.chain_eq, hchain.chain_eq]
      · exact (chain_list (toList?_eq_ok.1 h) xs).1 }

/-- The list `(a b)`. -/
theorem walks_agree_list :
    let p := Store.empty.load (.list [.symbol "a", .symbol "b"] .nil)
    let s := p.2
    (s.Sound NoHook ∧ s.Acyclic ∧ s.Admits NoHook p.1) ∧ WalksAgree s p.1 ∧
      Primitive.length.run 9 [p.1] s = .ok (.number (.ofNat 2)) s := by
  intro p s
  have hreach : Reachable NoHook s := .load _ .empty
  have hv : s.Admits NoHook p.1 := (@evolves_load NoHook (fun _ _ => True) _ _).2
  have hagree := walks_agree hreach.sound hreach.aged.acyclic hv
  exact ⟨⟨hreach.sound, hreach.aged.acyclic, hv⟩, hagree,
    (hagree.counted 9).2 [.symbol "a", .symbol "b"] rfl⟩

/-- A pair `(a . x)` as a parameter list, and behind the head of a form: neither is refused as
improper where there is not room for the text that the error would have in it. -/
theorem walks_agree_unprintable :
    let s := dottedPair (.symbol "a")
    let t := (s.cons (.symbol "list") (.cell 0)).2
    t.Acyclic ∧ s.isProperList (.cell 0) = false ∧
      (∀ text u, extend 1 ⟨.cell 0, .nil, 0⟩ [] s ≠ .error (.improperParameters text) u) ∧
      ∀ ev text u, Eval.step 1 ev (.cell 1) 0 t ≠ .error (.malformedForm text) u := by
  intro s t
  have hchain : t.Chain (.cell 0) [.symbol "a"] (.symbol "x") :=
    (chain_dottedPair _).mono (keepsCells_cons _ _ _)
  refine ⟨fun r hr => ?_, rfl, fun text u h => ?_, fun ev text u h => ?_⟩
  · have hpart : ∀ q r, t.PartOf q r → q < r := by
      rintro q r ⟨c, hc, hq⟩
      have hcases : r = 0 ∧ c = ⟨.symbol "a", .symbol "x"⟩ ∨
          r = 1 ∧ c = ⟨.symbol "list", .cell 0⟩ := by
        match r with
        | 0 => exact .inl ⟨rfl, (Option.some.inj hc).symm⟩
        | 1 => exact .inr ⟨rfl, (Option.some.inj hc).symm⟩
        | r + 2 => cases hc
      rcases hcases with ⟨-, rfl⟩ | ⟨rfl, rfl⟩
      · simp at hq
      · obtain rfl : 0 = q := by simpa using hq
        exact Nat.zero_lt_one
    exact Nat.lt_irrefl r (lt_of_transGen hpart hr)
  · have hdeep : extend 1 ⟨.cell 0, .nil, 0⟩ [] s = .error .recursionTooDeep s :=
      extend_dottedPair rfl
    rw [hdeep] at h
    cases h
  · have hcell : t.cells[1]? = some ⟨.symbol "list", .cell 0⟩ := rfl
    obtain ⟨e, he, hq⟩ := @step_improper t _ _ _ 1 1 _ ev 0 hcell hchain nofun
    rw [he] at h
    cases h
    cases hq with
    | text ht => cases ht
    | failed ht => cases ht

end MiniLisp
