import MiniLisp.Proofs.Eval.Settling
import MiniLisp.Proofs.Rename.Continued

set_option autoImplicit false

namespace MiniLisp

open Store MiniLisp.Eval

section

variable {α α' β : Type}

theorem mapM_same {p : α → α'} {f : α → Except Error β} {g : α' → Except Error β} {xs : List α}
    (h : ∀ x ∈ xs, g (p x) = f x) : (xs.map p).mapM g = xs.mapM f := by
  induction xs with
  | nil => rfl
  | cons x xs ih =>
    obtain ⟨hx, hxs⟩ := List.forall_mem_cons.1 h
    rw [List.map_cons, List.mapM_cons, List.mapM_cons, hx, ih hxs]

theorem foldlM_same {p : α → α'} {f : β → α → Except Error β} {g : β → α' → Except Error β}
    {xs : List α} (h : ∀ x ∈ xs, ∀ b, g b (p x) = f b x) (b : β) :
    (xs.map p).foldlM g b = xs.foldlM f b := by
  induction xs generalizing b with
  | nil => rfl
  | cons x xs ih =>
    obtain ⟨hx, hxs⟩ := List.forall_mem_cons.1 h
    rw [List.map_cons, List.foldlM_cons, List.foldlM_cons, hx]
    exact congrArg _ (funext (ih hxs))

theorem report_same {x y : Except Error String} (mk : String → Error) (h : x = y) :
    (do throw (mk (← x)) : Except Error α) = (do throw (mk (← y))) := by rw [h]

theorem report_follows {x y : Except Error String} (mk : String → Error) (h : x = y) (q : α → β) :
    (do throw (mk (← x)) : Except Error β) = (do throw (mk (← y)) : Except Error α).map q := by
  rw [h]
  cases y <;> rfl

end

namespace Store.Matches

variable {m : Matching} {s s' : Store} (h : s.Matches m s')

include h

theorem chain {v last : Value} {items : List Value} (hl : s.Chain v items last)
    (hv : s.Knows m v) :
    s'.Chain (v.rename m.names) (items.map (Value.rename m.names)) (last.rename m.names) ∧
      (∀ i ∈ items, s.Knows m i) ∧ s.Knows m last := by
  induction hl with
  | stop hcell => exact ⟨.stop (Value.rename_ne_cell hcell), List.forall_mem_nil _, hv⟩
  | link hc _ ih =>
    obtain ⟨hc', hhead, htail⟩ := h.cell hv hc
    obtain ⟨hrest, hitems, hlast⟩ := ih htail
    exact ⟨.link hc' hrest, List.forall_mem_cons.2 ⟨hhead, hitems⟩, hlast⟩

theorem write (room : Nat) {v : Value} (hv : s.Knows m v) (out : String) :
    s'.write room (v.rename m.names) out = s.write room v out := by
  -- A chain takes room for its items only, so it is written item by item, not cell by cell.
  induction room generalizing v out with
  | zero => rw [Store.write, Store.write]
  | succ room ih =>
    cases v with
    | closure r =>
      obtain ⟨c, hc, hc', hp, _⟩ := h.exists_closure hv
      rw [Value.rename, Store.write, Store.write, hc', hc]
      simp only [Closure.rename, Value.rename_eq_nil_iff, ih hp]
    | cell r =>
      obtain ⟨c, hc, hc', hhead, htail⟩ := h.exists_cell hv
      obtain ⟨items, last, hchain⟩ := h.ready.chainsEnd.chain htail.admits
      obtain ⟨hchain', hitems, hlast⟩ := h.chain hchain htail
      have hitem : ∀ out : String, (items.map (Value.rename m.names)).foldlM
          (fun out x => s'.write room x (out.push ' ')) out =
            items.foldlM (fun out x => s.write room x (out.push ' ')) out :=
        foldlM_same fun x hx out => ih (hitems x hx) _
      have hrest : s'.writeTail room (items.map (Value.rename m.names)) (last.rename m.names) =
          s.writeTail room items last := by
        funext out
        simp only [writeTail, hitem, Value.rename_eq_nil_iff, ih hlast]
      have hfirst := ih hhead (out.push '(')
      rw [Value.rename, write_cell hc' hchain', write_cell hc hchain, hrest]
      exact congrArg (Except.bind · (s.writeTail room items last)) hfirst
    | _ => rfl

theorem printWithin (room : Nat) {v : Value} (hv : s.Knows m v) :
    s'.printWithin room (v.rename m.names) = s.printWithin room v := h.write room hv ""

/-- What has a text has the same one in the second store, which is no smaller. -/
theorem print {v : Value} (hv : s.Knows m v) {text : String} (ht : s.print v = .ok text) :
    s'.print (v.rename m.names) = .ok text := by
  have hroom : s.ampleRoom ≤ s'.ampleRoom := by
    have := h.cells.size_le
    have := h.closures.size_le
    simp only [ampleRoom]
    omega
  have htext : s.printWithin s.ampleRoom v = .ok text := ht
  rw [Store.print, h.printWithin _ hv]
  rcases s.deepOrEq_printWithin hroom v with hdeep | heq
  · rw [htext] at hdeep
    cases hdeep
  · rw [← heq, htext]

theorem displayWithin (room : Nat) {v : Value} (hv : s.Knows m v) :
    s'.displayWithin room (v.rename m.names) = s.displayWithin room v := by
  have hprint := h.printWithin room hv
  cases v with
  | number x => rfl
  | integer i => rfl
  | _ => exact hprint

theorem number (room : Nat) (operation : String) {v : Value} (hv : s.Knows m v) :
    s'.number room operation (v.rename m.names) = s.number room operation v := by
  have hreport : (do throw (.notNumber operation (← s'.printWithin room (v.rename m.names))) :
      Except Error Double) = (do throw (.notNumber operation (← s.printWithin room v))) :=
    report_same _ (h.printWithin room hv)
  cases v with
  | number x => rfl
  | integer i => rfl
  | _ => exact hreport

theorem elements (room : Nat) (operation : String) {v : Value} (hv : s.Knows m v) :
    s'.elements room operation (v.rename m.names) =
      (s.elements room operation v).map (List.map (Value.rename m.names)) := by
  have hreport : ∀ mk : String → Error,
      (do throw (mk (← s'.printWithin room (v.rename m.names))) : Except Error (List Value)) =
        (do throw (mk (← s.printWithin room v)) : Except Error (List Value)).map
          (List.map (Value.rename m.names)) := fun mk =>
    report_follows mk (h.printWithin room hv) _
  cases v with
  | nil =>
    have hnil : ∀ s : Store, s.elements room operation .nil = .ok [] := by
      intro s
      have hchain : s.Chain .nil [] .nil := .stop (by simp)
      rw [elements_of_chain hchain.chain_eq (.inl rfl), if_pos rfl]
    rw [Value.rename_nil, hnil, hnil]
    rfl
  | cell r =>
    obtain ⟨items, last, hchain⟩ := h.ready.chainsEnd.chain hv.admits
    have hchain' : s'.Chain (.cell (m.names.cell r)) (items.map (Value.rename m.names))
        (last.rename m.names) := (h.chain hchain hv).1
    rw [Value.rename, elements_of_chain hchain.chain_eq (.inr ⟨_, rfl⟩),
      elements_of_chain hchain'.chain_eq (.inr ⟨_, rfl⟩)]
    by_cases hl : last = .nil
    · simp only [if_pos hl, if_pos (Value.rename_eq_nil_iff.2 hl)]
      rfl
    · simp only [if_neg hl, if_neg (mt Value.rename_eq_nil_iff.1 hl)]
      exact hreport (.notProperList operation)
  | _ => exact hreport (.notList operation)

theorem formals (room : Nat) {c : Closure} (hp : s.Knows m c.parameters) :
    s'.formals room (c.rename m.names).parameters = s.formals room c.parameters := by
  obtain ⟨items, last, hchain⟩ := h.ready.chainsEnd.chain hp.admits
  obtain ⟨hchain', hitems, _⟩ := h.chain hchain hp
  by_cases hl : last = .nil
  · subst hl
    have hname : ∀ p ∈ items,
        parameterName s' room (p.rename m.names) = parameterName s room p := by
      intro p hpi
      have hreport : (do throw (.parameterNotSymbol (← s'.displayWithin room (p.rename m.names))) :
          Except Error String) = (do throw (.parameterNotSymbol (← s.displayWithin room p))) :=
        report_same _ (h.displayWithin room (hitems p hpi))
      cases p with
      | symbol name => rfl
      | _ => exact hreport
    rw [formals_of_lists room hchain]
    exact (formals_of_lists room hchain').trans (mapM_same hname)
  · have hl' : last.rename m.names ≠ .nil := mt Value.rename_eq_nil_iff.1 hl
    rw [formals_improper room hchain.chain_eq hl]
    exact (formals_improper room hchain'.chain_eq hl').trans
      (report_same _ (h.displayWithin room hp))

theorem callFrame (room : Nat) {c : Closure} (hp : s.Knows m c.parameters) (args : List Value) :
    s'.callFrame room (c.rename m.names) (args.map (Value.rename m.names)) =
      (s.callFrame room c args).map (Frame.rename m.names) := by
  have hformals := h.formals room hp
  cases hn : s.formals room c.parameters with
  | error e =>
    rw [callFrame_error hn, callFrame_error (hformals.trans hn)]
    rfl
  | ok names =>
    have hn' := hformals.trans hn
    have hlength : (args.map (Value.rename m.names)).length = args.length := List.length_map _
    by_cases hlen : names.length = args.length
    · rw [callFrame_names hn hlen, callFrame_names hn' (hlen.trans hlength.symm),
        List.zip_map_right]
      exact congrArg Except.ok (Frame.rename_update ⟨[], some c.scope⟩ (names.zip args)).symm
    · rw [callFrame_mismatch hn hlen, callFrame_mismatch hn' (by rwa [hlength]), hlength]
      rfl

theorem lookup {name : String} (hname : ∀ q, m.hidden q name = false) {r : FrameRef}
    (hr : s.Located m r) :
    s'.lookup (m.names.frame r) name = (s.lookup r name).map (Value.rename m.names) ∧
      ∀ v, s.lookup r name = .ok v → s.Knows m v := by
  -- Outer frames are older, and renaming keeps the order of age, so the induction is on it.
  induction r using Nat.strongRecOn with
  | ind r ih =>
    obtain ⟨f, hf⟩ : ∃ f, s.frames[r]? = some f := ⟨_, Array.getElem?_eq_getElem hr.lt⟩
    obtain ⟨f', hf', hff⟩ := h.frames.entry hf
    have hget : f'.get? name = (f.get? name).map (Value.rename m.names) := by
      rw [← Frame.get?_except (hname r) f', hff.renamed, Frame.get?_rename,
        Frame.get?_except (hname r)]
    have houter : f'.outer = f.outer.map m.names.frame := congrArg Frame.outer hff.renamed
    rw [lookup_eq s, lookup_eq s', hf, hf']
    simp only [hget, houter]
    cases hv : f.get? name with
    | some v =>
      refine ⟨rfl, ?_⟩
      rintro w ⟨⟩
      obtain ⟨before, later, hsplit, _⟩ := List.lookup_eq_some_iff.1 hv
      have hmem : (name, v) ∈ f.bindings := by simp [hsplit]
      exact ⟨h.ready.sound.bound hf _ hmem, hff.bound hr.region _ hmem⟩
    | none =>
      cases ho : f.outer with
      | none =>
        refine ⟨rfl, ?_⟩
        rintro v ⟨⟩
      | some o =>
        have hlt := h.ready.sound.outer hf o ho
        have hlt' : m.names.frame o < m.names.frame r := h.age hlt
        simp only [Option.map_none, Option.map_some, if_pos hlt, if_pos hlt']
        exact ih o hlt ⟨Nat.lt_trans hlt hr.lt, hff.outer hr.region o ho⟩

end Store.Matches
end MiniLisp
