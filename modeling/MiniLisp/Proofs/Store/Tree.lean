import MiniLisp.Proofs.Store.Chain
import MiniLisp.Store.Print

/-!
Trees in the store.  `Store.Unfolds` says which datum a value stands for; it holds of values that
are built from Nil, numbers, symbols and cells without a cycle, whatever cells they share.  Loading
a datum makes such a value of new cells (`unfolds_load`, `size_le_of_leads_load`), and printing one
prints its datum (`print_eq`).
-/
set_option autoImplicit false

namespace MiniLisp

def Datum.height : Datum → Nat
  | .cons a d => 1 + max a.height d.height
  | _ => 0

namespace Store

inductive Unfolds (s : Store) : Value → Datum → Prop where
  | nil : s.Unfolds .nil .nil
  | number (x : Double) : s.Unfolds (.number x) (.number x)
  | symbol (name : String) : s.Unfolds (.symbol name) (.symbol name)
  | cell {r : CellRef} {c : Cell} {a d : Datum} : s.cells[r]? = some c →
      s.Unfolds c.head a → s.Unfolds c.tail d → s.Unfolds (.cell r) (.cons a d)

inductive Leads (s : Store) : Value → CellRef → Prop where
  | here (r : CellRef) : s.Leads (.cell r) r
  | head {r q : CellRef} {c : Cell} : s.cells[r]? = some c → s.Leads c.head q → s.Leads (.cell r) q
  | tail {r q : CellRef} {c : Cell} : s.cells[r]? = some c → s.Leads c.tail q → s.Leads (.cell r) q

def KeepsCells (s s' : Store) : Prop := ∀ ⦃r : CellRef⦄ ⦃c : Cell⦄, s.cells[r]? = some c →
  s'.cells[r]? = some c

theorem KeepsCells.refl (s : Store) : s.KeepsCells s := fun _ _ h => h

theorem KeepsCells.trans {s₁ s₂ s₃ : Store} (h : s₁.KeepsCells s₂) (h' : s₂.KeepsCells s₃) :
    s₁.KeepsCells s₃ := fun _ _ hc => h' (h hc)

theorem keepsCells_cons (s : Store) (a d : Value) : s.KeepsCells (s.cons a d).2 := by
  intro r c h
  obtain ⟨hr, rfl⟩ := Array.getElem?_eq_some_iff.1 h
  simp [cons, Array.getElem?_push_lt hr]

theorem cons_new (s : Store) (a d : Value) : (s.cons a d).2.cells[s.cells.size]? = some ⟨a, d⟩ := by
  simp [cons]

variable {s s' : Store}

theorem Unfolds.unique {v : Value} {d d' : Datum} (h : s.Unfolds v d) (h' : s.Unfolds v d') :
    d = d' := by
  induction h generalizing d' with
  | cell hc _ _ iha ihd =>
    cases h' with
    | cell hc' ha hd =>
      obtain rfl := Option.some.inj (hc.symm.trans hc')
      rw [iha ha, ihd hd]
  | _ => cases h'; rfl

theorem Unfolds.mono {v : Value} {d : Datum} (hk : s.KeepsCells s') (h : s.Unfolds v d) :
    s'.Unfolds v d := by
  induction h with
  | nil => exact .nil
  | number x => exact .number x
  | symbol name => exact .symbol name
  | cell hc _ _ iha ihd => exact .cell (hk hc) iha ihd

theorem Unfolds.leads {v : Value} {d : Datum} {r : CellRef} (hk : s.KeepsCells s')
    (h : s.Unfolds v d) (hl : s'.Leads v r) : s.Leads v r := by
  induction hl generalizing d with
  | here r => exact .here r
  | head hc' _ ih =>
    cases h with
    | cell hc ha _ =>
      obtain rfl := Option.some.inj ((hk hc).symm.trans hc')
      exact .head hc (ih ha)
  | tail hc' _ ih =>
    cases h with
    | cell hc _ hd =>
      obtain rfl := Option.some.inj ((hk hc).symm.trans hc')
      exact .tail hc (ih hd)

theorem Unfolds.height_le {v : Value} {d : Datum} (h : s.Unfolds v d) :
    d.height ≤ s.cells.size := by
  cases h with
  | @cell r c a d hc ha hd =>
    refine rank_le_of_descent (fun r n => ∃ d, s.Unfolds (.cell r) d ∧ d.height = n) ?_ ?_ ?_
      ⟨_, .cell hc ha hd, rfl⟩
    · rintro r n ⟨_, h, _⟩
      cases h with
      | cell hc _ _ => exact (Array.getElem?_eq_some_iff.1 hc).1
    · rintro r m n ⟨_, h, rfl⟩ ⟨_, h', rfl⟩
      rw [h.unique h']
    · rintro r n ⟨_, h, hn⟩
      cases h with
      | @cell _ c a d _ ha hd =>
        have deeper : ∀ {v : Value} {e : Datum}, s.Unfolds v e → e.height = n →
            n = 0 ∨ ∃ q e, s.Unfolds (.cell q) e ∧ e.height = n := by
          intro v e he hen
          cases he with
          | @cell q _ _ _ hc ha hd => exact .inr ⟨q, _, .cell hc ha hd, hen⟩
          | _ => exact .inl hen.symm
        rw [Datum.height] at hn
        rcases Nat.le_total a.height d.height with hle | hle
        · exact deeper hd (by omega)
        · exact deeper ha (by omega)
  | _ => exact Nat.zero_le _

theorem keepsCells_load (s : Store) (d : Datum) : s.KeepsCells (s.load d).2 := by
  induction d generalizing s with
  | cons a d iha ihd => exact ((iha s).trans (ihd _)).trans (keepsCells_cons _ _ _)
  | _ => exact .refl s

theorem unfolds_load (s : Store) (d : Datum) : (s.load d).2.Unfolds (s.load d).1 d := by
  induction d generalizing s with
  | nil => exact .nil
  | number x => exact .number x
  | symbol name => exact .symbol name
  | cons a d iha ihd =>
    have hcons := keepsCells_cons ((s.load a).2.load d).2 (s.load a).1 ((s.load a).2.load d).1
    exact .cell (cons_new _ _ _) ((iha s).mono ((keepsCells_load _ d).trans hcons))
      ((ihd _).mono hcons)

theorem size_le_load (s : Store) (d : Datum) : s.cells.size ≤ (s.load d).2.cells.size := by
  induction d generalizing s with
  | cons a d iha ihd =>
    have := iha s
    have := ihd (s.load a).2
    simp only [load, cons, Array.size_push]
    omega
  | _ => exact Nat.le_refl _

theorem size_le_of_leads_load (s : Store) (d : Datum) {r : CellRef}
    (h : (s.load d).2.Leads (s.load d).1 r) : s.cells.size ≤ r := by
  induction d generalizing s with
  | cons a d iha ihd =>
    have hcons := keepsCells_cons ((s.load a).2.load d).2 (s.load a).1 ((s.load a).2.load d).1
    have hnew := cons_new ((s.load a).2.load d).2 (s.load a).1 ((s.load a).2.load d).1
    have hsa := size_le_load s a
    have hsd := size_le_load (s.load a).2 d
    cases h with
    | here => omega
    | head hc hl =>
      obtain rfl := Option.some.inj (hnew.symm.trans hc)
      exact iha s ((unfolds_load s a).leads ((keepsCells_load _ d).trans hcons) hl)
    | tail hc hl =>
      obtain rfl := Option.some.inj (hnew.symm.trans hc)
      have := ihd _ ((unfolds_load _ d).leads hcons hl)
      omega
  | _ => cases h

def writeTail (s : Store) (room : Nat) (items : List Value) (last : Value) (out : String) :
    Except Error String := do
  let out ← items.foldlM (fun out x => s.write room x (out.push ' ')) out
  if last = .nil then .ok (out.push ')') else (s.write room last (out ++ " . ")).map (·.push ')')

theorem write_cell {room : Nat} {r : CellRef} {c : Cell} {items : List Value} {last : Value}
    (hc : s.cells[r]? = some c) (h : s.Chain c.tail items last) (out : String) :
    s.write (room + 1) (.cell r) out =
      (s.write room c.head (out.push '(')).bind (s.writeTail room items last) := by
  rw [write, (Chain.link hc h).chain_eq]
  rfl

theorem writeTail_cons (room : Nat) (v : Value) (items : List Value) (last : Value)
    (out : String) : s.writeTail room (v :: items) last out =
      (s.write room v (out.push ' ')).bind (s.writeTail room items last) := by
  rw [writeTail, List.foldlM_cons]
  cases s.write room v (out.push ' ') <;> rfl

/-- Both forms of printing follow the tree, so each case of one uses the other. -/
theorem Unfolds.write_eq {v : Value} {d : Datum} (h : s.Unfolds v d) :
    (∀ room out, d.height ≤ room → s.write (room + 1) v out = .ok (d.writeParts false out)) ∧
    ∃ items last, s.Chain v items last ∧ ∀ room out, d.height ≤ room →
      s.writeTail (room + 1) items last out = .ok (d.writeParts true out) := by
  induction h with
  | nil => exact ⟨fun _ _ _ => rfl, [], .nil, .stop (by simp), fun _ _ _ => rfl⟩
  | number x => exact ⟨fun _ _ _ => rfl, [], .number x, .stop (by simp), fun _ _ _ => rfl⟩
  | symbol name => exact ⟨fun _ _ _ => rfl, [], .symbol name, .stop (by simp), fun _ _ _ => rfl⟩
  | @cell r c a d hc _ _ iha ihd =>
    obtain ⟨items, last, hchain, htail⟩ := ihd.2
    constructor
    · intro room out hr
      rw [Datum.height] at hr
      obtain ⟨room, rfl⟩ := Nat.exists_eq_add_of_le' (Nat.le_of_add_right_le hr)
      rw [write_cell hc hchain, iha.1 room _ (by omega)]
      exact htail room _ (by omega)
    · refine ⟨c.head :: items, last, .link hc hchain, fun room out hr => ?_⟩
      rw [Datum.height] at hr
      rw [writeTail_cons, iha.1 room _ (by omega)]
      exact htail room _ (by omega)

theorem Unfolds.print_eq {v : Value} {d : Datum} (h : s.Unfolds v d) : s.print v = .ok d.print :=
  h.write_eq.1 _ "" (Nat.le_trans h.height_le (Nat.le_add_right _ _))

end Store
end MiniLisp
