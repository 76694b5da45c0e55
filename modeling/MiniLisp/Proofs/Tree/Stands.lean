import MiniLisp.Proofs.Store.Tree
import MiniLisp.Proofs.Tree.Interpreter

/-!
Which tree a value in the store is.  `Store.Stands` follows cells and functions into the store and
forgets which ones they are; the chains and the printed form of a value are those of its tree
(`Stands.chain`, `Stands.write_eq`, `Stands.print_eq`).
-/
set_option autoImplicit false

namespace MiniLisp

namespace Store

/-- The value is the tree, whatever entries it shares with others. -/
inductive Stands (s : Store) : Value → Tree → Prop where
  | nil : s.Stands .nil .nil
  | number (x : Double) : s.Stands (.number x) (.number x)
  | symbol (name : String) : s.Stands (.symbol name) (.symbol name)
  | primitive (p : Primitive) (serial : Nat) : s.Stands (.primitive p serial) (.primitive p)
  | cell {r : CellRef} {c : Cell} {a d : Tree} : s.cells[r]? = some c →
      s.Stands c.head a → s.Stands c.tail d → s.Stands (.cell r) (.cons a d)
  | closure {r : ClosureRef} {c : Closure} {p b : Tree} : s.closures[r]? = some c →
      s.Stands c.parameters p → s.Stands c.body b →
      s.Stands (.closure r) (.closure p b c.scope)

structure Retains (s s' : Store) : Prop where
  cells : s.KeepsCells s'
  closures : ∀ ⦃r : ClosureRef⦄ ⦃c : Closure⦄, s.closures[r]? = some c →
    s'.closures[r]? = some c

theorem Retains.refl (s : Store) : s.Retains s := ⟨.refl s, fun _ _ h => h⟩

theorem Retains.trans {s₁ s₂ s₃ : Store} (h : s₁.Retains s₂) (h' : s₂.Retains s₃) : s₁.Retains s₃ :=
  ⟨h.cells.trans h'.cells, fun _ _ hc => h'.closures (h.closures hc)⟩

variable {s s' : Store} {v : Value} {t : Tree}

theorem Stands.mono (h : s.Stands v t) (hk : s.Retains s') : s'.Stands v t := by
  induction h with
  | nil => exact .nil
  | number x => exact .number x
  | symbol name => exact .symbol name
  | primitive p serial => exact .primitive p serial
  | cell hc _ _ iha ihd => exact .cell (hk.cells hc) iha ihd
  | closure hc _ _ ihp ihb => exact .closure (hk.closures hc) ihp ihb

theorem forall_stands_mono {vs : List Value} {ts : List Tree} (h : List.Forall₂ s.Stands vs ts)
    (hk : s.Retains s') : List.Forall₂ s'.Stands vs ts := h.imp fun _ _ h => h.mono hk

theorem Stands.unique {t' : Tree} (h : s.Stands v t) (h' : s.Stands v t') : t = t' := by
  induction h generalizing t' with
  | cell hc _ _ iha ihd =>
    cases h' with
    | cell hc' ha hd =>
      obtain rfl := Option.some.inj (hc.symm.trans hc')
      rw [iha ha, ihd hd]
  | closure hc _ _ ihp ihb =>
    cases h' with
    | closure hc' hp hb =>
      obtain rfl := Option.some.inj (hc.symm.trans hc')
      rw [ihp hp, ihb hb]
  | _ => cases h'; rfl

theorem Unfolds.stands {d : Datum} (h : s.Unfolds v d) : s.Stands v (.ofDatum d) := by
  induction h with
  | nil => exact .nil
  | number x => exact .number x
  | symbol name => exact .symbol name
  | cell hc _ _ iha ihd => exact .cell hc iha ihd

theorem Stands.eq_nil_iff (h : s.Stands v t) : v = .nil ↔ t = .nil := by
  cases h <;> simp

theorem Stands.isFunction_eq (h : s.Stands v t) : v.isFunction = t.isFunction := by
  cases h <;> rfl

theorem Stands.chain (h : s.Stands v t) : ∃ items last, s.Chain v items last ∧
    List.Forall₂ s.Stands items t.chain.1 ∧ s.Stands last t.chain.2 := by
  induction h with
  | cell hc ha hd _ ih =>
    obtain ⟨items, last, hchain, hitems, hlast⟩ := ih
    exact ⟨_, last, .link hc hchain, .cons ha hitems, hlast⟩
  | nil => exact ⟨[], _, .stop (by simp), .nil, .nil⟩
  | number x => exact ⟨[], _, .stop (by simp), .nil, .number x⟩
  | symbol name => exact ⟨[], _, .stop (by simp), .nil, .symbol name⟩
  | primitive p serial => exact ⟨[], _, .stop (by simp), .nil, .primitive p serial⟩
  | closure hc hp hb => exact ⟨[], _, .stop (by simp), .nil, .closure hc hp hb⟩

end Store

namespace Tree

def fitting (fits : Prop) [Decidable fits] (text : String) : Except Error String :=
  if fits then .ok text else .error .recursionTooDeep

def tailDepth (t : Tree) : Nat := if t.isList then t.depth else t.depth + 1

theorem depth_cons (a d : Tree) : (cons a d).depth = max (a.depth + 1) d.tailDepth := rfl

theorem map_fitting (p : Prop) [Decidable p] (text : String) (f : String → String) :
    (fitting p text).map f = fitting p (f text) := by
  by_cases h : p <;> simp [fitting, h, Except.map]

theorem bind_fitting {p q r : Prop} [Decidable p] [Decidable q] [Decidable r] (h : r ↔ p ∧ q)
    {text whole : String} {f : String → Except Error String} (hf : f text = fitting q whole) :
    (fitting p text).bind f = fitting r whole := by
  by_cases hp : p
  · have hr : r ↔ q := by simp [h, hp]
    simp [fitting, hp, hr, Except.bind, hf]
  · have hr : ¬ r := fun hr => hp (h.1 hr).1
    simp [fitting, hp, hr, Except.bind]

theorem fitting_congr {p q : Prop} [Decidable p] [Decidable q] (h : p ↔ q) {text text' : String}
    (ht : text = text') : fitting p text = fitting q text' := by
  by_cases hp : p <;> simp [fitting, hp, ← h, ht]

end Tree

namespace Store

open MiniLisp.Tree

variable {s s' : Store} {v : Value} {t : Tree}

theorem write_eq_of_atom (hcell : ∀ r, v ≠ .cell r) (hnil : v ≠ .nil) (ht : t.isList = false)
    (hforms : t.forms.2 = " . " ++ t.forms.1 ++ ")")
    (h : ∀ room out, s.write room v out = fitting (t.depth < room) (out ++ t.forms.1)) :
    (∀ room out, s.write room v out = fitting (t.depth < room) (out ++ t.forms.1)) ∧
    ∃ items last, s.Chain v items last ∧ ∀ room out,
      s.writeTail room items last out = fitting (t.tailDepth ≤ room) (out ++ t.forms.2) := by
  refine ⟨h, [], v, .stop hcell, fun room out => ?_⟩
  have htail : s.writeTail room [] v out = (s.write room v (out ++ " . ")).map (·.push ')') :=
    if_neg hnil
  rw [htail, h, map_fitting]
  refine fitting_congr ?_ ?_
  · simp only [tailDepth, ht]
    exact Nat.lt_iff_add_one_le
  · rw [hforms, String.push_eq_append]
    simp only [String.append_assoc]
    rfl

/-- A value prints as its tree does, on its own and behind the head of a pair. -/
theorem Stands.write_eq (h : s.Stands v t) :
    (∀ room out, s.write room v out = fitting (t.depth < room) (out ++ t.forms.1)) ∧
    ∃ items last, s.Chain v items last ∧ ∀ room out,
      s.writeTail room items last out = fitting (t.tailDepth ≤ room) (out ++ t.forms.2) := by
  induction h with
  | nil =>
    refine ⟨fun room out => ?_, [], .nil, .stop (by simp), fun room out => ?_⟩
    · cases room <;> rfl
    · have htail : s.writeTail room [] .nil out = .ok (out.push ')') := rfl
      rw [htail, String.push_eq_append]
      exact (if_pos (Nat.zero_le room)).symm
  | number x =>
    refine write_eq_of_atom (by simp) (by simp) rfl rfl fun room out => ?_
    cases room <;> rfl
  | symbol name =>
    refine write_eq_of_atom (by simp) (by simp) rfl rfl fun room out => ?_
    cases room <;> rfl
  | primitive p serial =>
    refine write_eq_of_atom (by simp) (by simp) rfl rfl fun room out => ?_
    cases room with
    | zero => rfl
    | succ room =>
      rw [write]
      refine (congrArg Except.ok ?_).trans (if_pos (Nat.succ_pos room)).symm
      simp [forms, forms.atom, String.append_assoc]
  | @closure r c p b hc hp hb ihp _ =>
    refine write_eq_of_atom (by simp) (by simp) rfl rfl fun room out => ?_
    cases room with
    | zero => rw [write, fitting, if_neg (Nat.not_lt_zero _)]
    | succ room =>
      rw [write]
      simp only [hc, hp.eq_nil_iff]
      by_cases hnil : p = .nil
      · simp [hnil, depth, forms, forms.atom, fitting]
      · rw [if_neg hnil, ihp.1, map_fitting]
        refine fitting_congr (by simp [depth, hnil]) ?_
        simp [forms, forms.atom, hnil, String.push_eq_append, String.append_assoc]
  | @cell r c a d hc _ _ iha ihd =>
    obtain ⟨items, last, hchain, htail⟩ := ihd.2
    constructor
    · intro room out
      cases room with
      | zero => rw [write, fitting, if_neg (Nat.not_lt_zero _)]
      | succ room =>
        rw [write_cell hc hchain, iha.1]
        refine bind_fitting (q := d.tailDepth ≤ room) ?_ ?_
        · rw [depth_cons]
          omega
        · rw [htail]
          refine fitting_congr Iff.rfl ?_
          simp [forms, String.push_eq_append, String.append_assoc]
    · refine ⟨c.head :: items, last, .link hc hchain, fun room out => ?_⟩
      rw [writeTail_cons, iha.1]
      refine bind_fitting (q := d.tailDepth ≤ room) ?_ ?_
      · have hlist : (Tree.cons a d).tailDepth = (Tree.cons a d).depth := rfl
        rw [hlist, depth_cons]
        omega
      · rw [htail]
        refine fitting_congr Iff.rfl ?_
        simp [forms, String.push_eq_append, String.append_assoc]

theorem Stands.printWithin_eq (h : s.Stands v t) (room : Nat) :
    s.printWithin room v = t.printWithin room := by
  rw [printWithin, h.write_eq.1, String.empty_append]
  rfl

/-- The place of a cell or a function among all entries, cells first. -/
def place (s : Store) : Value → Option Nat
  | .cell r => some r
  | .closure r => some (s.cells.size + r)
  | _ => none

theorem Stands.place_lt (h : s.Stands v t) {n : Nat} (hn : s.place v = some n) :
    n < s.cells.size + s.closures.size := by
  cases h with
  | cell hc _ _ =>
    cases hn
    have := (Array.getElem?_eq_some_iff.1 hc).1
    omega
  | closure hc _ _ =>
    cases hn
    have := (Array.getElem?_eq_some_iff.1 hc).1
    omega
  | _ => cases hn

theorem Stands.eq_of_place {v' : Value} {t' : Tree} (h : s.Stands v t) (h' : s.Stands v' t')
    {n : Nat} (hn : s.place v = some n) (hn' : s.place v' = some n) : t = t' := by
  have hv : v = v' := by
    cases h with
    | cell hc _ _ =>
      have := (Array.getElem?_eq_some_iff.1 hc).1
      cases hn
      cases h' <;> simp only [place, Option.some.injEq, reduceCtorEq] at hn'
      · rw [hn']
      · omega
    | closure _ _ _ =>
      cases hn
      cases h' with
      | cell hc _ _ =>
        have := (Array.getElem?_eq_some_iff.1 hc).1
        simp only [place, Option.some.injEq] at hn'
        omega
      | closure _ _ _ =>
        simp only [place, Option.some.injEq, Nat.add_left_cancel_iff] at hn'
        rw [hn']
      | _ => cases hn'
    | _ => cases hn
  subst hv
  exact h.unique h'

end Store

def Tree.height : Tree → Nat
  | .cons a d => max a.height d.height + 1
  | .closure p b _ => max p.height b.height + 1
  | _ => 0

theorem Tree.depth_le_height (t : Tree) : t.depth ≤ t.height := by
  induction t with
  | cons a d iha ihd =>
    rw [depth_cons, tailDepth, height]
    split <;> omega
  | closure p b scope ihp _ =>
    rw [depth, height]
    split <;> omega
  | _ => exact Nat.le_refl 0

namespace Store

variable {s : Store} {v : Value} {t : Tree}

theorem Stands.place_of_height (h : s.Stands v t) (ht : t.height ≠ 0) :
    ∃ n, s.place v = some n := by
  cases h with
  | cell _ _ _ => exact ⟨_, rfl⟩
  | closure _ _ _ => exact ⟨_, rfl⟩
  | _ => exact absurd rfl ht

/-- The two parts of a pair or a function, one of which is as high as both. -/
theorem Stands.part_of_height (h : s.Stands v t) {n : Nat} (ht : t.height = n + 1) :
    ∃ v' t', s.Stands v' t' ∧ t'.height = n := by
  have hmax : ∀ {v₁ v₂ : Value} {t₁ t₂ : Tree}, s.Stands v₁ t₁ → s.Stands v₂ t₂ →
      max t₁.height t₂.height + 1 = n + 1 → ∃ v' t', s.Stands v' t' ∧ t'.height = n := by
    intro v₁ v₂ t₁ t₂ h₁ h₂ heq
    rcases Nat.le_total t₁.height t₂.height with hle | hle
    · exact ⟨v₂, t₂, h₂, by omega⟩
    · exact ⟨v₁, t₁, h₁, by omega⟩
  cases h with
  | cell _ ha hd => exact hmax ha hd ht
  | closure _ hp hb => exact hmax hp hb ht
  | _ => cases ht

theorem Stands.height_le (h : s.Stands v t) : t.height ≤ s.cells.size + s.closures.size := by
  rcases Nat.eq_zero_or_pos t.height with hzero | hpos
  · rw [hzero]
    exact Nat.zero_le _
  obtain ⟨n, hn⟩ := h.place_of_height (Nat.ne_of_gt hpos)
  refine rank_le_of_descent
    (fun r n => ∃ v t, s.Stands v t ∧ s.place v = some r ∧ t.height = n) ?_ ?_ ?_
    ⟨v, t, h, hn, rfl⟩
  · rintro r n ⟨v, t, h, hr, _⟩
    exact h.place_lt hr
  · rintro r m n ⟨v, t, h, hr, rfl⟩ ⟨v', t', h', hr', rfl⟩
    rw [h.eq_of_place h' hr hr']
  · rintro r n ⟨v, t, h, _, hn⟩
    obtain ⟨v', t', h', hn'⟩ := h.part_of_height hn
    rcases Nat.eq_zero_or_pos n with hzero | hpos
    · exact .inl hzero
    · obtain ⟨q, hq⟩ := h'.place_of_height (by omega)
      exact .inr ⟨q, v', t', h', hq, hn'⟩

theorem Stands.print_eq (h : s.Stands v t) : s.print v = .ok t.print := by
  have hdepth : t.depth < s.ampleRoom :=
    Nat.lt_succ_of_le (Nat.le_trans t.depth_le_height h.height_le)
  rw [print, h.printWithin_eq, Tree.printWithin, if_pos hdepth]

end Store
end MiniLisp
