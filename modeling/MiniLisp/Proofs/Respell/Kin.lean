import MiniLisp.Proofs.Respell.Spelling
import MiniLisp.Proofs.Tree.Operations

/-!
Values of code that is spelled in two ways.  They are the same trees but for the bodies of functions
(`Tree.Kin`), which no operation looks at, and so are printed alike and taken apart alike from the two
stores they stand in (`Store.Counterpart`).  The second store may have more depth to print in.
-/
set_option autoImplicit false

namespace MiniLisp

open Store

/-- The first result is that of too little depth, or both are related or the same error. -/
def EndsKin {α β : Type} (R : α → β → Prop) : Except Error α → Except Error β → Prop :=
  Faults.deep.Ends R

namespace EndsKin

variable {α β : Type} {R : α → β → Prop}

theorem deep {y : Except Error β} : EndsKin R (.error .recursionTooDeep) y :=
  Faults.Ends.excused rfl

theorem error {e : Error} : EndsKin R (.error e) (.error e) := Faults.Ends.error rfl

theorem report {x y : Except Error String} (h : EndsKin Eq x y) (mk : String → Error) :
    EndsKin R (do throw (mk (← x)) : Except Error α) (do throw (mk (← y))) :=
  Faults.Ends.report h fun _ => rfl

end EndsKin

namespace Tree

/-- The same tree but for how the bodies of functions are spelled.  The functions were made in frames
from `base` on. -/
inductive Kin (base : FrameRef) : Tree → Tree → Prop where
  | nil : Kin base .nil .nil
  | number (x : Double) : Kin base (.number x) (.number x)
  | symbol (name : String) : Kin base (.symbol name) (.symbol name)
  | primitive (p : Primitive) : Kin base (.primitive p) (.primitive p)
  | cons {a a' d d' : Tree} : Kin base a a' → Kin base d d' → Kin base (.cons a d) (.cons a' d')
  | closure {parameters body body' : Datum} {scope : FrameRef} : base ≤ scope →
      body.Respells false body' →
      Kin base (.closure (ofDatum parameters) (ofDatum body) scope)
        (.closure (ofDatum parameters) (ofDatum body') scope)

variable {base : FrameRef} {t t' : Tree}

theorem kin_ofDatum (base : FrameRef) (d : Datum) : Kin base (ofDatum d) (ofDatum d) := by
  induction d with
  | nil => exact .nil
  | number x => exact .number x
  | symbol name => exact .symbol name
  | cons a d iha ihd => exact .cons iha ihd

theorem kin_truth (base : FrameRef) (b : Bool) : Kin base (truth b) (truth b) := by
  cases b with
  | false => exact .nil
  | true => exact .symbol "T"

namespace Kin

theorem eq_nil_iff (h : Kin base t t') : t = .nil ↔ t' = .nil := by cases h <;> simp

theorem isFunction_eq (h : Kin base t t') : t.isFunction = t'.isFunction := by cases h <;> rfl

theorem isList_eq (h : Kin base t t') : t.isList = t'.isList := by cases h <;> rfl

theorem chain (h : Kin base t t') :
    List.Forall₂ (Kin base) t.chain.1 t'.chain.1 ∧ Kin base t.chain.2 t'.chain.2 := by
  induction h with
  | cons ha _ _ ihd => exact ⟨.cons ha ihd.1, ihd.2⟩
  | nil => exact ⟨.nil, .nil⟩
  | number x => exact ⟨.nil, .number x⟩
  | symbol name => exact ⟨.nil, .symbol name⟩
  | primitive p => exact ⟨.nil, .primitive p⟩
  | closure hscope hbody => exact ⟨.nil, .closure hscope hbody⟩

theorem depth_eq (h : Kin base t t') : t.depth = t'.depth := by
  induction h with
  | cons _ hd iha ihd => rw [depth_cons, depth_cons, tailDepth, tailDepth, iha, ihd, hd.isList_eq]
  | _ => rfl

theorem forms_eq (h : Kin base t t') : t.forms = t'.forms := by
  induction h with
  | cons _ _ iha ihd => rw [forms, forms, iha, ihd]
  | _ => rfl

theorem print_eq (h : Kin base t t') : t.print = t'.print := congrArg Prod.fst h.forms_eq

end Kin

end Tree

namespace Store

/-- Values of two stores that are the same but for how the bodies of functions are spelled. -/
def Counterpart (base : FrameRef) (s s' : Store) (v v' : Value) : Prop :=
  ∃ t t', s.Stands v t ∧ s'.Stands v' t' ∧ t.Kin base t'

/-- Code of two stores that differs in how it writes the definitions of functions. -/
def Respelled (s s' : Store) (v v' : Value) : Prop :=
  ∃ d d' : Datum, s.Unfolds v d ∧ s'.Unfolds v' d' ∧ d.Respells false d'

def Twin (s s' : Store) (v v' : Value) : Prop := ∃ d, s.Unfolds v d ∧ s'.Unfolds v' d

inductive Facing (base : FrameRef) (s s' : Store) : Value → Value → Prop where
  | nil : s.Facing base s' .nil .nil
  | number (x : Double) : s.Facing base s' (.number x) (.number x)
  | symbol (name : String) : s.Facing base s' (.symbol name) (.symbol name)
  | primitive (p : Primitive) (serial serial' : Nat) :
      s.Facing base s' (.primitive p serial) (.primitive p serial')
  | cell {r r' : CellRef} {c c' : Cell} : s.cells[r]? = some c → s'.cells[r']? = some c' →
      s.Counterpart base s' c.head c'.head → s.Counterpart base s' c.tail c'.tail →
      s.Facing base s' (.cell r) (.cell r')
  | closure {r r' : ClosureRef} {c c' : Closure} : s.closures[r]? = some c →
      s'.closures[r']? = some c' → s.Twin s' c.parameters c'.parameters →
      s.Respelled s' c.body c'.body → c.scope = c'.scope → base ≤ c.scope →
      s.Facing base s' (.closure r) (.closure r')

variable {base : FrameRef} {s s' t t' : Store} {v v' : Value}

theorem Stands.unfolds {d : Datum} (h : s.Stands v (.ofDatum d)) : s.Unfolds v d := by
  induction d generalizing v with
  | nil =>
    cases h
    exact .nil
  | number x =>
    cases h
    exact .number x
  | symbol name =>
    cases h
    exact .symbol name
  | cons a d iha ihd =>
    cases h with
    | cell hc ha hd => exact .cell hc (iha ha) (ihd hd)

theorem Stands.eq_closure {p b : Tree} {scope : FrameRef} (h : s.Stands v (.closure p b scope)) :
    ∃ r c, v = .closure r ∧ s.closures[r]? = some c ∧ s.Stands c.parameters p ∧
      s.Stands c.body b ∧ c.scope = scope := by
  cases h with
  | closure hc hp hb => exact ⟨_, _, rfl, hc, hp, hb, rfl⟩

theorem Counterpart.facing (h : s.Counterpart base s' v v') : s.Facing base s' v v' := by
  obtain ⟨u, u', hv, hv', hu⟩ := h
  cases hu with
  | nil =>
    cases hv
    cases hv'
    exact .nil
  | number x =>
    cases hv
    cases hv'
    exact .number x
  | symbol name =>
    cases hv
    cases hv'
    exact .symbol name
  | primitive p =>
    cases hv
    cases hv'
    exact .primitive p _ _
  | cons ha hd =>
    cases hv with
    | cell hc hva hvd =>
      cases hv' with
      | cell hc' hva' hvd' => exact .cell hc hc' ⟨_, _, hva, hva', ha⟩ ⟨_, _, hvd, hvd', hd⟩
  | closure hbase hbody =>
    obtain ⟨r, c, rfl, hc, hp, hb, hscope⟩ := hv.eq_closure
    obtain ⟨r', c', rfl, hc', hp', hb', hscope'⟩ := hv'.eq_closure
    exact .closure hc hc' ⟨_, hp.unfolds, hp'.unfolds⟩ ⟨_, _, hb.unfolds, hb'.unfolds, hbody⟩
      (hscope.trans hscope'.symm) (hscope ▸ hbase)

theorem Twin.respelled (h : s.Twin s' v v') : s.Respelled s' v v' := by
  obtain ⟨d, hv, hv'⟩ := h
  exact ⟨d, d, hv, hv', d.respells_refl false⟩

theorem Twin.counterpart (h : s.Twin s' v v') : s.Counterpart base s' v v' := by
  obtain ⟨d, hv, hv'⟩ := h
  exact ⟨_, _, hv.stands, hv'.stands, Tree.kin_ofDatum base d⟩

theorem Respelled.mono (h : s.Respelled s' v v') (hk : s.Retains t) (hk' : s'.Retains t') :
    t.Respelled t' v v' := by
  obtain ⟨d, d', hv, hv', hd⟩ := h
  exact ⟨d, d', hv.mono hk.cells, hv'.mono hk'.cells, hd⟩

namespace Counterpart

theorem mono (h : s.Counterpart base s' v v') (hk : s.Retains t) (hk' : s'.Retains t') :
    t.Counterpart base t' v v' := by
  obtain ⟨u, u', hv, hv', hu⟩ := h
  exact ⟨u, u', hv.mono hk, hv'.mono hk', hu⟩

theorem eq_nil_iff (h : s.Counterpart base s' v v') : v = .nil ↔ v' = .nil := by
  obtain ⟨u, u', hv, hv', hu⟩ := h
  rw [hv.eq_nil_iff, hv'.eq_nil_iff, hu.eq_nil_iff]

theorem isFunction_eq (h : s.Counterpart base s' v v') : v.isFunction = v'.isFunction := by
  obtain ⟨u, u', hv, hv', hu⟩ := h
  rw [hv.isFunction_eq, hv'.isFunction_eq, hu.isFunction_eq]

theorem isAtomic_eq (h : s.Counterpart base s' v v') :
    Primitive.isAtomic v = Primitive.isAtomic v' := by
  cases h.facing <;> rfl

theorem isEq_eq {w w' : Value} (h : s.Counterpart base s' v v') (hw : s.Counterpart base s' w w') :
    Primitive.isEq v w = Primitive.isEq v' w' := by
  cases h.facing <;> cases hw.facing <;> rfl

theorem print (h : s.Counterpart base s' v v') :
    ∃ text, s.print v = .ok text ∧ s'.print v' = .ok text := by
  obtain ⟨u, u', hv, hv', hu⟩ := h
  exact ⟨u.print, hv.print_eq, hu.print_eq ▸ hv'.print_eq⟩

theorem symbol (name : String) : s.Counterpart base s' (.symbol name) (.symbol name) :=
  ⟨_, _, .symbol name, .symbol name, .symbol name⟩

theorem number (x : Double) : s.Counterpart base s' (.number x) (.number x) :=
  ⟨_, _, .number x, .number x, .number x⟩

theorem nil : s.Counterpart base s' .nil .nil := ⟨_, _, .nil, .nil, .nil⟩

theorem truth (b : Bool) : s.Counterpart base s' (.truth b) (.truth b) :=
  ⟨_, _, stands_truth b, stands_truth b, Tree.kin_truth base b⟩

theorem forall_of_stands {vs vs' : List Value} {ts ts' : List Tree}
    (h : List.Forall₂ s.Stands vs ts) (h' : List.Forall₂ s'.Stands vs' ts')
    (hk : List.Forall₂ (Tree.Kin base) ts ts') :
    List.Forall₂ (s.Counterpart base s') vs vs' := by
  induction hk generalizing vs vs' with
  | nil =>
    cases h
    cases h'
    exact .nil
  | cons hk _ ih =>
    cases h with
    | cons hv hvs =>
      cases h' with
      | cons hv' hvs' => exact .cons ⟨_, _, hv, hv', hk⟩ (ih hvs hvs')

theorem chain (h : s.Counterpart base s' v v') : ∃ items last items' last',
    s.Chain v items last ∧ s'.Chain v' items' last' ∧
      List.Forall₂ (s.Counterpart base s') items items' ∧ s.Counterpart base s' last last' := by
  obtain ⟨u, u', hv, hv', hu⟩ := h
  obtain ⟨items, last, hchain, hitems, hlast⟩ := hv.chain
  obtain ⟨items', last', hchain', hitems', hlast'⟩ := hv'.chain
  obtain ⟨hkin, hend⟩ := hu.chain
  exact ⟨items, last, items', last', hchain, hchain', forall_of_stands hitems hitems' hkin,
    ⟨_, _, hlast, hlast', hend⟩⟩

section

variable {room room' : Nat} (hroom : room ≤ room')

include hroom

theorem endsKin_print (h : s.Counterpart base s' v v') :
    EndsKin Eq (s.printWithin room v) (s'.printWithin room' v') := by
  obtain ⟨u, u', hv, hv', hu⟩ := h
  rw [hv.printWithin_eq, hv'.printWithin_eq, Tree.printWithin, Tree.printWithin, hu.depth_eq,
    hu.print_eq]
  by_cases hdepth : u'.depth < room
  · rw [if_pos hdepth, if_pos (Nat.lt_of_lt_of_le hdepth hroom)]
    exact .ok rfl
  · rw [if_neg hdepth]
    exact .deep

theorem endsKin_display (h : s.Counterpart base s' v v') :
    EndsKin Eq (s.displayWithin room v) (s'.displayWithin room' v') := by
  have hprint := h.endsKin_print hroom
  cases h.facing with
  | number x => exact .ok rfl
  | _ => exact hprint

theorem endsKin_number (h : s.Counterpart base s' v v') (operation : String) :
    EndsKin Eq (s.number room operation v) (s'.number room' operation v') := by
  have hprint := h.endsKin_print hroom
  cases h.facing with
  | number x => exact .ok rfl
  | _ => exact hprint.report _

theorem endsKin_elements (h : s.Counterpart base s' v v') (operation : String) :
    EndsKin (List.Forall₂ (s.Counterpart base s')) (s.elements room operation v)
      (s'.elements room' operation v') := by
  have hprint := h.endsKin_print hroom
  obtain ⟨items, last, items', last', hchain, hchain', hitems, hlast⟩ := h.chain
  have hlist : EndsKin (List.Forall₂ (s.Counterpart base s'))
      (if last = .nil then .ok items
        else (do throw (.notProperList operation (← s.printWithin room v))))
      (if last' = .nil then .ok items'
        else (do throw (.notProperList operation (← s'.printWithin room' v')))) := by
    by_cases hl : last = .nil
    · rw [if_pos hl, if_pos (hlast.eq_nil_iff.1 hl)]
      exact .ok hitems
    · rw [if_neg hl, if_neg (mt hlast.eq_nil_iff.2 hl)]
      exact hprint.report _
  cases h.facing with
  | nil =>
    rw [elements_of_chain hchain.chain_eq (.inl rfl), elements_of_chain hchain'.chain_eq (.inl rfl)]
    exact hlist
  | cell =>
    rw [elements_of_chain hchain.chain_eq (.inr ⟨_, rfl⟩), elements_of_chain hchain'.chain_eq (.inr ⟨_, rfl⟩)]
    exact hlist
  | _ => exact hprint.report _

theorem endsKin_parameterName (h : s.Counterpart base s' v v') :
    EndsKin Eq (Eval.parameterName s room v) (Eval.parameterName s' room' v') := by
  have hdisplay := h.endsKin_display hroom
  cases h.facing with
  | symbol name => exact .ok rfl
  | _ => exact hdisplay.report _

theorem endsKin_formals {c c' : Closure} (h : s.Counterpart base s' c.parameters c'.parameters) :
    EndsKin Eq (s.formals room c.parameters) (s'.formals room' c'.parameters) := by
  obtain ⟨items, last, items', last', hchain, hchain', hitems, hlast⟩ := h.chain
  by_cases hl : last = .nil
  · obtain rfl := hl
    obtain rfl := hlast.eq_nil_iff.1 rfl
    rw [Eval.formals_of_lists room hchain, Eval.formals_of_lists room' hchain']
    exact .mapM_eq hitems fun _ _ h => h.endsKin_parameterName hroom
  · rw [Eval.formals_improper room hchain.chain_eq hl,
      Eval.formals_improper room' hchain'.chain_eq (mt hlast.eq_nil_iff.2 hl)]
    exact (h.endsKin_display hroom).report _

end

end Counterpart

end Store

end MiniLisp
