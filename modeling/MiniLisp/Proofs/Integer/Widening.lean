import MiniLisp.Proofs.Eval.Abreast
import MiniLisp.Proofs.Eval.Raised
import MiniLisp.Proofs.Rename.Reading

/-!
A host's integers as numbers.  Widening turns every integer of a value or a store into the number
nearest to it, unless that would be infinite.  What is read from a widened store is what is read
from the store itself, widened, and what is printed is the same (`write_widen`); only an error that
shows a parameter as the host does tells the two apart (`endsWidened_formals`).
-/
set_option autoImplicit false

namespace MiniLisp

open Store

/-- An integer as the nearest number, if that is finite. -/
def Value.widen : Value → Value
  | integer i => (Double.ofInt? i).elim (integer i) number
  | v => v

def Cell.widen (c : Cell) : Cell := ⟨c.head.widen, c.tail.widen⟩

def Closure.widen (c : Closure) : Closure := ⟨c.parameters.widen, c.body.widen, c.scope⟩

def Frame.widen (f : Frame) : Frame := ⟨f.bindings.map (fun b => (b.1, b.2.widen)), f.outer⟩

def Store.widen (s : Store) : Store :=
  { s with
    cells := s.cells.map Cell.widen
    closures := s.closures.map Closure.widen
    frames := s.frames.map Frame.widen }

theorem ofInteger_of_some {i : Int} {x : Double} (h : Double.ofInt? i = some x) :
    Double.ofInteger i = .ok x := by
  rw [ofInteger_eq, h, Option.elim_some]

/-- The error with nothing for the parameter that it shows. -/
def Error.withoutParameter : Error → Error
  | improperParameters _ => improperParameters ""
  | parameterNotSymbol _ => parameterNotSymbol ""
  | e => e

theorem Error.kind?_withoutParameter (e : Error) : e.withoutParameter.kind? = e.kind? := by
  cases e <;> rfl

def Faults.parameters : Faults :=
  ⟨fun e e' => e'.withoutParameter = e.withoutParameter, fun _ => False⟩

/-- The second result is the first through `f`, or both are one error but for the parameter that it
shows. -/
def EndsWidened {α β : Type} (f : α → β) : Except Error α → Except Error β → Prop :=
  Faults.parameters.Ends fun a b => f a = b

namespace EndsWidened

variable {α β γ δ : Type} {f : α → β} {g : γ → δ}

theorem ok (a : α) : EndsWidened f (.ok a) (.ok (f a)) := Faults.Ends.ok rfl

theorem bind {x : Except Error α} {y : Except Error β} {k : α → Except Error γ}
    {l : β → Except Error δ} (h : EndsWidened f x y) (hk : ∀ a, EndsWidened g (k a) (l (f a))) :
    EndsWidened g (x >>= k) (y >>= l) :=
  Faults.Ends.bind h fun a _ hab => hab ▸ hk a

theorem of_map {x : Except Error α} {y : Except Error β} (h : y = x.map f) : EndsWidened f x y := by
  subst h
  cases x with
  | ok a => exact .ok a
  | error e => exact .error rfl

theorem mapM {p : α → β} {k : α → Except Error γ} {l : β → Except Error γ}
    (h : ∀ a, EndsWidened id (k a) (l (p a))) (xs : List α) :
    EndsWidened id (xs.mapM k) ((xs.map p).mapM l) :=
  Faults.Ends.mapM_eq (forall₂_apply_iff.2 rfl) fun a _ hab => hab ▸ h a

end EndsWidened

namespace Value

theorem widen_cases (v : Value) :
    v.widen = v ∨ ∃ i x, Double.ofInt? i = some x ∧ v = .integer i ∧ v.widen = .number x := by
  cases v with
  | integer i =>
    cases hi : Double.ofInt? i with
    | none =>
      refine .inl ?_
      rw [widen, hi, Option.elim_none]
    | some x =>
      refine .inr ⟨i, x, hi, rfl, ?_⟩
      rw [widen, hi, Option.elim_some]
  | _ => exact .inl rfl

theorem widen_widen (v : Value) : v.widen.widen = v.widen := by
  rcases v.widen_cases with h | ⟨i, x, _, _, h⟩
  · rw [h, h]
  · rw [h, widen.eq_def]

theorem widen_eq_nil_iff {v : Value} : v.widen = .nil ↔ v = .nil := by
  rcases v.widen_cases with h | ⟨i, x, _, rfl, h⟩
  · rw [h]
  · simp [h]

theorem widen_eq_symbol_iff {v : Value} {name : String} :
    v.widen = .symbol name ↔ v = .symbol name := by
  rcases v.widen_cases with h | ⟨i, x, _, rfl, h⟩
  · rw [h]
  · simp [h]

theorem widen_eq_cell_iff {v : Value} {r : CellRef} : v.widen = .cell r ↔ v = .cell r := by
  rcases v.widen_cases with h | ⟨i, x, _, rfl, h⟩
  · rw [h]
  · simp [h]

theorem isFunction_widen (v : Value) : v.widen.isFunction = v.isFunction := by
  rcases v.widen_cases with h | ⟨i, x, _, rfl, h⟩
  · rw [h]
  · rw [h]
    rfl

end Value

namespace Store

variable (s : Store)

theorem cell_widen (r : CellRef) : s.widen.cells[r]? = s.cells[r]?.map Cell.widen :=
  Array.getElem?_map

theorem closure_widen (r : ClosureRef) :
    s.widen.closures[r]? = s.closures[r]?.map Closure.widen := Array.getElem?_map

theorem frame_widen (r : FrameRef) : s.widen.frames[r]? = s.frames[r]?.map Frame.widen :=
  Array.getElem?_map

theorem chainFrom_atom {v : Value} (h : ∀ r, v ≠ .cell r) (fuel : Nat) (items : List Value) :
    s.chainFrom fuel v items = (items.reverse, v) := by
  cases fuel with
  | zero => rw [chainFrom]; simp
  | succ fuel => cases v <;> first | rfl | exact absurd rfl (h _)

theorem chainFrom_widen (fuel : Nat) (v : Value) (items : List Value) :
    s.widen.chainFrom fuel v.widen (items.map Value.widen) =
      ((s.chainFrom fuel v items).1.map Value.widen, (s.chainFrom fuel v items).2.widen) := by
  induction fuel generalizing v items with
  | zero => simp only [chainFrom, List.map_reverse]
  | succ fuel ih =>
    by_cases hv : ∃ r, v = .cell r
    · obtain ⟨r, rfl⟩ := hv
      rw [Value.widen.eq_def, chainFrom, chainFrom, cell_widen]
      cases s.cells[r]? with
      | none => simp only [Option.map_none, List.map_reverse, Value.widen.eq_def]
      | some c => exact ih c.tail (c.head :: items)
    · have hv : ∀ r, v ≠ .cell r := fun r h => hv ⟨r, h⟩
      have hv' : ∀ r, v.widen ≠ .cell r := fun r => mt Value.widen_eq_cell_iff.1 (hv r)
      rw [chainFrom_atom s hv, chainFrom_atom s.widen hv', List.map_reverse]

theorem chain_widen (v : Value) :
    s.widen.chain v.widen = ((s.chain v).1.map Value.widen, (s.chain v).2.widen) := by
  have hsize : s.widen.cells.size = s.cells.size := Array.size_map
  rw [chain, chain, hsize]
  exact chainFrom_widen s _ v []

theorem write_widen (room : Nat) (v : Value) (out : String) :
    s.widen.write room v.widen out = s.write room v out := by
  induction room generalizing v out with
  | zero => rfl
  | succ room ih =>
    rcases v.widen_cases with hv | ⟨i, x, hi, rfl, hv⟩
    · rw [hv]
      cases v with
      | closure r =>
        rw [write, write, closure_widen]
        cases s.closures[r]? with
        | none => rfl
        | some c =>
          simp only [Option.map_some, Closure.widen, Value.widen_eq_nil_iff, ih]
      | cell r =>
        have hchain := s.chain_widen (.cell r)
        rw [hv] at hchain
        rw [write, write, hchain]
        rcases hitems : s.chain (.cell r) with ⟨_ | ⟨first, rest⟩, last⟩
        · rfl
        · have hrest : ∀ out, (rest.map Value.widen).foldlM
              (fun out x => s.widen.write room x (out.push ' ')) out =
              rest.foldlM (fun out x => s.write room x (out.push ' ')) out :=
            foldlM_same fun x _ out => ih x _
          simp only [List.map_cons, Value.widen_eq_nil_iff, ih, hrest]
      | _ => rfl
    · rw [hv, write, write, ofInteger_of_some hi]
      rfl

theorem printWithin_widen (room : Nat) (v : Value) :
    s.widen.printWithin room v.widen = s.printWithin room v := s.write_widen room v ""

theorem ampleRoom_widen : s.widen.ampleRoom = s.ampleRoom := by
  rw [ampleRoom, ampleRoom, widen, Array.size_map, Array.size_map]

theorem print_widen (v : Value) : s.widen.print v.widen = s.print v := by
  rw [print, ampleRoom_widen, printWithin_widen, print]

theorem number_widen (room : Nat) (operation : String) (v : Value) :
    s.widen.number room operation v.widen = s.number room operation v := by
  rcases v.widen_cases with hv | ⟨i, x, hi, rfl, hv⟩
  · have hprint := s.printWithin_widen room v
    rw [hv] at hprint ⊢
    cases v with
    | number x => rfl
    | integer i => rfl
    | _ => exact report_same _ hprint
  · rw [hv, number, number, ofInteger_of_some hi]

theorem elements_widen (room : Nat) (operation : String) (v : Value) :
    s.widen.elements room operation v.widen =
      (s.elements room operation v).map (List.map Value.widen) := by
  have hreport : ∀ mk : String → Error,
      (do throw (mk (← s.widen.printWithin room v.widen)) : Except Error (List Value)) =
        (do throw (mk (← s.printWithin room v)) : Except Error (List Value)).map
          (List.map Value.widen) :=
    fun mk => report_follows mk (s.printWithin_widen room v) _
  by_cases hv : v = .nil ∨ ∃ r, v = .cell r
  · have hv' : v.widen = .nil ∨ ∃ r, v.widen = .cell r := by
      simpa only [Value.widen_eq_nil_iff, Value.widen_eq_cell_iff] using hv
    have hchain : s.chain v = ((s.chain v).1, (s.chain v).2) := rfl
    rw [elements_of_chain hchain hv, elements_of_chain (s.chain_widen v) hv']
    by_cases hl : (s.chain v).2 = .nil
    · rw [if_pos hl, if_pos (Value.widen_eq_nil_iff.2 hl)]
      rfl
    · rw [if_neg hl, if_neg (mt Value.widen_eq_nil_iff.1 hl)]
      exact hreport (.notProperList operation)
  · rcases v.widen_cases with hw | ⟨i, x, _, rfl, hw⟩
    · rw [hw] at hreport ⊢
      cases v with
      | nil => exact absurd (.inl rfl) hv
      | cell r => exact absurd (.inr ⟨r, rfl⟩) hv
      | _ => exact hreport (.notList operation)
    · rw [hw] at hreport ⊢
      exact hreport (.notList operation)

/-- A host shows an integer and the number in its place otherwise. -/
theorem displayWithin_widen (room : Nat) (v : Value) :
    s.widen.displayWithin room v.widen = s.displayWithin room v ∨
      (∃ a, s.displayWithin room v = .ok a) ∧ ∃ b, s.widen.displayWithin room v.widen = .ok b := by
  rcases v.widen_cases with hv | ⟨i, x, _, rfl, hv⟩
  · have hprint := s.printWithin_widen room v
    rw [hv] at hprint ⊢
    cases v with
    | number x => exact .inl rfl
    | integer i => exact .inl rfl
    | _ => exact .inl hprint
  · rw [hv]
    exact .inr ⟨⟨_, rfl⟩, _, rfl⟩

theorem endsWidened_display {α : Type} {mk : String → Error}
    (hmk : ∀ a b, (mk a).withoutParameter = (mk b).withoutParameter) (room : Nat) (v : Value) :
    EndsWidened id (do throw (mk (← s.displayWithin room v)) : Except Error α)
      (do throw (mk (← s.widen.displayWithin room v.widen))) := by
  rcases s.displayWithin_widen room v with h | ⟨⟨a, ha⟩, b, hb⟩
  · rw [h]
    cases s.displayWithin room v <;> exact .error rfl
  · rw [ha, hb]
    exact .error (hmk b a)

theorem endsWidened_parameterName (room : Nat) (p : Value) :
    EndsWidened id (Eval.parameterName s room p) (Eval.parameterName s.widen room p.widen) := by
  have hreport : EndsWidened id
      (do throw (.parameterNotSymbol (← s.displayWithin room p)) : Except Error String)
      (do throw (.parameterNotSymbol (← s.widen.displayWithin room p.widen))) :=
    s.endsWidened_display (fun _ _ => rfl) room p
  rcases p.widen_cases with hp | ⟨i, x, _, rfl, hp⟩
  · rw [hp] at hreport ⊢
    cases p with
    | symbol name => exact .ok name
    | _ => exact hreport
  · rw [hp] at hreport ⊢
    exact hreport

theorem endsWidened_formals (room : Nat) (v : Value) :
    EndsWidened id (s.formals room v) (s.widen.formals room v.widen) := by
  rcases hc : s.chain v with ⟨items, last⟩
  have hc' := s.chain_widen v
  rw [hc] at hc'
  by_cases hl : last = .nil
  · subst hl
    rw [Eval.formals_of_lists room (lists_iff_chain_eq.2 hc),
      Eval.formals_of_lists room (lists_iff_chain_eq.2 hc')]
    exact .mapM (s.endsWidened_parameterName room) items
  · rw [Eval.formals_improper room hc hl,
      Eval.formals_improper room hc' (mt Value.widen_eq_nil_iff.1 hl)]
    exact s.endsWidened_display (fun _ _ => rfl) room v

end Store

namespace Frame

theorem widen_define (f : Frame) (name : String) (v : Value) :
    (f.define name v).widen = f.widen.define name v.widen :=
  congrArg (Frame.mk · f.outer) (put_map Value.widen name v f.bindings)

theorem widen_update (f : Frame) (vars : List (String × Value)) :
    (f.update vars).widen = f.widen.update (vars.map (fun x => (x.1, x.2.widen))) :=
  update_map Value.widen widen_define f vars

theorem get?_widen (f : Frame) (name : String) :
    f.widen.get? name = (f.get? name).map Value.widen :=
  lookup_map Value.widen f.bindings name

end Frame

namespace Store

variable (s : Store)

theorem endsWidened_callFrame (room : Nat) (c : Closure) (args : List Value) :
    EndsWidened Frame.widen (s.callFrame room c args)
      (s.widen.callFrame room c.widen (args.map Value.widen)) := by
  unfold callFrame
  refine (s.endsWidened_formals room c.parameters).bind fun names => ?_
  have hzip : (names.zip args).map (fun x => (x.1, x.2.widen)) = names.zip (args.map Value.widen) :=
    List.zip_map_right.symm
  have hframe := Frame.widen_update ⟨[], some c.scope⟩ (names.zip args)
  rw [hzip] at hframe
  simp only [id, List.length_map]
  split
  · exact .error rfl
  · exact .of_map (congrArg Except.ok hframe.symm)

theorem lookup_widen (r : FrameRef) (name : String) :
    s.widen.lookup r name = (s.lookup r name).map Value.widen := by
  -- An outer frame is older, so the induction is on its age.
  induction r using Nat.strongRecOn with
  | ind r ih =>
    rw [lookup_eq, lookup_eq s, frame_widen]
    cases s.frames[r]? with
    | none => rfl
    | some f =>
      simp only [Option.map_some, Frame.get?_widen]
      rw [show f.widen.outer = f.outer from rfl]
      cases f.get? name with
      | some v => rfl
      | none =>
        cases f.outer with
        | none => rfl
        | some o =>
          by_cases hlt : o < r
          · simp only [Option.map_none, if_pos hlt, ih o hlt]
          · simp only [Option.map_none, if_neg hlt]
            rfl

section

variable (a d v : Value)

theorem widen_cons :
    s.widen.cons a.widen d.widen = ((s.cons a d).1.widen, (s.cons a d).2.widen) := by
  simp only [cons, widen, Array.size_map, Array.map_push]
  rfl

theorem widen_setCell (r : CellRef) (c : Cell) :
    s.widen.setCell r c.widen = (s.setCell r c).widen := by
  simp only [setCell, widen, Array.map_setIfInBounds]

theorem widen_addClosure (c : Closure) :
    s.widen.addClosure c.widen = ((s.addClosure c).1, (s.addClosure c).2.widen) := by
  simp only [addClosure, widen, Array.size_map, Array.map_push]

theorem widen_addFrame (f : Frame) :
    s.widen.addFrame f.widen = ((s.addFrame f).1, (s.addFrame f).2.widen) := by
  simp only [addFrame, widen, Array.size_map, Array.map_push]

theorem widen_define (r : FrameRef) (name : String) :
    s.widen.define r name v.widen = (s.define r name v).widen := by
  have hframes : (s.frames.map Frame.widen).modify r (·.define name v.widen) =
      (s.frames.modify r (·.define name v)).map Frame.widen := by
    refine Array.ext_getElem? fun q => ?_
    rw [Array.getElem?_modify, Array.getElem?_map, Array.getElem?_map, Array.getElem?_modify]
    split
    · rw [Option.map_map, Option.map_map]
      refine congrArg (Option.map · _) (funext fun f => ?_)
      exact (f.widen_define name v).symm
    · rfl
  simp only [define, widen, hframes]

theorem widen_record (e : Event) : s.widen.record e = (s.record e).widen := rfl

end

end Store

namespace Primitive

theorem isEq_integer_left {i : Int} {x : Double} (h : Double.ofInt? i = some x) (b : Value) :
    isEq (.integer i) b = isEq (.number x) b := by
  cases b with
  | number y =>
    rw [isEq, isEq, ofInteger_of_some h]
    exact pure_bind x _
  | integer j =>
    rw [isEq, isEq, ofInteger_of_some h]
    exact pure_bind x _
  | _ => rfl

theorem isEq_integer_right {j : Int} {y : Double} (h : Double.ofInt? j = some y) (a : Value) :
    isEq a (.integer j) = isEq a (.number y) := by
  cases a with
  | number x =>
    rw [isEq, isEq, ofInteger_of_some h]
    rfl
  | integer i =>
    rw [isEq, isEq, ofInteger_of_some h]
    rfl
  | _ => rfl

theorem isEq_widen (a b : Value) : isEq a.widen b.widen = isEq a b := by
  have hleft : isEq a.widen b.widen = isEq a b.widen := by
    rcases a.widen_cases with ha | ⟨i, x, hi, rfl, ha⟩
    · rw [ha]
    · rw [ha, isEq_integer_left hi]
  rw [hleft]
  rcases b.widen_cases with hb | ⟨j, y, hj, rfl, hb⟩
  · rw [hb]
  · rw [hb, isEq_integer_right hj]

theorem isAtomic_widen (v : Value) : isAtomic v.widen = isAtomic v := by
  rcases v.widen_cases with h | ⟨i, x, _, rfl, h⟩
  · rw [h]
  · rw [h]
    rfl

end Primitive

end MiniLisp
