import MiniLisp.Proofs.Number.Operations
import Mathlib.Data.List.Chain
import Mathlib.Data.List.Pairwise

/-!
Comparisons of several arguments.  Each looks at few pairs only, neighbours or the first argument
and another one, but its relation passes on from pair to pair, so that it answers for all of them
(`run_comparison`).  Hence the arguments may be reversed for the opposite comparison, left out or,
where they are to be equal, put into another order (`comparison_of_all_pairs`).
-/
set_option autoImplicit false

namespace MiniLisp

open Store MiniLisp.Action

namespace Value

/-- The number that an argument stands for, which for an integer is the nearest one. -/
def double? : Value → Option Double
  | number x => some x
  | integer i => Double.ofInt? i
  | _ => none

/-- Its place on the line of numbers.  Both zeros share one, and NaN has none. -/
def place? (v : Value) : Option Int := v.double?.bind Double.position?

theorem truth_eq_symbol {b : Bool} : truth b = .symbol "T" ↔ b = true := by
  cases b <;> simp [truth]

end Value

namespace Comparison

def order : Comparison → Int → Int → Prop
  | eq, i, j => i = j
  | lt, i, j => i < j
  | gt, i, j => j < i
  | le, i, j => i ≤ j
  | ge, i, j => j ≤ i

instance : (op : Comparison) → (i j : Int) → Decidable (op.order i j)
  | eq, i, j => inferInstanceAs (Decidable (i = j))
  | lt, i, j => inferInstanceAs (Decidable (i < j))
  | gt, i, j => inferInstanceAs (Decidable (j < i))
  | le, i, j => inferInstanceAs (Decidable (i ≤ j))
  | ge, i, j => inferInstanceAs (Decidable (j ≤ i))

/-- NaN stands in no relation, not even to itself. -/
def Relates (op : Comparison) (a b : Value) : Prop := ∃ i ∈ a.place?, ∃ j ∈ b.place?, op.order i j

instance (op : Comparison) (a b : Value) : Decidable (op.Relates a b) :=
  inferInstanceAs (Decidable (∃ i ∈ a.place?, ∃ j ∈ b.place?, op.order i j))

def test : Comparison → Double → Double → Bool
  | eq, x, y => x.eq y
  | lt, x, y => x.lt y
  | gt, x, y => y.lt x
  | le, x, y => x.le y
  | ge, x, y => y.le x

variable {op : Comparison} {a b c : Value} {xs : List Double}

theorem test_eq_true {x y : Double} :
    op.test x y = true ↔ op.Relates (.number x) (.number y) := by
  have hplaces : op.test x y = Double.compare (fun i j => decide (op.order i j)) x y := by
    cases op <;> simp only [test, order, Double.eq, Double.lt, Double.le, Double.compare] <;>
      cases x.position? <;> cases y.position? <;> rfl
  rw [hplaces, Double.compare]
  change _ ↔ ∃ i ∈ x.position?, ∃ j ∈ y.position?, op.order i j
  cases x.position? <;> cases y.position? <;> simp

theorem Relates.trans (h : op.Relates a b) (h' : op.Relates b c) : op.Relates a c := by
  obtain ⟨i, hi, j, hj, hij⟩ := h
  obtain ⟨j', hj', k, hk, hjk⟩ := h'
  obtain rfl := Option.mem_unique hj hj'
  refine ⟨i, hi, k, hk, ?_⟩
  cases op <;> simp only [order] at hij hjk ⊢ <;> omega

theorem Relates.symm (h : eq.Relates a b) : eq.Relates b a := by
  obtain ⟨i, hi, j, hj, hij⟩ := h
  exact ⟨j, hj, i, hi, hij.symm⟩

theorem Relates.le_of_lt (h : lt.Relates a b) : le.Relates a b := by
  obtain ⟨i, hi, j, hj, hij⟩ := h
  exact ⟨i, hi, j, hj, Int.le_of_lt hij⟩

theorem relates_eq_iff : eq.Relates a b ↔ le.Relates a b ∧ ge.Relates a b := by
  constructor
  · rintro ⟨i, hi, j, hj, hij⟩
    exact ⟨⟨i, hi, j, hj, Int.le_of_eq hij⟩, ⟨i, hi, j, hj, Int.le_of_eq hij.symm⟩⟩
  · rintro ⟨⟨i, hi, j, hj, hij⟩, i', hi', j', hj', hji⟩
    obtain rfl := Option.mem_unique hi hi'
    obtain rfl := Option.mem_unique hj hj'
    exact ⟨i, hi, j, hj, Int.le_antisymm hij hji⟩

theorem relates_reversed :
    (gt.Relates a b ↔ lt.Relates b a) ∧ (ge.Relates a b ↔ le.Relates b a) := by
  refine ⟨?_, ?_⟩ <;> constructor <;> rintro ⟨i, hi, j, hj, hij⟩ <;> exact ⟨j, hj, i, hi, hij⟩

theorem pairwise_relates_congr {vs ws : List Value}
    (h : vs.map Value.place? = ws.map Value.place?) :
    vs.Pairwise op.Relates ↔ ws.Pairwise op.Relates := by
  have hplaces (us : List Value) : us.Pairwise op.Relates ↔ (us.map Value.place?).Pairwise
      (fun p q => ∃ i ∈ p, ∃ j ∈ q, op.order i j) := by
    rw [List.pairwise_map]
    exact Iff.rfl
  rw [hplaces, hplaces, h]

theorem adjacent_eq_true {test : Double → Double → Bool} :
    adjacent test xs = true ↔ xs.IsChain (fun x y => test x y = true) := by
  fun_induction adjacent test xs with
  | case1 x y rest ih => rw [Bool.and_eq_true, ih, List.isChain_cons_cons]
  | case2 xs h =>
    cases xs with
    | nil => simp
    | cons x rest =>
      cases rest with
      | nil => simp
      | cons y rest => exact absurd rfl (h x y rest)

theorem holds_eq_adjacent (h : op ≠ eq) (xs : List Double) :
    op.holds xs = adjacent op.test xs := by
  cases op with
  | eq => exact absurd rfl h
  | _ => rfl

/-- What all have in common with the first they have in common with each other. -/
theorem holds_eq_cons (x : Double) (rest : List Double) : eq.holds (x :: rest) = true ↔
    ((x :: rest).map .number).Pairwise eq.Relates := by
  have htest : eq.holds (x :: rest) = true ↔
      ∀ z ∈ rest, eq.Relates (.number z) (.number x) := by
    simp only [← test_eq_true]
    exact List.all_eq_true
  rw [htest, List.pairwise_map, List.pairwise_cons]
  constructor
  · intro hall
    refine ⟨fun z hz => (hall z hz).symm, ?_⟩
    exact List.pairwise_of_forall_mem_list fun v hv w hw => (hall v hv).trans (hall w hw).symm
  · intro hpairs z hz
    exact (hpairs.1 z hz).symm

theorem holds_eq_true (op : Comparison) (xs : List Double) :
    op.holds xs = true ↔ (xs.map .number).Pairwise op.Relates := by
  by_cases hop : op = eq
  · subst hop
    cases xs with
    | nil => exact iff_of_true rfl .nil
    | cons x rest => exact holds_eq_cons x rest
  · have : Trans op.Relates op.Relates op.Relates := ⟨Relates.trans⟩
    rw [holds_eq_adjacent hop, adjacent_eq_true, ← List.isChain_iff_pairwise, List.isChain_map]
    simp only [test_eq_true]

end Comparison

namespace Store

variable {s : Store} {args : List Value} {xs : List Double}

theorem number_eq_ok {room : Nat} {operation : String} {a : Value} {x : Double} :
    s.number room operation a = .ok x ↔ a.double? = some x := by
  cases a with
  | number y => simp [number, Value.double?]
  | integer i =>
    rw [number, ofInteger_eq, Value.double?]
    cases Double.ofInt? i <;> simp
  | _ => exact iff_of_false (report_ne_ok _ _ _) (by simp [Value.double?])

theorem mapM_number_eq_ok {room : Nat} {operation : String} :
    args.mapM (s.number room operation) = .ok xs ↔ args.map Value.double? = xs.map some := by
  rw [mapM_eq_ok, ← List.forall₂_eq_eq_eq, List.forall₂_map_left_iff, List.forall₂_map_right_iff]
  simp only [number_eq_ok]

end Store

section

variable {args : List Value}

theorem exists_doubles (h : ∀ a ∈ args, a.double?.isSome) :
    ∃ xs : List Double, args.map Value.double? = xs.map some := by
  induction args with
  | nil => exact ⟨[], rfl⟩
  | cons a args ih =>
    obtain ⟨ha, hargs⟩ := List.forall_mem_cons.1 h
    obtain ⟨x, hx⟩ := Option.isSome_iff_exists.1 ha
    obtain ⟨xs, hxs⟩ := ih hargs
    exact ⟨x :: xs, by rw [List.map_cons, List.map_cons, hx, hxs]⟩

theorem run_comparison (op : Comparison) (hnumbers : ∀ a ∈ args, a.double?.isSome)
    (hlen : 2 ≤ args.length) (room : Nat) (s : Store) :
    Primitive.run room (.comparison op) args s =
      .ok (.truth (decide (args.Pairwise op.Relates))) s := by
  obtain ⟨xs, hxs⟩ := exists_doubles hnumbers
  have hplaces : (xs.map .number).map Value.place? = args.map Value.place? := by
    have h := congrArg (List.map (·.bind Double.position?)) hxs.symm
    rw [List.map_map, List.map_map] at h
    rw [List.map_map]
    exact h
  have hpairs : op.holds xs = decide (args.Pairwise op.Relates) := by
    rw [Bool.eq_iff_iff, Comparison.holds_eq_true, decide_eq_true_iff]
    exact Comparison.pairwise_relates_congr hplaces
  rw [← hpairs]
  exact Action.bind_ok (numbers_ok hlen (mapM_number_eq_ok.2 hxs))

def Primitive.Confirms (p : Primitive) (room : Nat) (args : List Value) (s : Store) : Prop :=
  p.run room args s = .ok (.symbol "T") s

theorem Comparison.confirms_iff (op : Comparison) (hnumbers : ∀ a ∈ args, a.double?.isSome)
    (hlen : 2 ≤ args.length) (room : Nat) (s : Store) :
    (Primitive.comparison op).Confirms room args s ↔ args.Pairwise op.Relates := by
  rw [Primitive.Confirms, run_comparison op hnumbers hlen]
  simp [Value.truth_eq_symbol]

end

/-- A comparison of numbers answers for every argument and every later one.  So it may be turned
round with its arguments; equality is both orders at once, in whatever order the arguments are; and
what ascends also does so with some of the arguments left out. -/
theorem comparison_of_all_pairs {args : List Value} (hnumbers : ∀ a ∈ args, a.double?.isSome)
    (hlen : 2 ≤ args.length) (room : Nat) (s : Store) :
    (∀ op : Comparison, Primitive.run room (.comparison op) args s =
      .ok (.truth (decide (args.Pairwise op.Relates))) s) ∧
    Primitive.run room (.comparison .gt) args s =
      Primitive.run room (.comparison .lt) args.reverse s ∧
    Primitive.run room (.comparison .ge) args s =
      Primitive.run room (.comparison .le) args.reverse s ∧
    ((Primitive.comparison .eq).Confirms room args s ↔
      (Primitive.comparison .le).Confirms room args s ∧
        (Primitive.comparison .ge).Confirms room args s) ∧
    ((Primitive.comparison .lt).Confirms room args s →
      (Primitive.comparison .le).Confirms room args s ∧
      ∀ part : List Value, part.Sublist args → 2 ≤ part.length →
        (Primitive.comparison .lt).Confirms room part s) ∧
    ∀ other : List Value, other.Perm args →
      Primitive.run room (.comparison .eq) other s =
        Primitive.run room (.comparison .eq) args s := by
  have hrun := fun op => run_comparison op hnumbers hlen room s
  have hconfirms := fun op => Comparison.confirms_iff op hnumbers hlen room s
  have hreversed (op : Comparison) : Primitive.run room (.comparison op) args.reverse s =
      .ok (.truth (decide (args.reverse.Pairwise op.Relates))) s :=
    run_comparison op (fun a ha => hnumbers a (List.mem_reverse.1 ha))
      (by rwa [List.length_reverse]) room s
  refine ⟨hrun, ?_, ?_, ?_, fun hlt => ⟨?_, fun part hpart hpartLen => ?_⟩, fun other hperm => ?_⟩
  · have hpairs : args.Pairwise Comparison.gt.Relates ↔
        args.reverse.Pairwise Comparison.lt.Relates :=
      (List.Pairwise.iff fun _ _ => Comparison.relates_reversed.1).trans List.pairwise_reverse.symm
    rw [hrun, hreversed, decide_eq_decide.2 hpairs]
  · have hpairs : args.Pairwise Comparison.ge.Relates ↔
        args.reverse.Pairwise Comparison.le.Relates :=
      (List.Pairwise.iff fun _ _ => Comparison.relates_reversed.2).trans List.pairwise_reverse.symm
    rw [hrun, hreversed, decide_eq_decide.2 hpairs]
  · rw [hconfirms, hconfirms, hconfirms, ← List.pairwise_and_iff]
    exact List.Pairwise.iff fun _ _ => Comparison.relates_eq_iff
  · rw [hconfirms] at hlt ⊢
    exact hlt.imp Comparison.Relates.le_of_lt
  · rw [hconfirms] at hlt
    rw [Comparison.confirms_iff .lt (fun a ha => hnumbers a (hpart.subset ha)) hpartLen]
    exact hlt.sublist hpart
  · have hother := run_comparison .eq (fun a ha => hnumbers a (hperm.subset ha))
      (by rwa [hperm.length_eq]) room s
    have hpairs : other.Pairwise Comparison.eq.Relates ↔ args.Pairwise Comparison.eq.Relates :=
      hperm.pairwise_iff Comparison.Relates.symm
    rw [hother, hrun, decide_eq_decide.2 hpairs]

/-- `(<= -0 0 inf)`, with an integer in the middle. -/
theorem comparison_of_all_pairs_zeros :
    let args : List Value :=
      [.number (.finite true .zero), .integer 0, .number (.infinity false)]
    ((∀ a ∈ args, a.double?.isSome) ∧ 2 ≤ args.length) ∧
      Primitive.run 9 (.comparison .le) args .empty = .ok (.symbol "T") .empty ∧
      Primitive.run 9 (.comparison .lt) args .empty = .ok .nil .empty := by
  intro args
  have hnumbers : ∀ a ∈ args, a.double?.isSome := by decide +kernel
  have hlen : 2 ≤ args.length := by decide
  have hle : args.Pairwise Comparison.le.Relates := by decide +kernel
  have hlt : ¬ args.Pairwise Comparison.lt.Relates := by decide +kernel
  have hpairs := (comparison_of_all_pairs hnumbers hlen 9 .empty).1
  refine ⟨⟨hnumbers, hlen⟩, ?_, ?_⟩
  · rw [hpairs, decide_eq_true hle]
    rfl
  · rw [hpairs, decide_eq_false hlt]
    rfl

end MiniLisp
