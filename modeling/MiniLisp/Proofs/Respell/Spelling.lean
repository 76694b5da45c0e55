import MiniLisp.Proofs.Eval.Evolution
import MiniLisp.Proofs.Tree.Stands

/-!
Definitions of functions, spelled out.  `Datum.spellOut` writes each `defun` that stands where code
is evaluated as a `define` of a `lambda`.  `Datum.Respells` lets each place take either way of
writing, which is what holds of the bodies of functions while spelled and unspelled code run side by
side (`respells_spellOut`).
-/
set_option autoImplicit false

namespace MiniLisp

namespace Datum

def lambda (parameters body : Datum) : Datum := list [.symbol "lambda", parameters, body] .nil

def define (name value : Datum) : Datum := list [.symbol "define", name, value] .nil

def defun (name parameters body : Datum) : Datum :=
  list [.symbol "defun", name, parameters, body] .nil

/-- Code with its definitions of functions spelled out.  Behind `true` stand the items of a list that
are evaluated one by one.  What is quoted stays as it is, and so does what has not the shape that its
form asks for and is refused unread. -/
def spellParts : Bool → Datum → Datum
  | false, .cons (.symbol name) rest =>
    match SpecialForm.ofName? name, rest with
    | some .lambda, .cons parameters (.cons body .nil) => lambda parameters (spellParts false body)
    | some .define, .cons n (.cons x .nil) => define n (spellParts false x)
    | some .defun, .cons (.symbol n) (.cons parameters (.cons body .nil)) =>
      define (.symbol n) (lambda parameters (spellParts false body))
    | some .defun, .cons n (.cons parameters (.cons body .nil)) =>
      defun n parameters (spellParts false body)
    | some .quote, rest | some .lambda, rest | some .define, rest | some .defun, rest =>
      .cons (.symbol name) rest
    | _, rest => .cons (.symbol name) (spellParts true rest)
  | false, .cons head rest => .cons (spellParts false head) (spellParts true rest)
  | true, .cons a d => .cons (spellParts false a) (spellParts true d)
  | _, d => d

def spellOut (d : Datum) : Datum := spellParts false d

/-- Code that differs in how it writes the definitions of functions.  Behind `true` stand the items
of a list that are evaluated one by one. -/
inductive Respells : Bool → Datum → Datum → Prop where
  | atom {inside : Bool} {d : Datum} : (∀ a b, d ≠ .cons a b) → Respells inside d d
  | item {a a' d d' : Datum} : Respells false a a' → Respells true d d' →
      Respells true (.cons a d) (.cons a' d')
  | kept {form : SpecialForm} {rest : Datum} :
      Respells false (.cons (.symbol form.name) rest) (.cons (.symbol form.name) rest)
  | lambda {parameters body body' : Datum} : Respells false body body' →
      Respells false (lambda parameters body) (lambda parameters body')
  | define {name x x' : Datum} : Respells false x x' →
      Respells false (define name x) (define name x')
  | defun {name parameters body body' : Datum} : Respells false body body' →
      Respells false (defun name parameters body) (defun name parameters body')
  | spelledOut {name : String} {parameters body body' : Datum} : Respells false body body' →
      Respells false (defun (.symbol name) parameters body)
        (define (.symbol name) (Datum.lambda parameters body'))
  | shortened {name : String} {parameters body body' : Datum} : Respells false body body' →
      Respells false (define (.symbol name) (Datum.lambda parameters body))
        (defun (.symbol name) parameters body')
  | evaluated {form : SpecialForm} {rest rest' : Datum} :
      form = .conditional ∨ form = .begin ∨ form = .function → Respells true rest rest' →
      Respells false (.cons (.symbol form.name) rest) (.cons (.symbol form.name) rest')
  | call {head head' rest rest' : Datum} : (∀ form : SpecialForm, head ≠ .symbol form.name) →
      Respells false head head' → Respells true rest rest' →
      Respells false (.cons head rest) (.cons head' rest')

theorem respells_refl (inside : Bool) (d : Datum) : Respells inside d d := by
  induction d generalizing inside with
  | cons a d iha ihd =>
    cases inside with
    | true => exact .item (iha false) (ihd true)
    | false =>
      by_cases h : ∃ form : SpecialForm, a = .symbol form.name
      · obtain ⟨form, rfl⟩ := h
        exact .kept
      · exact .call (fun form hf => h ⟨form, hf⟩) (iha false) (ihd true)
  | _ => exact .atom nofun

theorem Respells.eq_symbol {inside : Bool} {d : Datum} {name : String}
    (h : Respells inside d (.symbol name)) : d = .symbol name := by
  generalize hd : Datum.symbol name = d' at h
  cases h with
  | atom _ => rfl
  | _ => cases hd

theorem Respells.symm {inside : Bool} {d d' : Datum} (h : Respells inside d d') :
    Respells inside d' d := by
  induction h with
  | atom h => exact .atom h
  | item _ _ iha ihd => exact .item iha ihd
  | kept => exact .kept
  | lambda _ ih => exact .lambda ih
  | define _ ih => exact .define ih
  | defun _ ih => exact .defun ih
  | spelledOut _ ih => exact .shortened ih
  | shortened _ ih => exact .spelledOut ih
  | evaluated hform _ ih => exact .evaluated hform ih
  | call hhead h _ iha ihd =>
    exact .call (fun form hf => hhead form (hf ▸ h).eq_symbol) iha ihd

theorem respells_spellParts (inside : Bool) (d : Datum) :
    Respells inside d (spellParts inside d) := by
  fun_induction spellParts inside d with
  | case1 name parameters body h ih =>
    obtain rfl := SpecialForm.name_of_ofName? h
    exact .lambda ih
  | case2 name n x h ih =>
    obtain rfl := SpecialForm.name_of_ofName? h
    exact .define ih
  | case3 name n parameters body h ih =>
    obtain rfl := SpecialForm.name_of_ofName? h
    exact .spelledOut ih
  | case4 name n parameters body _ h ih =>
    obtain rfl := SpecialForm.name_of_ofName? h
    exact .defun ih
  | case5 name rest h | case6 name rest _ h | case7 name rest _ h | case8 name rest _ _ h =>
    obtain rfl := SpecialForm.name_of_ofName? h
    exact .kept
  | case9 name rest _ _ _ _ hquote hlambda hdefine hdefun ih =>
    cases hform : SpecialForm.ofName? name with
    | none =>
      refine .call (fun form hf => ?_) (.atom nofun) ih
      cases hf
      cases form <;> cases hform
    | some form =>
      obtain rfl := SpecialForm.name_of_ofName? hform
      refine .evaluated ?_ ih
      cases form with
      | quote => exact (hquote hform).elim
      | lambda => exact (hlambda hform).elim
      | define => exact (hdefine hform).elim
      | defun => exact (hdefun hform).elim
      | conditional => exact .inl rfl
      | begin => exact .inr (.inl rfl)
      | function => exact .inr (.inr rfl)
  | case10 head rest hhead ihh ihr => exact .call (fun form => hhead form.name) ihh ihr
  | case11 a d iha ihd => exact .item iha ihd
  | case12 inside d _ hcons hitem =>
    refine .atom fun a b hd => ?_
    cases inside with
    | false => exact hcons a b rfl hd
    | true => exact hitem a b rfl hd

theorem respells_spellOut (d : Datum) : Respells false d d.spellOut := respells_spellParts false d

example :
    (list [.symbol "begin", defun (.symbol "f") .nil (.symbol "x"),
      quote (defun (.symbol "f") .nil (.symbol "x"))] .nil).spellOut =
    list [.symbol "begin", define (.symbol "f") (lambda .nil (.symbol "x")),
      quote (defun (.symbol "f") .nil (.symbol "x"))] .nil := by decide

open MiniLisp.Tree in
/-- Each function that is spelled out takes one level more, and stands on a level of its own. -/
theorem Respells.depth_le {inside : Bool} {d d' : Datum} (h : Respells inside d d') :
    (ofDatum d').isList = (ofDatum d).isList ∧ (ofDatum d').depth ≤ 2 * (ofDatum d).depth := by
  have htail : ∀ {d d' : Datum}, (ofDatum d').isList = (ofDatum d).isList ∧
      (ofDatum d').depth ≤ 2 * (ofDatum d).depth →
      (ofDatum d').tailDepth ≤ 2 * (ofDatum d).tailDepth := by
    rintro d d' ⟨hlist, hdepth⟩
    rw [tailDepth, tailDepth, hlist]
    split <;> omega
  have hcons : ∀ {a a' d d' : Datum}, (ofDatum a').depth ≤ 2 * (ofDatum a).depth →
      (ofDatum d').tailDepth ≤ 2 * (ofDatum d).tailDepth →
      (ofDatum (.cons a' d')).depth ≤ 2 * (ofDatum (.cons a d)).depth := by
    intro a a' d d' ha hd
    rw [ofDatum, ofDatum, depth_cons, depth_cons]
    omega
  induction h with
  | atom _ | kept => exact ⟨rfl, by omega⟩
  | item _ _ iha ihd | call _ _ _ iha ihd => exact ⟨rfl, hcons iha.2 (htail ihd)⟩
  | evaluated _ _ ihd => exact ⟨rfl, hcons (by omega) (htail ihd)⟩
  | lambda _ ih | define _ ih | defun _ ih | spelledOut _ ih | shortened _ ih =>
    refine ⟨rfl, ?_⟩
    simp [Datum.lambda, Datum.define, Datum.defun, list, ofDatum, depth, isList]
    omega

end Datum
end MiniLisp
