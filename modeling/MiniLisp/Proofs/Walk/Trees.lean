import MiniLisp.Proofs.Tree.Alike
import MiniLisp.Proofs.Walk.Age

set_option autoImplicit false

namespace MiniLisp

open Store

theorem Store.Admits.mono {foreign wider : Value → Prop} (h : ∀ v, foreign v → wider v) {s : Store}
    {v : Value} (hv : s.Admits foreign v) : s.Admits wider v := by
  cases v with
  | integer i => exact h _ hv
  | bool b => exact h _ hv
  | hook k => exact h _ hv
  | _ => exact hv

theorem Reachable.mono {foreign wider : Value → Prop} (h : ∀ v, foreign v → wider v) {s : Store}
    (hs : Reachable foreign s) : Reachable wider s := by
  induction hs with
  | empty => exact .empty
  | addGlobal _ ih => exact .addGlobal ih
  | child _ hr ih => exact .child ih hr
  | load d _ ih => exact .load d ih
  | cons _ ha hd ih => exact .cons ih (ha.mono h) (hd.mono h)
  | define _ hv ih => exact .define ih (hv.mono h)
  | eval limit _ he hf ih => exact .eval limit ih (he.mono h) hf
  | applyFunction limit _ hf ha ih =>
    exact .applyFunction limit ih (hf.mono h) fun a hmem => (ha a hmem).mono h

namespace Store

variable {s : Store}

theorem Nested.stands (hs : s.Sound fun _ => False) {n : Nat} {v : Value} (h : s.Nested n v)
    (hv : s.Admits (fun _ => False) v) : ∃ t, s.Stands v t := by
  induction h with
  | @atom n v hatom =>
    cases v with
    | nil => exact ⟨_, .nil⟩
    | number x => exact ⟨_, .number x⟩
    | symbol name => exact ⟨_, .symbol name⟩
    | primitive p serial => exact ⟨_, .primitive p serial⟩
    | integer i => cases hv
    | bool b => cases hv
    | hook k => cases hv
    | cell r => cases hatom
    | closure r => cases hatom
  | cell hc _ _ ihh iht =>
    obtain ⟨a, ha⟩ := ihh (hs.cell hc).1
    obtain ⟨d, hd⟩ := iht (hs.cell hc).2
    exact ⟨_, .cell hc ha hd⟩
  | closure hc _ _ ihp ihb =>
    obtain ⟨p, hp⟩ := ihp (hs.closure hc).1
    obtain ⟨b, hb⟩ := ihb (hs.closure hc).2.1
    exact ⟨_, .closure hc hp hb⟩

end Store

end MiniLisp
