import MiniLisp.Proofs.Scope.Account

set_option autoImplicit false

namespace MiniLisp

open Accounts

namespace Accounts

variable {as : Array Account} {r f : FrameRef} {rs inner outer : List FrameRef}
  {vars : List (String × Value)} {name : String}

theorem Around.give (h : Around as f rs) (r : FrameRef) (vars : List (String × Value)) :
    Around (give as r vars) f rs := by
  have hget : ∀ {q : FrameRef} {a : Account}, as[q]? = some a →
      ∃ given, (Accounts.give as r vars)[q]? = some ⟨given, a.outer⟩ := by
    intro q a ha
    rw [Accounts.give, Array.getElem?_modify, ha]
    split
    · exact ⟨_, rfl⟩
    · exact ⟨_, rfl⟩
  induction h with
  | outermost ha ho =>
    obtain ⟨given, hgiven⟩ := hget ha
    exact .outermost hgiven ho
  | inside ha ho _ ih =>
    obtain ⟨given, hgiven⟩ := hget ha
    exact .inside hgiven ho ih

theorem own?_give_ne {q : FrameRef} (h : q ≠ r) :
    own? (give as r vars) name q = own? as name q := by
  rw [own?, own?, give, Array.getElem?_modify, if_neg h.symm]

theorem own?_give_self {v : Value} (hr : r < as.size) (hv : lastGiven vars name = some v) :
    own? (give as r vars) name r = some v := by
  rw [own?, give, Array.getElem?_modify, if_pos rfl, Array.getElem?_eq_getElem hr]
  exact lastGiven_append_of_some hv _

end Accounts

namespace Store

variable {s : Store} {as : Array Account}

namespace Accounted

variable (h : s.Accounted as) {r : FrameRef} {rs : List FrameRef} {name : String}

include h

theorem get?_eq (name : String) (q : FrameRef) :
    s.frames[q]?.bind (·.get? name) = own? as name q := by
  have hq := h.frame q
  rw [own?]
  generalize s.frames[q]? = x at hq ⊢
  generalize as[q]? = y at hq ⊢
  cases hq with
  | none => rfl
  | some hq => exact hq.last name

theorem exists_frame {a : Account} (ha : as[r]? = some a) :
    ∃ f, s.frames[r]? = some f ∧ f.Accounted a := by
  have hr := h.frame r
  rw [ha] at hr
  generalize s.frames[r]? = x at hr ⊢
  cases hr with
  | some hr => exact ⟨_, rfl, hr⟩

theorem exists_around (hr : r < s.frames.size) : ∃ rs, Around as r rs := by
  induction r using Nat.strongRecOn with
  | ind r ih =>
    obtain ⟨a, ha⟩ : ∃ a, as[r]? = some a := ⟨_, Array.getElem?_eq_getElem (h.size ▸ hr)⟩
    cases ho : a.outer with
    | none => exact ⟨[r], .outermost ha ho⟩
    | some o =>
      have hlt := h.older ha o ho
      obtain ⟨rs, hrs⟩ := ih o hlt (Nat.lt_trans hlt hr)
      exact ⟨r :: rs, .inside ha ho hrs⟩

theorem find?_eq (hr : Around as r rs) (name : String) :
    s.find? r name = rs.find? (fun q => (own? as name q).isSome) := by
  induction hr with
  | @outermost r a ha ho =>
    obtain ⟨f, hf, hk⟩ := h.exists_frame ha
    have hown : own? as name r = f.get? name := by rw [← h.get?_eq, hf, Option.bind_some]
    have houter : f.outer = none := hk.outer.trans ho
    rw [Store.find?, hf, List.find?_cons, hown]
    simp only [houter]
    cases f.get? name <;> rfl
  | @inside r o a rs ha ho _ ih =>
    obtain ⟨f, hf, hk⟩ := h.exists_frame ha
    have hown : own? as name r = f.get? name := by rw [← h.get?_eq, hf, Option.bind_some]
    have houter : f.outer = some o := hk.outer.trans ho
    rw [Store.find?, hf, List.find?_cons, hown]
    simp only [houter, if_pos (h.older ha o ho), ih]
    cases f.get? name <;> rfl

theorem lookup_eq_own (hr : Around as r rs) (name : String) :
    s.lookup r name =
      match rs.findSome? (own? as name) with
      | some v => .ok v
      | none => .error (.unbound name) := by
  rw [lookup, h.find?_eq hr name]
  clear hr
  induction rs with
  | nil => rfl
  | cons q rs ih =>
    rw [List.find?_cons, List.findSome?_cons]
    cases hq : own? as name q with
    | some v => simp only [Option.isSome_some, h.get?_eq, hq]
    | none => exact ih

theorem contains_eq (hr : Around as r rs) (name : String) :
    s.contains r name = rs.any (fun q => (own? as name q).isSome) := by
  rw [contains, h.find?_eq hr name, List.isSome_find?]

end Accounted

theorem Accounted.le_of_mem (h : s.Accounted as) {f : FrameRef} {rs : List FrameRef}
    (hf : Around as f rs) : ∀ q ∈ rs, q ≤ f := by
  induction hf with
  | outermost _ _ => exact fun q hq => Nat.le_of_eq (List.mem_singleton.1 hq)
  | inside ha ho _ ih =>
    intro q hq
    rcases List.mem_cons.1 hq with rfl | hq
    · exact Nat.le_refl q
    · exact Nat.le_of_lt (Nat.lt_of_le_of_lt (ih q hq) (h.older ha _ ho))

theorem Accounted.pairwise (h : s.Accounted as) {f : FrameRef} {rs : List FrameRef}
    (hf : Around as f rs) : rs.Pairwise (fun p q => q < p) := by
  induction hf with
  | outermost _ _ => exact List.pairwise_singleton _ _
  | inside ha ho hout ih =>
    refine List.pairwise_cons.2 ⟨fun q hq => ?_, ih⟩
    exact Nat.lt_of_le_of_lt (h.le_of_mem hout q hq) (h.older ha _ ho)

theorem operate_frame (s : Store) (room : Nat) {op : ScopeOperation} {q : FrameRef}
    (hq : q < s.frames.size) (hop : ∀ x ∈ op.given?, q ≠ x.1) :
    (s.operate room op).frames[q]? = s.frames[q]? := by
  have hadd : ∀ f, (s.addFrame f).2.frames[q]? = s.frames[q]? := by
    intro f
    rw [Store.addFrame, Array.getElem?_push, if_neg (Nat.ne_of_lt hq)]
  have hgive : ∀ r vars, q ≠ r → (s.updateFrame r vars).frames[q]? = s.frames[q]? := by
    intro r vars hne
    rw [Store.updateFrame, Array.getElem?_modify, if_neg hne.symm]
  cases op with
  | create => exact hadd _
  | child r => exact hadd _
  | define r name v => exact hgive r [(name, v)] (hop _ rfl)
  | update r vars => exact hgive r vars (hop _ rfl)
  | extend c args =>
    rw [extend_eq]
    split
    · split
      · exact hadd _
      · rfl
    · rfl

/-- What is given to a frame is seen at once from every frame inside it that has no such name
between. -/
theorem Accounted.seen (h : s.Accounted as) {room : Nat} {op : ScopeOperation} {r f : FrameRef}
    {vars : List (String × Value)} {inner outer : List FrameRef} {name : String} {v : Value}
    (hgiven : op.given? = some (r, vars)) (hr : r < s.frames.size)
    (hf : Around as f (inner ++ r :: outer)) (hinner : ∀ q ∈ inner, own? as name q = none)
    (hv : lastGiven vars name = some v) :
    (s.operate room op).find? f name = some r ∧ (s.operate room op).lookup f name = .ok v := by
  have haccount := h.give r vars
  have haround := hf.give r vars
  have hsorted := List.pairwise_append.1 (h.pairwise hf)
  have hself := own?_give_self (h.size ▸ hr) hv
  have hnone : ∀ q ∈ inner, own? (Accounts.give as r vars) name q = none := by
    intro q hq
    have hlt : r < q := hsorted.2.2 q hq r (by simp)
    rw [own?_give_ne (Nat.ne_of_gt hlt), hinner q hq]
  have hfind : inner.find? (fun q => (own? (Accounts.give as r vars) name q).isSome) = none :=
    List.find?_eq_none.2 fun q hq => by simp [hnone q hq]
  have hfindSome : inner.findSome? (own? (Accounts.give as r vars) name) = none :=
    List.findSome?_eq_none_iff.2 hnone
  rw [(operate_of_given hgiven s room).2]
  constructor
  · rw [haccount.find?_eq haround, List.find?_append, hfind, Option.none_or, List.find?_cons, hself]
    rfl
  · rw [haccount.lookup_eq_own haround, List.findSome?_append, hfindSome, Option.none_or,
      List.findSome?_cons, hself]

/-- The scopes that any operations leave, by the account of all of them: what each frame holds, what
a name is at each, and what one operation more does. -/
theorem scopes_keep_account {room : Nat} {s : Store} {ops : List ScopeOperation}
    (hs : s.frames = #[]) (hops : s.Applicable room ops) :
    let t := ops.foldl (Store.operate room) s
    let as := ops.foldl (enter s.symbolNames?) #[]
    t.Accounted as ∧
    (∀ r, r < t.frames.size → ∃ rs, Around as r rs ∧ ∀ name,
      t.find? r name = rs.find? (fun q => (own? as name q).isSome) ∧
      t.contains r name = rs.any (fun q => (own? as name q).isSome) ∧
      t.lookup r name = match rs.findSome? (own? as name) with
        | some v => .ok v
        | none => .error (.unbound name)) ∧
    ∀ op : ScopeOperation, (∀ r ∈ op.target?, r < t.frames.size) →
      (∀ q, q < t.frames.size → (∀ x ∈ op.given?, q ≠ x.1) →
        (t.operate room op).frames[q]? = t.frames[q]?) ∧
      ∀ r vars, op.given? = some (r, vars) → ∀ f inner outer, Around as f (inner ++ r :: outer) →
        ∀ name, (∀ q ∈ inner, own? as name q = none) → ∀ v, lastGiven vars name = some v →
          (t.operate room op).find? f name = some r ∧
          (t.operate room op).lookup f name = .ok v := by
  intro t as
  have hstart : s.Accounted #[] := ⟨by simp [hs], fun r => by simp [hs], by simp⟩
  have haccount : t.Accounted as := hstart.run hops
  refine ⟨haccount, fun r hr => ?_, fun op hop => ⟨fun q hq hne => ?_, ?_⟩⟩
  · obtain ⟨rs, hrs⟩ := haccount.exists_around hr
    exact ⟨rs, hrs, fun name => ⟨haccount.find?_eq hrs name, haccount.contains_eq hrs name,
      haccount.lookup_eq_own hrs name⟩⟩
  · exact operate_frame t room hq hne
  · intro r vars hgiven f inner outer hf name hinner v hv
    have hr := hop r (operate_of_given hgiven t room).1
    exact haccount.seen hgiven hr hf hinner hv

/-- A call is made inside a child of the outermost frame; what is defined in that frame later is
seen by the call. -/
theorem scopes_keep_account_call :
    let s : Store := { Store.empty with cells := #[⟨.symbol "x", .nil⟩] }
    let ops : List ScopeOperation := [.create, .child 0, .extend ⟨.cell 0, .nil, 1⟩ [.symbol "a"]]
    let t := ops.foldl (Store.operate 0) s
    s.frames = #[] ∧ s.Applicable 0 ops ∧ t.frames.size = 3 ∧
      (t.operate 0 (.define 0 "y" (.symbol "b"))).lookup 2 "y" = .ok (.symbol "b") := by
  intro s ops t
  have hops : s.Applicable 0 ops := by
    refine ⟨nofun, ?_, ?_, trivial⟩
    · rintro r ⟨⟩
      decide
    · rintro r ⟨⟩
      decide
  have hsize : t.frames.size = 3 := by decide
  have haround : Around (ops.foldl (enter s.symbolNames?) #[]) 2 ([2, 1] ++ 0 :: []) :=
    .inside rfl rfl (.inside rfl rfl (.outermost rfl rfl))
  have hframe : ∀ r ∈ (ScopeOperation.define 0 "y" (.symbol "b")).target?, r < t.frames.size := by
    rintro r ⟨⟩
    exact hsize ▸ by decide
  have heffect := (scopes_keep_account (show s.frames = #[] from rfl) hops).2.2 _ hframe
  have hseen := heffect.2 0 _ rfl 2 [2, 1] [] haround "y" (by decide) _ rfl
  exact ⟨rfl, hops, hsize, hseen.2⟩

end Store

end MiniLisp
