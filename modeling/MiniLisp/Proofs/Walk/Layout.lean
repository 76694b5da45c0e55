import MiniLisp.Proofs.Store.Tree

set_option autoImplicit false

namespace MiniLisp.Store

variable {s : Store} {room : Nat} {r : CellRef} {items : List Value} {last : Value}

theorem foldlM_write
    (h : ∀ v out, s.write room v out = (s.printWithin room v).map (out ++ ·)) (items : List Value)
    (out text : String) :
    items.foldlM (fun out x => s.write room x (out.push ' ')) (out ++ text) =
      (items.mapM (s.printWithin room)).map
        (fun texts => out ++ " ".intercalate (text :: texts)) := by
  induction items generalizing out text with
  | nil =>
    have hone : " ".intercalate [text] = text := String.intercalate_singleton
    exact congrArg (fun t => Except.ok (out ++ t)) hone.symm
  | cons x items ih =>
    rw [List.foldlM_cons, List.mapM_cons, h]
    cases s.printWithin room x with
    | error e => rfl
    | ok t =>
      refine (ih ((out ++ text).push ' ') t).trans ?_
      cases items.mapM (s.printWithin room) with
      | error e => rfl
      | ok texts =>
        have htext : (out ++ text).push ' ' ++ " ".intercalate (t :: texts) =
            out ++ " ".intercalate (text :: t :: texts) := by
          rw [String.intercalate_cons_cons, String.push_eq_append]
          simp only [String.append_assoc]
          rfl
        exact congrArg Except.ok htext

def listText (s : Store) (room : Nat) (items : List Value) (last : Value) (text : String) :
    Except Error String :=
  (items.mapM (s.printWithin room)).bind fun texts =>
    if last = .nil then .ok ("(" ++ " ".intercalate (text :: texts) ++ ")")
    else (s.printWithin room last).map fun tail =>
      "(" ++ " ".intercalate (text :: texts) ++ " . " ++ tail ++ ")"

theorem writeTail_eq
    (h : ∀ v out, s.write room v out = (s.printWithin room v).map (out ++ ·)) (items : List Value)
    (last : Value) (out text : String) : s.writeTail room items last (out.push '(' ++ text) =
      (s.listText room items last text).map (out ++ ·) := by
  have hclose : ∀ t : String, t.push ')' = t ++ ")" := fun _ => String.push_eq_append ')'
  rw [writeTail, foldlM_write h, listText]
  cases items.mapM (s.printWithin room) with
  | error e => rfl
  | ok texts =>
    have hopen : out.push '(' ++ " ".intercalate (text :: texts) =
        out ++ ("(" ++ " ".intercalate (text :: texts)) := by
      rw [String.push_eq_append, String.append_assoc]
      rfl
    simp only [bind, Except.bind, Except.map, hopen]
    split
    · rw [hclose, String.append_assoc]
    · rw [h]
      cases s.printWithin room last with
      | error e => rfl
      | ok tail => simp only [Except.map, hclose, String.append_assoc]

theorem write_eq_map (s : Store) (room : Nat) (v : Value) (out : String) :
    s.write room v out = (s.printWithin room v).map (out ++ ·) := by
  have hatom : ∀ out t : String,
      (.ok (out ++ t) : Except Error String) = .ok (out ++ ("" ++ t)) := by simp
  have hempty : ∀ out : String, (.ok out : Except Error String) = .ok (out ++ "") := by simp
  induction room generalizing v out with
  | zero => rfl
  | succ room ih =>
    rw [printWithin]
    cases v with
    | cell r =>
      rw [write, write]
      cases s.chain (.cell r) with
      | mk items last =>
        cases items with
        | nil => exact hempty out
        | cons first rest =>
          change (s.write room first (out.push '(')).bind (s.writeTail room rest last) =
            ((s.write room first ("".push '(')).bind (s.writeTail room rest last)).map _
          rw [ih, ih]
          cases s.printWithin room first with
          | error e => rfl
          | ok text =>
            refine (writeTail_eq ih rest last out text).trans ?_
            change _ = Except.map _ (s.writeTail room rest last ("".push '(' ++ text))
            rw [writeTail_eq ih]
            cases s.listText room rest last text with
            | error e => rfl
            | ok t => exact hatom out t
    | closure r =>
      rw [write, write]
      cases s.closures[r]? with
      | none => exact hempty out
      | some c =>
        change (if c.parameters = .nil then _ else _) =
          Except.map _ (if c.parameters = .nil then _ else _)
        split
        · exact hatom out _
        · rw [ih, ih]
          cases s.printWithin room c.parameters with
          | error e => rfl
          | ok t =>
            refine congrArg Except.ok ?_
            change (out ++ "<closure " ++ t).push '>' = out ++ ("" ++ "<closure " ++ t).push '>'
            rw [String.push_eq_append, String.push_eq_append, String.empty_append]
            simp only [String.append_assoc]
    | integer i =>
      rw [write, write]
      cases Double.ofInteger i with
      | error e => rfl
      | ok x => exact hatom out x.text
    | primitive p n =>
      rw [write, write]
      refine congrArg Except.ok ?_
      simp only [String.append_assoc, String.empty_append]
    | hook p =>
      rw [write, write]
      refine congrArg Except.ok ?_
      simp only [String.append_assoc, String.empty_append]
    | _ => exact hatom out _

/-- A list is written as its items with blanks between them, and what ends it behind a dot unless
that is Nil. -/
theorem printWithin_chain (h : s.Chain (.cell r) items last) (room : Nat) :
    s.printWithin (room + 1) (.cell r) =
      (items.mapM (s.printWithin room)).bind fun texts =>
        if last = .nil then .ok ("(" ++ " ".intercalate texts ++ ")")
        else (s.printWithin room last).map fun tail =>
          "(" ++ " ".intercalate texts ++ " . " ++ tail ++ ")" := by
  cases h with
  | stop hv => exact absurd rfl (hv r)
  | @link _ c items _ hc hrest =>
    rw [printWithin, write_cell hc hrest, write_eq_map, List.mapM_cons]
    cases s.printWithin room c.head with
    | error e => rfl
    | ok text =>
      change s.writeTail room items last ("".push '(' ++ text) = _
      rw [writeTail_eq (s.write_eq_map room), listText]
      cases items.mapM (s.printWithin room) with
      | error e => rfl
      | ok texts =>
        simp only [pure, Except.pure, bind, Except.bind]
        split
        · rw [Except.map, String.empty_append]
        · cases s.printWithin room last with
          | error e => rfl
          | ok tail => simp only [Except.map, String.empty_append]

end MiniLisp.Store
