import MiniLisp.Proofs.Number.NumberText
import MiniLisp.Proofs.Reader.Grammar
import MiniLisp.Proofs.Store.Tree

/-!
Printed forms read back (`parse_print`).  A form and its tokens follow the same tree: `scan_chars`
cuts the one into the other, and `derives_tokens` reads them.
-/
set_option autoImplicit false

namespace MiniLisp

namespace Double

/-- What the text of a number denotes: infinities and the NaN have names only. -/
def reread (x : Double) : Datum := if x.isFinite then .number x else .symbol x.text

theorem toList_text (x : Double) : x.text.toList = x.textEnding [] := String.toList_ofList

theorem ofAtom_text (x : Double) : Datum.ofAtom x.text = x.reread := by
  rw [Datum.ofAtom, toList_text, reread]
  cases h : x.isFinite with
  | true => rw [read?_textEnding h]; rfl
  | false => rw [read?_textEnding_word h]; rfl

theorem text_ne_dot (x : Double) : x.text ≠ "." := by
  intro h
  have hc := x.toList_text
  rw [h] at hc
  cases hf : x.isFinite with
  | true =>
    have hr := read?_textEnding hf
    rw [← hc] at hr
    cases hr
  | false =>
    cases x with
    | finite s m => cases hf
    | infinity s => cases s <;> exact absurd hc (by decide)
    | nan => exact absurd hc (by decide)

end Double

structure IsName (name : String) : Prop where
  nonempty : name.toList ≠ []
  chars : ∀ c ∈ name.toList, Token.isAtomChar c = true
  notNumeral : ¬ Numeral.IsNumeral name.toList

namespace Datum

/-- Trees that printing does not confuse: every symbol has a name that reads back, and no pair has a
dot for its head. -/
def Readable : Datum → Prop
  | nil | number _ => True
  | symbol name => IsName name
  | cons a d => a ≠ .symbol "." ∧ a.Readable ∧ d.Readable

/-- What the printed form of a datum denotes, as a whole or after the head of a pair.  Only the Nil
that ends a list stays. -/
def reread : (afterHead : Bool) → Datum → Datum
  | false, nil => symbol "NIL"
  | true, nil => nil
  | _, number x => x.reread
  | _, symbol name => symbol name
  | _, cons a d => cons (a.reread false) (d.reread true)

def canonical (d : Datum) : Datum := d.reread false

def Plain : (afterHead : Bool) → Datum → Prop
  | afterHead, nil => afterHead = true
  | _, number x => x.isFinite = true
  | _, symbol _ => True
  | _, cons a d => a.Plain false ∧ d.Plain true

theorem reread_eq_self_iff (d : Datum) (afterHead : Bool) :
    d.reread afterHead = d ↔ d.Plain afterHead := by
  induction d generalizing afterHead with
  | nil => cases afterHead <;> simp [reread, Plain]
  | number x => cases h : x.isFinite <;> simp [reread, Plain, Double.reread, h]
  | symbol name => simp [reread, Plain]
  | cons a d iha ihd => simp [reread, Plain, iha, ihd]

theorem writeParts_reread (d : Datum) (afterHead : Bool) (out : String) :
    (d.reread afterHead).writeParts afterHead out = d.writeParts afterHead out := by
  induction d generalizing afterHead out with
  | nil => cases afterHead <;> rfl
  | number x =>
    cases h : x.isFinite <;> cases afterHead <;> simp [reread, Double.reread, writeParts, h]
  | symbol name => cases afterHead <;> rfl
  | cons a d iha ihd => cases afterHead <;> simp [reread, writeParts, iha, ihd]

theorem print_canonical (d : Datum) : d.canonical.print = d.print := d.writeParts_reread false ""

def chars : (afterHead : Bool) → Datum → List Char
  | false, nil => ['N', 'I', 'L']
  | false, number x => x.textEnding []
  | false, symbol name => name.toList
  | false, cons a d => '(' :: (a.chars false ++ d.chars true)
  | true, nil => [')']
  | true, number x => ' ' :: '.' :: ' ' :: (x.textEnding [] ++ [')'])
  | true, symbol name => ' ' :: '.' :: ' ' :: (name.toList ++ [')'])
  | true, cons a d => ' ' :: (a.chars false ++ d.chars true)

theorem toList_writeParts (d : Datum) (afterHead : Bool) (out : String) :
    (d.writeParts afterHead out).toList = out.toList ++ d.chars afterHead := by
  induction d generalizing afterHead out with
  | nil => cases afterHead <;> simp [writeParts, chars]
  | number x => cases afterHead <;> simp [writeParts, chars, Double.toList_text]
  | symbol name => cases afterHead <;> simp [writeParts, chars]
  | cons a d iha ihd => cases afterHead <;> simp [writeParts, chars, iha, ihd]

def tokens : (afterHead : Bool) → Datum → List Token
  | false, nil => [.atom "NIL"]
  | false, number x => [.atom x.text]
  | false, symbol name => [.atom name]
  | false, cons a d => .openParen :: (a.tokens false ++ d.tokens true)
  | true, nil => [.closeParen]
  | true, number x => [Reader.dot, .atom x.text, .closeParen]
  | true, symbol name => [Reader.dot, .atom name, .closeParen]
  | true, cons a d => a.tokens false ++ d.tokens true

end Datum

namespace Token

def EndsAtom (cs : List Char) : Prop := ∀ c ∈ cs.head?, isAtomChar c = false

theorem scan_atom {name : String} (hne : name.toList ≠ [])
    (hc : ∀ c ∈ name.toList, isAtomChar c = true) {rest : List Char} (hr : EndsAtom rest) :
    scan (name.toList ++ rest) = .atom name :: scan rest := by
  obtain ⟨c, cs, hname⟩ := List.exists_cons_of_ne_nil hne
  have hatom : name = .ofList (c :: cs) := by rw [← hname, String.ofList_toList]
  rw [hname] at hc ⊢
  have hcs : ∀ c ∈ cs, isAtomChar c = true := fun x hx => hc x (List.mem_cons_of_mem c hx)
  have hdrop : rest.dropWhile isAtomChar = rest ∧ rest.takeWhile isAtomChar = [] := by
    cases rest with
    | nil => exact ⟨rfl, rfl⟩
    | cons x rest =>
      have hx : isAtomChar x = false := hr x rfl
      simp [hx]
  have hhead := hc c (List.mem_cons_self ..)
  simp only [isAtomChar, Bool.and_eq_true, Bool.not_eq_true', bne_iff_ne] at hhead
  obtain ⟨⟨⟨hblank, hopen⟩, hclose⟩, hquote⟩ := hhead
  rw [List.cons_append, scan, if_neg hopen, if_neg hclose, if_neg hquote,
    if_neg (by simp [hblank]), List.takeWhile_append_of_pos hcs, List.dropWhile_append_of_pos hcs,
    hdrop.1, hdrop.2, List.append_nil, hatom]

theorem scan_space (cs : List Char) : scan (' ' :: cs) = scan cs := by
  rw [scan, if_neg (by decide), if_neg (by decide), if_neg (by decide), if_pos (by decide)]

theorem scan_openParen (cs : List Char) : scan ('(' :: cs) = .openParen :: scan cs := by
  rw [scan, if_pos rfl]

theorem scan_closeParen (cs : List Char) : scan (')' :: cs) = .closeParen :: scan cs := by
  rw [scan, if_neg (by decide), if_pos rfl]

theorem scan_quoteMark (cs : List Char) : scan ('\'' :: cs) = .quoteMark :: scan cs := by
  rw [scan, if_neg (by decide), if_neg (by decide), if_pos rfl]

end Token

namespace Datum

open Token Reader

theorem scan_number (x : Double) {rest : List Char} (hr : EndsAtom rest) :
    scan (x.textEnding [] ++ rest) = .atom x.text :: scan rest := by
  rw [← x.toList_text]
  apply scan_atom _ _ hr
  · rw [x.toList_text]
    exact x.textEnding_ne_nil
  · rw [x.toList_text]
    exact x.isAtomChar_textEnding

theorem scan_tail {name : String} {cs : List Char} (rest : List Char)
    (h : ∀ rest, EndsAtom rest → scan (cs ++ rest) = .atom name :: scan rest) :
    scan (' ' :: '.' :: ' ' :: (cs ++ [')']) ++ rest) =
      [dot, .atom name, .closeParen] ++ scan rest := by
  have hdot := @scan_atom "." (by decide) (List.all_eq_true.1 (by decide))
    (' ' :: (cs ++ [')'] ++ rest)) (by simp [EndsAtom]; decide)
  rw [show ".".toList = ['.'] from rfl, List.singleton_append] at hdot
  simp only [List.cons_append]
  rw [scan_space, hdot, scan_space, List.append_assoc, h _ (by simp [EndsAtom]; decide),
    List.singleton_append, scan_closeParen]
  rfl

theorem endsAtom_chars (d : Datum) (rest : List Char) : EndsAtom (d.chars true ++ rest) := by
  cases d <;> simp [chars, EndsAtom] <;> decide

theorem scan_chars {d : Datum} (h : d.Readable) (afterHead : Bool) {rest : List Char}
    (hr : EndsAtom rest) : scan (d.chars afterHead ++ rest) = d.tokens afterHead ++ scan rest := by
  induction d generalizing afterHead rest with
  | nil =>
    cases afterHead with
    | false =>
      exact scan_atom (by decide : "NIL".toList ≠ []) (List.all_eq_true.1 (by decide)) hr
    | true => exact scan_closeParen rest
  | number x =>
    cases afterHead with
    | false => exact scan_number x hr
    | true => exact scan_tail rest fun _ hr => scan_number x hr
  | symbol name =>
    cases afterHead with
    | false => exact scan_atom h.nonempty h.chars hr
    | true => exact scan_tail rest fun _ hr => scan_atom h.nonempty h.chars hr
  | cons a d iha ihd =>
    obtain ⟨-, ha, hd⟩ := h
    have hparts : scan (a.chars false ++ d.chars true ++ rest) =
        a.tokens false ++ d.tokens true ++ scan rest := by
      rw [List.append_assoc, iha ha false (d.endsAtom_chars rest), ihd hd true hr,
        List.append_assoc]
    cases afterHead with
    | false => rw [chars, tokens, List.cons_append, scan_openParen, hparts, List.cons_append]
    | true => rw [chars, tokens, List.cons_append, scan_space, hparts]

theorem tokenize_print {d : Datum} (h : d.Readable) : tokenize d.print = d.tokens false := by
  have hend : EndsAtom [] := by simp [EndsAtom]
  have hscan := scan_chars h false hend
  rw [tokenize, print, toList_writeParts]
  simpa [scan] using hscan

theorem ofAtom_name {name : String} (h : IsName name) : ofAtom name = .symbol name := by
  rw [ofAtom, Numeral.read?_eq_none h.notNumeral]

theorem head_tokens {d : Datum} (h : d ≠ .symbol ".") : (d.tokens false).head? ≠ some dot := by
  cases d with
  | nil => decide
  | number x => simpa [tokens] using x.text_ne_dot
  | symbol name => simpa [tokens] using h
  | cons a d => simp [tokens]

/-- A tail extends any items that stand before it, so an induction over the tree adds one by one. -/
theorem derives_tokens {d : Datum} (h : d.Readable) :
    Derives (d.tokens false) d.canonical ∧ ∀ items : List (List Token × Datum),
      (∀ i ∈ items, Derives i.1 i.2) → (∀ i ∈ items, i.1.head? ≠ some dot) → items ≠ [] →
      Derives (.openParen :: items.flatMap (·.1) ++ d.tokens true)
        (list (items.map (·.2)) (d.reread true)) := by
  induction d with
  | nil => exact ⟨.atom "NIL", fun items hi hd _ => .list items hi hd⟩
  | number x =>
    have hx : Derives [.atom x.text] x.reread := x.ofAtom_text ▸ .atom x.text
    refine ⟨hx, fun items hi hd hne => ?_⟩
    have htail := Derives.dotted items hi hd hne hx
    rwa [List.append_assoc] at htail
  | symbol name =>
    have hn : Derives [.atom name] (.symbol name) := ofAtom_name h ▸ .atom name
    refine ⟨hn, fun items hi hd hne => ?_⟩
    have htail := Derives.dotted items hi hd hne hn
    rwa [List.append_assoc] at htail
  | cons a d iha ihd =>
    obtain ⟨hdot, ha, hd⟩ := h
    have hitem := (iha ha).1
    have hhead := head_tokens hdot
    constructor
    · have htail := (ihd hd).2 [(a.tokens false, a.canonical)] (by simpa using hitem)
        (by simpa using hhead) (by simp)
      simpa [tokens, canonical, reread, list] using htail
    · intro items hi hheads hne
      have htail := (ihd hd).2 (items ++ [(a.tokens false, a.canonical)])
        (List.forall_mem_append.2 ⟨hi, by simpa using hitem⟩)
        (List.forall_mem_append.2 ⟨hheads, by simpa using hhead⟩) (by simp)
      simpa [tokens, canonical, reread, list] using htail

end Datum

theorem parse_of_derives {source : String} {d : Datum} (h : Reader.Derives (tokenize source) d)
    {limit : Nat} (hl : 3 * (tokenize source).length ≤ limit) : parse limit source = .ok d := by
  have hread := Reader.resume_of_derives h limit 0 [] [] (by simpa [Reader.depth] using hl) trivial
  rw [List.append_nil] at hread
  rw [parse, Cursor.start, Cursor.read, hread]
  rfl

/-- A value made of Nil, numbers, symbols and cells prints to a text that reads back, given room for
its depth.  What is read differs in Nils and numbers without a text of their own only, and it prints
to the same text wherever it is loaded. -/
theorem parse_print {s : Store} {v : Value} {d : Datum} (h : s.Unfolds v d) (hr : d.Readable) :
    ∃ text, s.print v = .ok text ∧
      (∃ least, ∀ limit, least ≤ limit → parse limit text = .ok d.canonical) ∧
      (d.canonical = d ↔ d.Plain false) ∧
      ∀ s' : Store, (s'.load d.canonical).2.print (s'.load d.canonical).1 = .ok text := by
  refine ⟨d.print, h.print_eq, ⟨3 * (tokenize d.print).length, fun limit hl => ?_⟩,
    d.reread_eq_self_iff false, fun s' => ?_⟩
  · refine parse_of_derives ?_ hl
    rw [Datum.tokenize_print hr]
    exact (Datum.derives_tokens hr).1
  · rw [← Datum.print_canonical d]
    exact (s'.unfolds_load d.canonical).print_eq

/-- A pair that is both parts of another one, with a dot for its tail. -/
theorem parse_print_shared :
    let s : Store := ⟨#[⟨.symbol "a", .symbol "."⟩, ⟨.cell 0, .cell 0⟩], #[], #[], 0, []⟩
    let pair : Datum := .cons (.symbol "a") (.symbol ".")
    let d : Datum := .cons pair pair
    (s.Unfolds (.cell 1) d ∧ d.Readable) ∧ ∃ text, s.print (.cell 1) = .ok text ∧
      (∃ least, ∀ limit, least ≤ limit → parse limit text = .ok d.canonical) ∧
      (d.canonical = d ↔ d.Plain false) ∧
      ∀ s' : Store, (s'.load d.canonical).2.print (s'.load d.canonical).1 = .ok text := by
  intro s pair d
  have hpair : s.Unfolds (.cell 0) pair := .cell rfl (.symbol "a") (.symbol ".")
  have hname : ∀ name, name = "a" ∨ name = "." → IsName name := by
    intro name hname
    refine ⟨?_, ?_, fun h => ?_⟩
    · obtain rfl | rfl := hname <;> decide
    · obtain rfl | rfl := hname <;> exact List.all_eq_true.1 (by decide)
    · rw [← Numeral.read?_isSome_iff] at h
      obtain rfl | rfl := hname <;> exact absurd h (by decide)
  have hreadable : pair.Readable := ⟨by decide, hname "a" (.inl rfl), hname "." (.inr rfl)⟩
  have hd : s.Unfolds (.cell 1) d := .cell rfl hpair hpair
  have hr : d.Readable := ⟨by decide, hreadable, hreadable⟩
  exact ⟨⟨hd, hr⟩, parse_print hd hr⟩

end MiniLisp
