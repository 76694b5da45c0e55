import MiniLisp.Proofs.Reader.RoundTrip

/-!
What can be read at all.  A tree is legible if some text denotes it: the tokens read for it carry
names and numerals only, and no item of a list is a dot (`Derives.legible`); conversely each legible
tree has a spelling, in which all pairs but the quotations of a dot are written with one
(`derives_spelling`).  The main statement is `reads_iff_legible`.
-/
set_option autoImplicit false

namespace MiniLisp

namespace Double

/-- A text that denotes the number, if one does: a numeral past the largest number is infinite. -/
def literal : Double → String
  | infinity negative => if negative then "-1e999" else "1e999"
  | x => x.text

theorem ofDecimal_ne_nan (d : Decimal) : ofDecimal d ≠ .nan := by
  have hunits : ∀ (negative : Bool) (num den : Nat), ofUnits negative num den ≠ .nan := by
    intro negative num den
    unfold ofUnits
    split <;> simp
  unfold ofDecimal
  split
  · simp
  · split
    · simp
    · split
      · simp
      · exact hunits _ _ _

theorem ofAtom_literal {x : Double} (h : x ≠ .nan) : Datum.ofAtom x.literal = .number x := by
  cases x with
  | nan => exact absurd rfl h
  | infinity negative => cases negative <;> decide
  | finite negative m => exact (finite negative m).ofAtom_text

end Double

namespace Token

def Scannable : Token → Prop
  | .atom text => text.toList ≠ [] ∧ ∀ c ∈ text.toList, isAtomChar c = true
  | _ => True

theorem isAtomChar_of_other {c : Char} (hopen : c ≠ '(') (hclose : c ≠ ')') (hquote : c ≠ '\'')
    (hblank : ¬ Text.isBlank c = true) : isAtomChar c = true := by
  simp [isAtomChar, hopen, hclose, hquote, hblank]

theorem scannable_of_mem_scan (cs : List Char) : ∀ t ∈ scan cs, t.Scannable := by
  fun_induction scan cs with
  | case1 => exact List.forall_mem_nil _
  | case2 cs ih => exact List.forall_mem_cons.2 ⟨trivial, ih⟩
  | case3 cs _ ih => exact List.forall_mem_cons.2 ⟨trivial, ih⟩
  | case4 cs _ _ ih => exact List.forall_mem_cons.2 ⟨trivial, ih⟩
  | case5 c cs _ _ _ _ ih => exact ih
  | case6 c cs hopen hclose hquote hblank ih =>
    refine List.forall_mem_cons.2 ⟨?_, ih⟩
    rw [Scannable, String.toList_ofList]
    have hfirst := isAtomChar_of_other hopen hclose hquote hblank
    exact ⟨List.cons_ne_nil _ _,
      List.forall_mem_cons.2 ⟨hfirst, fun c hc => List.mem_takeWhile_imp hc⟩⟩

def spaced (ts : List Token) : String := .ofList (ts.flatMap (fun t => t.text.toList ++ [' ']))

theorem tokenize_spaced {ts : List Token} (h : ∀ t ∈ ts, t.Scannable) :
    tokenize (spaced ts) = ts := by
  rw [tokenize, spaced, String.toList_ofList]
  induction ts with
  | nil => rw [List.flatMap_nil, scan]
  | cons t ts ih =>
    obtain ⟨ht, hts⟩ := List.forall_mem_cons.1 h
    rw [List.flatMap_cons, List.append_assoc, List.singleton_append]
    have hrest := scan_space (ts.flatMap (fun t => t.text.toList ++ [' ']))
    rw [ih hts] at hrest
    cases t with
    | openParen => exact (scan_openParen _).trans (congrArg _ hrest)
    | closeParen => exact (scan_closeParen _).trans (congrArg _ hrest)
    | quoteMark => exact (scan_quoteMark _).trans (congrArg _ hrest)
    | atom text =>
      have hends : EndsAtom (' ' :: ts.flatMap (fun t => t.text.toList ++ [' '])) := by
        simp [EndsAtom]
        decide
      exact (scan_atom ht.1 ht.2 hends).trans (congrArg _ hrest)

end Token

namespace Datum

open Reader

/-- Trees that a text can denote.  A dot heads no pair but the tail of one that `quote` heads, and
that pair holds nothing else; `quoted` says whether the tree is such a tail. -/
def Legible : (quoted : Bool) → Datum → Prop
  | _, nil => True
  | _, number x => x ≠ .nan
  | _, symbol name => IsName name
  | quoted, cons a d => (a = symbol "." → quoted = true ∧ d = nil) ∧ a.Legible false ∧
      d.Legible (a = symbol "quote")

theorem Legible.weaken {d : Datum} (h : d.Legible false) (quoted : Bool) : d.Legible quoted := by
  cases d with
  | cons a d => exact ⟨fun ha => absurd (h.1 ha).1 (by decide), h.2⟩
  | _ => exact h

theorem legible_list {items : List Datum} {tail : Datum} (hi : ∀ i ∈ items, i.Legible false)
    (hdot : ∀ i ∈ items, i ≠ symbol ".") (ht : tail.Legible false) (quoted : Bool) :
    (list items tail).Legible quoted := by
  induction items generalizing quoted with
  | nil => exact ht.weaken quoted
  | cons i items ih =>
    obtain ⟨hfirst, hi⟩ := List.forall_mem_cons.1 hi
    obtain ⟨hne, hdot⟩ := List.forall_mem_cons.1 hdot
    exact ⟨fun h => absurd h hne, hfirst, ih hi hdot _⟩

theorem isName_quote : IsName "quote" :=
  ⟨by decide, List.all_eq_true.1 (by decide), by
    rw [← Numeral.read?_isSome_iff]
    decide⟩

theorem Legible.quote {d : Datum} (h : d.Legible false) : d.quote.Legible false :=
  ⟨fun h => absurd h (by decide), isName_quote, fun _ => ⟨by simp, rfl⟩, h, trivial⟩

theorem legible_ofAtom {text : String} (h : (Token.atom text).Scannable) :
    (ofAtom text).Legible false := by
  unfold ofAtom
  split
  · next x hx =>
    obtain ⟨d, _, rfl⟩ := Option.map_eq_some_iff.1 hx
    exact Double.ofDecimal_ne_nan d
  · next hx =>
    refine ⟨h.1, h.2, fun hn => ?_⟩
    rw [← Numeral.read?_isSome_iff, hx] at hn
    cases hn

theorem eq_dot_of_ofAtom {text : String} (h : ofAtom text = symbol ".") : text = "." := by
  unfold ofAtom at h
  split at h
  · cases h
  · exact symbol.inj h

end Datum

namespace Reader

open Datum

theorem Derives.eq_dot {ts : List Token} (h : Derives ts (.symbol ".")) : ts = [dot] := by
  generalize hd : Datum.symbol "." = d at h
  cases h with
  | atom text => rw [eq_dot_of_ofAtom hd.symm]
  | quote => cases hd
  | list items => rcases items with _ | ⟨i, items⟩ <;> cases hd
  | dotted items _ _ hne =>
    obtain ⟨i, items, rfl⟩ := List.exists_cons_of_ne_nil hne
    cases hd

theorem Derives.head_ne_dot {ts : List Token} {d : Datum} (h : Derives ts d)
    (hd : d ≠ .symbol ".") : ts.head? ≠ some dot := by
  cases h with
  | atom text =>
    rintro ⟨⟩
    exact hd rfl
  | _ => simp

theorem Derives.legible {ts : List Token} {d : Datum} (h : Derives ts d)
    (hts : ∀ t ∈ ts, t.Scannable) : d.Legible false := by
  have parts : ∀ items : List (List Token × Datum), (∀ i ∈ items, Derives i.1 i.2) →
      (∀ i ∈ items, i.1.head? ≠ some dot) →
      (∀ i ∈ items, (∀ t ∈ i.1, t.Scannable) → i.2.Legible false) →
      (∀ t ∈ items.flatMap (·.1), t.Scannable) →
      (∀ d ∈ items.map (·.2), d.Legible false) ∧ ∀ d ∈ items.map (·.2), d ≠ .symbol "." := by
    intro items hi hdot ih hts
    rw [List.forall_mem_map, List.forall_mem_map]
    refine ⟨fun i hmem => ih i hmem fun t ht => hts t (List.mem_flatMap.2 ⟨i, hmem, ht⟩), ?_⟩
    intro i hmem hd
    have hdots := (hd ▸ hi i hmem).eq_dot
    exact hdot i hmem (by rw [hdots, List.head?_cons])
  induction h with
  | atom text => exact legible_ofAtom (hts _ (List.mem_singleton.2 rfl))
  | quote _ ih => exact (ih (List.forall_mem_cons.1 hts).2).quote
  | list items hi hdot ih =>
    obtain ⟨hts, _⟩ := List.forall_mem_append.1 hts
    obtain ⟨hlegible, hne⟩ := parts items hi hdot ih (List.forall_mem_cons.1 hts).2
    exact legible_list hlegible hne (show nil.Legible false from trivial) false
  | dotted items hi hdot _ _ ih iht =>
    obtain ⟨hts, _⟩ := List.forall_mem_append.1 hts
    obtain ⟨hts, htail⟩ := List.forall_mem_append.1 hts
    obtain ⟨hlegible, hne⟩ := parts items hi hdot ih (List.forall_mem_cons.1 hts).2
    exact legible_list hlegible hne (iht (List.forall_mem_cons.1 htail).2) false

end Reader

namespace Datum

open Reader

def loneDot : Datum := cons (symbol ".") nil

def spelling : Datum → List Token
  | nil => [.openParen, .closeParen]
  | number x => [.atom x.literal]
  | symbol name => [.atom name]
  | cons a d =>
    if a = symbol "quote" ∧ d = loneDot then [.quoteMark, dot]
    else .openParen :: a.spelling ++ dot :: d.spelling ++ [.closeParen]

theorem Legible.ne_loneDot {d : Datum} (h : d.Legible false) : d ≠ loneDot := by
  rintro rfl
  exact absurd (h.1 rfl).1 (by decide)

theorem scannable_text (x : Double) : (Token.atom x.text).Scannable := by
  rw [Token.Scannable, x.toList_text]
  exact ⟨x.textEnding_ne_nil, x.isAtomChar_textEnding⟩

theorem scannable_literal (x : Double) : (Token.atom x.literal).Scannable := by
  cases x with
  | infinity negative => cases negative <;> exact ⟨by decide, List.all_eq_true.1 (by decide)⟩
  | nan => exact scannable_text .nan
  | finite negative m => exact scannable_text (.finite negative m)

theorem scannable_spelling {d : Datum} {quoted : Bool} (h : d.Legible quoted) :
    ∀ t ∈ d.spelling, t.Scannable := by
  have hdot : dot.Scannable := ⟨by decide, List.all_eq_true.1 (by decide)⟩
  have hclose : Token.closeParen.Scannable := trivial
  induction d generalizing quoted with
  | nil => exact List.forall_mem_cons.2 ⟨trivial, List.forall_mem_singleton.2 hclose⟩
  | number x => exact List.forall_mem_singleton.2 (scannable_literal x)
  | symbol name => exact List.forall_mem_singleton.2 ⟨h.nonempty, h.chars⟩
  | cons a d iha ihd =>
    rw [spelling]
    split
    · exact List.forall_mem_cons.2 ⟨trivial, List.forall_mem_singleton.2 hdot⟩
    · rw [List.forall_mem_append, List.forall_mem_append, List.forall_mem_cons,
        List.forall_mem_cons]
      exact ⟨⟨⟨trivial, iha h.2.1⟩, hdot, ihd h.2.2⟩, List.forall_mem_singleton.2 hclose⟩

theorem derives_spelling {d : Datum} {quoted : Bool} (h : d.Legible quoted) (hdot : d ≠ loneDot) :
    Derives d.spelling d := by
  induction d generalizing quoted with
  | nil => exact .list [] (List.forall_mem_nil _) (List.forall_mem_nil _)
  | number x =>
    have hx := Derives.atom x.literal
    rwa [Double.ofAtom_literal h] at hx
  | symbol name =>
    have hname := Derives.atom name
    rwa [ofAtom_name h] at hname
  | cons a d iha ihd =>
    obtain ⟨hhead, ha, hd⟩ := h
    rw [spelling]
    split
    · next hquote =>
      obtain ⟨rfl, rfl⟩ := hquote
      exact .quote (.atom ".")
    · next hquote =>
      have hne : a ≠ symbol "." := by
        rintro rfl
        exact hdot (congrArg _ (hhead rfl).2)
      -- After any other head than `quote`, a dot may not begin the tail.
      have htail : d ≠ loneDot := by
        rintro rfl
        exact hquote ⟨of_decide_eq_true (hd.1 rfl).1, rfl⟩
      have hitem := iha ha ha.ne_loneDot
      have hpair := Derives.dotted [(a.spelling, a)] (List.forall_mem_singleton.2 hitem)
        (List.forall_mem_singleton.2 (hitem.head_ne_dot hne)) (List.cons_ne_nil _ _) (ihd hd htail)
      simpa [list] using hpair

theorem derives_of_parse {limit : Nat} {source : String} {d : Datum}
    (h : parse limit source = .ok d) : Derives (tokenize source) d := by
  rw [parse] at h
  cases hread : (Cursor.start (tokenize source)).read limit with
  | mk x next =>
    obtain e | e := x
    · simp [hread] at h
    · obtain ⟨used, rest, hts, hused, rfl⟩ := derives_of_resume hread
      cases rest with
      | nil =>
        simp only [hread, Cursor.peek, List.head?_nil, Except.ok.injEq] at h
        subst h
        rwa [show tokenize source = used by simpa [Cursor.start] using hts]
      | cons t rest => simp [hread, Cursor.peek] at h

/-- A tree is read from some text, given depth enough, exactly if it is legible. -/
theorem reads_iff_legible (d : Datum) :
    ((∃ source limit, parse limit source = .ok d) ↔ d.Legible false) ∧
    ((∃ source least, ∀ limit, least ≤ limit → parse limit source = .ok d) ↔ d.Legible false) := by
  have hread : ∀ source limit, parse limit source = .ok d → d.Legible false := by
    intro source limit h
    exact (derives_of_parse h).legible (Token.scannable_of_mem_scan _)
  have hwrite : d.Legible false →
      ∃ source least, ∀ limit, least ≤ limit → parse limit source = .ok d := by
    intro h
    have hscan := Token.tokenize_spaced (scannable_spelling h)
    have hderives := derives_spelling h h.ne_loneDot
    rw [← hscan] at hderives
    exact ⟨_, _, fun limit hl => parse_of_derives hderives hl⟩
  refine ⟨⟨fun ⟨source, limit, h⟩ => hread source limit h, fun h => ?_⟩,
    ⟨fun ⟨source, least, h⟩ => hread source least (h least (Nat.le_refl least)), hwrite⟩⟩
  obtain ⟨source, least, h⟩ := hwrite h
  exact ⟨source, least, h least (Nat.le_refl least)⟩

end Datum
end MiniLisp
