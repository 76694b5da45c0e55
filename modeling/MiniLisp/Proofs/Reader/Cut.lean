import MiniLisp.Proofs.Reader.JoinedText
import MiniLisp.Proofs.Reader.Legible
import Mathlib.Data.List.Chain

/-!
A text is cut into tokens in one way only.  A cut takes the text apart without losing a character:
blanks first, then tokens with the blanks behind each, and two atoms never without a blank between
them.  Scanning yields such a cut (`cuts_scan`), and whatever is cut so is scanned so
(`scan_pieces`).  Hence texts can be scanned apart wherever no atom runs across the border
(`tokenize_spec`).
-/
set_option autoImplicit false

namespace MiniLisp
namespace Token

/-- Blanks, the parens and the quote mark, which no atom holds. -/
def Separates (c : Char) : Prop := Text.isBlank c = true ∨ c = '(' ∨ c = ')' ∨ c = '\''

def AllBlank (cs : List Char) : Prop := ∀ c ∈ cs, Text.isBlank c = true

def IsAtomText (cs : List Char) : Prop := cs ≠ [] ∧ ∀ c ∈ cs, ¬ Separates c

def IsTokenText (cs : List Char) : Prop :=
  cs = ['('] ∨ cs = [')'] ∨ cs = ['\''] ∨ IsAtomText cs

structure Piece where
  text : String
  gap : List Char
  isToken : IsTokenText text.toList
  blank : AllBlank gap

namespace Piece

def chars (p : Piece) : List Char := p.text.toList ++ p.gap

/-- One atom after another needs a blank between them. -/
def Apart (p q : Piece) : Prop :=
  IsAtomText p.text.toList → IsAtomText q.text.toList → p.gap ≠ []

end Piece

/-- The text is blanks, and then these tokens with blanks behind each. -/
def Cuts (cs : List Char) (ts : List String) : Prop :=
  ∃ (first : List Char) (pieces : List Piece), AllBlank first ∧ pieces.IsChain Piece.Apart ∧
    pieces.map (·.text) = ts ∧ first ++ pieces.flatMap (·.chars) = cs

/-- The tokens hold all of the text but its blanks, and the text is cut into them. -/
structure IsTokenization (source : String) (ts : List String) : Prop where
  tokens : ∀ t ∈ ts, IsTokenText t.toList
  visible : ts.flatMap (·.toList) = source.toList.filter (fun c => !Text.isBlank c)
  cut : Cuts source.toList ts

/-! ### Characters -/

theorem isAtomChar_eq_false_iff (c : Char) : isAtomChar c = false ↔ Separates c := by
  simp only [isAtomChar, Separates, Bool.and_eq_false_iff, Bool.not_eq_false', bne_eq_false_iff_eq]
  tauto

theorem isAtomChar_iff (c : Char) : isAtomChar c = true ↔ ¬ Separates c := by
  rw [← isAtomChar_eq_false_iff, Bool.not_eq_false]

theorem isBlank_of_not_separates {c : Char} (h : ¬ Separates c) : Text.isBlank c = false :=
  Bool.eq_false_iff.2 fun hc => h (.inl hc)

theorem IsTokenText.not_blank {cs : List Char} (h : IsTokenText cs) :
    ∀ c ∈ cs, Text.isBlank c = false := by
  obtain rfl | rfl | rfl | h := h
  · exact List.forall_mem_singleton.2 rfl
  · exact List.forall_mem_singleton.2 rfl
  · exact List.forall_mem_singleton.2 rfl
  · exact fun c hc => isBlank_of_not_separates (h.2 c hc)

theorem IsAtomText.not_endsAtom {cs : List Char} (h : IsAtomText cs) (rest : List Char) :
    ¬ EndsAtom (cs ++ rest) := by
  obtain ⟨c, cs, rfl⟩ := List.exists_cons_of_ne_nil h.1
  intro hend
  exact h.2 c (List.mem_cons_self ..) ((isAtomChar_eq_false_iff c).1 (hend c rfl))

theorem IsTokenText.endsAtom {cs : List Char} (h : IsTokenText cs) (hatom : ¬ IsAtomText cs)
    (rest : List Char) : EndsAtom (cs ++ rest) := by
  have hhead : ∀ c : Char, isAtomChar c = false → EndsAtom ([c] ++ rest) := by
    intro c hc x hx
    obtain rfl := Option.some.inj hx
    exact hc
  obtain rfl | rfl | rfl | h := h
  · exact hhead '(' (by decide)
  · exact hhead ')' (by decide)
  · exact hhead '\'' (by decide)
  · exact absurd h hatom

theorem AllBlank.endsAtom {w rest : List Char} (hw : AllBlank w) (h : w = [] → EndsAtom rest) :
    EndsAtom (w ++ rest) := by
  cases w with
  | nil => exact h rfl
  | cons c w =>
    intro x hx
    obtain rfl := Option.some.inj hx
    exact (isAtomChar_eq_false_iff c).2 (.inl (hw c (List.mem_cons_self ..)))

/-! ### The tokens of a cut -/

theorem scan_token {t : String} (ht : IsTokenText t.toList) {rest : List Char}
    (hr : IsAtomText t.toList → EndsAtom rest) :
    scan (t.toList ++ rest) = ofText t :: scan rest := by
  have hmark : ∀ mark : String, t.toList = mark.toList → t = mark := fun _ h => String.ext h
  rcases ht with h | h | h | h
  · obtain rfl := hmark "(" h
    exact scan_openParen rest
  · obtain rfl := hmark ")" h
    exact scan_closeParen rest
  · obtain rfl := hmark "'" h
    exact scan_quoteMark rest
  · have hne : ∀ c : Char, Separates c → t.toList ≠ [c] := fun c hc heq =>
      h.2 c (heq ▸ List.mem_singleton_self c) hc
    have hatom : ofText t = .atom t := by
      rw [ofText, if_neg, if_neg, if_neg]
      · rintro rfl
        exact hne '\'' (by simp [Separates]) rfl
      · rintro rfl
        exact hne ')' (by simp [Separates]) rfl
      · rintro rfl
        exact hne '(' (by simp [Separates]) rfl
    rw [hatom]
    exact scan_atom h.1 (fun c hc => (isAtomChar_iff c).2 (h.2 c hc)) (hr h)

theorem scan_pieces {pieces : List Piece} (h : pieces.IsChain Piece.Apart) :
    scan (pieces.flatMap (·.chars)) = pieces.map (fun p => ofText p.text) := by
  induction pieces with
  | nil => rw [List.flatMap_nil, scan, List.map_nil]
  | cons p ps ih =>
    obtain ⟨hnext, hps⟩ := List.isChain_cons.1 h
    have hends : IsAtomText p.text.toList → EndsAtom (p.gap ++ ps.flatMap (·.chars)) := by
      intro hp
      refine p.blank.endsAtom fun hgap => ?_
      cases ps with
      | nil => exact fun _ hc => by cases hc
      | cons q qs =>
        rw [List.flatMap_cons, Piece.chars, List.append_assoc]
        exact q.isToken.endsAtom (fun hq => hnext q rfl hp hq hgap) _
    rw [List.flatMap_cons, Piece.chars, List.append_assoc, scan_token p.isToken hends,
      scan_blanks p.blank, ih hps, List.map_cons]

theorem Cuts.scan_eq {cs : List Char} {ts : List String} (h : Cuts cs ts) :
    scan cs = ts.map ofText := by
  obtain ⟨first, pieces, hfirst, hapart, rfl, rfl⟩ := h
  rw [scan_blanks hfirst, scan_pieces hapart, List.map_map]
  rfl

theorem Cuts.visible {cs : List Char} {ts : List String} (h : Cuts cs ts) :
    ts.flatMap (·.toList) = cs.filter (fun c => !Text.isBlank c) := by
  obtain ⟨first, pieces, hfirst, -, rfl, rfl⟩ := h
  have hblank : ∀ {w : List Char}, AllBlank w → w.filter (fun c => !Text.isBlank c) = [] := by
    intro w hw
    exact List.filter_eq_nil_iff.2 fun c hc => by simp [hw c hc]
  rw [List.filter_append, hblank hfirst, List.nil_append, List.filter_flatMap, List.flatMap_map]
  congr 1
  funext p
  rw [Piece.chars, List.filter_append, hblank p.blank, List.append_nil, List.filter_eq_self.2]
  intro c hc
  rw [p.isToken.not_blank c hc]
  rfl

theorem Cuts.tokens {cs : List Char} {ts : List String} (h : Cuts cs ts) :
    ∀ t ∈ ts, IsTokenText t.toList := by
  obtain ⟨first, pieces, -, -, rfl, -⟩ := h
  exact List.forall_mem_map.2 fun p _ => p.isToken

/-! ### Scanning cuts -/

theorem Cuts.nil : Cuts [] [] := ⟨[], [], List.forall_mem_nil _, .nil, rfl, rfl⟩

theorem Cuts.blank {c : Char} {cs : List Char} {ts : List String} (hc : Text.isBlank c = true)
    (h : Cuts cs ts) : Cuts (c :: cs) ts := by
  obtain ⟨first, pieces, hfirst, hapart, rfl, rfl⟩ := h
  exact ⟨c :: first, pieces, List.forall_mem_cons.2 ⟨hc, hfirst⟩, hapart, rfl, rfl⟩

theorem Cuts.token {t : String} (ht : IsTokenText t.toList) {cs : List Char} {ts : List String}
    (hr : IsAtomText t.toList → EndsAtom cs) (h : Cuts cs ts) :
    Cuts (t.toList ++ cs) (t :: ts) := by
  obtain ⟨first, pieces, hfirst, hapart, rfl, rfl⟩ := h
  refine ⟨[], ⟨t, first, ht, hfirst⟩ :: pieces, List.forall_mem_nil _, ?_, rfl, ?_⟩
  · refine List.isChain_cons.2 ⟨?_, hapart⟩
    -- Had the next atom no blank before it, it would begin where this one ends.
    rintro q hq hp hatom rfl
    obtain ⟨qs, rfl⟩ := List.head?_eq_some_iff.1 hq
    refine hatom.not_endsAtom (q.gap ++ qs.flatMap (·.chars)) ?_
    simpa [Piece.chars] using hr hp
  · simp [Piece.chars]

theorem isAtomText_takeWhile {c : Char} (hc : isAtomChar c = true) (cs : List Char) :
    IsAtomText (c :: cs.takeWhile isAtomChar) :=
  ⟨List.cons_ne_nil _ _, List.forall_mem_cons.2 ⟨(isAtomChar_iff c).1 hc,
    fun _ hx => (isAtomChar_iff _).1 (List.mem_takeWhile_imp hx)⟩⟩

theorem cuts_scan (cs : List Char) : Cuts cs ((scan cs).map text) := by
  have hmark : ∀ (mark : String) {c : Char} {cs : List Char} {ts : List String},
      mark.toList = [c] → IsTokenText [c] → Separates c → Cuts cs ts →
        Cuts (c :: cs) (mark :: ts) := by
    intro mark c cs ts hmark ht hc hcut
    have htoken := Cuts.token (hmark ▸ ht) (fun hatom => ?_) hcut
    · rwa [hmark] at htoken
    · rw [hmark] at hatom
      exact absurd hc (hatom.2 c (List.mem_singleton_self c))
  fun_induction scan cs with
  | case1 => exact .nil
  | case2 cs ih => exact hmark "(" rfl (.inl rfl) (.inr (.inl rfl)) ih
  | case3 cs _ ih =>
    exact hmark ")" rfl (.inr (.inl rfl)) (.inr (.inr (.inl rfl))) ih
  | case4 cs _ _ ih =>
    exact hmark "'" rfl (.inr (.inr (.inl rfl))) (.inr (.inr (.inr rfl))) ih
  | case5 c cs _ _ _ hblank ih => exact ih.blank hblank
  | case6 c cs hopen hclose hquote hblank ih =>
    have hatom := isAtomText_takeWhile (isAtomChar_of_other hopen hclose hquote hblank) cs
    have hends : EndsAtom (cs.dropWhile isAtomChar) := by
      intro x hx
      have hhead := List.head?_dropWhile_not isAtomChar cs
      rw [hx] at hhead
      exact hhead
    have hcut := Cuts.token (t := .ofList (c :: cs.takeWhile isAtomChar))
      (by rw [String.toList_ofList]; exact .inr (.inr (.inr hatom))) (fun _ => hends) ih
    rwa [String.toList_ofList, List.cons_append, List.takeWhile_append_dropWhile] at hcut

/-! ### Texts -/

theorem isTokenization_iff (source : String) (ts : List String) :
    IsTokenization source ts ↔ ts = (tokenize source).map text := by
  constructor
  · intro h
    have htexts : (ts.map ofText).map text = ts := by
      rw [List.map_map]
      exact (List.map_congr_left fun t _ => ofText_text t).trans (List.map_id ts)
    rw [tokenize, h.cut.scan_eq, htexts]
  · rintro rfl
    have hcut := cuts_scan source.toList
    exact ⟨hcut.tokens, hcut.visible, hcut⟩

theorem tokenize_token {t : String} (ht : IsTokenText t.toList) : tokenize t = [ofText t] := by
  have hscan := @scan_token t ht [] (fun _ _ hc => by cases hc)
  rw [List.append_nil, scan] at hscan
  exact hscan

theorem tokenize_intercalate {ts : List String} (h : ∀ t ∈ ts, IsTokenText t.toList) :
    tokenize (" ".intercalate ts) = ts.map ofText := by
  induction ts with
  | nil => exact scan.eq_1
  | cons t ts ih =>
    obtain ⟨ht, hts⟩ := List.forall_mem_cons.1 h
    cases ts with
    | nil => exact tokenize_token ht
    | cons u us =>
      rw [String.intercalate_cons_cons,
        tokenize_joined (by decide) (List.all_eq_true.1 (by decide)), tokenize_token ht, ih hts]
      rfl

theorem ofText_text_of_mem {source : String} {t : Token} (h : t ∈ tokenize source) :
    ofText t.text = t := by
  have hscan := (cuts_scan source.toList).scan_eq
  rw [List.map_map] at hscan
  exact (List.map_inj_left.1 (hscan.symm.trans (List.map_id _).symm) t h)

theorem scan_append_of_separates {c : Char} (hc : Separates c) (cs rest : List Char) :
    scan (cs ++ [c] ++ rest) = scan (cs ++ [c]) ++ scan rest := by
  have hends : ∀ rest, EndsAtom ([c] ++ rest) := by
    intro rest x hx
    obtain rfl := Option.some.inj hx
    exact (isAtomChar_eq_false_iff c).2 hc
  have hone : scan ([c] ++ rest) = scan [c] ++ scan rest := by
    obtain hblank | rfl | rfl | rfl := hc
    · have hw : ∀ x ∈ [c], Text.isBlank x = true := List.forall_mem_singleton.2 hblank
      have hnone := scan_blanks hw []
      rw [List.append_nil, scan] at hnone
      rw [scan_blanks hw, hnone, List.nil_append]
    · rw [List.singleton_append, scan_openParen, scan_openParen, scan, List.singleton_append]
    · rw [List.singleton_append, scan_closeParen, scan_closeParen, scan, List.singleton_append]
    · rw [List.singleton_append, scan_quoteMark, scan_quoteMark, scan, List.singleton_append]
  rw [List.append_assoc, scan_append cs (hends rest), hone,
    scan_append cs (show EndsAtom [c] from hends []), List.append_assoc]

theorem tokenize_append {a w b : String} (hw : AllBlank w.toList)
    (h : w ≠ "" ∨ (∃ c ∈ a.toList.getLast?, Separates c) ∨ ∃ c ∈ b.toList.head?, Separates c) :
    tokenize (a ++ w ++ b) = tokenize a ++ tokenize b := by
  by_cases hne : w = ""
  · subst hne
    obtain hne | ⟨c, hlast, hc⟩ | ⟨c, hhead, hc⟩ := h
    · exact absurd rfl hne
    · obtain ⟨cs, hcs⟩ := List.getLast?_eq_some_iff.1 hlast
      have hscan := scan_append_of_separates hc cs b.toList
      rw [← hcs] at hscan
      simpa [tokenize] using hscan
    · have hends : EndsAtom b.toList := by
        intro x hx
        rw [hhead] at hx
        obtain rfl := Option.some.inj hx
        exact (isAtomChar_eq_false_iff c).2 hc
      simpa [tokenize] using scan_append a.toList hends
  · exact tokenize_joined hne hw a b

/-- A text has one tokenization, and scanning finds it.  Texts are scanned apart where blanks, a
paren or a quote mark stand at the border, and the tokens written with blanks between them are
scanned again. -/
theorem tokenize_spec :
    (∀ (source : String) (ts : List String),
      IsTokenization source ts ↔ ts = (tokenize source).map text) ∧
    (∀ source, tokenize (" ".intercalate ((tokenize source).map text)) = tokenize source) ∧
    ∀ a w b : String, AllBlank w.toList →
      (w ≠ "" ∨ (∃ c ∈ a.toList.getLast?, Separates c) ∨ ∃ c ∈ b.toList.head?, Separates c) →
      tokenize (a ++ w ++ b) = tokenize a ++ tokenize b := by
  refine ⟨isTokenization_iff, fun source => ?_, fun a w b => tokenize_append⟩
  have htokens := (cuts_scan source.toList).tokens
  rw [← tokenize] at htokens
  rw [tokenize_intercalate htokens, List.map_map]
  exact (List.map_congr_left fun t ht => ofText_text_of_mem ht).trans (List.map_id _)

end Token
end MiniLisp
