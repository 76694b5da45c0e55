import MiniLisp.Reader

/-!
The grammar of expressions over tokens.  Reading is its recognizer: `resume_of_derives` says that an
expression is read whatever follows it, and `derives_of_resume` that nothing else is read.
-/
set_option autoImplicit false

namespace MiniLisp.Reader

abbrev dot : Token := .atom "."

/-- Tokens that are an expression, with what it denotes.  An item of a list is an expression that
does not begin with a dot; it comes with its tokens. -/
inductive Derives : List Token → Datum → Prop where
  | atom (text : String) : Derives [.atom text] (.ofAtom text)
  | quote {ts : List Token} {d : Datum} : Derives ts d → Derives (.quoteMark :: ts) d.quote
  | list (items : List (List Token × Datum)) :
      (∀ i ∈ items, Derives i.1 i.2) → (∀ i ∈ items, i.1.head? ≠ some dot) →
      Derives (.openParen :: items.flatMap (·.1) ++ [.closeParen]) (.list (items.map (·.2)) .nil)
  | dotted (items : List (List Token × Datum)) {ts : List Token} {d : Datum} :
      (∀ i ∈ items, Derives i.1 i.2) → (∀ i ∈ items, i.1.head? ≠ some dot) → items ≠ [] →
      Derives ts d →
      Derives (.openParen :: items.flatMap (·.1) ++ dot :: ts ++ [.closeParen])
        (.list (items.map (·.2)) d)

theorem Derives.ne_nil {ts : List Token} {d : Datum} (h : Derives ts d) : ts ≠ [] := by
  cases h <;> simp

def resumeAfter (limit : Nat) (d : Datum) (stack : List Context) (index : Nat) (ts : List Token) :
    Except Error Datum × Cursor :=
  match deliver d stack with
  | .more q => resume limit q index ts
  | .complete d => (.ok d, ⟨index, ts⟩)
  | .failed e | .refused e => (.error e, ⟨index, ts⟩)

section

variable (limit : Nat) (d : Datum) (read : List Datum) (stack : List Context) (index : Nat)
  (ts : List Token)

@[simp] theorem resumeAfter_nil : resumeAfter limit d [] index ts = (.ok d, ⟨index, ts⟩) := rfl

@[simp] theorem resumeAfter_quoted :
    resumeAfter limit d (.quoted :: stack) index ts =
      resumeAfter limit d.quote stack index ts := rfl

@[simp] theorem resumeAfter_items :
    resumeAfter limit d (.items read :: stack) index ts =
      resume limit (.expression (.items (d :: read) :: stack)) index ts := rfl

@[simp] theorem resumeAfter_dotted :
    resumeAfter limit d (.dotted read :: stack) index ts =
      resume limit (.closing read d stack) index ts := rfl

end

theorem deliver_ne_refused (stack : List Context) (d : Datum) (e : Error) :
    deliver d stack ≠ .refused e := by
  induction stack generalizing d with
  | nil => simp [deliver]
  | cons c stack ih => cases c <;> simp [deliver, ih]

theorem resume_deliver {limit index : Nat} {p : Pending} {t : Token} {d : Datum}
    {stack : List Context} (h : step limit index p t = deliver d stack) (ts : List Token) :
    resume limit p index (t :: ts) = resumeAfter limit d stack (index + 1) ts := by
  rw [resume, h, resumeAfter]
  cases hd : deliver d stack with
  | refused e => exact absurd hd (deliver_ne_refused stack d e)
  | _ => rfl

theorem resume_enter {limit index : Nat} {p : Pending} {t : Token} (c : Context)
    (stack : List Context) (h : step limit index p t = enter limit c stack)
    (hd : depth (c :: stack) < limit) (ts : List Token) :
    resume limit p index (t :: ts) = resume limit (.expression (c :: stack)) (index + 1) ts := by
  rw [resume, h, enter, if_pos hd]

theorem resume_enter_ok {limit index : Nat} {p : Pending} {t : Token} (c : Context)
    (stack : List Context) {ts : List Token} {D : Datum} {next : Cursor}
    (h : step limit index p t = enter limit c stack)
    (hr : resume limit p index (t :: ts) = (.ok D, next)) :
    resume limit (.expression (c :: stack)) (index + 1) ts = (.ok D, next) := by
  by_cases hd : depth (c :: stack) < limit
  · rw [← resume_enter c stack h hd]; exact hr
  · rw [resume, h, enter, if_neg hd] at hr
    simp at hr

/-- The tokens can begin the next expression where a list may want another item. -/
def Fits : List Context → List Token → Prop
  | .items _ :: _, ts => ts.head? ≠ some dot
  | _, _ => True

theorem fits_iff {stack : List Context} {ts : List Token} : Fits stack ts ↔
    ∀ read below, stack = .items read :: below → ts.head? ≠ some dot := by
  cases stack with
  | nil => simp [Fits]
  | cons context below => cases context <;> simp [Fits]

/-- The tokens are read as `d` wherever they stand, if there is room for three levels a token. -/
def Reads (used : List Token) (d : Datum) : Prop :=
  ∀ (limit index : Nat) (stack : List Context) (rest : List Token),
    depth stack + 3 * used.length ≤ limit → Fits stack used →
    resume limit (.expression stack) index (used ++ rest) =
      resumeAfter limit d stack (index + used.length) rest

theorem step_atom {stack : List Context} {text : String} (h : Fits stack [.atom text])
    (limit index : Nat) :
    step limit index (.expression stack) (.atom text) = deliver (.ofAtom text) stack := by
  cases stack with
  | nil => rfl
  | cons context below =>
    cases context with
    | items read =>
      have ht : text ≠ "." := by simpa [Fits] using h
      simp [step, ht]
    | _ => rfl

theorem resume_items {items : List (List Token × Datum)} {limit : Nat} {stack : List Context}
    (hr : ∀ i ∈ items, Reads i.1 i.2) (hd : ∀ i ∈ items, i.1.head? ≠ some dot)
    (read : List Datum) (index : Nat) (rest : List Token)
    (hl : depth (.items read :: stack) + 3 * (items.flatMap (·.1)).length ≤ limit) :
    resume limit (.expression (.items read :: stack)) index (items.flatMap (·.1) ++ rest) =
      resume limit (.expression (.items ((items.map (·.2)).reverse ++ read) :: stack))
        (index + (items.flatMap (·.1)).length) rest := by
  induction items generalizing read index with
  | nil => rfl
  | cons i items ih =>
    simp only [depth, Context.levels, List.flatMap_cons, List.length_append] at hl ih ⊢
    have hfirst := hr i (by simp) limit index (.items read :: stack) (items.flatMap (·.1) ++ rest)
      (by simp only [depth, Context.levels]; omega) (hd i (by simp))
    rw [List.append_assoc, hfirst, resumeAfter_items,
      ih (fun j hj => hr j (by simp [hj])) (fun j hj => hd j (by simp [hj])) _ _ (by omega)]
    simp [Nat.add_assoc]

theorem resume_list {items : List (List Token × Datum)} {limit : Nat} {stack : List Context}
    (hr : ∀ i ∈ items, Reads i.1 i.2) (hd : ∀ i ∈ items, i.1.head? ≠ some dot)
    (index : Nat) (rest : List Token)
    (hl : depth (.items [] :: stack) + 3 * (items.flatMap (·.1)).length ≤ limit) :
    resume limit (.expression (.items [] :: stack)) index
        (items.flatMap (·.1) ++ .closeParen :: rest) =
      resumeAfter limit (.list (items.map (·.2)) .nil) stack
        (index + (items.flatMap (·.1)).length + 1) rest := by
  rw [resume_items hr hd [] index _ hl]
  exact resume_deliver (by simp [step]) rest

theorem resume_dotted {items : List (List Token × Datum)} {limit : Nat} {stack : List Context}
    {ts : List Token} {d : Datum} (hr : ∀ i ∈ items, Reads i.1 i.2)
    (hd : ∀ i ∈ items, i.1.head? ≠ some dot) (hi : items ≠ []) (ht : Reads ts d)
    (index : Nat) (rest : List Token)
    (hl : depth (.items [] :: stack) + 3 * ((items.flatMap (·.1)).length + ts.length + 1) ≤ limit) :
    resume limit (.expression (.items [] :: stack)) index
        (items.flatMap (·.1) ++ dot :: (ts ++ .closeParen :: rest)) =
      resumeAfter limit (.list (items.map (·.2)) d) stack
        (index + (items.flatMap (·.1)).length + 1 + ts.length + 1) rest := by
  simp only [depth, Context.levels] at hl
  have hread : (items.map (·.2)).reverse ++ [] ≠ [] := by simpa using hi
  rw [resume_items hr hd [] index _ (by simp only [depth, Context.levels]; omega)]
  rw [resume_enter (.dotted _) stack (by simp only [step, if_neg hread]; rfl)
    (by simp only [depth, Context.levels]; omega)]
  rw [ht limit _ (.dotted _ :: stack) _ (by simp only [depth, Context.levels]; omega) trivial,
    resumeAfter_dotted]
  exact resume_deliver (by simp [step]) rest

theorem resume_of_derives {used : List Token} {d : Datum} (h : Derives used d) : Reads used d := by
  induction h with
  | atom text =>
    intro limit index stack rest _ hf
    exact resume_deliver (step_atom hf limit index) rest
  | @quote ts d _ ih =>
    intro limit index stack rest hl _
    simp only [List.length_cons] at hl
    rw [List.cons_append, resume_enter .quoted stack rfl
      (by simp only [depth, Context.levels]; omega),
      ih limit _ (.quoted :: stack) _ (by simp only [depth, Context.levels]; omega) trivial,
      resumeAfter_quoted]
    congr 1
    simp only [List.length_cons]
    omega
  | list items _ hd ih =>
    intro limit index stack rest hl _
    simp only [List.length_append, List.length_cons, List.length_nil] at hl
    rw [List.append_assoc, List.cons_append, resume_enter (.items []) stack rfl
      (by simp only [depth, Context.levels]; omega)]
    rw [List.singleton_append, resume_list ih hd _ _ (by simp only [depth, Context.levels]; omega)]
    congr 1
    simp only [List.length_append, List.length_cons, List.length_nil]
    omega
  | @dotted items ts d _ hd hi _ ih iht =>
    intro limit index stack rest hl _
    simp only [List.length_append, List.length_cons, List.length_nil] at hl
    have hts : Token.openParen :: items.flatMap (·.1) ++ dot :: ts ++ [.closeParen] ++ rest =
        .openParen :: (items.flatMap (·.1) ++ dot :: (ts ++ .closeParen :: rest)) := by simp
    rw [hts, resume_enter (.items []) stack rfl
      (by simp only [depth, Context.levels]; omega)]
    rw [resume_dotted ih hd hi iht _ _ (by simp only [depth, Context.levels]; omega)]
    congr 1
    simp only [List.length_append, List.length_cons, List.length_nil]
    omega

/-- The tokens that finish a list after the items in `read`, newest first, with what the list
denotes. -/
inductive Closes : List Datum → List Token → Datum → Prop where
  | close (read : List Datum) : Closes read [.closeParen] (.list read.reverse .nil)
  | dotted {read : List Datum} {ts : List Token} {d : Datum} : read ≠ [] → Derives ts d →
      Closes read (dot :: ts ++ [.closeParen]) (.list read.reverse d)
  | item {read : List Datum} {ts us : List Token} {d e : Datum} : Derives ts d →
      ts.head? ≠ some dot → Closes (d :: read) us e → Closes read (ts ++ us) e

theorem derives_of_closes {read : List Datum} {used : List Token} {e : Datum}
    (h : Closes read used e) : ∀ items : List (List Token × Datum),
      (∀ i ∈ items, Derives i.1 i.2) → (∀ i ∈ items, i.1.head? ≠ some dot) →
      read = (items.map (·.2)).reverse → Derives (.openParen :: items.flatMap (·.1) ++ used) e := by
  induction h with
  | close read =>
    rintro items hi hd rfl
    rw [List.reverse_reverse]
    exact .list items hi hd
  | @dotted read ts d hr ht =>
    rintro items hi hd rfl
    rw [List.reverse_reverse, List.cons_append, ← List.append_assoc]
    simpa using Derives.dotted items hi hd (by simpa using hr) ht
  | @item read ts us d e ht hdot _ ih =>
    rintro items hi hd rfl
    have hi : ∀ i ∈ items ++ [(ts, d)], Derives i.1 i.2 :=
      List.forall_mem_append.2 ⟨hi, List.forall_mem_singleton.2 ht⟩
    have hd : ∀ i ∈ items ++ [(ts, d)], i.1.head? ≠ some dot :=
      List.forall_mem_append.2 ⟨hd, List.forall_mem_singleton.2 hdot⟩
    simpa using ih (items ++ [(ts, d)]) hi hd (by simp)

section

variable {limit : Nat} {D : Datum} {next : Cursor}

/-- An expression leads `ts`, and reading goes on behind it to the end that `D` and `next` tell. -/
def ReadsFirst (limit index : Nat) (stack : List Context) (ts : List Token) (D : Datum)
    (next : Cursor) : Prop :=
  ∃ used d rest, ts = used ++ rest ∧ Derives used d ∧
    resumeAfter limit d stack (index + used.length) rest = (.ok D, next)

def ReadsRest (limit index : Nat) (read : List Datum) (stack : List Context) (ts : List Token)
    (D : Datum) (next : Cursor) : Prop :=
  ∃ used d rest, ts = used ++ rest ∧ Closes read used d ∧
    resumeAfter limit d stack (index + used.length) rest = (.ok D, next)

theorem readsRest_of_readsFirst {index : Nat} {read : List Datum} {stack : List Context}
    {ts : List Token} (hd : ts.head? ≠ some dot)
    (h : ReadsFirst limit index (.items read :: stack) ts D next)
    (ih : ∀ (d : Datum) (index : Nat) (rest : List Token), rest.length < ts.length →
      resume limit (.expression (.items (d :: read) :: stack)) index rest = (.ok D, next) →
      ReadsRest limit index (d :: read) stack rest D next) :
    ReadsRest limit index read stack ts D next := by
  obtain ⟨used, d, rest, rfl, hu, hr⟩ := h
  obtain ⟨t, used, rfl⟩ := List.exists_cons_of_ne_nil hu.ne_nil
  have hlt : rest.length < (t :: used ++ rest).length := by
    rw [List.length_append, List.length_cons]
    omega
  obtain ⟨vs, e, rest, rfl, hv, hr⟩ := ih d _ rest hlt hr
  refine ⟨t :: used ++ vs, e, rest, by simp, .item hu (by simpa using hd) hv, ?_⟩
  rwa [List.length_append, ← Nat.add_assoc]

theorem readsRest_of_dotted {index : Nat} {read : List Datum} {stack : List Context}
    {ts : List Token} (hr : read ≠ [])
    (h : ReadsFirst limit (index + 1) (.dotted read :: stack) ts D next) :
    ReadsRest limit index read stack (dot :: ts) D next := by
  obtain ⟨used, d, rest, rfl, hu, hres⟩ := h
  rw [resumeAfter_dotted] at hres
  match rest with
  | [] => simp [resume] at hres
  | .openParen :: _ | .quoteMark :: _ | .atom _ :: _ => simp [resume, step] at hres
  | .closeParen :: rest =>
    rw [resume_deliver rfl] at hres
    refine ⟨dot :: used ++ [.closeParen], _, rest, by simp, .dotted hr hu, ?_⟩
    simp only [List.length_append, List.length_cons, List.length_nil]
    rw [← hres]
    congr 1
    omega

theorem readsFirst_of_resume {index n : Nat} {stack : List Context} {ts : List Token}
    (hn : ts.length ≤ n + 1) (hf : Fits stack ts)
    (hc : ∀ read below, stack = .items read :: below → ts.head? ≠ some .closeParen)
    (ih : ∀ (stack : List Context) (index : Nat) (ts : List Token), ts.length ≤ n →
      (∀ read below, stack ≠ .items read :: below) →
      resume limit (.expression stack) index ts = (.ok D, next) →
      ReadsFirst limit index stack ts D next)
    (ihr : ∀ (stack : List Context) (index : Nat) (ts : List Token), ts.length ≤ n →
      resume limit (.expression (.items [] :: stack)) index ts = (.ok D, next) →
      ReadsRest limit index [] stack ts D next)
    (h : resume limit (.expression stack) index ts = (.ok D, next)) :
    ReadsFirst limit index stack ts D next := by
  cases ts with
  | nil => simp [resume] at h
  | cons t ts =>
    cases t with
    | atom text =>
      have hf : Fits stack [.atom text] := by
        rw [fits_iff] at hf ⊢
        exact hf
      rw [resume_deliver (step_atom hf limit index)] at h
      exact ⟨[.atom text], _, ts, rfl, .atom text, h⟩
    | quoteMark =>
      have h := resume_enter_ok .quoted stack rfl h
      obtain ⟨used, d, rest, rfl, hu, hr⟩ :=
        ih (.quoted :: stack) _ ts (by simpa using hn) (by simp) h
      refine ⟨.quoteMark :: used, d.quote, rest, rfl, .quote hu, ?_⟩
      rwa [List.length_cons, ← Nat.add_assoc, Nat.add_right_comm]
    | openParen =>
      have h := resume_enter_ok (.items []) stack rfl h
      obtain ⟨used, d, rest, rfl, hu, hr⟩ := ihr stack _ ts (by simpa using hn) h
      refine ⟨.openParen :: used, d, rest, rfl, ?_, ?_⟩
      · simpa using derives_of_closes hu [] (by simp) (by simp) rfl
      · rwa [List.length_cons, ← Nat.add_assoc, Nat.add_right_comm]
    | closeParen =>
      cases stack with
      | nil => simp [resume, step] at h
      | cons context below =>
        cases context with
        | items read => exact absurd rfl (hc read below rfl)
        | _ => simp [resume, step] at h

/-- The induction is on the number of tokens; both statements go through it together, since lists
hold expressions and these begin lists. -/
theorem reads_of_resume (n : Nat) :
    (∀ (stack : List Context) (index : Nat) (ts : List Token), ts.length ≤ n →
      (∀ read below, stack ≠ .items read :: below) →
      resume limit (.expression stack) index ts = (.ok D, next) →
      ReadsFirst limit index stack ts D next) ∧
    ∀ (read : List Datum) (stack : List Context) (index : Nat) (ts : List Token), ts.length ≤ n →
      resume limit (.expression (.items read :: stack)) index ts = (.ok D, next) →
      ReadsRest limit index read stack ts D next := by
  induction n with
  | zero =>
    constructor
    · intro stack index ts hn _ h
      simp [List.length_eq_zero_iff.1 (Nat.le_zero.1 hn), resume] at h
    · intro read stack index ts hn h
      simp [List.length_eq_zero_iff.1 (Nat.le_zero.1 hn), resume] at h
  | succ n ih =>
    obtain ⟨ihf, ihr⟩ := ih
    constructor
    · intro stack index ts hn hs h
      have hf : Fits stack ts := fits_iff.2 fun read below hb => absurd hb (hs read below)
      exact readsFirst_of_resume hn hf (fun read below hb => absurd hb (hs read below)) ihf
        (ihr []) h
    · intro read stack index ts hn h
      by_cases hdot : ts.head? = some dot
      · obtain ⟨ts, rfl⟩ := List.head?_eq_some_iff.1 hdot
        by_cases hr : read = []
        · simp [resume, step, hr] at h
        · have h := resume_enter_ok (.dotted read) stack (by simp [step, hr]) h
          exact readsRest_of_dotted hr (ihf _ _ ts (by simpa using hn) (by simp) h)
      · by_cases hclose : ts.head? = some .closeParen
        · obtain ⟨ts, rfl⟩ := List.head?_eq_some_iff.1 hclose
          rw [resume_deliver (d := .list read.reverse .nil) rfl] at h
          exact ⟨[.closeParen], _, ts, rfl, .close read, h⟩
        · have hf : ReadsFirst limit index (.items read :: stack) ts D next :=
            readsFirst_of_resume hn hdot (fun _ _ _ => hclose) ihf (ihr []) h
          exact readsRest_of_readsFirst hdot hf (fun d index rest hl =>
            ihr (d :: read) stack index rest (by omega))

theorem derives_of_resume {index : Nat} {ts : List Token}
    (h : resume limit (.expression []) index ts = (.ok D, next)) :
    ∃ used rest, ts = used ++ rest ∧ Derives used D ∧ next = ⟨index + used.length, rest⟩ := by
  obtain ⟨used, d, rest, rfl, hu, hr⟩ :=
    (reads_of_resume ts.length).1 [] index ts (Nat.le_refl _) (by simp) h
  cases hr
  exact ⟨used, rest, rfl, hu, rfl⟩

theorem derives_of_resume_items {index : Nat} {ts : List Token}
    (h : resume limit (.expression [.items []]) index ts = (.ok D, next)) :
    ∃ used rest, ts = used ++ rest ∧ Derives (.openParen :: used) D ∧
      next = ⟨index + used.length, rest⟩ := by
  obtain ⟨used, d, rest, rfl, hu, hr⟩ :=
    (reads_of_resume ts.length).2 [] [] index ts (Nat.le_refl _) h
  cases hr
  exact ⟨used, rest, rfl, by simpa using derives_of_closes hu [] (by simp) (by simp) rfl, rfl⟩

end

end MiniLisp.Reader
