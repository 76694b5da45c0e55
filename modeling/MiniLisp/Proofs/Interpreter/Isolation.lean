import MiniLisp.Proofs.Interpreter.Session
import MiniLisp.Proofs.Rename.Evaluation

set_option autoImplicit false

namespace MiniLisp

open Store MiniLisp.Action

namespace Interpreter

def pair : Store := Store.empty.addGlobal.2.addGlobal.2

def globalOf (second : Bool) : FrameRef := if second then 1 else 0

structure Turn where
  second : Bool
  outcome : Outcome
  before : Store
  after : Store

def feedTurns (limit : Nat) : List (Bool × String) → Store → List Turn
  | [], _ => []
  | (second, line) :: rest, s =>
    let p := feed limit (globalOf second) line s
    ⟨second, p.1, s, p.2⟩ :: feedTurns limit rest p.2

/-- An outcome and the same one in a store that matches, up to the new names. -/
structure OutcomeEchoes (m : Matching) (s : Store) (p p' : Outcome × Store) : Prop where
  evolves : Evolves NoHook (fun _ _ => True) s p.2
  matched : p.2.Matches m p'.2
  values : AllRenamed m p.2 p.1.values p'.1.values
  error : p'.1.error = p.1.error

section

variable {ρ : Renaming} {s s' : Store} {frame : FrameRef} (limit : Nat)

theorem matches_load (hm : s.Matches (.ofNames ρ) s') (d : Datum) :
    (s.load d).2.Matches (.ofNames ρ) (s'.load d).2 ∧ (s'.load d).1 = (s.load d).1.rename ρ := by
  induction d generalizing s s' with
  | cons a d iha ihd =>
    obtain ⟨hma, hna⟩ := iha hm
    obtain ⟨hmd, hnd⟩ := ihd hma
    have ha : (s.load a).2.Admits NoHook (s.load a).1 :=
      (@evolves_load NoHook (fun _ _ => True) s a).2
    have hd := @evolves_load NoHook (fun _ _ => True) (s.load a).2 d
    obtain ⟨hmc, hnc, _⟩ := hmd.cons (knows_ofNames (ha.grows (Evolves.grows hd.1)))
      (knows_ofNames hd.2)
    rw [Matching.names_ofNames, ← hna, ← hnd] at hmc hnc
    exact ⟨hmc, hnc⟩
  | _ => exact ⟨hm, rfl⟩

theorem echoes_evaluate (hm : s.Matches (.ofNames ρ) s') (hf : frame < s.frames.size)
    (d : Datum) : Echoes (.ofNames ρ) (Renamed (.ofNames ρ)) s (evaluate limit frame d s)
      (evaluate limit (ρ.frame frame) d s') := by
  obtain ⟨hm', hname⟩ := matches_load hm d
  obtain ⟨hload, hadmits⟩ := @evolves_load NoHook (fun _ _ => True) s d
  have heval := echoes_eval limit hm' (code_ofNames hadmits)
    (located_ofNames (Nat.lt_of_lt_of_le hf (Evolves.grows hload).frames))
  rw [Matching.names_ofNames, ← hname] at heval
  exact heval.of_evolves hload

theorem echoes_evaluateAll (hm : s.Matches (.ofNames ρ) s') (hf : frame < s.frames.size)
    (ds : List Datum) : OutcomeEchoes (.ofNames ρ) s (evaluateAll limit frame ds s)
      (evaluateAll limit (ρ.frame frame) ds s') := by
  induction ds generalizing s s' with
  | nil => exact ⟨.refl, hm, ⟨rfl, List.forall_mem_nil _⟩, rfl⟩
  | cons d ds ih =>
    have hfirst := echoes_evaluate limit hm hf d
    rw [evaluateAll, evaluateAll]
    generalize evaluate limit frame d s = x at hfirst
    generalize evaluate limit (ρ.frame frame) d s' = y at hfirst
    cases hfirst with
    | excused h => exact h.elim
    | error hst h =>
      exact ⟨hst.1, hst.2, ⟨rfl, List.forall_mem_nil _⟩, congrArg some h.symm⟩
    | ok hst hv =>
      obtain ⟨he, hm⟩ := hst
      obtain ⟨rfl, hknows⟩ := hv
      obtain ⟨herest, hmrest, ⟨hvalues, hall⟩, herror⟩ :=
        ih hm (Nat.lt_of_lt_of_le hf (Evolves.grows he).frames)
      exact ⟨he.trans herest, hmrest, ⟨by simp only [hvalues, List.map_cons],
        List.forall_mem_cons.2 ⟨hknows.evolves herest, hall⟩⟩, herror⟩

theorem echoes_feed (hm : s.Matches (.ofNames ρ) s') (hf : frame < s.frames.size)
    (source : String) : OutcomeEchoes (.ofNames ρ) s (feed limit frame source s)
      (feed limit (ρ.frame frame) source s') := by
  obtain ⟨he, hm', hvalues, herror⟩ := echoes_evaluateAll limit hm hf (readAll limit source).data
  exact ⟨he, hm', hvalues, congrArg (Option.or · (readAll limit source).error) herror⟩

theorem report_echo {w : Scopes} (hmirrors : s.Mirrors w) (hm : s.Matches (.ofNames ρ) s')
    (hf : frame < s.frames.size) (source : String) :
    (feed limit (ρ.frame frame) source s').1.report (feed limit (ρ.frame frame) source s').2 =
      (feed limit frame source s).1.report (feed limit frame source s).2 := by
  obtain ⟨_, hm', ⟨hvalues, hknows⟩, herror⟩ := echoes_feed limit hm hf source
  have hanswers := answers_feed limit frame hmirrors source
  rw [Outcome.report, Outcome.report, herror, hvalues, List.map_map]
  refine congrArg (Report.mk · _) (List.map_congr_left fun v hv => ?_)
  obtain ⟨t, ht⟩ := exists_of_mem_forall₂ hanswers.values hv
  exact (hm'.print (hknows v hv) ht.print_eq).trans ht.print_eq.symm

end

/-- A store of one interpreter that is fed alone, and the one that it shares with another: it stands
there under other names, and none of its frames is the other's global one. -/
structure Follows (ρ : Renaming) (second : Bool) (s s' : Store) : Prop where
  matched : s.Matches (.ofNames ρ) s'
  own : ρ.frame 0 = globalOf second
  other : ∀ r, ρ.frame r ≠ globalOf !second
  size : 0 < s.frames.size
  mirrors : ∃ w, s.Mirrors w

structure Shared (s : Store) : Prop where
  sound : s.Sound NoHook
  size : 1 < s.frames.size

section

variable {ρ : Renaming} {s s' : Store} {second : Bool} (limit : Nat)

theorem globalOf_lt (h : Shared s) (second : Bool) : globalOf second < s.frames.size := by
  cases second with
  | false => exact Nat.lt_trans Nat.one_pos h.size
  | true => exact h.size

theorem Shared.feed (h : Shared s) (second : Bool) (line : String) :
    Shared (feed limit (globalOf second) line s).2 := by
  have hrun := evolves_feed limit h.sound (globalOf_lt h second) line
  exact ⟨Evolves.sound hrun h.sound, Nat.lt_of_lt_of_le h.size (Evolves.grows hrun).frames⟩

theorem Follows.feed_own (h : Follows ρ second s s') (line : String) :
    Follows ρ second (feed limit 0 line s).2 (feed limit (globalOf second) line s').2 := by
  have hecho := echoes_feed limit h.matched h.size line
  obtain ⟨w, hw⟩ := h.mirrors
  rw [h.own] at hecho
  exact ⟨hecho.matched, h.own, h.other,
    Nat.lt_of_lt_of_le h.size (Evolves.grows hecho.evolves).frames,
    _, (answers_feed limit 0 hw line).mirrors⟩

theorem Follows.feed_other (h : Follows ρ second s s') (hs : Shared s') (line : String) :
    Follows (ρ.continued s (feed limit (globalOf !second) line s').2) second s
      (feed limit (globalOf !second) line s').2 := by
  have hrun := evolves_feed limit hs.sound (globalOf_lt hs !second) line
  have hkept : ∀ r < s.frames.size, ∀ n : String,
      ¬ (s'.frames.size ≤ ρ.frame r ∨ ρ.frame r = globalOf !second) := fun r hr _ hw =>
    hw.elim (Nat.not_le.2 (h.matched.frame_lt hr)) (h.other r)
  exact ⟨h.matched.rephase hrun hkept, (Renaming.continueAt_lt h.size).trans h.own,
    Renaming.continueAt_ne (fun r _ => h.other r)
      (globalOf_lt (hs.feed limit (!second) line) !second), h.size, h.mirrors⟩

theorem reports_feedTurns (turns : List (Bool × String)) (hs : Shared s')
    (h : Follows ρ second s s') :
    ((feedTurns limit turns s').filter (·.second = second)).map
        (fun t => t.outcome.report t.after) =
      (feedLines limit 0 ((turns.filter (·.1 = second)).map Prod.snd) s).map
        (fun p => p.1.report p.2) := by
  -- `Follows` carries the induction; at each turn of the other the names change.
  induction turns generalizing ρ s s' with
  | nil => rfl
  | cons turn rest ih =>
    obtain ⟨turn, line⟩ := turn
    rw [feedTurns]
    by_cases hturn : turn = second
    · subst hturn
      obtain ⟨w, hw⟩ := h.mirrors
      have hreport := report_echo limit hw h.matched h.size line
      rw [h.own] at hreport
      simp only [List.filter_cons, decide_true, if_true, List.map_cons, feedLines, hreport,
        ih (hs.feed limit turn line) (h.feed_own limit line)]
    · obtain rfl : turn = !second := by cases turn <;> cases second <;> simp_all
      simp only [List.filter_cons, hturn, decide_false, Bool.false_eq_true, if_false,
        ih (hs.feed limit (!second) line) (h.feed_other limit hs line)]

end

theorem shared_pair : Shared pair :=
  ⟨Reachable.sound (.addGlobal (.addGlobal .empty)), by decide⟩

theorem rename_globalFrame {ρ : Renaming} (h : Renaming.Agrees .empty ρ .identity) :
    (Frame.update ⟨[], none⟩ globalBindings).rename ρ = Frame.update ⟨[], none⟩ globalBindings := by
  have hbindings : (Frame.update ⟨[], none⟩ globalBindings).bindings.map
      (fun b => (b.1, b.2.rename ρ)) = (Frame.update ⟨[], none⟩ globalBindings).bindings := by
    refine (List.map_congr_left fun b hb => ?_).trans (List.map_id _)
    have hvalue := (h.value (admits_globalBindings b hb)).trans b.2.rename_identity
    exact Prod.ext rfl hvalue
  have houter : (Frame.update ⟨[], none⟩ globalBindings).outer = none :=
    (Eval.update_bindings globalBindings ⟨[], none⟩).1
  rw [Frame.rename, hbindings, houter]
  rfl

theorem follows_pair (second : Bool) : ∃ ρ, Follows ρ second Store.empty.addGlobal.2 pair := by
  have hadd : ∀ s : Store, Evolves NoHook (fun _ _ => False) s s.addGlobal.2 := evolves_addGlobal
  cases second with
  | false =>
    -- The first is followed from where it stands; the frame of the second comes behind it.
    have hfirst := (matches_ofNames_self (Reachable.ready_noHook (.addGlobal .empty))).rephase (hadd _)
      fun _ _ _ h => h
    exact ⟨_, hfirst, rfl, Renaming.continueAt_ne (fun q hq => Nat.ne_of_lt hq) (by decide),
      by decide, _, mirrors_addGlobal⟩
  | true =>
    -- The second is followed from nothing, with the frame of the first already there.
    have hempty := (matches_ofNames_self (Reachable.ready_noHook .empty)).rephase (hadd _) fun _ _ _ h => h
    have hglobal := (hempty.addFrame (f := Frame.update ⟨[], none⟩ globalBindings) (fun o ho => ?_)
      fun b hb => knows_ofNames (admits_globalBindings b hb)).1
    · rw [Matching.names_ofNames, rename_globalFrame (Renaming.agrees_continued _ _ _)] at hglobal
      exact ⟨_, hglobal, rfl, Renaming.continueAt_ne (f := id)
        (fun q hq => absurd hq (Nat.not_lt_zero q)) (by decide), by decide, _,
        mirrors_addGlobal⟩
    · rw [(Eval.update_bindings globalBindings ⟨[], none⟩).1] at ho
      cases ho

theorem keeps_feedTurns (limit : Nat) (turns : List (Bool × String)) {s : Store} (hs : Shared s) :
    ∀ t ∈ feedTurns limit turns s, t.before.Keeps (· = globalOf t.second) t.after ∧
      t.before.Retains t.after ∧ globalOf (!t.second) < t.before.frames.size := by
  induction turns generalizing s with
  | nil => simp [feedTurns]
  | cons turn rest ih =>
    obtain ⟨second, line⟩ := turn
    have hrun := evolves_feed limit hs.sound (globalOf_lt hs second) line
    refine List.forall_mem_cons.2 ⟨⟨keeps_of_evolves hrun fun q n hw hq => ?_,
      Evolves.retains hrun, globalOf_lt hs !second⟩, ih (hs.feed limit second line)⟩
    exact hw.resolve_left (Nat.not_le.2 hq)

/-- Each of two interpreters reports of its lines what a fresh interpreter reports that is fed these
lines alone, in whatever order the lines of both come.  A line of one leaves the global frame of the
other as it is, and all frames but its own, and no cell or function changes. -/
theorem interpreters_isolated (limit : Nat) (turns : List (Bool × String)) :
    (∀ second, ((feedTurns limit turns pair).filter (·.second = second)).map
        (fun t => t.outcome.report t.after) =
      (session limit ((turns.filter (·.1 = second)).map Prod.snd)).map
        (fun p => p.1.report p.2)) ∧
    ∀ t ∈ feedTurns limit turns pair,
      t.after.frames[globalOf !t.second]? = t.before.frames[globalOf !t.second]? ∧
      t.before.Keeps (· = globalOf t.second) t.after ∧ t.before.Retains t.after := by
  refine ⟨fun second => ?_, fun t ht => ?_⟩
  · obtain ⟨ρ, h⟩ := follows_pair second
    exact reports_feedTurns limit turns shared_pair h
  · obtain ⟨hkeeps, hretains, hlt⟩ := keeps_feedTurns limit turns shared_pair t ht
    have hne : globalOf (!t.second) ≠ globalOf t.second := by cases t.second <;> decide
    exact ⟨hkeeps.frames _ hlt hne, hkeeps, hretains⟩

end Interpreter
end MiniLisp
