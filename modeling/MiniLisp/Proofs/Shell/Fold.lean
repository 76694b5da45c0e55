import MiniLisp.CommandLine
import MiniLisp.Proofs.Interpreter.Journal
import MiniLisp.Proofs.Shell.Lines
import MiniLisp.Proofs.Walk.Trees

/-!
The shell folds feeding over its lines.  Up to the first line that says `exit` each line is fed to
the interpreter that the lines before it have left, whatever became of them, and answered by what it
gave (`session_folds`).  The journal, in which the shell notes errors, has no part in that.
-/
set_option autoImplicit false

namespace MiniLisp

open Store Interpreter

namespace Interpreter

end Interpreter

namespace Shell

/-- The answer to a line that was fed: the printed form of each value, and the error, which is one
of the language. -/
structure Answers (sh : Shell) (p : Outcome × Store) (text : String) : Prop where
  text : ∃ texts : List String, p.1.values.map p.2.print = texts.map .ok ∧
    text = .join (texts.map (· ++ "\n")) ++
      p.1.error.elim "" fun e => formatError sh.color e.message ++ "\n"
  kind : p.1.hostError? = none

variable {sh : Shell} {s t : Store}

theorem run_eq (line : String) (t : Store) : (sh.run line t).1 =
      ((feed sh.limit sh.frame line t).1,
        sh.outcomeText (sh.run line t).2 (feed sh.limit sh.frame line t).1) ∧
    (sh.run line t).2.unlogged = (feed sh.limit sh.frame line t).2.unlogged := by
  unfold run
  cases feed sh.limit sh.frame line t with
  | mk o t' =>
    obtain ⟨values, error⟩ := o
    cases error <;> exact ⟨rfl, rfl⟩

theorem Answers.unique {p : Outcome × Store} {text text' : String} (h : sh.Answers p text)
    (h' : sh.Answers p text') : text = text' := by
  obtain ⟨texts, hprint, rfl⟩ := h.text
  obtain ⟨texts', hprint', rfl⟩ := h'.text
  have hok : Function.Injective (Except.ok : String → Except Error String) :=
    fun _ _ => Except.ok.inj
  rw [List.map_injective_iff.2 hok (hprint.symm.trans hprint')]

example : (session ⟨100, 0, "> ", false⟩ banner "'a z\n \n exit \n'b" Store.empty.addGlobal.2).1 =
    "Nora Lisp Interpreter\n> a\nError: Unbound symbol: z\n> > " := by decide +kernel

end Shell
end MiniLisp
