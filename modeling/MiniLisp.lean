import MiniLisp.Number.Numeral
import MiniLisp.Text.Quoted
import MiniLisp.Text.IntegerText
import MiniLisp.Reader
import MiniLisp.Store.Equality
import MiniLisp.Store.Copy
import MiniLisp.Store.Pickle
import MiniLisp.Interpreter
import MiniLisp.Main
import MiniLisp.Proofs.Reader.Recognition
import MiniLisp.Proofs.Reader.RoundTrip
import MiniLisp.Proofs.Reader.Completion
import MiniLisp.Proofs.Eval.WriteSet
import MiniLisp.Proofs.Eval.Adequacy
import MiniLisp.Proofs.Reader.JoinedText
import MiniLisp.Proofs.Reader.Legible
import MiniLisp.Proofs.Reader.NumberToken
import MiniLisp.Proofs.Eval.Raised
import MiniLisp.Proofs.Interpreter.Composition
import MiniLisp.Proofs.Tree.Alike
import MiniLisp.Proofs.Tree.Operations
import MiniLisp.Proofs.Tree.Simulation
import MiniLisp.Proofs.Interpreter.Session
import MiniLisp.Proofs.Eval.Limit
import MiniLisp.Proofs.Interpreter.Limit
import MiniLisp.Proofs.Eval.Mentions
import MiniLisp.Proofs.Eval.Irrelevance
import MiniLisp.Proofs.Eval.Repetition
import MiniLisp.Proofs.Interpreter.Isolation
import MiniLisp.Proofs.Walk.Walks
import MiniLisp.Proofs.Walk.Trees
import MiniLisp.Proofs.Interpreter.Journal
import MiniLisp.Proofs.Shell.Lines
import MiniLisp.Proofs.Shell.Fold
import MiniLisp.Proofs.Rename.Ahead
import MiniLisp.Proofs.Interpreter.Ways
import MiniLisp.Proofs.Respell.Program
import MiniLisp.Proofs.Scope.Lookup
import MiniLisp.Proofs.Integer.Evaluation
import MiniLisp.Proofs.Integer.Widening
import MiniLisp.Proofs.Integer.Lockstep
import MiniLisp.Proofs.Number.Literal
import MiniLisp.Proofs.Reader.Cut
import MiniLisp.Proofs.Scope.Binding
import MiniLisp.Proofs.Store.Fresh
import MiniLisp.Proofs.Store.Append
import MiniLisp.Proofs.Store.Equality
import MiniLisp.Proofs.Number.Operations
import MiniLisp.Proofs.Number.Comparison
import MiniLisp.Proofs.Store.Copy
import MiniLisp.Proofs.Walk.Layout
import MiniLisp.Proofs.Walk.Proper
import MiniLisp.Proofs.Number.Flattening
import MiniLisp.Proofs.Store.Sameness
import MiniLisp.Proofs.Store.Copying
import MiniLisp.Proofs.Store.Pickling
