import MiniLisp.Proofs.Eval.Irrelevance
import MiniLisp.Proofs.Interpreter.Isolation

set_option autoImplicit false

namespace MiniLisp

namespace Store

def unlogged (s : Store) : Store := { s with journal := [] }

variable {foreign : Value → Prop} {writable : FrameRef → String → Prop} {s t : Store}

theorem Change.serials (h : Change foreign writable s t) : t.serials = s.serials := by
  cases h <;> rfl

theorem Evolves.serials (h : Evolves foreign writable s t) : t.serials = s.serials := by
  induction h with
  | refl => rfl
  | tail _ hc ih => exact hc.serials.trans ih

end Store

open Store

end MiniLisp
