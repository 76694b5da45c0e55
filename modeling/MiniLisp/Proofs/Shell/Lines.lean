import MiniLisp.Proofs.Reader.JoinedText
import MiniLisp.Shell

set_option autoImplicit false

namespace MiniLisp

namespace Text

end Text

namespace Interpreter

variable (limit : Nat) (frame : FrameRef) (s : Store)

end Interpreter

namespace Shell

end Shell
end MiniLisp
