import MiniLisp.Value

/-!
What a value leads to.  Cells, closures and frames are the nodes of a graph, which goes round where
a closure is bound in its own scope.
-/
set_option autoImplicit false

namespace MiniLisp

inductive Node where
  | cell (r : CellRef)
  | closure (r : ClosureRef)
  | frame (r : FrameRef)
  deriving DecidableEq, Repr

def Value.node? : Value → Option Node
  | cell r => some (.cell r)
  | closure r => some (.closure r)
  | _ => none

def Cell.nodes (c : Cell) : List Node := [c.head, c.tail].filterMap Value.node?

def Closure.nodes (c : Closure) : List Node :=
  .frame c.scope :: [c.parameters, c.body].filterMap Value.node?

def Frame.nodes (f : Frame) : List Node :=
  (f.outer.map Node.frame).toList ++ f.bindings.filterMap (·.2.node?)

def Store.nodes (s : Store) : Node → List Node
  | .cell r => (s.cells[r]?.map Cell.nodes).getD []
  | .closure r => (s.closures[r]?.map Closure.nodes).getD []
  | .frame r => (s.frames[r]?.map Frame.nodes).getD []

end MiniLisp
