import MiniLisp.Store.Node

set_option autoImplicit false

namespace MiniLisp

structure Renaming where
  cell : CellRef → CellRef
  closure : ClosureRef → ClosureRef
  frame : FrameRef → FrameRef
  serial : Nat → Nat

def Value.rename (ρ : Renaming) : Value → Value
  | cell r => .cell (ρ.cell r)
  | closure r => .closure (ρ.closure r)
  | primitive p serial => .primitive p (ρ.serial serial)
  | v => v

def Cell.rename (ρ : Renaming) (c : Cell) : Cell := ⟨c.head.rename ρ, c.tail.rename ρ⟩

def Closure.rename (ρ : Renaming) (c : Closure) : Closure :=
  ⟨c.parameters.rename ρ, c.body.rename ρ, ρ.frame c.scope⟩

def Frame.rename (ρ : Renaming) (f : Frame) : Frame :=
  ⟨f.bindings.map (fun b => (b.1, b.2.rename ρ)), f.outer.map ρ.frame⟩

end MiniLisp
