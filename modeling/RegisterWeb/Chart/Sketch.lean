import RegisterWeb.Chart.Dot
import RegisterWeb.Graph.Routine

/-!
Graphs that are sketched by hand. Blocks are numbered by their place, and edges and routine entries
name blocks by any whole number. An entry that names no block enters nothing, but an edge that leads
to no block cannot be drawn.
-/

namespace RegisterWeb

/-- A block of a sketch; its edges, with a mark on those that call, stay as they are given. -/
structure SketchBlock where
  start : Offset
  stop : Offset
  next : List (Int × Bool)
  root : Bool
  calls : Bool
  returns : Bool
  ends : Bool
  deriving DecidableEq, Repr

/-- The blocks of a graph, and the entries of routines of which nothing else is known. -/
structure Sketch where
  length : Offset
  blocks : List SketchBlock
  entries : List Int
  deriving DecidableEq, Repr

namespace Sketch

/-- The block that a number names. -/
def block? (s : Sketch) (n : Int) : Option Nat :=
  if 0 ≤ n ∧ n < s.blocks.length then some n.toNat else none

/-- A block with the edges that lead to blocks. -/
def toBlock (s : Sketch) (id : Nat) (b : SketchBlock) : Block :=
  { id, start := b.start, stop := b.stop
    next := b.next.filterMap fun (n, isCall) => (s.block? n).map fun c => ⟨c, isCall⟩
    root := b.root, calls := b.calls, returns := b.returns, ends := b.ends }

/-- The graph without the edges that lead to no block. -/
def toGraph (s : Sketch) : Graph :=
  let blocks := (s.blocks.zipIdx.map fun (b, i) => s.toBlock i b).toArray
  { length := s.length
    blocks
    preds := Graph.predecessors blocks
    routines := (s.entries.filterMap s.block?).map fun entry => { (default : Routine) with entry }
    boundaries := [] }

/-- The edges of a block that lead to no block. -/
def strays (s : Sketch) (b : Nat) : List Int :=
  match s.blocks[b]? with
  | some block => (block.next.map Prod.fst).filter fun n => (s.block? n).isNone
  | none => []

/-- The graph of a sketch, unless an edge that leads to no block is met in drawing it. -/
def graph (s : Sketch) : Except Fault Graph :=
  match (s.toGraph.drawOrder.flatMap s.strays).head? with
  | some n => .error (.outOfRange n s.blocks.length)
  | none => .ok s.toGraph

end Sketch

end RegisterWeb
