import RegisterWeb.BreadthFirst
import RegisterWeb.Graph.Basic

/-!
The control-flow graph as a picture in the DOT language. Blocks come breadth first, those that the
roots lead to before all others; each is followed by its edges. Call edges are dashed and blocks
that enter a routine are boxed.
-/

namespace RegisterWeb.Graph

/-- The order in which the blocks are drawn. -/
def drawOrder (g : Graph) : List Nat :=
  searchAll (fun b => (g.block b).next.map Edge.block) (g.roots ++ List.range g.size)
    (Array.replicate g.size false)

def dotName (b : Nat) : String :=
  "bb_" ++ toString b

/-- The line of a block. -/
def dotNode (g : Graph) (b : Nat) : String :=
  let shape := if (g.routine? b).isSome then "box" else "ellipse"
  "    " ++ dotName b ++ " [label=\"" ++ dotName b ++ " [" ++ (g.block b).start.text ++ ", "
    ++ (g.block b).stop.text ++ ")\", shape=" ++ shape ++ "];"

/-- The line of an edge. -/
def dotEdge (b : Nat) (e : Edge) : String :=
  "    " ++ dotName b ++ " -> " ++ dotName e.block
    ++ (if e.isCall then " [style=dashed];" else ";")

/-- The lines of the picture between its first two lines and its last. -/
def dotBody (g : Graph) : List String :=
  g.drawOrder.flatMap fun b => g.dotNode b :: (g.block b).next.map (dotEdge b)

/-- The lines of the picture. -/
def dotLines (g : Graph) : List String :=
  ["digraph regflow \x7b", "    node [fontname=monospace];"] ++ g.dotBody ++ ["\x7d"]

def dot (g : Graph) : String :=
  String.join (g.dotLines.map fun line => line ++ "\n")

end RegisterWeb.Graph
