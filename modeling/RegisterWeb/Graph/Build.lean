import RegisterWeb.Graph.Link
import RegisterWeb.Graph.Routine

/-!
The graph of a section, from its hints. A section without bytes has the graph without blocks, and no
hint fits into it.
-/

namespace RegisterWeb

namespace Graph

/-- Whether a block starts a flow of its own: the first block, a block that nothing leads to, and a
block behind a boundary unless it is called. -/
def isRoot (preds : Table (List Edge)) (boundaries : List Offset) (b : Block) : Bool :=
  b.id == 0 || (preds.get b.id).isEmpty
    || (boundaries.contains b.start && !isCalled preds b.id)

/-- The graph of linked blocks. -/
def ofBlocks (n : Offset) (boundaries : List Offset) (blocks : Array Block) : Graph :=
  let preds := predecessors blocks
  let blocks := blocks.map fun b => { b with root := isRoot preds boundaries b }
  { length := n, blocks, preds, routines := Routine.all blocks preds, boundaries }

/-- The graph of hints in order of their offsets, for a section that is not empty. -/
def ofHints (s : Settings) (code : Code) (n : Offset) (hints : List Hint) : Except Failure Graph := do
  let starts ← Layout.starts s code n hints
  let blocks := Layout.blocks n starts
  let transfers ← Transfer.ofHints n blocks hints
  let boundaries := Ascending.ofList ((hints.filter fun h => h.kind == .boundary).map Hint.offset)
  return ofBlocks n boundaries (Layout.link blocks boundaries transfers)

/-- The graph of a section of `n` bytes. -/
def build (s : Settings) (code : Code) (n : Offset) (hints : List Hint) : Except Failure Graph :=
  let hints := Hint.sort hints
  if n = 0 then
    match hints with
    | [] => .ok ⟨0, #[], default, [], []⟩
    | h :: _ => .error (.structural h.offset .hintInEmptySection)
  else ofHints s code n hints

end Graph

end RegisterWeb
