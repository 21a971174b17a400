import RegisterWeb.Graph.Layout

/-!
Linking blocks. Every hint that ends a block gives edges and flags to the block that holds it; a block
without such a hint falls through to the next one. Nothing falls through at the end of the section
or across a boundary.
-/

namespace RegisterWeb

/-- A hint that ends a block, with blocks in place of offsets. A `final` one has a return or an end at
the same instruction, so that a call there does not come back. -/
structure Transfer where
  source : Nat
  kind : HintKind
  targets : List Nat
  final : Bool
  deriving DecidableEq, Repr

namespace Transfer

/-- The block that holds an offset of the section. -/
def locate (n : Offset) (blocks : Array Block) (p : Offset) : Except Failure Nat :=
  match blockAt n blocks p with
  | .ok (some b) => .ok b
  | .ok none => .error (.fault (.noBlock p))
  | .error f => .error (.fault f)

/-- Where control leaves for good the targets of a hint mean nothing. -/
def ofHint (n : Offset) (blocks : Array Block) (exits : List Offset) (h : Hint) :
    Except Failure Transfer := do
  let source ← locate n blocks h.offset
  let targets ← (if h.kind.isExit then [] else h.targets).mapM (locate n blocks)
  return ⟨source, h.kind, targets, exits.contains h.offset⟩

/-- The transfers of all hints that end a block. -/
def ofHints (n : Offset) (blocks : Array Block) (hints : List Hint) :
    Except Failure (List Transfer) :=
  let exits := (hints.filter fun h => h.kind.isExit).map Hint.offset
  (hints.filter fun h => h.kind.terminates).mapM (ofHint n blocks exits)

/-- The edges that a transfer gives to its block; `through` is the edge to the next block, if control
may flow there. A call without a known target gives none. -/
def edges (through : List Edge) (t : Transfer) : List Edge :=
  match t.kind with
  | .jump | .indirectJump => t.targets.map fun b => ⟨b, false⟩
  | .condJump => t.targets.map (fun b => ⟨b, false⟩) ++ through
  | .call | .indirectCall =>
    if t.targets.isEmpty then []
    else t.targets.map (fun b => ⟨b, true⟩) ++ (if t.final then [] else through)
  | _ => []

/-- Whether a transfer makes its block a call block. -/
def calls (t : Transfer) : Bool :=
  t.kind.isCall && !t.targets.isEmpty

/-- Whether control never goes on to the next block. -/
def ends (t : Transfer) : Bool :=
  match t.kind with
  | .halt | .jump | .indirectJump => true
  | _ => false

end Transfer

namespace Layout

/-- The edge from a block to the next one, unless the section ends or a boundary stands between. -/
def through (blocks : Array Block) (boundaries : List Offset) (b : Nat) : List Edge :=
  match blocks[b + 1]? with
  | some after => if boundaries.contains after.start then [] else [⟨b + 1, false⟩]
  | none => []

/-- A block with the edges and flags of its transfers. -/
def linkBlock (blocks : Array Block) (boundaries : List Offset) (transfers : List Transfer)
    (b : Block) : Block :=
  let mine := transfers.filter fun t => t.source == b.id
  let through := through blocks boundaries b.id
  let next := if mine.isEmpty then through else mine.flatMap (Transfer.edges through)
  { b with
    next := Ascending.ofList next
    calls := mine.any Transfer.calls
    returns := mine.any fun t => t.kind == .ret
    ends := mine.any Transfer.ends }

def link (blocks : Array Block) (boundaries : List Offset) (transfers : List Transfer) :
    Array Block :=
  blocks.map (linkBlock blocks boundaries transfers)

end Layout

end RegisterWeb
