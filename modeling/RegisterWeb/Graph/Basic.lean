import RegisterWeb.Bisect
import RegisterWeb.Failure
import RegisterWeb.Table

/-!
Control-flow graphs. A section is cut into blocks, numbered in order of their offsets. An edge is
either a call edge, into a routine that is expected to return, or an ordinary one; the ordinary edge
of a block that calls leads to where control resumes.
-/

namespace RegisterWeb

/-- A way out of a block, or into one. -/
structure Edge where
  block : Nat
  isCall : Bool
  deriving DecidableEq, Repr, Inhabited

namespace Edge

/-- Edges are ordered by block; to one block the ordinary edge comes first. -/
instance : LT Edge :=
  ⟨fun a b => a.block < b.block ∨ (a.block = b.block ∧ a.isCall = false ∧ b.isCall = true)⟩

instance : DecidableLT Edge := fun a b =>
  inferInstanceAs
    (Decidable (a.block < b.block ∨ (a.block = b.block ∧ a.isCall = false ∧ b.isCall = true)))

def text (e : Edge) : String :=
  (if e.isCall then "call bb_" else "bb_") ++ toString e.block

end Edge

/-- A stretch of code from `start` up to `stop` that is entered at its start only. A `root` starts a
flow of its own. -/
structure Block where
  id : Nat
  start : Offset
  stop : Offset
  next : List Edge
  root : Bool
  calls : Bool
  returns : Bool
  ends : Bool
  deriving DecidableEq, Repr, Inhabited

namespace Block

def length (b : Block) : Offset :=
  b.stop - b.start

def contains (b : Block) (p : Offset) : Bool :=
  decide (b.start ≤ p) && decide (p < b.stop)

/-- The block at which control resumes after the calls of this block. -/
def continuation? (b : Block) : Option Nat :=
  if b.calls then (b.next.find? (fun e => !e.isCall)).map Edge.block else none

/-- The blocks that enter the routines called here. -/
def callees (b : Block) : List Nat :=
  (b.next.filter Edge.isCall).map Edge.block

/-- The blocks that follow by ordinary edges. -/
def successors (b : Block) : List Nat :=
  (b.next.filter fun e => !e.isCall).map Edge.block

/-- A call that never comes back to this block's successor. -/
def isTailCall (b : Block) : Bool :=
  b.calls && b.continuation?.isNone

def text (b : Block) : String :=
  let flags := [(b.root, "root"), (b.calls, "call"), (b.returns, "ret"), (b.ends, "end")]
  let shown := (flags.filter Prod.fst).map Prod.snd
  "bb_" ++ toString b.id ++ " [" ++ b.start.text ++ ", " ++ b.stop.text ++ ") \x7b"
    ++ ",".intercalate shown ++ "\x7d -> [" ++ ", ".intercalate (b.next.map Edge.text) ++ "]"

end Block

/-- A routine: the blocks that belong to it, how it is left, who calls it, and where control resumes
after it returns. All are lists of blocks in ascending order. -/
structure Routine where
  entry : Nat
  blocks : List Nat
  returns : List Nat
  tailCalls : List Nat
  sites : List Nat
  conts : List Nat
  deriving DecidableEq, Repr, Inhabited

namespace Routine

def contains (r : Routine) (b : Nat) : Bool :=
  r.blocks.contains b

end Routine

/-- The control-flow graph of a section of `length` bytes. -/
structure Graph where
  length : Offset
  blocks : Array Block
  preds : Table (List Edge)
  routines : List Routine
  boundaries : List Offset
  deriving DecidableEq, Repr, Inhabited

/-- The block of a section of `length` bytes that holds an offset: the last one that starts at or
before it. There is none outside of the section. -/
def blockAt (length : Offset) (blocks : Array Block) (p : Offset) : Except Fault (Option Nat) :=
  if p < 0 ∨ length ≤ p then .ok none
  else
    match bisect blocks.size (fun i => decide (p < (blocks.getD i default).start)) with
    | 0 => .error (.noBlock p)
    | i + 1 => .ok (some i)

namespace Graph

def size (g : Graph) : Nat :=
  g.blocks.size

def block (g : Graph) (b : Nat) : Block :=
  g.blocks.getD b default

def blockAt (g : Graph) (p : Offset) : Except Fault (Option Nat) :=
  RegisterWeb.blockAt g.length g.blocks p

def roots (g : Graph) : List Nat :=
  (List.range g.size).filter fun b => (g.block b).root

/-- The routine that a block enters. -/
def routine? (g : Graph) (b : Nat) : Option Routine :=
  g.routines.find? fun r => r.entry == b

/-- The routines that a block belongs to. -/
def routinesOf (g : Graph) (b : Nat) : List Routine :=
  g.routines.filter fun r => r.contains b

def text (g : Graph) : String :=
  "\n".intercalate (g.blocks.toList.map Block.text)

end Graph

end RegisterWeb
