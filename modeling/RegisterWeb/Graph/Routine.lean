import RegisterWeb.Ascending
import RegisterWeb.Graph.Basic
import RegisterWeb.Reach

/-!
Routines. Every block that is called enters a routine, which consists of the blocks that are reached
from there by ordinary edges. A routine resumes where its callers go on; the callers that call in
their last act resume where the routines they belong to resume.
-/

namespace RegisterWeb

namespace Graph

/-- The edges into a block, in order of the blocks that they come from. -/
def edgesInto (blocks : Array Block) (b : Nat) : List Edge :=
  blocks.toList.flatMap fun source =>
    (source.next.filter fun e => e.block == b).map fun e => ⟨source.id, e.isCall⟩

def predecessors (blocks : Array Block) : Table (List Edge) :=
  Table.tabulate blocks.size (edgesInto blocks)

/-- Whether a block is the target of a call edge. -/
def isCalled (preds : Table (List Edge)) (b : Nat) : Bool :=
  (preds.get b).any Edge.isCall

end Graph

namespace Routine

/-- The routine that a block enters, without the blocks at which it resumes. -/
def enteredAt (blocks : Array Block) (entry : Nat) : Routine :=
  let block := fun b => blocks.getD b default
  let body := reachable blocks.size (fun b => (block b).successors) [entry]
  { entry
    blocks := body
    returns := body.filter fun b => !(block b).isTailCall && (block b).returns
    tailCalls := body.filter fun b => (block b).isTailCall
    sites := (List.range blocks.size).filter fun b => (block b).callees.contains entry
    conts := [] }

/-- The routines whose callers a routine goes back to: those that it is called from for good. -/
def heirs (blocks : Array Block) (routines : List Routine) (r : Routine) : List Nat :=
  let tails := r.sites.filter fun s => (blocks.getD s default).continuation?.isNone
  (List.range routines.length).filter fun i =>
    match routines[i]? with
    | some owner => tails.any owner.contains
    | none => false

/-- The blocks at which control resumes right after the calls of a routine. -/
def resumptions (blocks : Array Block) (r : Routine) : List Nat :=
  r.sites.filterMap fun s => (blocks.getD s default).continuation?

/-- Where the routine with index `i` resumes. -/
def continuations (blocks : Array Block) (routines : List Routine) (i : Nat) : List Nat :=
  let at? := fun j => routines[j]?.getD default
  let closed := reachable routines.length (fun j => heirs blocks routines (at? j)) [i]
  Ascending.ofList (closed.flatMap fun j => resumptions blocks (at? j))

/-- All routines, in ascending order of their entries. -/
def all (blocks : Array Block) (preds : Table (List Edge)) : List Routine :=
  let entries := (List.range blocks.size).filter (Graph.isCalled preds)
  let routines := entries.map (enteredAt blocks)
  routines.zipIdx.map fun (r, i) => { r with conts := continuations blocks routines i }

end Routine

end RegisterWeb
