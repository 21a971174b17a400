import RegisterWeb.Live.Scope
import RegisterWeb.Saturate

/-!
Backward liveness of one register: at which blocks its value on entry, and at which its value at the
end, may still be read. A value that a routine does not touch goes past the call; one that it touches
comes out where the routine resumes.
-/

namespace RegisterWeb

/-- Whether a register is live where a block starts and where it stops. -/
structure LiveFlow where
  enters : Table Bool
  leaves : Table Bool
  deriving DecidableEq, Repr, Inhabited

namespace LiveFlow

/-- Whether the register is live where some of the given blocks start. -/
def anyEnters (l : LiveFlow) (blocks : List Nat) : Bool :=
  blocks.any l.enters.get

/-- Where control goes on after a block has called a routine. -/
def resumptions (g : Graph) (b callee : Nat) : List Nat :=
  match (g.block b).continuation? with
  | some k => [k]
  | none =>
    match g.routine? callee with
    | some r => r.conts
    | none => []

/-- Whether the register is live at the end of a block, from where it is live on entry. -/
def isLiveOut (g : Graph) (touched : Table Bool) (l : LiveFlow) (b : Nat) : Bool :=
  let block := g.block b
  let direct := (block.next.filter fun e => e.isCall || !block.calls).map Edge.block
  l.anyEnters direct
    || (block.calls && (block.callees.filter fun c => !touched.get c).any fun c =>
        l.anyEnters (resumptions g b c))
    || (g.routines.filter fun r => r.returns.contains b).any fun r =>
        touched.get r.entry && l.anyEnters r.conts

/-- Looks at a block again. -/
def visit (g : Graph) (t : Track) (touched : Table Bool) (l : LiveFlow) (b : Nat) : LiveFlow :=
  let out := l.isLiveOut g touched b
  ⟨l.enters.set b (t.readsFirst b || (out && !t.isWritten b)), l.leaves.set b out⟩

/-- At how many ends of blocks the register is not known to be live. -/
def room (l : LiveFlow) : Nat :=
  l.enters.cells.count false + l.leaves.cells.count false

/-- Liveness from repeated visits to the given blocks. -/
def solve (g : Graph) (t : Track) (touched : Table Bool) (visits : List Nat) : LiveFlow :=
  saturate room (fun l => visits.foldl (visit g t touched) l)
    ⟨Table.blank g.size, Table.blank g.size⟩

end LiveFlow

end RegisterWeb
