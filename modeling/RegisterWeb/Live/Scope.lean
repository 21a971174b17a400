import RegisterWeb.Graph.Order
import RegisterWeb.Track.Basic

/-!
The scope of a routine: the blocks of the routine and of all routines that it calls, directly or
not. Those are the blocks that its entry reaches by edges of both kinds. A routine touches a register
if some block of its scope does.
-/

namespace RegisterWeb

namespace Graph

/-- For each block that enters a routine, the marks of the blocks in its scope. -/
def scopes (g : Graph) : Table (Option (Array Bool)) :=
  Table.tabulate g.size fun b =>
    if (g.routine? b).isSome then some (reach g.size g.targets [b]) else none

/-- Whether a block is in the scope of the routine that another block enters. -/
def inScope (scopes : Table (Option (Array Bool))) (entry b : Nat) : Bool :=
  match scopes.get entry with
  | some seen => seen.getD b false
  | none => false

end Graph

namespace Track

/-- Whether the routine that a block enters, or any routine that it calls, touches the register. -/
def touches (g : Graph) (scopes : Table (Option (Array Bool))) (t : Track) (entry : Nat) : Bool :=
  (List.range g.size).any fun b => Graph.inScope scopes entry b && (t.uses.get b).isSome

end Track

end RegisterWeb
