import RegisterWeb.Saturate
import RegisterWeb.Track.Flow

/-!
The effects of routines on a register variable: the versions that a routine may leave behind, the
inherited version among them if the caller's value can survive. Routines may call each other in
cycles, so all effects grow together until none grows any more.
-/

namespace RegisterWeb

namespace Flow

/-- Hands the versions of a block on to its successors. -/
def spread (g : Graph) (f : Flow) (b : Nat) : Flow :=
  (g.block b).successors.foldl (fun f c => f.receive c (f.passing g b)) f

/-- The flow through the body of a routine that is entered with the inherited version. -/
def body (g : Graph) (f : Flow) (r : Routine) : Flow :=
  saturate room (fun f => r.blocks.foldl (fun f b => f.spread g b) f)
    { f with entering := (Table.blank f.entering.size).set r.entry [Version.inherited] }

/-- The versions at the exits of a routine, as far as the effects of its callees are known. -/
def exits (g : Graph) (f : Flow) (r : Routine) : VersionSet :=
  let inner := f.body g r
  VersionSet.union (Ascending.gather r.returns inner.leaving)
    (Ascending.gather r.tailCalls (inner.passing g))

/-- Adds to the effect of a routine what its exits give. -/
def learn (g : Graph) (f : Flow) (r : Routine) : Flow :=
  let known := VersionSet.union (f.effects.get r.entry) (f.exits g r)
  { f with effects := f.effects.set r.entry known }

/-- How many versions can still be added to effects. -/
def effectRoom (f : Flow) : Nat :=
  UInt32.size * f.effects.size - f.effects.weight

/-- The effects of all routines. -/
def withEffects (g : Graph) (f : Flow) : Flow :=
  saturate effectRoom (fun f => g.routines.foldl (fun f r => f.learn g r) f) f

end Flow

end RegisterWeb
