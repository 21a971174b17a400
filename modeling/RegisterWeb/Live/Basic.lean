import RegisterWeb.Live.Link

/-!
The liveness of a section: its live instances, the links between them, and two kinds of live sets.
The set of a routine holds the instances that are live in some block of its scope; the set of a
call that comes back holds the instances that are live at its last byte and in no routine called
there.
-/

namespace RegisterWeb

/-- Instances by bank and number, in ascending order. -/
abbrev LiveSet := List (Bank × Nat)

namespace LiveSet

/-- The banks of a set. -/
def banks (s : LiveSet) : List Bank :=
  (s.map Prod.fst).eraseDups

/-- The numbers of the instances of a bank. -/
def inBank (s : LiveSet) (bank : Bank) : List Nat :=
  (s.filter fun e => e.1 == bank).map Prod.snd

end LiveSet

/-- What is live where in a section. Call sets belong to call blocks, routine sets to entry blocks. -/
structure Live where
  instances : List LiveInstance
  links : Links
  callSets : List (Nat × LiveSet)
  routineSets : List (Nat × LiveSet)
  deriving DecidableEq, Repr, Inhabited

namespace Live

/-- The blocks that a range meets: the one that holds its start, and those after it that start before
its end. -/
def blocksOfRange (g : Graph) (r : Range) : Except Failure (List Nat) :=
  match g.blockAt r.start with
  | .error f => .error (.fault f)
  | .ok none => .ok []
  | .ok (some b) =>
    .ok (((List.range g.size).drop b).takeWhile fun c => decide ((g.block c).start < r.stop))

/-- The blocks that the ranges of an instance meet. -/
def blocksOf (g : Graph) (i : LiveInstance) : Except Failure (LiveInstance × List Nat) := do
  let blocks ← i.ranges.mapM (blocksOfRange g)
  return (i, blocks.flatten)

/-- The set of the instances that pass a test. -/
def select (placed : List (LiveInstance × List Nat)) (test : LiveInstance → List Nat → Bool) :
    LiveSet :=
  (placed.filter fun p => test p.1 p.2).map fun p => (p.1.bank, p.1.index)

/-- The instances that are live in the scope of a routine. -/
def routineSet (scopes : Table (Option (Array Bool))) (placed : List (LiveInstance × List Nat))
    (entry : Nat) : LiveSet :=
  select placed fun _ blocks => blocks.any (Graph.inScope scopes entry)

/-- The instances that are live at the end of a call block and in no routine called there. -/
def callSet (g : Graph) (routineSets : List (Nat × LiveSet))
    (placed : List (LiveInstance × List Nat)) (b : Nat) : LiveSet :=
  let inside := (g.block b).callees.map fun c => (routineSets.lookup c).getD []
  select placed fun i _ =>
    i.ranges.contains ((g.block b).stop - 1) && !inside.any fun s => s.contains (i.bank, i.index)

/-- The liveness of an analysis whose live instances are known. -/
def ofInstances (a : Analysis) (is : List LiveInstance) (groups : List SlotGroup) :
    Except Failure Live := do
  let links ← SlotGroup.linkAll a is groups
  let placed ← is.mapM (blocksOf a.graph)
  let scopes := a.graph.scopes
  let routineSets := a.graph.routines.map fun r => (r.entry, routineSet scopes placed r.entry)
  let calls := (List.range a.graph.size).filter fun b => (a.graph.block b).continuation?.isSome
  let callSets := calls.map fun b => (b, callSet a.graph routineSets placed b)
  return ⟨is, links, callSets, routineSets⟩

/-- The banks that have live instances. -/
def banks (l : Live) : List Bank :=
  (l.instances.map LiveInstance.bank).eraseDups

/-- The live instances of a bank, in the order of their numbers. -/
def inBank (l : Live) (bank : Bank) : List LiveInstance :=
  l.instances.filter fun i => i.bank == bank

def index? (l : Live) (i : Instance) : Option Nat :=
  LiveInstance.index? l.instances i

end Live

end RegisterWeb
