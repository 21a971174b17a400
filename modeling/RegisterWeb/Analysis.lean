import RegisterWeb.Track.Settle

/-!
The analysis of all registers of a section: one track for each register that is used, in the order
of the registers. Settling takes all tracks to their end and fails if some value is read that nothing
defines; then no version is renamed.
-/

namespace RegisterWeb

/-- The tracks of a graph. `summaries` are those of the blocks before versions were numbered. -/
structure Analysis where
  graph : Graph
  order : FlowOrder
  summaries : Table Summary
  tracks : List Track
  deriving DecidableEq, Repr, Inhabited

namespace Analysis

/-- Every usage with the block that holds it. -/
def place (g : Graph) (u : Usage) : Except Failure (Nat × Usage) :=
  match g.blockAt u.offset with
  | .ok (some b) => .ok (b, u)
  | .ok none => .error (.structural u.offset (.usageOutside u.register))
  | .error f => .error (.fault f)

/-- The summaries of all blocks. -/
def summarize (g : Graph) (placed : List (Nat × Usage)) : Table Summary :=
  Table.tabulate g.size fun b =>
    Summary.ofUsages ((placed.filter fun p => p.1 == b).map Prod.snd)

/-- All registers that are used, in order. -/
def registersOf (summaries : Table Summary) : List Register :=
  Register.sort (summaries.toList.flatMap Summary.registers).eraseDups

/-- The track of a register with the given summaries of the blocks. -/
def trackOf (g : Graph) (o : FlowOrder) (summaries : Table Summary) (r : Register) : Track :=
  Track.ofRegister g o r (Table.tabulate g.size fun b => (summaries.get b).use? r)

/-- Summarizes the blocks of a graph and follows each register through it. -/
def ofUsages (g : Graph) (usages : List Usage) : Except Failure Analysis := do
  let placed ← (Usage.sort usages).mapM (place g)
  let summaries := summarize g placed
  let order := FlowOrder.ofGraph g
  return ⟨g, order, summaries, (registersOf summaries).map (trackOf g order summaries)⟩

/-! ### Queries -/

def registers (a : Analysis) : List Register :=
  a.tracks.map Track.register

def track? (a : Analysis) (r : Register) : Option Track :=
  a.tracks.find? fun t => t.register == r

/-- What a block does to a register. -/
def use? (a : Analysis) (b : Nat) (r : Register) : Option Use :=
  (a.track? r).bind fun t => t.uses.get b

/-- The versions of a register that enter a block; a register that is not used has its entry version. -/
def entering (a : Analysis) (b : Nat) (r : Register) : VersionSet :=
  match a.track? r with
  | some t => t.entering b
  | none => [Version.entry]

/-- The summary of a block with the versions of the tracks. -/
def summary (a : Analysis) (b : Nat) : Summary :=
  ⟨(a.summaries.get b).registers.filterMap fun r => (a.use? b r).map fun u => (r, u)⟩

/-- The blocks that have not seen all versions that enter them, with their registers. -/
def deferred (a : Analysis) : List (Register × Nat) :=
  a.tracks.flatMap fun t => t.late.map fun b => (t.register, b)

/-- The replacements of each register that has any. -/
def replaces (a : Analysis) : List (Register × List Replace) :=
  (a.tracks.filter fun t => !t.replaces.isEmpty).map fun t => (t.register, t.replaces)

end Analysis

/-- The outcome of settling: the analysis at the end, how often a block was looked at, and what went
wrong if anything did. -/
structure Settlement where
  analysis : Analysis
  tasks : Nat
  failure : Option Failure
  deriving DecidableEq, Repr, Inhabited

namespace Settlement

/-- The settled analysis, unless something went wrong. -/
def outcome (s : Settlement) : Except Failure Analysis :=
  match s.failure with
  | some e => .error e
  | none => .ok s.analysis

end Settlement

namespace Analysis

/-- The first value that is read although nothing defines it. -/
def unreached? (a : Analysis) : Option Failure :=
  a.tracks.findSome? fun t => t.unreached?.map fun b => .unreached b t.register

/-- Settles all tracks, and renames them if every value that is read is defined. -/
def settle (a : Analysis) : Settlement :=
  let settled := a.tracks.map (Track.settle a.graph)
  let after := { a with tracks := settled.map Prod.fst }
  let tasks := total Prod.snd settled
  match after.unreached? with
  | some e => ⟨after, tasks, some e⟩
  | none => ⟨{ after with tracks := after.tracks.map Track.rename }, tasks, none⟩

end Analysis

end RegisterWeb
