import RegisterWeb.Analysis
import RegisterWeb.Instance
import RegisterWeb.Live.Flow
import RegisterWeb.Live.Range

/-!
Live instances: the versions of each register with the ranges in which they are live. A version that
enters a block is live up to its last read, and to the end of the block if it is live there. A write
starts a range right after the instruction, one byte long even if the version is never read.
Instances are numbered within each bank, by register and version.
-/

namespace RegisterWeb

/-- The ranges of the versions of one register, in ascending order of the versions. -/
abbrev VersionRanges := List (Version × Ranges)

namespace VersionRanges

/-- Adds a range that is not empty to a version. -/
def place (v : Version) (start stop : Offset) : VersionRanges → VersionRanges
  | [] => [(v, Ranges.insert [] start stop)]
  | (w, rs) :: rest =>
    if v < w then (v, Ranges.insert [] start stop) :: (w, rs) :: rest
    else if w < v then (w, rs) :: place v start stop rest
    else (w, Ranges.insert rs start stop) :: rest

/-- Adds a range to a version; an empty one adds nothing. -/
def insert (m : VersionRanges) (start stop : Offset) (v : Version) : VersionRanges :=
  if start < stop then place v start stop m else m

/-- Adds a range to each of the given versions. -/
def insertAll (m : VersionRanges) (vs : VersionSet) (start stop : Offset) : VersionRanges :=
  vs.foldl (fun m v => m.insert start stop v) m

end VersionRanges

/-- A walk through a block: the current versions, where they became current or were first needed, and
the ranges found so far. -/
structure Walk where
  current : VersionSet
  since : Offset
  found : VersionRanges
  deriving DecidableEq, Repr, Inhabited

namespace Walk

/-- A read needs the current versions, a write starts a new one. -/
def step (w : Walk) (a : Access) : Walk :=
  let found := if a.reads then w.found.insertAll w.current w.since (a.offset + 1) else w.found
  match a.write with
  | some v => ⟨[v], a.offset + 1, found.insert (a.offset + 1) (a.offset + 1 + 1) v⟩
  | none => { w with found }

/-- Adds the ranges of a register in a block. -/
def through (g : Graph) (t : Track) (l : LiveFlow) (found : VersionRanges) (b : Nat) :
    VersionRanges :=
  let block := g.block b
  let start : Walk := ⟨if l.enters.get b then t.entering b else [], block.start, found⟩
  let walked := (t.accesses b).foldl step start
  if l.leaves.get b then walked.found.insertAll walked.current walked.since block.stop
  else walked.found

end Walk

/-- An instance that is live somewhere, with its number in its bank. -/
structure LiveInstance where
  inst : Instance
  index : Nat
  ranges : Ranges
  deriving DecidableEq, Repr, Inhabited

namespace LiveInstance

def bank (i : LiveInstance) : Bank :=
  i.inst.register.bank

/-- Numbers instances after those whose banks are given. -/
def number (before : List Bank) : List (Instance × Ranges) → List LiveInstance
  | [] => []
  | (i, rs) :: rest =>
    ⟨i, before.count i.register.bank, rs⟩ :: number (i.register.bank :: before) rest

/-- The liveness of the register of a track. -/
def liveness (g : Graph) (order : List Nat) (scopes : Table (Option (Array Bool))) (t : Track) :
    LiveFlow :=
  LiveFlow.solve g t (Table.tabulate g.size (t.touches g scopes)) order.reverse

/-- The ranges of all versions of the register of a track. -/
def rangesOf (g : Graph) (order : List Nat) (scopes : Table (Option (Array Bool))) (t : Track) :
    VersionRanges :=
  let l := liveness g order scopes t
  (List.range g.size).foldl (Walk.through g t l) []

/-- All live instances of an analysis, by register and version. -/
def ofAnalysis (a : Analysis) : List LiveInstance :=
  let scopes := a.graph.scopes
  number [] (a.tracks.flatMap fun t =>
    (rangesOf a.graph a.order.blocks scopes t).map fun (v, rs) => (⟨t.register, v⟩, rs))

/-- The number of an instance in its bank. -/
def index? (is : List LiveInstance) (i : Instance) : Option Nat :=
  (is.find? fun l => l.inst == i).map LiveInstance.index

end LiveInstance

end RegisterWeb
