import RegisterWeb.Graph.Build
import RegisterWeb.Live.Basic

/-!
Sections of code and their analysis. The stages build on each other: the graph of the hints, the
tracks of the usages, their settlement, and the liveness. A run keeps what the stages gave, also when
one of them fails.
-/

namespace RegisterWeb

/-- A stretch of code with the facts known about it. -/
structure Section where
  code : Code
  length : Offset
  hints : List Hint
  usages : List Usage
  groups : List SlotGroup
  deriving DecidableEq, Repr, Inhabited

namespace Section

/-- The number of bytes: the stated length, or that of the code if none is stated. -/
def size (s : Section) : Offset :=
  if s.length = 0 then Int64.ofNat s.code.size else s.length

end Section

/-- What is known about a section in the end: its settled tracks and its liveness. -/
structure Result where
  analysis : Analysis
  live : Live
  deriving DecidableEq, Repr, Inhabited

namespace Result

def graph (r : Result) : Graph :=
  r.analysis.graph

/-- What each block does to the registers it uses. -/
def infos (r : Result) (b : Nat) : List (Register × Info) :=
  (r.analysis.summary b).uses.map fun u => (u.1, u.2.info)

/-- What a block does to a register, if there is a block with that number and it uses the register. -/
def info? (r : Result) (b : Int) (register : Register) : Option Info :=
  if b < 0 then none else (r.analysis.use? b.toNat register).map Use.info

/-- The number of an instance within its bank. -/
def index? (r : Result) (i : Instance) : Option Nat :=
  r.live.index? i

end Result

/-- How far the stages came, with what they gave. -/
inductive Run where
  /-- The hints give no graph. -/
  | ungraphed (failure : Failure)
  /-- Some usage belongs to no block. -/
  | unplaced (graph : Graph) (failure : Failure)
  /-- Some value is read that nothing defines. -/
  | unsettled (start : Analysis) (tasks : Nat) (failure : Failure)
  /-- Some slots cannot be linked. -/
  | unlinked (start : Analysis) (tasks : Nat) (settled : Analysis)
      (instances : List LiveInstance) (failure : Failure)
  /-- All stages came to their end. -/
  | complete (start : Analysis) (tasks : Nat) (result : Result)
  deriving DecidableEq, Repr

namespace Run

/-- The last stage: the liveness of a settled analysis. -/
def finish (start : Analysis) (tasks : Nat) (settled : Analysis) (groups : List SlotGroup) : Run :=
  let instances := LiveInstance.ofAnalysis settled
  match Live.ofInstances settled instances groups with
  | .error e => unlinked start tasks settled instances e
  | .ok live => complete start tasks ⟨settled, live⟩

/-- The stages that follow the graph. The groups of operands that take several slots come before
those that are given. -/
def ofGraph (g : Graph) (usages : List Usage) (groups : List SlotGroup) : Run :=
  let (single, derived) := Usage.expand usages
  match Analysis.ofUsages g single with
  | .error e => unplaced g e
  | .ok start =>
    let s := start.settle
    match s.outcome with
    | .error e => unsettled start s.tasks e
    | .ok settled => finish start s.tasks settled (derived ++ groups)

/-- The stages of a section. -/
def ofSection (settings : Settings) (s : Section) : Run :=
  match Graph.build settings s.code s.size s.hints with
  | .error e => ungraphed e
  | .ok g => ofGraph g s.usages s.groups

/-- The stages of a place that may hold no section; without one they cannot begin. -/
def ofSection? (settings : Settings) : Option Section → Run
  | none => ungraphed (.fault .missingSection)
  | some s => ofSection settings s

/-- What comes out in the end. -/
def outcome : Run → Except Failure Result
  | ungraphed e => .error e
  | unplaced _ e => .error e
  | unsettled _ _ e => .error e
  | unlinked _ _ _ _ e => .error e
  | complete _ _ r => .ok r

/-- The graph, if the run came as far. -/
def graph? : Run → Option Graph
  | ungraphed _ => none
  | unplaced g _ => some g
  | unsettled a _ _ => some a.graph
  | unlinked a _ _ _ _ => some a.graph
  | complete a _ _ => some a.graph

/-- The analysis before it was settled, if the run came as far. -/
def start? : Run → Option Analysis
  | ungraphed _ => none
  | unplaced _ _ => none
  | unsettled a _ _ => some a
  | unlinked a _ _ _ _ => some a
  | complete a _ _ => some a

/-- How often blocks were looked at. -/
def tasks : Run → Nat
  | ungraphed _ => 0
  | unplaced _ _ => 0
  | unsettled _ n _ => n
  | unlinked _ n _ _ _ => n
  | complete _ n _ => n

/-- The settled analysis, if every value that is read is defined. -/
def settled? : Run → Option Analysis
  | ungraphed _ => none
  | unplaced _ _ => none
  | unsettled _ _ _ => none
  | unlinked _ _ a _ _ => some a
  | complete _ _ r => some r.analysis

/-- The live instances that were found. -/
def instances : Run → List LiveInstance
  | ungraphed _ => []
  | unplaced _ _ => []
  | unsettled _ _ _ => []
  | unlinked _ _ _ is _ => is
  | complete _ _ r => r.live.instances

end Run

namespace Section

/-- The analysis of a section. -/
def analyze (settings : Settings) (s : Section) : Except Failure Result :=
  (Run.ofSection settings s).outcome

end Section

end RegisterWeb
