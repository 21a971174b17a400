import RegisterWeb.Section.Basic

/-!
Counters of the work done by runs. A run that fails counts for what it did before. An empty section
has no graph to be counted.
-/

namespace RegisterWeb

/-- How much was done. -/
structure Counters where
  sections : Nat
  blocks : Nat
  routines : Nat
  tasks : Nat
  replaces : Nat
  ranges : Nat
  deriving DecidableEq, Repr, Inhabited

namespace Counters

def zero : Counters :=
  ⟨0, 0, 0, 0, 0, 0⟩

def add (a b : Counters) : Counters :=
  ⟨a.sections + b.sections, a.blocks + b.blocks, a.routines + b.routines, a.tasks + b.tasks,
    a.replaces + b.replaces, a.ranges + b.ranges⟩

/-- The counters of a graph. -/
def ofGraph (g : Graph) : Counters :=
  if g.blocks.isEmpty then zero else ⟨1, g.size, g.routines.length, 0, 0, 0⟩

/-- The counters of one run. -/
def ofRun (r : Run) : Counters :=
  let graph := (r.graph?.map ofGraph).getD zero
  let replaces := (r.settled?.map Analysis.replaces).getD []
  { graph with
    tasks := r.tasks
    replaces := total (fun e => e.2.length) replaces
    ranges := total (fun i => i.ranges.length) r.instances }

/-- The runs of sections one after the other, each with the counters of all runs so far. -/
def trail (settings : Settings) (before : Counters) :
    List (Option Section) → List (Run × Counters)
  | [] => []
  | s :: rest =>
    let run := Run.ofSection? settings s
    let now := before.add (ofRun run)
    (run, now) :: trail settings now rest

end Counters

end RegisterWeb
