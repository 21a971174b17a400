import RegisterWeb.Chart.Sketch
import RegisterWeb.Chart.Svg
import RegisterWeb.Section.Batch
import RegisterWeb.Section.Counters
import RegisterWeb.Section.Log
import RegisterWeb.Proofs.Ascending
import RegisterWeb.Proofs.Web
import RegisterWeb.Proofs.Order
import RegisterWeb.Proofs.Graph
import RegisterWeb.Proofs.Routine
import RegisterWeb.Proofs.Flow
import RegisterWeb.Proofs.Effect
import RegisterWeb.Proofs.Fixpoint
import RegisterWeb.Proofs.Analysis
import RegisterWeb.Proofs.Settle
import RegisterWeb.Proofs.Numbering
import RegisterWeb.Proofs.Machine
import RegisterWeb.Proofs.Range
import RegisterWeb.Proofs.Walk
import RegisterWeb.Proofs.LiveFlow
import RegisterWeb.Proofs.Run
import RegisterWeb.Proofs.Live
import RegisterWeb.Proofs.Cover
import RegisterWeb.Proofs.Instr
import RegisterWeb.Proofs.Layout
import RegisterWeb.Proofs.Link
import RegisterWeb.Proofs.Consistency
import RegisterWeb.Proofs.Place
import RegisterWeb.Proofs.Extent
import RegisterWeb.Proofs.CallSet
import RegisterWeb.Proofs.Instructions
import RegisterWeb.Proofs.Shuffle
import RegisterWeb.Proofs.Least
import RegisterWeb.Proofs.Touches
import RegisterWeb.Proofs.Cut.Graph
import RegisterWeb.Proofs.Cut.Order
import RegisterWeb.Proofs.Cut.Flow
import RegisterWeb.Proofs.Cut.Live
import RegisterWeb.Proofs.Cut.Uses
import RegisterWeb.Proofs.Cut.Settled
import RegisterWeb.Proofs.Cut.Result
import RegisterWeb.Proofs.Cut.Label
import RegisterWeb.Proofs.Cut.Section
import RegisterWeb.Proofs.HintOrder
import RegisterWeb.Proofs.Canonical
import RegisterWeb.Proofs.Queue
import RegisterWeb.Proofs.Apart
import RegisterWeb.Proofs.Strict.Read
import RegisterWeb.Proofs.Strict.Graph
import RegisterWeb.Proofs.Strict.Flow
import RegisterWeb.Proofs.Strict.Track
import RegisterWeb.Proofs.Strict.Live
import RegisterWeb.Proofs.Faultless
import RegisterWeb.Proofs.Strict.Section
import RegisterWeb.Proofs.Components
import RegisterWeb.Proofs.RoutineTable
import RegisterWeb.Proofs.InstanceTable
import RegisterWeb.Proofs.Unwind
import RegisterWeb.Proofs.Offsets
import RegisterWeb.Proofs.Backward
import RegisterWeb.Proofs.Deferred
import RegisterWeb.Proofs.LinkTable
import RegisterWeb.Proofs.Operand
import RegisterWeb.Proofs.Overrun
import RegisterWeb.Proofs.Target
import RegisterWeb.Proofs.RoutineSet
import RegisterWeb.Proofs.SizeConflict
import RegisterWeb.Proofs.RangeSet
import RegisterWeb.Proofs.Replay
import RegisterWeb.Proofs.Consecutive
import RegisterWeb.Proofs.Shorthand
import RegisterWeb.Proofs.BreadthFirst
import RegisterWeb.Proofs.Drawing
import RegisterWeb.Proofs.WebHistory
import RegisterWeb.Proofs.VersionSets
import RegisterWeb.Proofs.InstanceOrder
import RegisterWeb.Proofs.CallClosure
import RegisterWeb.Proofs.Listing
import RegisterWeb.Proofs.RoutineIndex
