import RegisterWeb.Offset

/-!
Sets of offsets as lists of half-open ranges. The ranges of a list stand in ascending order and
leave a gap between each other, so a set of offsets has one list.
-/

namespace RegisterWeb

/-- The offsets from `start` up to but not including `stop`. -/
structure Range where
  start : Offset
  stop : Offset
  deriving DecidableEq, Repr, Inhabited

namespace Range

def text (r : Range) : String :=
  "[" ++ r.start.text ++ ", " ++ r.stop.text ++ ")"

end Range

/-- Ranges in ascending order with gaps between them. -/
abbrev Ranges := List Range

namespace Ranges

/-- Adds a range that is not empty, joined with all ranges that it meets or touches. -/
def place (start stop : Offset) : Ranges → Ranges
  | [] => [⟨start, stop⟩]
  | r :: rs =>
    if r.stop < start then r :: place start stop rs
    else if stop < r.start then ⟨start, stop⟩ :: r :: rs
    else place (min start r.start) (max stop r.stop) rs

/-- Adds the offsets from `start` up to `stop`, if there are any. -/
def insert (rs : Ranges) (start stop : Offset) : Ranges :=
  if start < stop then place start stop rs else rs

def contains (rs : Ranges) (p : Offset) : Bool :=
  match rs.find? (fun r => decide (p < r.stop)) with
  | some r => decide (r.start ≤ p)
  | none => false

/-- Whether the first range that reaches beyond `start` begins before `stop`. -/
def overlaps (rs : Ranges) (start stop : Offset) : Bool :=
  match rs.find? (fun r => decide (start < r.stop)) with
  | some r => decide (r.start < stop)
  | none => false

def text (rs : Ranges) : String :=
  "\x7b" ++ ", ".intercalate (rs.map Range.text) ++ "\x7d"

end Ranges

end RegisterWeb
