import RegisterWeb.Ascending
import RegisterWeb.Graph.Basic
import RegisterWeb.Settings.Basic

/-!
The layout of a section: how long its hinted instructions are, whether branch targets are sound, and
where its blocks start and stop. Hints are taken in order of their offsets.
-/

namespace RegisterWeb

/-- A hinted instruction. -/
structure Instr where
  offset : Offset
  size : Offset
  deriving DecidableEq, Repr

namespace Instr

/-- The offset right after the instruction. -/
def next (i : Instr) : Offset :=
  i.offset + i.size

/-- The instruction recorded at an offset. -/
def at? (known : List Instr) (p : Offset) : Option Instr :=
  known.find? fun i => i.offset == p

/-- The size that a hint gives, or else the settings. -/
def sizeFor (s : Settings) (code : Code) (h : Hint) : Except Failure Offset :=
  if h.size = 0 then (s.sizeAt code h.offset).mapError Failure.fault else .ok h.size

/-- Records the instruction of a hint after those of the hints before it. A second hint for an
instruction may leave the size open, but must not give another one. -/
def record (s : Settings) (code : Code) (n : Offset) (known : List Instr) (h : Hint) :
    Except Failure (List Instr) :=
  if h.offset < 0 ∨ n ≤ h.offset then
    .error (.structural h.offset (.hintOutside h.kind n))
  else
    match at? known h.offset with
    | some i =>
      if h.size = 0 ∨ h.size = i.size then .ok known
      else .error (.structural h.offset (.sizeConflict i.size h.size))
    | none => do
      let size ← sizeFor s code h
      if size ≤ 0 then .error (.structural h.offset (.badSize size))
      else if n < h.offset + size then .error (.structural h.offset .crossesEnd)
      else .ok (known ++ [⟨h.offset, size⟩])

/-- The instructions of all hints, in ascending order of their offsets. -/
def ofHints (s : Settings) (code : Code) (n : Offset) (hints : List Hint) :
    Except Failure (List Instr) :=
  hints.foldlM (record s code n) []

/-- The last instruction that starts at or before an offset. -/
def lastAt? (known : List Instr) (p : Offset) : Option Instr :=
  (known.filter fun i => decide (i.offset ≤ p)).getLast?

/-- What is wrong with a branch target, if anything is. -/
def targetFlaw? (s : Settings) (n : Offset) (known : List Instr) (t : Offset) : Option TargetFlaw :=
  if t < 0 ∨ n ≤ t then some .outside
  else if !s.isAligned t then some .misaligned
  else
    match lastAt? known t with
    | some i => if i.offset < t ∧ t < i.next then some .insideInstruction else none
    | none => none

/-- Checks the targets of a hint in order. -/
def checkTargets (s : Settings) (n : Offset) (known : List Instr) (h : Hint) : Except Failure Unit :=
  h.targets.forM fun t =>
    match targetFlaw? s n known t with
    | some flaw => .error (.structural h.offset (.badTarget t flaw))
    | none => .ok ()

/-- The offset right after the instruction of a hint. -/
def after (known : List Instr) (h : Hint) : Offset :=
  match at? known h.offset with
  | some i => i.next
  | none => h.offset

/-- The offsets at which a hint makes a block start. -/
def entriesOf (s : Settings) (n : Offset) (known : List Instr) (h : Hint) :
    Except Failure (List Offset) :=
  match h.kind with
  | .label | .boundary => .ok [h.offset]
  | .ret | .halt => .ok [after known h]
  | _ => do
    checkTargets s n known h
    return h.targets ++ [after known h]

end Instr

namespace Layout

/-- Where the blocks start: at zero and at every offset that a hint marks, but not at the end. -/
def starts (s : Settings) (code : Code) (n : Offset) (hints : List Hint) :
    Except Failure (List Offset) := do
  let known ← Instr.ofHints s code n hints
  let marked ← hints.mapM (Instr.entriesOf s n known)
  return (Ascending.ofList (0 :: marked.flatten)).filter fun p => p != n

/-- Every block stops where the next one starts, the last one at the end of the section. -/
def spans (n : Offset) : List Offset → List (Offset × Offset)
  | [] => []
  | [p] => [(p, n)]
  | p :: q :: rest => (p, q) :: spans n (q :: rest)

/-- The blocks before control flow is known. -/
def blocks (n : Offset) (starts : List Offset) : Array Block :=
  ((spans n starts).zipIdx.map fun (span, i) =>
    { id := i, start := span.1, stop := span.2, next := [], root := false, calls := false,
      returns := false, ends := false : Block }).toArray

end Layout

end RegisterWeb
