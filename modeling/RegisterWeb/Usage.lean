import RegisterWeb.Register

/-!
Usages: which registers an instruction reads and writes. An operand may span several slots; it is
shorthand for one usage per slot and, for a register variable, a group that keeps the slots together.
-/

namespace RegisterWeb

/-- The instruction at `offset` reads or writes `count` registers from `register` on. -/
structure Usage where
  offset : Offset
  register : Register
  count : Offset
  align : Offset
  reads : Bool
  writes : Bool
  deriving DecidableEq, Repr, Inhabited

/-- Slots that the instruction at `offset` needs side by side, the first one aligned. -/
structure SlotGroup where
  offset : Offset
  align : Offset
  slots : List Register
  deriving DecidableEq, Repr, Inhabited

namespace Usage

/-- A write that does not look at the old value; only such a write makes a new version. -/
def isPureWrite (u : Usage) : Bool :=
  u.writes && !u.reads

/-- The registers that a usage spans. -/
def span (u : Usage) : List Register :=
  (List.range u.count.toNatClampNeg).map fun i => u.register.next (Int64.ofNat i)

/-- Whether a usage spans more than one register. -/
def isWide (u : Usage) : Bool :=
  decide (1 < u.count)

/-- One usage per register. -/
def split (u : Usage) : List Usage :=
  if u.isWide then u.span.map fun r => { u with register := r, count := 1, align := 0 }
  else [{ u with count := 1 }]

/-- The group of a wide usage of a register variable. -/
def group? (u : Usage) : Option SlotGroup :=
  if u.isWide && u.register.isSlot then some ⟨u.offset, u.align, u.span⟩ else none

/-- Sorts by offset; usages at one offset keep their order. -/
def sort (us : List Usage) : List Usage :=
  us.mergeSort (fun a b => decide (a.offset ≤ b.offset))

/-- Splits all usages, in order of offset, and collects the groups. -/
def expand (us : List Usage) : List Usage × List SlotGroup :=
  (sort (us.flatMap split), us.filterMap group?)

end Usage

end RegisterWeb
