import RegisterWeb.Graph.Order
import RegisterWeb.Summary
import RegisterWeb.Track.Effect
import RegisterWeb.Version.Replace

/-!
Tracks: one register through all blocks of a graph. A physical register has the entry version
throughout. The versions of a register variable are numbered in flow order from 1, and then flow
through the graph once, in the same order; blocks that are entered from later ones stay open.
-/

namespace RegisterWeb

/-- The blocks of a graph in flow order, with the place of each. -/
structure FlowOrder where
  blocks : List Nat
  rank : Table Nat
  deriving DecidableEq, Repr, Inhabited

namespace FlowOrder

def ofGraph (g : Graph) : FlowOrder :=
  let blocks := g.order
  ⟨blocks, blocks.zipIdx.foldl (fun t (b, i) => t.set b i) (Table.blank g.size)⟩

/-- Whether one block comes before another. -/
def isBefore (o : FlowOrder) (p b : Nat) : Bool :=
  decide (o.rank.get p < o.rank.get b)

/-- The blocks, in flow order, that are entered from a block that is not before them. -/
def late (g : Graph) (o : FlowOrder) : List Nat :=
  o.blocks.filter fun b => (g.preds.get b).any fun e => !o.isBefore e.block b

end FlowOrder

/-- A register, what each block does to it, and how its versions flow. Only register variables have a
flow; `late` lists the blocks that have not seen all versions that enter them. -/
structure Track where
  register : Register
  uses : Table (Option Use)
  flow : Option Flow
  late : List Nat
  replaces : List Replace
  deriving DecidableEq, Repr, Inhabited

namespace Track

/-- Every version of a physical register is the entry version. -/
def fixUse (u : Use) : Use :=
  { info := { u.info with before := some Version.entry, first := some Version.entry,
                          last := some Version.entry }
    accesses := u.accesses.map fun a => { a with write := a.write.map fun _ => Version.entry } }

/-- The number of versions so far and the uses numbered so far. -/
structure Numbering where
  versions : Version
  uses : Table (Option Use)
  deriving DecidableEq, Repr, Inhabited

namespace Numbering

/-- Numbers the versions that a block makes after those of the blocks before it. -/
def visit (n : Numbering) (b : Nat) : Numbering :=
  match n.uses.get b with
  | some u =>
    if u.info.isWritten then
      ⟨n.versions + UInt32.ofNat u.info.changes,
        n.uses.set b (some (u.mapWrites fun v => v + (n.versions - 1)))⟩
    else n
  | none => n

/-- The numbering of a variable with the given uses. -/
def ofUses (order : List Nat) (uses : Table (Option Use)) : Numbering :=
  order.foldl visit ⟨1, uses⟩

end Numbering

/-- The flow before any version has entered a block. A last version that got the word for an unknown
one is as good as none. -/
def initial (n : Nat) (numbering : Numbering) : Flow :=
  { versions := numbering.versions
    reads := Table.tabulate n fun b => (numbering.uses.get b).any fun u => u.info.readsFirst
    made := Table.tabulate n fun b =>
      (numbering.uses.get b).bind fun u => u.info.last.filter fun v => v != Version.unknown
    effects := Table.blank n
    entering := Table.blank n
    webs := Webs.empty }

/-- Lets the versions from the blocks before it enter a block, and merges them. -/
def enter (g : Graph) (o : FlowOrder) (f : Flow) (b : Nat) : Flow :=
  let known := (g.preds.get b).filter fun e => o.isBefore e.block b
  (({ f with entering := f.entering.set b (f.arriving g b known) } : Flow).merge b).2

/-- The track of a register variable after one pass in flow order. -/
def ofVariable (g : Graph) (o : FlowOrder) (r : Register) (uses : Table (Option Use)) : Track :=
  let numbering := Numbering.ofUses o.blocks uses
  let flow := (initial g.size numbering).withEffects g
  { register := r
    uses := numbering.uses
    flow := some (o.blocks.foldl (enter g o) flow)
    late := o.late g
    replaces := [] }

/-- The track of a physical register. -/
def ofPhysical (r : Register) (uses : Table (Option Use)) : Track :=
  { register := r
    uses := ⟨uses.cells.map fun u => u.map fixUse⟩
    flow := none
    late := []
    replaces := [] }

def ofRegister (g : Graph) (o : FlowOrder) (r : Register) (uses : Table (Option Use)) : Track :=
  if r.isSlot then ofVariable g o r uses else ofPhysical r uses

/-! ### Queries -/

/-- The version that a version has been merged into. -/
def canonical (t : Track) (v : Version) : Version :=
  match t.flow with
  | none => v
  | some f => f.webs.root v

/-- The versions that enter a block, up to merging. -/
def entering (t : Track) (b : Nat) : VersionSet :=
  match t.flow with
  | none => [Version.entry]
  | some f => f.webs.canonical (f.entering.get b)

/-- The versions that leave a block, up to merging. -/
def leaving (t : Track) (b : Nat) : VersionSet :=
  match t.flow with
  | none => [Version.entry]
  | some f => f.webs.canonical (f.leaving b)

/-- The number of versions before merging, the entry version included. -/
def versions (t : Track) : Nat :=
  match t.flow with
  | none => 1
  | some f => f.versions.toNat

/-- Whether the caller's value may survive the routine entered at a block. -/
def isTransparent (t : Track) (entry : Nat) : Bool :=
  match t.flow with
  | none => true
  | some f => VersionSet.has (f.effects.get entry) Version.inherited

/-- The versions made inside the routine entered at a block that may be left behind by it. -/
def definitions (t : Track) (entry : Nat) : VersionSet :=
  match t.flow with
  | none => []
  | some f => f.webs.canonical (VersionSet.without (f.effects.get entry) Version.inherited)

/-- Whether a block makes a new version. -/
def isWritten (t : Track) (b : Nat) : Bool :=
  (t.uses.get b).any fun u => u.info.isWritten

/-- Whether a block reads the value on entry. -/
def readsFirst (t : Track) (b : Nat) : Bool :=
  (t.uses.get b).any fun u => u.info.readsFirst

/-- The accesses of a block. -/
def accesses (t : Track) (b : Nat) : List Access :=
  match t.uses.get b with
  | some u => u.accesses
  | none => []

end Track

end RegisterWeb
