import RegisterWeb.Graph.Basic
import RegisterWeb.Total
import RegisterWeb.Version.Web

/-!
The flow of the versions of one register variable through a graph. A block hands on the last version
that it makes, or else all versions that enter it. After a call the versions are those that the
routines called leave behind.
-/

namespace RegisterWeb

namespace Table

/-- How many versions the sets of a table hold together. -/
def weight (t : Table VersionSet) : Nat :=
  total List.length t.cells.toList

theorem weight_le_set {t : Table VersionSet} {i : Nat} {s : VersionSet}
    (h : (t.get i).length ≤ s.length) : t.weight ≤ (t.set i s).weight := by
  simp only [weight, set, Array.toList_setIfInBounds]
  apply total_le_set
  intro a ha
  rw [get, Array.getD_eq_getD_getElem?, ← Array.getElem?_toList, ha] at h
  exact h

end Table

/-- The state of the analysis of one register variable: how many versions there are, the blocks that
read the version on entry, the last version that each block makes, what each routine leaves behind
(at its entry block), the versions that enter each block, and the versions merged so far. -/
structure Flow where
  versions : Version
  reads : Table Bool
  made : Table (Option Version)
  effects : Table VersionSet
  entering : Table VersionSet
  webs : Webs
  deriving DecidableEq, Repr, Inhabited

namespace Flow

/-- The versions that a register may have at the end of a block. -/
def leaving (f : Flow) (b : Nat) : VersionSet :=
  match f.made.get b with
  | some v => [v]
  | none => f.entering.get b

/-- The versions that a block hands on by its ordinary edges. -/
def passing (g : Graph) (f : Flow) (b : Nat) : VersionSet :=
  if (g.block b).calls then
    Ascending.gather (g.block b).callees fun c =>
      VersionSet.resolve (f.effects.get c) (f.leaving b)
  else f.leaving b

/-- The versions that come along an edge from a block. -/
def along (g : Graph) (f : Flow) (e : Edge) : VersionSet :=
  if e.isCall then f.leaving e.block else f.passing g e.block

/-- The versions that come into a block along the given edges; a root also gets the entry version. -/
def arriving (g : Graph) (f : Flow) (b : Nat) (edges : List Edge) : VersionSet :=
  edges.foldl (fun s e => VersionSet.union s (f.along g e))
    (if (g.block b).root then [Version.entry] else [])

/-- The versions that come into a block along all its edges. -/
def incoming (g : Graph) (f : Flow) (b : Nat) : VersionSet :=
  f.arriving g b (g.preds.get b)

/-- Where the version on entry is read, all versions that enter are one; tells whether any two of
them were apart. -/
def merge (f : Flow) (b : Nat) : Bool × Flow :=
  if f.reads.get b then
    match f.entering.get b with
    | [] => (false, f)
    | v :: vs =>
      let merged := f.webs.unionAll v vs
      (merged.1, { f with webs := merged.2 })
  else (false, f)

/-- Lets more versions enter a block. -/
def receive (f : Flow) (b : Nat) (s : VersionSet) : Flow :=
  { f with entering := f.entering.set b (VersionSet.union (f.entering.get b) s) }

/-- Looks at a block again: lets in what comes along its edges and merges. -/
def process (g : Graph) (f : Flow) (b : Nat) : Bool × Flow :=
  (f.receive b (f.incoming g b)).merge b

/-- How many versions can still enter blocks or be merged, out of all that there are. -/
def room (f : Flow) : Nat :=
  UInt32.size * f.entering.size + UInt32.size - (f.entering.weight + f.webs.links.length)

theorem room_merge_le (f : Flow) (b : Nat) : (f.merge b).2.room ≤ f.room := by
  simp only [merge]
  split
  · split
    · exact Nat.le_refl _
    · rename_i v vs _
      have := f.webs.length_le_unionAll v vs
      simp only [room]
      omega
  · exact Nat.le_refl _

theorem room_receive_le (f : Flow) (b : Nat) (s : VersionSet) : (f.receive b s).room ≤ f.room := by
  have := Table.weight_le_set (Ascending.length_le_union (f.entering.get b) s)
  simp only [room, receive, Table.size_set]
  simp only [VersionSet.union]
  omega

theorem room_process_le (g : Graph) (f : Flow) (b : Nat) : (f.process g b).2.room ≤ f.room :=
  Nat.le_trans (room_merge_le _ b) (room_receive_le f b _)

end Flow

end RegisterWeb
