import RegisterWeb.Graph.Basic
import RegisterWeb.Reach
import RegisterWeb.Total

/-!
The flow order of the blocks. Blocks that reach each other form a component, known by its lowest
block. Components are listed so that every component comes after those that lead to it, the lowest
possible first; the blocks of a component stand in ascending order. To see which components are
possible, the edges that lead into each of them from other components are counted, and taken off
again as those are listed.
-/

namespace RegisterWeb

/-- How many edges still lead into each component, and the components that are ready: none does. -/
structure Frontier where
  degrees : Table Int
  ready : List Nat
  deriving DecidableEq, Repr, Inhabited

namespace Frontier

/-- How often a component can be listed or an edge be taken off. -/
def room (f : Frontier) : Nat :=
  f.ready.length + total Int.toNat f.degrees.toList

/-- Takes off one of the edges into a component; with the last one the component becomes ready. -/
def release (f : Frontier) (c : Nat) : Frontier :=
  let left := f.degrees.get c - 1
  ⟨f.degrees.set c left, if left = 0 then f.ready ++ [c] else f.ready⟩

theorem room_release (f : Frontier) (c : Nat) : (f.release c).room ≤ f.room := by
  simp only [release, room, Table.toList_set]
  by_cases hc : c < f.degrees.size
  · have hcell : f.degrees.toList[c]? = some (f.degrees.get c) :=
      (Array.getElem?_toList ..).trans (Table.cells_getElem? hc)
    have htotal := total_set Int.toNat hcell (f.degrees.get c - 1)
    by_cases hlast : f.degrees.get c - 1 = 0
    · rw [if_pos hlast, List.length_append, List.length_singleton]
      omega
    · rw [if_neg hlast]
      omega
  · have hget : f.degrees.get c = 0 := Table.get_of_size_le (Nat.le_of_not_lt hc)
    have hset : f.degrees.toList.set c (f.degrees.get c - 1) = f.degrees.toList :=
      List.set_eq_of_length_le (Nat.le_of_not_lt hc)
    refine Nat.le_of_eq ?_
    rw [hset, hget, if_neg (by decide)]

theorem room_foldl_release (cs : List Nat) (f : Frontier) : (cs.foldl release f).room ≤ f.room := by
  induction cs generalizing f with
  | nil => exact Nat.le_refl _
  | cons c cs ih => exact Nat.le_trans (ih _) (room_release f c)

/-- The lowest component that is ready. -/
def first (f : Frontier) : Nat :=
  f.ready.mergeSort.headD 0

/-- The frontier without the lowest component that is ready. -/
def rest (f : Frontier) : Frontier :=
  ⟨f.degrees, f.ready.mergeSort.tail⟩

theorem room_rest_lt {f : Frontier} (h : f.ready ≠ []) : f.rest.room < f.room := by
  have hlength : f.ready.mergeSort.length = f.ready.length := List.length_mergeSort _
  have hpos := List.length_pos_iff.mpr h
  simp only [rest, room, List.length_tail, hlength]
  omega

/-- Lists the lowest component that is ready and takes off the edges that leave it, again and
again. -/
def list (outs : Table (List Nat)) (f : Frontier) : List Nat :=
  if _none : f.ready = [] then []
  else f.first :: list outs ((outs.get f.first).foldl release f.rest)
termination_by f.room
decreasing_by
  exact Nat.lt_of_le_of_lt (room_foldl_release ..) (room_rest_lt _none)

end Frontier

namespace Graph

/-- The blocks that follow a block by edges of both kinds. -/
def targets (g : Graph) (b : Nat) : List Nat :=
  (g.block b).next.map Edge.block

/-- For each block the marks of the blocks that it reaches, itself included. -/
def reaches (g : Graph) : Table (Array Bool) :=
  Table.tabulate g.size fun b => reach g.size g.targets [b]

/-- The blocks that a block reaches and that reach it. -/
def componentOf (n : Nat) (reaches : Table (Array Bool)) (b : Nat) : List Nat :=
  (List.range n).filter fun c =>
    (reaches.get b).getD c false && (reaches.get c).getD b false

/-- All components. -/
def unordered (g : Graph) : List (List Nat) :=
  let reaches := g.reaches
  ((List.range g.size).map (componentOf g.size reaches)).zipIdx.filterMap fun (c, b) =>
    if c.head? = some b then some c else none

def lowest (c : List Nat) : Nat :=
  c.min?.getD 0

/-- Components in the order of their lowest blocks, and their blocks in ascending order. -/
def ranked (parts : List (List Nat)) : List (List Nat) :=
  (parts.mergeSort fun c d => decide (lowest c ≤ lowest d)).map fun c => c.mergeSort

/-- For each block the number of its component. -/
def numbers (n : Nat) (parts : List (List Nat)) : Table (Option Nat) :=
  parts.zipIdx.foldl (fun t p => p.1.foldl (fun t b => t.set b (some p.2)) t) (Table.blank n)

/-- An edge from one component to another, given by the numbers at its ends. -/
def crossing (i j : Option Nat) : Option (Nat × Nat) := do
  let i ← i
  let j ← j
  if i ≠ j then some (i, j) else none

/-- The edges between different components. -/
def crossings (g : Graph) (numbers : Table (Option Nat)) : List (Nat × Nat) :=
  (List.range g.size).flatMap fun b => (g.targets b).filterMap fun t =>
    crossing (numbers.get b) (numbers.get t)

/-- Counts the edges into each component. -/
def degrees (n : Nat) (crossings : List (Nat × Nat)) : Table Int :=
  crossings.foldl (fun t p => t.set p.2 (t.get p.2 + 1)) (Table.blank n)

/-- For each component those that the edges out of it lead to. -/
def outs (n : Nat) (crossings : List (Nat × Nat)) : Table (List Nat) :=
  crossings.foldl (fun t p => t.set p.1 (t.get p.1 ++ [p.2])) (Table.blank n)

/-- The frontier before anything is listed. -/
def frontier (n : Nat) (crossings : List (Nat × Nat)) : Frontier :=
  let degrees := degrees n crossings
  ⟨degrees, (List.range n).filter fun i => degrees.get i = 0⟩

/-- Lists components, given in any order, in flow order. -/
def listing (g : Graph) (parts : List (List Nat)) : List (List Nat) :=
  let parts := ranked parts
  let crossings := g.crossings (numbers g.size parts)
  (Frontier.list (outs parts.length crossings) (frontier parts.length crossings)).map fun i =>
    parts.getD i []

/-- The components in flow order. -/
def components (g : Graph) : List (List Nat) :=
  g.listing g.unordered

/-- All blocks in flow order. -/
def order (g : Graph) : List Nat :=
  g.components.flatten

/-- Whether a component holds a cycle. -/
def isLoop (g : Graph) (c : List Nat) : Bool :=
  decide (1 < c.length) || c.head?.any fun b => (g.targets b).contains b

/-- The components that hold a cycle, in flow order. -/
def loops (g : Graph) : List (List Nat) :=
  g.components.filter g.isLoop

end Graph

end RegisterWeb
