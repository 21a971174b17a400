import Mathlib
import RegisterWeb.Chart.Sketch
import RegisterWeb.Proofs.BreadthFirst
import RegisterWeb.Proofs.Order

/-!
Pictures of graphs. A picture shows every block once, each followed by its edges in their order, and
the blocks that the roots lead to come before all others. A sketch can be drawn if its edges lead to
blocks, whatever their order and number, and the picture says what the sketch says.
-/

namespace RegisterWeb

open Relation

/-! ### The order of the blocks -/

/-- The blocks are drawn once each: first those that the roots lead to, then the others. -/
theorem Graph.drawOrder_split (g : Graph) :
    ∃ reached others, g.drawOrder = reached ++ others ∧
      (reached ++ others).Perm (List.range g.size) ∧
      ∀ b, b ∈ reached ↔ ∃ r ∈ g.roots, g.Reaches r b := by
  have hsweeps := searchAll_sweeps g.targets (g.roots ++ List.range g.size)
    (Array.replicate g.size false)
  obtain ⟨found, _, hsplit⟩ := searchAll_append g.targets g.roots (List.range g.size)
    (Array.replicate g.size false)
  refine ⟨_, _, hsplit, ?_, fun b => ?_⟩
  · rw [← hsplit]
    refine (List.perm_ext_iff_of_nodup hsweeps.nodup List.nodup_range).mpr fun b => ?_
    rw [List.mem_range]
    constructor
    · intro hb
      simpa using lt_size_of_get (hsweeps.fresh b hb)
    · intro hb
      have hstart : b ∈ g.roots ++ List.range g.size :=
        List.mem_append_right _ (List.mem_range.mpr hb)
      exact (hsweeps.covers b hstart (by simpa using hb)).resolve_left (get_replicate_ne_true _ b)
  · rw [mem_searchAll_iff, mem_reachable]
    refine exists_congr fun r => and_congr_right fun hr => and_iff_right ?_
    exact List.mem_range.mp (List.mem_filter.mp hr).1

/-! ### Sketches -/

namespace Sketch

/-- All edges lead to blocks. -/
def Closed (s : Sketch) : Prop :=
  ∀ k ∈ s.blocks, ∀ e ∈ k.next, 0 ≤ e.1 ∧ e.1 < s.blocks.length

instance : DecidablePred Closed := fun s =>
  inferInstanceAs (Decidable (∀ k ∈ s.blocks, ∀ e ∈ k.next, 0 ≤ e.1 ∧ e.1 < s.blocks.length))

/-- An edge leads from one block to another. -/
def Follows (s : Sketch) (a b : Nat) : Prop :=
  ∃ k, s.blocks[a]? = some k ∧ ∃ e ∈ k.next, e.1 = b

/-- Edges lead from a root to the block. -/
def FromRoot (s : Sketch) (b : Nat) : Prop :=
  ∃ r k, s.blocks[r]? = some k ∧ k.root = true ∧ ReflTransGen s.Follows r b

/-- The line of a block; entries of routines are boxed. -/
def nodeLine (s : Sketch) (b : Nat) (k : SketchBlock) : String :=
  "    " ++ Graph.dotName b ++ " [label=\"" ++ Graph.dotName b ++ " [" ++ k.start.text ++ ", "
    ++ k.stop.text ++ ")\", shape=" ++ (if (b : Int) ∈ s.entries then "box" else "ellipse") ++ "];"

/-- The line of an edge; calls are dashed. -/
def edgeLine (b : Nat) (e : Int × Bool) : String :=
  "    " ++ Graph.dotName b ++ " -> " ++ Graph.dotName e.1.toNat
    ++ (if e.2 then " [style=dashed];" else ";")

/-- The lines that show a block: its own, and one for each edge. -/
def linesOf (s : Sketch) (b : Nat) : List String :=
  (s.blocks[b]?.map fun k => s.nodeLine b k :: k.next.map (edgeLine b)).getD []

variable {s : Sketch}

theorem size_toGraph (s : Sketch) : s.toGraph.size = s.blocks.length := by
  simp [toGraph, Graph.size]

theorem block_toGraph {b : Nat} {k : SketchBlock} (h : s.blocks[b]? = some k) :
    s.toGraph.block b = s.toBlock b k := by
  simp [toGraph, Graph.block, Array.getD_eq_getD_getElem?, h]

theorem mem_roots_toGraph {b : Nat} :
    b ∈ s.toGraph.roots ↔ ∃ k, s.blocks[b]? = some k ∧ k.root = true := by
  rw [Graph.roots, List.mem_filter, List.mem_range, size_toGraph]
  constructor
  · intro hb
    obtain ⟨hlt, hroot⟩ := hb
    have hk : s.blocks[b]? = some s.blocks[b] := List.getElem?_eq_getElem hlt
    rw [block_toGraph hk] at hroot
    exact ⟨_, hk, hroot⟩
  · intro hb
    obtain ⟨k, hk, hroot⟩ := hb
    rw [block_toGraph hk]
    exact ⟨(List.getElem?_eq_some_iff.mp hk).1, hroot⟩

/-- The blocks that enter a routine are those that the entries name. -/
theorem isSome_routine?_toGraph {b : Nat} (hb : b < s.blocks.length) :
    (s.toGraph.routine? b).isSome = true ↔ (b : Int) ∈ s.entries := by
  have hname : ∀ n : Int, s.block? n = some b ↔ n = b := by
    intro n
    unfold block?
    split
    · rw [Option.some_inj]
      omega
    · constructor
      · intro h
        cases h
      · intro h
        omega
  rw [Graph.routine?, List.find?_isSome]
  simp only [toGraph, List.mem_map, List.mem_filterMap, beq_iff_eq]
  constructor
  · intro h
    obtain ⟨r, ⟨c, ⟨n, hn, hc⟩, rfl⟩, hentry⟩ := h
    simp only at hentry
    subst hentry
    rwa [(hname n).mp hc] at hn
  · intro h
    exact ⟨_, ⟨b, ⟨b, h, (hname b).mpr rfl⟩, rfl⟩, rfl⟩

section Closed

variable (hclosed : s.Closed) {b : Nat} {k : SketchBlock} (hk : s.blocks[b]? = some k)
include hclosed hk

theorem Closed.block? {e : Int × Bool} (he : e ∈ k.next) : s.block? e.1 = some e.1.toNat :=
  if_pos (hclosed k (List.mem_of_getElem? hk) e he)

/-- A block of a closed sketch keeps all its edges. -/
theorem Closed.next_toGraph :
    (s.toGraph.block b).next = k.next.map fun e => ⟨e.1.toNat, e.2⟩ := by
  rw [block_toGraph hk, ← List.filterMap_eq_map]
  refine List.filterMap_congr fun e he => ?_
  simp [hclosed.block? hk he]

theorem Closed.strays_eq : s.strays b = [] := by
  simp only [strays, hk]
  refine List.filter_eq_nil_iff.mpr fun n hn => ?_
  obtain ⟨e, he, rfl⟩ := List.mem_map.mp hn
  simp [hclosed.block? hk he]

theorem Closed.dot_eq :
    s.toGraph.dotNode b :: (s.toGraph.block b).next.map (Graph.dotEdge b) = s.linesOf b := by
  have hentry := isSome_routine?_toGraph (List.getElem?_eq_some_iff.mp hk).1
  rw [hclosed.next_toGraph hk, List.map_map]
  unfold Graph.dotNode
  simp only [linesOf, hk, Option.map_some, Option.getD_some, hentry]
  rw [block_toGraph hk]
  rfl

end Closed

theorem Closed.graph_eq (hclosed : s.Closed) : s.graph = .ok s.toGraph := by
  obtain ⟨reached, others, horder, hperm, _⟩ := s.toGraph.drawOrder_split
  have hstrays : s.toGraph.drawOrder.flatMap s.strays = [] := by
    refine List.flatMap_eq_nil_iff.mpr fun b hb => ?_
    rw [horder, hperm.mem_iff, List.mem_range, size_toGraph] at hb
    exact hclosed.strays_eq (List.getElem?_eq_getElem hb)
  rw [graph, hstrays]
  rfl

theorem Closed.leads_iff (hclosed : s.Closed) (a b : Nat) :
    Leads s.toGraph.size s.toGraph.targets a b ↔ s.Follows a b := by
  unfold Leads Follows Graph.targets
  cases hk : s.blocks[a]? with
  | none =>
    have hnone : s.toGraph.block a = default := by
      simp [toGraph, Graph.block, Array.getD_eq_getD_getElem?, hk]
    rw [hnone]
    constructor
    · intro h
      cases h.1
    · intro h
      obtain ⟨k, hk, _⟩ := h
      cases hk
  | some k =>
    have hrange := hclosed k (List.mem_of_getElem? hk)
    rw [hclosed.next_toGraph hk, List.map_map, size_toGraph]
    constructor
    · intro h
      obtain ⟨e, he, hb⟩ := List.mem_map.mp h.1
      have hb' : e.1.toNat = b := hb
      have hlow := (hrange e he).1
      exact ⟨k, rfl, e, he, by omega⟩
    · intro h
      obtain ⟨k', hk', e, he, hb⟩ := h
      cases hk'
      have hb' := hrange e he
      exact ⟨List.mem_map.mpr ⟨e, he, show e.1.toNat = b by omega⟩, by omega⟩

theorem Closed.fromRoot_iff (hclosed : s.Closed) (b : Nat) :
    (∃ r ∈ s.toGraph.roots, s.toGraph.Reaches r b) ↔ s.FromRoot b := by
  have hfollows : Leads s.toGraph.size s.toGraph.targets = s.Follows :=
    funext fun a => funext fun b => propext (hclosed.leads_iff a b)
  unfold Graph.Reaches FromRoot
  rw [hfollows]
  refine exists_congr fun r => ?_
  rw [mem_roots_toGraph, ← exists_and_right]
  exact exists_congr fun k => and_assoc

/-- A sketch whose edges all lead to blocks has a picture. Between its first lines and its last it
shows every block once, boxed if an entry names it, and after each block its edges in order, dashed
if they call; the blocks that the roots lead to come before the others. -/
theorem drawn_once (s : Sketch) (hclosed : s.Closed) :
    ∃ (g : Graph) (reached others : List Nat), s.graph = .ok g ∧
      (reached ++ others).Perm (List.range s.blocks.length) ∧
      (∀ b ∈ reached, s.FromRoot b) ∧ (∀ b ∈ others, ¬ s.FromRoot b) ∧
      g.dot = String.join
        ((["digraph regflow \x7b", "    node [fontname=monospace];"]
          ++ (reached ++ others).flatMap s.linesOf ++ ["\x7d"]).map fun line => line ++ "\n") := by
  obtain ⟨reached, others, horder, hperm, hreached⟩ := s.toGraph.drawOrder_split
  have hnodup : (reached ++ others).Nodup := hperm.nodup_iff.mpr List.nodup_range
  rw [size_toGraph] at hperm
  refine ⟨s.toGraph, reached, others, hclosed.graph_eq, hperm, ?_, ?_, ?_⟩
  · exact fun b hb => (hclosed.fromRoot_iff b).mp ((hreached b).mp hb)
  · intro b hb hroot
    exact (List.nodup_append.mp hnodup).2.2 b
      ((hreached b).mpr ((hclosed.fromRoot_iff b).mpr hroot)) b hb rfl
  · have hbody : s.toGraph.dotBody = (reached ++ others).flatMap s.linesOf := by
      rw [Graph.dotBody, horder]
      refine List.flatMap_congr fun b hb => ?_
      have hlt : b < s.blocks.length := List.mem_range.mp (hperm.mem_iff.mp hb)
      exact hclosed.dot_eq (List.getElem?_eq_getElem hlt)
    rw [Graph.dot, Graph.dotLines, hbody]

end Sketch

namespace Island

/-- Block 1 leads to itself and to others, but no other block leads to it. -/
def source : Sketch where
  length := 32
  blocks := [⟨0, 8, [(3, true), (2, false), (2, false)], true, true, false, false⟩,
    ⟨8, 16, [(1, false), (2, true)], false, true, false, false⟩,
    ⟨16, 24, [(0, false)], false, false, false, true⟩,
    ⟨24, 32, [], false, false, true, false⟩]
  entries := [3, -5]

theorem fromRoot_iff {b : Nat} (hb : b ∈ List.range 4) : source.FromRoot b ↔ b ≠ 1 := by
  constructor
  · -- block 1 is no root, and only block 1 leads to it
    have hroots : ∀ p ∈ source.blocks.zipIdx, p.1.root = true → p.2 ≠ 1 := by decide
    have hinto : ∀ p ∈ source.blocks.zipIdx, ∀ e ∈ p.1.next, e.1 = 1 → p.2 = 1 := by decide
    intro h
    obtain ⟨r, k, hk, hroot, hpath⟩ := h
    clear hb
    induction hpath with
    | refl => exact hroots (k, r) (List.mem_zipIdx_iff_getElem?.mpr hk) hroot
    | @tail a c _ hstep ih =>
      rintro rfl
      obtain ⟨k, hk, e, he, hc⟩ := hstep
      exact ih (hinto (k, a) (List.mem_zipIdx_iff_getElem?.mpr hk) e he hc)
  · intro hne
    have hfirst : ∀ c, ReflTransGen source.Follows 0 c → source.FromRoot c :=
      fun c hc => ⟨0, _, rfl, rfl, hc⟩
    have hlt := List.mem_range.mp hb
    interval_cases b
    · exact hfirst 0 ReflTransGen.refl
    · exact absurd rfl hne
    · exact hfirst 2 (ReflTransGen.single ⟨_, rfl, (2, false), by decide, rfl⟩)
    · exact hfirst 3 (ReflTransGen.single ⟨_, rfl, (3, true), by decide, rfl⟩)

/-- Block 1 is drawn last. -/
theorem drawn_last : source.Closed ∧
    ∃ (g : Graph) (first : List Nat), source.graph = .ok g ∧ first.Perm [0, 2, 3] ∧
      g.dot = String.join
        ((["digraph regflow \x7b", "    node [fontname=monospace];"]
          ++ (first ++ [1]).flatMap source.linesOf ++ ["\x7d"]).map fun line => line ++ "\n") := by
  have hclosed : source.Closed := by decide
  obtain ⟨g, reached, others, hgraph, hperm, hreached, hothers, hdot⟩ :=
    Sketch.drawn_once source hclosed
  have hnodup : (reached ++ others).Nodup := hperm.nodup_iff.mpr List.nodup_range
  have hall : ∀ b, b ∈ reached ++ others ↔ b ∈ List.range 4 := fun b => hperm.mem_iff
  have hfirst : ∀ b, b ∈ reached ↔ b ∈ List.range 4 ∧ b ≠ 1 := by
    intro b
    constructor
    · intro h
      have hb := (hall b).mp (List.mem_append_left _ h)
      exact ⟨hb, (fromRoot_iff hb).mp (hreached b h)⟩
    · intro h
      refine (List.mem_append.mp ((hall b).mpr h.1)).resolve_right fun hb => ?_
      exact hothers b hb ((fromRoot_iff h.1).mpr h.2)
  have hlast : others = [1] := by
    refine List.perm_singleton.mp ((List.perm_ext_iff_of_nodup ?_ (by decide)).mpr fun b => ?_)
    · exact (List.nodup_append.mp hnodup).2.1
    · rw [List.mem_singleton]
      constructor
      · intro h
        by_contra hne
        exact hothers b h ((fromRoot_iff ((hall b).mp (List.mem_append_right _ h))).mpr hne)
      · rintro rfl
        exact (List.mem_append.mp ((hall 1).mpr (by decide))).resolve_left
          fun h => ((hfirst 1).mp h).2 rfl
  refine ⟨hclosed, g, reached, hgraph, ?_, hlast ▸ hdot⟩
  refine (List.perm_ext_iff_of_nodup (List.nodup_append.mp hnodup).1 (by decide)).mpr fun b => ?_
  rw [hfirst, List.mem_range]
  simp only [List.mem_cons, List.not_mem_nil, or_false]
  omega

end Island

end RegisterWeb
