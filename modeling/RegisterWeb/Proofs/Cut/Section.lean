import Mathlib
import RegisterWeb.Proofs.Cut.Label
import RegisterWeb.Proofs.Cut.Result

/-!
A label where control passes anyway: inside of a block, with nothing before it in the block that
steers elsewhere. The section with the label has the same live instances, replacements and links;
only its blocks are numbered anew.
-/

namespace RegisterWeb

open RegisterWeb.Graph
open RegisterWeb.Seam

/-- The block that starts where a block started is its first part. -/
theorem Graph.Cut.start_iff {g g' : Graph} {i b : Nat} (h : g.Cut g' i)
    (hpart' : Layout.Partition g'.length g'.blocks) (hb : b < g.size) (c : Nat) :
    c < g'.size ∧ (g'.block c).start = (g.block b).start ↔ c = head i b := by
  have hhead : head i b < g'.size := h.size ▸ (head_lt h.lt).mpr hb
  constructor
  · rintro ⟨hc, hstart⟩
    have hown : (g'.block c).contains (g'.block c).start = true :=
      Transfer.contains_start hpart' hc
    rw [hstart, ← h.start b] at hown
    exact hpart'.unique hc hhead hown (Transfer.contains_start hpart' hhead)
  · rintro rfl
    exact ⟨hhead, h.start b⟩

theorem Live.lt_of_mem_routineSets {s : Analysis} (hg : s.graph.WellFormed)
    {is : List LiveInstance} {ds : List SlotGroup} {l : Live} (hl : ofInstances s is ds = .ok l)
    {e : Nat × LiveSet} (he : e ∈ l.routineSets) : e.1 < s.graph.size := by
  obtain ⟨_, _, _, hroutines, _⟩ := sets_ofInstances hl
  rw [hroutines, List.map_map] at he
  obtain ⟨q, hq, rfl⟩ := List.mem_map.mp he
  exact hg.entry_lt hq

/-- A label inside of a block, before all of its hints that may end it, changes nothing but the
numbers of blocks: a block gets the number of the block that starts where it did. -/
theorem Section.label_renumbers {settings : Settings} {sec : Section} {first second : List Hint}
    (hhints : sec.hints = first ++ second) {p : Offset} {a a' : Analysis} {tasks tasks' : Nat}
    {result result' : Result} (hsec : Run.ofSection settings sec = .complete a tasks result)
    (hsec' : Run.ofSection settings { sec with hints := first ++ Hint.labelAt p :: second }
      = .complete a' tasks' result')
    (hfit : Hint.Fit settings sec.code sec.size (first ++ Hint.labelAt p :: second))
    (hwrites : ∀ r ∈ a.registers, a.writes r < UInt32.size - 2) {i : Nat}
    (hinside : (result.graph.block i).start < p ∧ p < (result.graph.block i).stop)
    (hlater : ∀ h ∈ sec.hints, result.graph.Holds i h → h.kind ≠ .label → h.kind ≠ .boundary →
      p ≤ h.offset) :
    result'.live.instances = result.live.instances ∧
      result'.live.links = result.live.links ∧
      result'.analysis.replaces = result.analysis.replaces ∧
      (∀ x : Instance, result'.index? x = result.index? x) ∧
      ∃ renumber : Nat → Nat,
        (∀ b < result.graph.size, ∀ c, c < result'.graph.size ∧
          (result'.graph.block c).start = (result.graph.block b).start ↔ c = renumber b) ∧
        (∀ e ∈ result.live.routineSets, e.1 < result.graph.size) ∧
        result'.live.routineSets = result.live.routineSets.map fun e => (renumber e.1, e.2) := by
  obtain ⟨g, hbuilt, ha, hs, _⟩ := Run.ofSection_complete hsec
  obtain ⟨g', hbuilt', ha', hs', _⟩ := Run.ofSection_complete hsec'
  have hgraph : result.graph = g := (Analysis.fresh_of_ofUsages ha).graph_outcome hs
  have hgraph' : result'.graph = g' := (Analysis.fresh_of_ofUsages ha').graph_outcome hs'
  rw [hgraph] at hinside hlater ⊢
  rw [hgraph']
  rw [hhints] at hbuilt hlater
  have hlabeled : Graph.Labeled settings sec.code sec.size first second p g g' i :=
    ⟨hbuilt, hbuilt', hfit, hinside, hlater⟩
  have hcut : Analysis.Cut g g' i (Usage.expand sec.usages).1 a a' :=
    ⟨hlabeled.cut, wellFormed_of_build hbuilt, wellFormed_of_build hbuilt', hlabeled.partition.1,
      hlabeled.partition.2, ha, ha'⟩
  have hlive := Run.live_of_ofSection hsec
  have hlive' := Run.live_of_ofSection hsec'
  obtain ⟨hinstances, hlinks, hroutines⟩ := hcut.live_eq hs hs' hwrites hlive hlive'
  refine ⟨hinstances, hlinks, hcut.replaces_eq hs hs' hwrites, ?_, head i, ?_, ?_, hroutines⟩
  · intro x
    rw [Result.index?, Result.index?, Live.index?, Live.index?, hinstances]
  · exact fun b hb => hcut.cut.start_iff hcut.part' hb
  · intro e he
    have hanalysis : result.analysis.graph = g := hgraph
    rw [← hanalysis]
    exact Live.lt_of_mem_routineSets (hanalysis ▸ hcut.graph) hlive he

namespace Waypoint

def x (i : Offset) : Register := Register.slot ⟨0, "x", Bank.vector⟩ i

def before : List Hint := [⟨8, .condJump, [16], 0⟩, ⟨20, .call, [28], 0⟩]

def behind : List Hint := [⟨24, .halt, [], 0⟩, ⟨28, .ret, [], 0⟩]

/-- The first block writes, reads and writes again; its versions meet those of the second one. -/
def source : Section where
  code := #[]
  length := 32
  hints := before ++ behind
  usages := [⟨0, x 0, 2, 2, false, true⟩, ⟨4, x 0, 1, 0, true, false⟩, ⟨8, x 0, 1, 0, false, true⟩,
    ⟨12, x 0, 1, 0, false, true⟩, ⟨24, x 0, 2, 4, true, false⟩, ⟨28, x 1, 1, 0, true, false⟩]
  groups := []

/-- The section with a label at the read. -/
def labeled : Section :=
  { source with hints := before ++ Hint.labelAt 4 :: behind }

def graph : Graph where
  length := 32
  blocks := #[⟨0, 0, 12, [⟨1, false⟩, ⟨2, false⟩], true, false, false, false⟩,
    ⟨1, 12, 16, [⟨2, false⟩], false, false, false, false⟩,
    ⟨2, 16, 24, [⟨3, false⟩, ⟨4, true⟩], false, true, false, false⟩,
    ⟨3, 24, 28, [], false, false, false, true⟩,
    ⟨4, 28, 32, [], false, false, true, false⟩]
  preds := ⟨#[[], [⟨0, false⟩], [⟨0, false⟩, ⟨1, false⟩], [⟨2, false⟩], [⟨2, true⟩]]⟩
  routines := [⟨4, [4], [4], [], [2], [3]⟩]
  boundaries := []

def stages : Run := Run.ofSection (Settings.standard 1) source

def stages' : Run := Run.ofSection (Settings.standard 1) labeled

def start : Analysis := stages.start?.getD default

def start' : Analysis := stages'.start?.getD default

def result : Result := stages.outcome.toOption.getD default

def result' : Result := stages'.outcome.toOption.getD default

theorem evaluates :
    Run.ofSection (Settings.standard 1) source = .complete start stages.tasks result ∧
      result.graph = graph ∧ (start.registers.all fun r => decide (start.writes r ≤ 3)) = true ∧
      result.live.routineSets = [(4, [(Bank.vector, 2)])] ∧
      result.analysis.replaces.map Prod.snd = [[⟨⟨3#32⟩, ⟨2#32⟩⟩]] := by
  cbv

theorem evaluates' :
    Run.ofSection (Settings.standard 1) labeled = .complete start' stages'.tasks result' ∧
      result'.graph.size = 6 ∧ (result'.graph.block 5).start = 28 := by
  cbv

/-- The routine has another number with the label, and all else is the same. -/
theorem renumbers_routine :
    result'.live.instances = result.live.instances ∧ result'.live.links = result.live.links ∧
      result'.analysis.replaces.map Prod.snd = [[⟨⟨3#32⟩, ⟨2#32⟩⟩]] ∧
      result'.live.routineSets = [(5, [(Bank.vector, 2)])] := by
  obtain ⟨hcomplete, hgraph, hcount, hsets, hreplaces⟩ := evaluates
  obtain ⟨hcomplete', hsize, hstart⟩ := evaluates'
  have hwrites : ∀ r ∈ start.registers, start.writes r < UInt32.size - 2 := by
    intro r hr
    exact Nat.lt_of_le_of_lt (of_decide_eq_true (List.all_eq_true.mp hcount r hr)) (by decide)
  have hlater : ∀ h ∈ source.hints, result.graph.Holds 0 h → h.kind ≠ .label →
      h.kind ≠ .boundary → 4 ≤ h.offset := by
    rw [hgraph]
    unfold Holds
    decide
  have hhints : source.hints = before ++ behind := rfl
  obtain ⟨hinstances, hlinks, hsame, _, ρ, hρ, _, hroutines⟩ :=
    Section.label_renumbers hhints hcomplete hcomplete' (by decide) hwrites
      (by rw [hgraph]; decide) hlater
  rw [hgraph] at hρ
  have hentry : 5 = ρ 4 := (hρ 4 (by decide) 5).mp ⟨by rw [hsize]; decide, hstart⟩
  rw [hsets, List.map_singleton, ← hentry] at hroutines
  rw [hsame]
  exact ⟨hinstances, hlinks, hreplaces, hroutines⟩

end Waypoint

end RegisterWeb
