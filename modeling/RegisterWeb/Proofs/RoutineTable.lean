import Mathlib
import RegisterWeb.Proofs.RoutineIndex

/-!
The table of routines of a built graph, field by field. Its entries are the called blocks, and
what it says of a routine is what the edges say. Where routines resume is the least family of blocks
that has the continuations of the call sites and passes on what the callers have that call in their
last act; the rounds that look for it find it.
-/

namespace RegisterWeb

open Relation

namespace Graph

/-- An ordinary edge leads from one block to another. -/
def Follows (g : Graph) (b c : Nat) : Prop :=
  ⟨c, false⟩ ∈ (g.block b).next

theorem mem_routinesOf {g : Graph} {r : Routine} (b : Nat) :
    r ∈ g.routinesOf b ↔ r ∈ g.routines ∧ b ∈ r.blocks := by
  rw [routinesOf, List.mem_filter, Routine.contains, List.contains_iff_mem]

namespace WellFormed

variable {g : Graph} {r : Routine}

theorem inside_eq (h : g.WellFormed) : g.Inside = ReflTransGen g.Follows := by
  have hleads : (Leads g.size fun b => (g.block b).successors) = g.Follows := by
    funext b c
    rw [Leads, Follows, Block.mem_successors]
    exact propext ⟨fun hc => hc.1, fun hc => ⟨hc, h.next_lt b _ hc⟩⟩
  funext b c
  rw [Inside, hleads]

theorem returns_eq (h : g.WellFormed) (hr : r ∈ g.routines) :
    r.returns = r.blocks.filter fun b => (g.block b).returns && !(g.block b).isTailCall := by
  obtain ⟨i, _, heq⟩ := h.exists_body hr
  rw [heq]
  apply List.filter_congr
  intro b _
  rw [Bool.and_comm]
  rfl

theorem tailCalls_eq (h : g.WellFormed) (hr : r ∈ g.routines) :
    r.tailCalls = r.blocks.filter fun b => (g.block b).isTailCall := by
  obtain ⟨i, _, heq⟩ := h.exists_body hr
  rw [heq]
  rfl

theorem routine?_eq_some (h : g.WellFormed) (c : Nat) :
    g.routine? c = some r ↔ r ∈ g.routines ∧ r.entry = c := by
  constructor
  · intro hfound
    have hentry := List.find?_some hfound
    exact ⟨List.mem_of_find?_eq_some hfound, by simpa using hentry⟩
  · intro hr
    rw [← hr.2]
    exact h.routine?_entry hr.1

end WellFormed

/-- The routines of a built graph are those of the called blocks, in order. A routine has the blocks
that ordinary edges lead to from its entry; it is left by the returns and the last calls among them;
its sites are the blocks that call it. The blocks at which routines resume are the least family that
the call sites allow. They are what is found in rounds over the sites, and the numbers that are kept
for entries and blocks lead to the routines. -/
theorem routine_table {settings : Settings} {code : Code} {n : Offset} {hints : List Hint}
    {g : Graph} (hgraph : Graph.build settings code n hints = .ok g) :
    Ascending (g.routines.map Routine.entry) ∧
    (∀ c, c ∈ g.routines.map Routine.entry ↔ ∃ b, ⟨c, true⟩ ∈ (g.block b).next) ∧
    (∀ r ∈ g.routines,
      Ascending r.blocks ∧ (∀ b, b ∈ r.blocks ↔ ReflTransGen g.Follows r.entry b) ∧
      r.tailCalls = r.blocks.filter (fun b => (g.block b).isTailCall) ∧
      r.returns = r.blocks.filter (fun b => (g.block b).returns && !(g.block b).isTailCall) ∧
      Ascending r.sites ∧ (∀ b, b ∈ r.sites ↔ ⟨r.entry, true⟩ ∈ (g.block b).next) ∧
      (∀ b, r.contains b = true ↔ b ∈ r.blocks) ∧ Ascending r.conts) ∧
    (∀ b, (g.routinesOf b).Sublist g.routines ∧
      ∀ r, r ∈ g.routinesOf b ↔ r ∈ g.routines ∧ b ∈ r.blocks) ∧
    (∀ c r, g.routine? c = some r ↔ r ∈ g.routines ∧ r.entry = c) ∧
    (g.Resumes fun r k => k ∈ r.conts) ∧
    (∀ family, g.Resumes family → ∀ r ∈ g.routines, ∀ k ∈ r.conts, family r k) ∧ g.Indexed := by
  have h := wellFormed_of_build hgraph
  refine ⟨h.ascending_entries, h.mem_entries, ?_, ?_, fun c r => h.routine?_eq_some c,
    h.resumes_conts, fun family hfamily r hr k => h.conts_least hfamily hr, h.indexed⟩
  · intro r hr
    obtain ⟨hblocks, hsites, hconts⟩ := h.ascending_lists hr
    refine ⟨hblocks, fun b => ?_, h.tailCalls_eq hr, h.returns_eq hr, hsites, fun b => ?_,
      fun b => List.contains_iff_mem, hconts⟩
    · rw [h.mem_blocks hr, h.inside_eq]
    · rw [h.mem_sites hr, Block.mem_callees]
  · intro b
    exact ⟨List.filter_sublist, fun r => mem_routinesOf b⟩

end Graph

namespace Rally

/-- Two routines that call each other in their last acts; one of them is called from outside. -/
def hints : List Hint :=
  [⟨0, .call, [8], 0⟩, ⟨4, .halt, [], 0⟩, ⟨8, .condJump, [16], 0⟩, ⟨12, .call, [20], 0⟩,
    ⟨12, .ret, [], 0⟩, ⟨16, .ret, [], 0⟩, ⟨20, .call, [8], 0⟩, ⟨20, .ret, [], 0⟩]

def graph : Graph where
  length := 24
  blocks := #[⟨0, 0, 4, [⟨1, false⟩, ⟨2, true⟩], true, true, false, false⟩,
    ⟨1, 4, 8, [], false, false, false, true⟩,
    ⟨2, 8, 12, [⟨3, false⟩, ⟨4, false⟩], false, false, false, false⟩,
    ⟨3, 12, 16, [⟨5, true⟩], false, true, true, false⟩,
    ⟨4, 16, 20, [], false, false, true, false⟩,
    ⟨5, 20, 24, [⟨2, true⟩], false, true, true, false⟩]
  preds := ⟨#[[], [⟨0, false⟩], [⟨0, true⟩, ⟨5, true⟩], [⟨2, false⟩], [⟨2, false⟩], [⟨3, true⟩]]⟩
  routines := [⟨2, [2, 3, 4], [4], [3], [0, 5], [1]⟩, ⟨5, [5], [], [5], [3], [1]⟩]
  boundaries := []

theorem builds : Graph.build (Settings.standard 1) #[] 24 hints = .ok graph := by
  cbv

/-- The inner routine resumes behind a call that is not its own, and has to. -/
theorem inner_resumes : Graph.build (Settings.standard 1) #[] 24 hints = .ok graph ∧
    (graph.routine? 5).map Routine.conts = some [1] ∧
    ¬ graph.Resumes (fun r k => r.entry = 2 ∧ k ∈ r.conts) ∧ ¬ graph.Follows 3 5 := by
  obtain ⟨_, _, _, _, hlookup, _, hleast, _⟩ := Graph.routine_table builds
  have hfound : graph.routine? 5 = some ⟨5, [5], [], [5], [3], [1]⟩ := by decide
  have hr := ((hlookup 5 _).mp hfound).1
  refine ⟨builds, by rw [hfound]; rfl, ?_, by unfold Graph.Follows; decide⟩
  intro hfamily
  have hentry := (hleast _ hfamily _ hr 1 (by decide)).1
  exact absurd hentry (by decide)

end Rally

end RegisterWeb
