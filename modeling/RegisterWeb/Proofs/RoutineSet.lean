import Mathlib
import RegisterWeb.Proofs.CallScope
import RegisterWeb.Proofs.Operand
import RegisterWeb.Proofs.RoutineTable

/-!
The live sets of routines and calls. An instance is in the set of a routine exactly if it is live at
an offset of some block of the scope, and rounds over the calls find the sets. So the set holds
whatever the scope reads, and whatever it writes before the last byte of a block.
-/

namespace RegisterWeb

open Relation
open RegisterWeb.Graph

namespace Graph

variable {s : Settings} {code : Code} {n : Offset} {hints : List Hint} {g : Graph} {q : Routine}

/-- A section with a routine has bytes, so its blocks cut it into consecutive stretches. -/
theorem partition_of_routine (hgraph : build s code n hints = .ok g)
    (hfit : Hint.Fit s code n hints) (hq : q ∈ g.routines) :
    Layout.Partition g.length g.blocks := by
  have hg := wellFormed_of_build hgraph
  obtain ⟨b, hcall⟩ := (hg.mem_entries q.entry).mp (List.mem_map_of_mem hq)
  have hb := lt_size_of_mem_next hcall
  obtain ⟨starts, transfers, hstages⟩ := exists_stages hgraph (length_ne_zero_of_build hgraph hb)
  have hcalls : (g.block b).calls = true := by
    obtain ⟨root, hblock⟩ := hstages.block_eq hb
    rw [hblock] at hcall ⊢
    exact Layout.calls_iff.mpr ⟨q.entry, hcall⟩
  rw [hstages.length_eq]
  exact (hstages.partition hfit (hstages.positive_of_calls hcalls)).2

end Graph

/-! ### Sets -/

theorem LiveSet.mem_inBank {set : LiveSet} {bank : Bank} {n : Nat} :
    n ∈ set.inBank bank ↔ (bank, n) ∈ set := by
  simp [inBank]

namespace Live

variable {a : Analysis} {is : List LiveInstance} {groups : List SlotGroup} {l : Live}
  {placed : List (LiveInstance × List Nat)} {test : LiveInstance → List Nat → Bool}

theorem map_fst_placed {g : Graph} (h : is.mapM (blocksOf g) = .ok placed) :
    placed.map Prod.fst = is := by
  have hall := forall₂_of_mapM h
  clear h
  induction hall with
  | nil => rfl
  | cons hplaced _ ih => rw [List.map_cons, fst_of_blocksOf hplaced, ih]

theorem counted_of_instances {s : Analysis} (h : l.instances = LiveInstance.ofAnalysis s) :
    l.Counted := by
  intro bank
  rw [inBank, h, LiveInstance.ofAnalysis, LiveInstance.index_number, List.count_nil,
    List.range_eq_range']

/-- The numbers of the instances in a set ascend within each bank. -/
theorem ascending_select (hcounted : l.Counted) {g : Graph}
    (hplaced : l.instances.mapM (blocksOf g) = .ok placed) (bank : Bank) :
    Ascending ((select placed test).inBank bank) := by
  have hnumbers : ((select placed test).inBank bank).Sublist
      ((l.inBank bank).map LiveInstance.index) := by
    rw [inBank, ← map_fst_placed hplaced, LiveSet.inBank, select, List.filter_map,
      List.filter_map, List.map_map, List.map_map]
    exact (List.filter_sublist.filter _).map _
  rw [hcounted bank] at hnumbers
  exact List.pairwise_lt_range.sublist hnumbers

theorem lookup_routineSets (h : ofInstances a is groups = .ok l) {e : Nat} {set : LiveSet}
    (hset : l.routineSets.lookup e = some set) :
    (∃ q ∈ a.graph.routines, q.entry = e) ∧ l.routineSetAt e = set ∧
      ∃ placed test, is.mapM (blocksOf a.graph) = .ok placed ∧ set = select placed test := by
  have hat : l.routineSetAt e = set := by
    rw [routineSetAt, hset, Option.getD_some]
  obtain ⟨_, placed, hplaced, hroutines, _⟩ := sets_ofInstances h
  rw [hroutines, lookup_map_pair] at hset
  split at hset
  · rename_i he
    cases hset
    exact ⟨List.mem_map.mp he, hat, placed, _, hplaced, rfl⟩
  · cases hset

theorem routineSets_keys (h : ofInstances a is groups = .ok l) :
    l.routineSets.map Prod.fst = a.graph.routines.map Routine.entry := by
  obtain ⟨_, placed, _, hroutines, _⟩ := sets_ofInstances h
  rw [hroutines, List.map_map]
  exact List.map_id _

theorem callSets_keys (h : ofInstances a is groups = .ok l) :
    l.callSets.map Prod.fst = (List.range a.graph.size).filter
      fun b => (a.graph.block b).continuation?.isSome := by
  obtain ⟨_, placed, _, _, hcalls⟩ := sets_ofInstances h
  rw [hcalls, List.map_map]
  exact List.map_id _

/-- What the set of a call holds is in no set of a routine called there. -/
theorem disjoint_callSet (h : ofInstances a is groups = .ok l) {b c : Nat} {set : LiveSet}
    (hset : l.callSetAt? b = some set) (hc : c ∈ (a.graph.block b).callees) {i : Bank × Nat}
    (hi : i ∈ set) : i ∉ l.routineSetAt c := by
  obtain ⟨_, placed, _, _, hcalls⟩ := sets_ofInstances h
  rw [callSetAt?, hcalls, lookup_map_pair] at hset
  split at hset
  · cases hset
    obtain ⟨e, he, rfl⟩ := List.mem_map.mp hi
    have htest := (List.mem_filter.mp he).2
    rw [Bool.and_eq_true, Bool.not_eq_true', List.any_eq_false] at htest
    intro hmem
    refine htest.2 (l.routineSetAt c) (List.mem_map_of_mem hc) ?_
    exact List.contains_iff_mem.mpr hmem
  · cases hset

namespace Counted

variable {bank : Bank} {n : Nat} {x y : LiveInstance}

theorem eq_of_index (h : l.Counted) (hx : x ∈ l.instances) (hy : y ∈ l.instances)
    (hbank : x.bank = y.bank) (hindex : x.index = y.index) : x = y := by
  have hnodup : ((l.inBank y.bank).map LiveInstance.index).Nodup := by
    rw [h y.bank]
    exact List.nodup_range
  refine List.inj_on_of_nodup_map hnodup ?_ ?_ hindex
  · exact List.mem_filter.mpr ⟨hx, beq_iff_eq.mpr hbank⟩
  · exact List.mem_filter.mpr ⟨hy, beq_self_eq_true _⟩

/-- What stands at a place of the list of ranges belongs to the instance with that number. -/
theorem ranged_eq_some (h : l.Counted) {rs : Ranges} : (l.ranged bank)[n]? = some rs ↔
    ∃ x ∈ l.instances, x.bank = bank ∧ x.index = n ∧ x.ranges = rs := by
  rw [ranged, List.getElem?_map, Option.map_eq_some_iff]
  constructor
  · intro hplace
    obtain ⟨x, hx, hranges⟩ := hplace
    obtain ⟨hmem, hbank⟩ := List.mem_filter.mp (List.mem_of_getElem? hx)
    exact ⟨x, hmem, beq_iff_eq.mp hbank, h.index_eq hx, hranges⟩
  · intro hfound
    obtain ⟨x, hx, rfl, rfl, hranges⟩ := hfound
    obtain ⟨m, hm⟩ := List.getElem?_of_mem
      (List.mem_filter.mpr ⟨hx, beq_self_eq_true x.bank⟩ : x ∈ l.inBank x.bank)
    rw [h.index_eq hm]
    exact ⟨x, hm, hranges⟩

end Counted

/-! ### Rounds -/

/-- The instances that are live somewhere in a block. -/
def present (placed : List (LiveInstance × List Nat)) (b : Nat) : List LiveInstance :=
  (placed.filter fun p => p.2.contains b).map Prod.fst

theorem mem_present {g : Graph} (hplaced : is.mapM (blocksOf g) = .ok placed)
    {p : LiveInstance × List Nat} (hp : p ∈ placed) {b : Nat} :
    p.1 ∈ present placed b ↔ b ∈ p.2 := by
  simp only [present, List.mem_map, List.mem_filter, List.contains_iff_mem]
  constructor
  · intro h
    obtain ⟨p', ⟨hp', hb⟩, heq⟩ := h
    -- an instance meets the same blocks wherever it stands
    obtain ⟨i, _, hi⟩ := exists_of_mem_mapM hplaced hp
    obtain ⟨i', _, hi'⟩ := exists_of_mem_mapM hplaced hp'
    have hinst : i' = i := (fst_of_blocksOf hi').symm.trans (heq.trans (fst_of_blocksOf hi))
    rw [hinst, hi] at hi'
    cases hi'
    exact hb
  · exact fun hb => ⟨p, ⟨hp, hb⟩, rfl⟩

/-- What rounds over the calls know: at first the instances that are live in the routines' own
blocks, and then with each round what the callees have by then. -/
def known (g : Graph) (placed : List (LiveInstance × List Nat)) (k : Nat) :
    Touched LiveInstance :=
  (Touched.round g)^[k] (Touched.own g (present placed))

/-- The sets of the routines are what is known when a round adds nothing for the first time. -/
structure Rounds (g : Graph) (l : Live) (placed : List (LiveInstance × List Nat)) (k : Nat) :
    Prop where
  blocks : l.instances.mapM (blocksOf g) = .ok placed
  few : k ≤ g.routines.length * l.instances.length
  still : known g placed (k + 1) = known g placed k
  moves : ∀ j < k, known g placed (j + 1) ≠ known g placed j
  sets : l.routineSets = g.routines.map fun q =>
    (q.entry, select placed fun i _ => decide ((q.entry, i) ∈ known g placed k))

theorem exists_rounds (hg : a.graph.WellFormed) (h : ofInstances a is groups = .ok l) :
    ∃ placed k, l.Rounds a.graph placed k := by
  obtain ⟨_, placed, hplaced, hroutines, _⟩ := sets_ofInstances h
  obtain rfl := instances_ofInstances h
  have hgiven : ∀ q ∈ a.graph.routines, ∀ b ∈ q.blocks, ∀ i ∈ present placed b,
      i ∈ l.instances := by
    intro q _ b _ i hi
    obtain ⟨p, hp, rfl⟩ := List.mem_map.mp hi
    rw [← map_fst_placed hplaced]
    exact List.mem_map_of_mem (List.mem_filter.mp hp).1
  obtain ⟨k, hk, hstill, hmoves, hmem⟩ := Touched.exists_rounds hgiven
  refine ⟨placed, k, hplaced, hk, ?_, hmoves, ?_⟩
  · rw [known, Function.iterate_succ_apply', hstill, known]
  · rw [hroutines, List.map_map]
    refine List.map_congr_left fun q hq => ?_
    refine congrArg (Prod.mk q.entry) (congrArg (List.map _) (List.filter_congr fun p hp => ?_))
    rw [Bool.eq_iff_iff, decide_eq_true_eq, known, hmem, List.any_eq_true]
    refine exists_congr fun b => ?_
    rw [hg.inScope_iff hq, ← hg.scope_iff hq, mem_present hplaced hp, and_comm]

end Live

theorem Block.isSome_continuation? (b : Block) :
    b.continuation?.isSome = true ↔ b.calls = true ∧ ∃ k, k ∈ b.successors := by
  constructor
  · intro hsome
    obtain ⟨k, hk⟩ := Option.isSome_iff_exists.mp hsome
    obtain ⟨hcalls, hmem⟩ := continuation?_mem hk
    exact ⟨hcalls, k, hmem⟩
  · intro h
    obtain ⟨hcalls, k, hk⟩ := h
    rw [Option.isSome_iff_ne_none]
    intro hnone
    have htail : b.isTailCall = true := by
      rw [isTailCall, hcalls, hnone]
      rfl
    rw [((isTailCall_iff b).mp htail).2] at hk
    exact absurd hk List.not_mem_nil

theorem Block.contains_add_one {b : Block} {p : Offset} (h : b.contains p = true)
    (hlt : p + 1 < b.stop) : b.contains (p + 1) = true := by
  rw [contains, Bool.and_eq_true, decide_eq_true_eq, decide_eq_true_eq] at h ⊢
  refine ⟨?_, hlt⟩
  have hone := Offset.toInt_add_one h.2
  rw [Int64.le_iff_toInt_le] at h ⊢
  omega

/-! ### The sets of a section -/

theorem LiveInstance.exists_track {s : Analysis} {x : LiveInstance} (hx : x ∈ ofAnalysis s) :
    ∃ t ∈ s.tracks, ∃ e ∈ rangesOf s.graph s.order.blocks s.graph.scopes t, e.2 = x.ranges := by
  obtain ⟨t, ht, hmem⟩ := List.mem_flatMap.mp (mem_of_mem_number hx)
  obtain ⟨e, he, heq⟩ := List.mem_map.mp hmem
  exact ⟨t, ht, e, he, congrArg Prod.snd heq⟩

theorem LiveInstance.apart {s : Analysis} {x : LiveInstance} (hx : x ∈ ofAnalysis s) :
    x.ranges.Apart := by
  obtain ⟨t, _, e, he, hranges⟩ := exists_track hx
  rw [← hranges]
  exact ordered_rangesOf.apart e he

namespace Section

variable {settings : Settings} {sec : Section} {g : Graph} {a s : Analysis} {l : Live}
  {groups : List SlotGroup} {q : Routine}

theorem settles_of_analyze {result : Result} (h : sec.analyze settings = .ok result) :
    ∃ g a, sec.Settles settings g a result.analysis ∧
      Live.ofInstances result.analysis (LiveInstance.ofAnalysis result.analysis)
        ((Usage.expand sec.usages).2 ++ sec.groups) = .ok result.live := by
  rw [analyze_eq] at h
  obtain ⟨g, hgraph, h⟩ := bind_eq_ok.mp h
  obtain ⟨a, ha, h⟩ := bind_eq_ok.mp h
  obtain ⟨s, hs, h⟩ := bind_eq_ok.mp h
  obtain ⟨live, hlive, h⟩ := bind_eq_ok.mp h
  cases h
  exact ⟨g, a, ⟨hgraph, ha, hs⟩, hlive⟩

namespace Settles

theorem nonneg (h : sec.Settles settings g a s) (hpart : Layout.Partition g.length g.blocks)
    {x : LiveInstance} (hx : x ∈ LiveInstance.ofAnalysis s) {p : Offset}
    (hp : x.ranges.contains p = true) : 0 ≤ p := by
  obtain ⟨t, ht, e, he, hranges⟩ := LiveInstance.exists_track hx
  rw [h.fresh.graph_outcome h.settled] at he
  rw [← hranges, ← LiveInstance.ordered_rangesOf.ranges_of_mem he] at hp
  exact LiveInstance.nonneg_of_contains hpart
    (fun b x => Analysis.contains_of_access h.graph h.placed h.settled ht) hp

/-- An instance is in the set of a routine exactly if it is live at an offset of some block of the
scope. -/
theorem mem_routineSetAt_iff (h : sec.Settles settings g a s)
    (hlive : Live.ofInstances s (LiveInstance.ofAnalysis s) groups = .ok l)
    (hfit : Hint.Fit settings sec.code sec.size sec.hints) (hq : q ∈ g.routines) {bank : Bank}
    {n : Nat} : (bank, n) ∈ l.routineSetAt q.entry ↔
      ∃ x ∈ l.instances, x.bank = bank ∧ x.index = n ∧ ∃ b p, g.Scope q.entry b ∧
        x.ranges.contains p = true ∧ (g.block b).contains p = true := by
  have hg := wellFormed_of_build h.graph
  have hpart := partition_of_routine h.graph hfit hq
  obtain ⟨_, placed, hplaced, hroutines, _⟩ := Live.sets_ofInstances hlive
  rw [h.fresh.graph_outcome h.settled] at hplaced hroutines
  rw [Live.instances_ofInstances hlive, Live.routineSetAt, hroutines, lookup_map_pair,
    if_pos (List.mem_map_of_mem hq), Option.getD_some, Live.routineSet, Live.mem_select_iff hplaced]
  refine exists_congr fun x => and_congr_right fun hx => and_congr_right fun _ =>
    and_congr_right fun _ => ?_
  obtain ⟨e, _, he⟩ := exists_mem_of_mapM hplaced hx
  have hmet := Live.mem_blocksOf_iff_live hpart (LiveInstance.apart hx)
    (fun p hp => h.nonneg hpart hx hp) he
  constructor
  · intro htest
    obtain ⟨e', he', htest⟩ := htest
    cases he.symm.trans he'
    obtain ⟨b, hb, hscope⟩ := List.any_eq_true.mp htest
    obtain ⟨_, p, hp, hin⟩ := (hmet b).mp hb
    exact ⟨b, p, (hg.scope_iff hq b).mpr ((hg.inScope_iff hq b).mp hscope), hp, hin⟩
  · intro hfound
    obtain ⟨b, p, hscope, hp, hin⟩ := hfound
    refine ⟨e, he, List.any_eq_true.mpr ⟨b, (hmet b).mpr ⟨hg.lt_of_scope hscope, p, hp, hin⟩, ?_⟩⟩
    exact (hg.inScope_iff hq b).mpr ((hg.scope_iff hq b).mp hscope)

end Settles

/-- The set of a routine holds, in ascending order, the numbers of the instances of which some range
meets a block of the routine or of one that it calls, directly or not; rounds over the calls find
it. There is such a set for each routine, and one for each call that comes back, which shares nothing
with the set of a routine called there. -/
theorem routine_sets {result : Result} (h : sec.analyze settings = .ok result)
    (hfit : Hint.Fit settings sec.code sec.size sec.hints) :
    (∀ e set, result.live.routineSets.lookup e = some set → ∀ bank,
      Ascending (set.inBank bank) ∧
      ∀ i, i ∈ set.inBank bank ↔ ∃ rs, (result.live.ranged bank)[i]? = some rs ∧
        ∃ range ∈ rs, ∃ q ∈ result.graph.routines,
          ReflTransGen result.graph.Invokes e q.entry ∧ ∃ b ∈ q.blocks, ∃ p,
            range.start ≤ p ∧ p < range.stop ∧ (result.graph.block b).contains p = true) ∧
    (∃ placed k, result.live.Rounds result.graph placed k) ∧
    result.live.routineSets.map Prod.fst = result.graph.routines.map Routine.entry ∧
    (Ascending (result.live.callSets.map Prod.fst) ∧
      ∀ b, b ∈ result.live.callSets.map Prod.fst ↔
        (result.graph.block b).calls = true ∧ ∃ k, k ∈ (result.graph.block b).successors) ∧
    ∀ b set, result.live.callSetAt? b = some set → ∀ c ∈ (result.graph.block b).callees,
      ∀ i ∈ set, i ∉ result.live.routineSetAt c := by
  obtain ⟨g, a, hsettles, hlive⟩ := settles_of_analyze h
  obtain rfl : result.graph = g := hsettles.fresh.graph_outcome hsettles.settled
  have hinstances := Live.instances_ofInstances hlive
  have hcounted := Live.counted_of_instances hinstances
  refine ⟨fun e set hset bank => ?_, Live.exists_rounds (wellFormed_of_build hsettles.graph) hlive,
    Live.routineSets_keys hlive, ⟨?_, fun b => ?_⟩,
    fun b set hset c hc i hi => Live.disjoint_callSet hlive hset hc hi⟩
  · obtain ⟨⟨q, hq, rfl⟩, rfl, placed, test, hplaced, hselect⟩ := Live.lookup_routineSets hlive hset
    constructor
    · rw [hselect]
      rw [← hinstances] at hplaced
      exact Live.ascending_select hcounted hplaced bank
    · intro i
      rw [LiveSet.mem_inBank, hsettles.mem_routineSetAt_iff hlive hfit hq]
      constructor
      · intro hfound
        obtain ⟨x, hx, hbank, hindex, b, p, ⟨r, hr, hpath, hb⟩, hp, hin⟩ := hfound
        obtain ⟨range, hrange, hlow, hhigh⟩ :=
          ((LiveInstance.apart (hinstances ▸ hx)).contains_iff p).mp hp
        exact ⟨x.ranges, hcounted.ranged_eq_some.mpr ⟨x, hx, hbank, hindex, rfl⟩, range, hrange, r,
          hr, hpath, b, hb, p, hlow, hhigh, hin⟩
      · intro hfound
        obtain ⟨rs, hrs, range, hrange, r, hr, hpath, b, hb, p, hlow, hhigh, hin⟩ := hfound
        obtain ⟨x, hx, hbank, hindex, rfl⟩ := hcounted.ranged_eq_some.mp hrs
        have hp := ((LiveInstance.apart (hinstances ▸ hx)).contains_iff p).mpr
          ⟨range, hrange, hlow, hhigh⟩
        exact ⟨x, hx, hbank, hindex, b, p, ⟨r, hr, hpath, hb⟩, hp, hin⟩
  · rw [Live.callSets_keys hlive]
    exact List.pairwise_lt_range.sublist List.filter_sublist
  · rw [Live.callSets_keys hlive, List.mem_filter, List.mem_range, Block.isSome_continuation?]
    refine and_iff_right_of_imp fun hcall => ?_
    obtain ⟨_, k, hk⟩ := hcall
    exact lt_size_of_mem_next ((Block.mem_successors _ k).mp hk)

end Section

namespace Mutual

def reg (index : Offset) : Register :=
  Register.physical Bank.scalar index

/-- Two routines call each other. Each has a register of its own, and a third one is read after the
call that enters them. -/
def source : Section where
  code := #[]
  length := 28
  hints := [⟨0, .call, [8], 0⟩, ⟨4, .halt, [], 0⟩, ⟨12, .call, [20], 0⟩, ⟨16, .ret, [], 0⟩,
    ⟨20, .call, [8], 0⟩, ⟨24, .ret, [], 0⟩]
  usages := [⟨4, reg 2, 1, 0, true, false⟩, ⟨8, reg 0, 1, 0, false, true⟩,
    ⟨16, reg 0, 1, 0, true, false⟩, ⟨24, reg 1, 1, 0, false, true⟩]
  groups := []

def graph : Graph where
  length := 28
  blocks := #[⟨0, 0, 4, [⟨1, false⟩, ⟨2, true⟩], true, true, false, false⟩,
    ⟨1, 4, 8, [], false, false, false, true⟩,
    ⟨2, 8, 16, [⟨3, false⟩, ⟨4, true⟩], false, true, false, false⟩,
    ⟨3, 16, 20, [], false, false, true, false⟩,
    ⟨4, 20, 24, [⟨2, true⟩, ⟨5, false⟩], false, true, false, false⟩,
    ⟨5, 24, 28, [], false, false, true, false⟩]
  preds := ⟨#[[], [⟨0, false⟩], [⟨0, true⟩, ⟨4, true⟩], [⟨2, false⟩], [⟨2, true⟩], [⟨4, false⟩]]⟩
  routines := [⟨2, [2, 3], [3], [], [0, 4], [1, 5]⟩, ⟨4, [4, 5], [5], [], [2], [3]⟩]
  boundaries := []

def result : Result := (source.analyze (Settings.standard 1)).toOption.getD default

theorem evaluates : source.analyze (Settings.standard 1) = .ok result ∧ result.graph = graph ∧
    (result.live.ranged Bank.scalar)[1]? = some [⟨25, 26⟩] ∧
    result.live.routineSets.lookup 2 = some (result.live.routineSetAt 2) ∧
    result.live.callSetAt? 0 = some [(Bank.scalar, 2)] ∧
    result.analysis.accesses 3 (reg 0) = [⟨16, true, none⟩] ∧
    result.analysis.accesses 2 (reg 0) = [⟨8, false, some Version.entry⟩] ∧
    result.analysis.entering 3 (reg 0) = [Version.entry] := by
  cbv

theorem invokes : graph.Invokes 2 4 ∧ graph.Invokes 4 2 := by
  refine ⟨⟨⟨2, [2, 3], [3], [], [0, 4], [1, 5]⟩, by decide, rfl, 2, by decide, by decide⟩,
    ⟨⟨4, [4, 5], [5], [], [2], [3]⟩, by decide, rfl, 4, by decide, by decide⟩⟩

/-- The first routine has the register of the second one in its set, and not the one that is kept
over the call. -/
theorem second_in_first : source.analyze (Settings.standard 1) = .ok result ∧
    1 ∈ (result.live.routineSetAt 2).inBank Bank.scalar ∧
    (Bank.scalar, 2) ∉ result.live.routineSetAt 2 := by
  obtain ⟨hok, hgraph, hranged, hlookup, hcall, _⟩ := evaluates
  obtain ⟨hsets, _, _, _, hdisjoint⟩ := Section.routine_sets hok (by decide)
  refine ⟨hok, ((hsets 2 _ hlookup Bank.scalar).2 1).mpr ?_, ?_⟩
  · rw [hgraph]
    exact ⟨_, hranged, ⟨25, 26⟩, by decide, ⟨4, [4, 5], [5], [], [2], [3]⟩, by decide,
      ReflTransGen.single invokes.1, 5, by decide, 25, by decide, by decide, by decide⟩
  · exact hdisjoint 0 _ hcall 2 (by rw [hgraph]; decide) _ (List.mem_singleton_self _)

end Mutual

namespace Section

variable {settings : Settings} {sec : Section} {g : Graph} {a s : Analysis} {l : Live}
  {groups : List SlotGroup} {q : Routine}

/-! ### What routines use -/

namespace Settles

/-- What is live at an offset of the scope of a routine is recorded with the routine. -/
theorem recorded_of_liveAt (h : sec.Settles settings g a s)
    (hlive : Live.ofInstances s (LiveInstance.ofAnalysis s) groups = .ok l)
    (hfit : Hint.Fit settings sec.code sec.size sec.hints) (hq : q ∈ g.routines) {i : Instance}
    {p : Offset} (hat : LiveInstance.LiveAt (LiveInstance.ofAnalysis s) i p) {b : Nat}
    (hb : g.Scope q.entry b) (hin : (g.block b).contains p = true) :
    ∃ n, l.index? i = some n ∧ n ∈ (l.routineSetAt q.entry).inBank i.register.bank := by
  obtain ⟨x, hx, hinst, hindex, hp⟩ := hat
  rw [← Live.instances_ofInstances hlive] at hx hindex
  refine ⟨x.index, hindex, LiveSet.mem_inBank.mpr ((h.mem_routineSetAt_iff hlive hfit hq).mpr ?_)⟩
  exact ⟨x, hx, by rw [LiveInstance.bank, hinst], rfl, b, p, hb, hp, hin⟩

theorem recorded_iff (h : sec.Settles settings g a s)
    (hlive : Live.ofInstances s (LiveInstance.ofAnalysis s) groups = .ok l)
    (hfit : Hint.Fit settings sec.code sec.size sec.hints) (hq : q ∈ g.routines) {i : Instance}
    {n : Nat} (hi : l.index? i = some n) :
    n ∈ (l.routineSetAt q.entry).inBank i.register.bank ↔ ∃ b p, g.Scope q.entry b ∧
      (l.ranges i).contains p = true ∧ (g.block b).contains p = true := by
  have hcounted := Live.counted_of_instances (Live.instances_ofInstances hlive)
  obtain ⟨x, hfound, rfl⟩ := Option.map_eq_some_iff.mp hi
  have hx := List.mem_of_find?_eq_some hfound
  have hinst : x.inst = i := by simpa using List.find?_some hfound
  have hbank : x.bank = i.register.bank := by rw [LiveInstance.bank, hinst]
  have hranges : l.ranges i = x.ranges := by
    rw [Live.ranges, hfound]
    rfl
  rw [LiveSet.mem_inBank, h.mem_routineSetAt_iff hlive hfit hq, hranges]
  constructor
  · intro hmem
    obtain ⟨y, hy, hsame, hindex, hmet⟩ := hmem
    rwa [hcounted.eq_of_index hy hx (hsame.trans hbank.symm) hindex] at hmet
  · intro hmet
    exact ⟨x, hx, hbank, rfl, hmet⟩

end Settles

/-- What the scope of a routine reads is recorded with the routine. So is what it writes, unless the
write stands on the last byte of its block and the byte behind it is outside of the scope. In either
case an instance is recorded exactly if it is live at an offset of the scope. -/
theorem uses_recorded {result : Result} (h : sec.analyze settings = .ok result)
    (hfit : Hint.Fit settings sec.code sec.size sec.hints) (hq : q ∈ result.graph.routines) :
    (∀ b, result.graph.Scope q.entry b → ∀ r before x after,
      result.analysis.accesses b r = before ++ x :: after →
      (x.reads = true → ∃ v i, Walk.after (result.analysis.entering b r) before = [v] ∧
        result.index? ⟨r, v⟩ = some i ∧ i ∈ (result.live.routineSetAt q.entry).inBank r.bank) ∧
      ∀ v, x.write = some v →
        (x.offset + 1 < (result.graph.block b).stop ∨
          ∃ c, result.graph.Scope q.entry c ∧
            (result.graph.block c).contains (x.offset + 1) = true) →
        ∃ i, result.index? ⟨r, v⟩ = some i ∧
          i ∈ (result.live.routineSetAt q.entry).inBank r.bank) ∧
    ∀ inst i, result.index? inst = some i →
      (i ∈ (result.live.routineSetAt q.entry).inBank inst.register.bank ↔
        ∃ b p, result.graph.Scope q.entry b ∧ (result.live.ranges inst).contains p = true ∧
          (result.graph.block b).contains p = true) := by
  obtain ⟨g, a, hsettles, hlive⟩ := settles_of_analyze h
  obtain rfl : result.graph = g := hsettles.fresh.graph_outcome hsettles.settled
  refine ⟨fun b hb r before x after hacc => ?_, fun inst i hi => ?_⟩
  · have hin := hsettles.contains (hacc ▸ List.mem_append_cons_self : x ∈ _)
    constructor
    · intro hreads
      obtain ⟨v, hv, hat⟩ := hsettles.exists_liveAt_of_read hacc hreads
      obtain ⟨i, hi, hmem⟩ := hsettles.recorded_of_liveAt hlive hfit hq hat hb hin
      exact ⟨v, i, hv, hi, hmem⟩
    · intro v hwrite hbehind
      obtain ⟨c, hc, hnext⟩ : ∃ c, result.graph.Scope q.entry c ∧
          (result.graph.block c).contains (x.offset + 1) = true := by
        rcases hbehind with hbehind | hbehind
        · exact ⟨b, hb, Block.contains_add_one hin hbehind⟩
        · exact hbehind
      have hroom : x.offset + 1 < (result.graph.block c).stop := by
        rw [Block.contains, Bool.and_eq_true, decide_eq_true_eq, decide_eq_true_eq] at hnext
        exact hnext.2
      exact hsettles.recorded_of_liveAt hlive hfit hq
        (hsettles.liveAt_behind_write hacc hwrite hroom) hc hnext
  · exact hsettles.recorded_iff hlive hfit hq hi

end Section

namespace Mutual

/-- The second routine has in its set what the first one writes and reads. -/
theorem first_in_second : source.analyze (Settings.standard 1) = .ok result ∧
    (∃ i, result.index? ⟨reg 0, Version.entry⟩ = some i ∧
      i ∈ (result.live.routineSetAt 4).inBank Bank.scalar) ∧
    ∃ v i, Walk.after [Version.entry] [] = [v] ∧ result.index? ⟨reg 0, v⟩ = some i ∧
      i ∈ (result.live.routineSetAt 4).inBank Bank.scalar := by
  obtain ⟨hok, hgraph, _, _, _, hread, hwrite, hentering⟩ := evaluates
  have hscope : ∀ b ∈ [2, 3], result.graph.Scope 4 b := by
    rw [hgraph]
    intro b hb
    exact ⟨⟨2, [2, 3], [3], [], [0, 4], [1, 5]⟩, by decide, ReflTransGen.single invokes.2, hb⟩
  have hq : ⟨4, [4, 5], [5], [], [2], [3]⟩ ∈ result.graph.routines := by
    rw [hgraph]
    decide
  obtain ⟨huses, _⟩ := Section.uses_recorded hok (by decide) hq
  refine ⟨hok, ?_, ?_⟩
  · refine (huses 2 (hscope 2 (by decide)) (reg 0) [] _ [] hwrite).2 Version.entry rfl (Or.inl ?_)
    rw [hgraph]
    decide
  · have hfound := (huses 3 (hscope 3 (by decide)) (reg 0) [] _ [] hread).1 rfl
    rwa [hentering] at hfound

end Mutual

namespace LastByte

def x : Register := Register.slot ⟨0, "x", Bank.vector⟩ 0

/-- Instructions take one byte each. -/
def settings : Settings := { Settings.standard 1 with instrSize := 1, instrAlign := 1 }

/-- The only instruction of a routine writes a variable. -/
def source : Section where
  code := #[]
  length := 3
  hints := [⟨0, .call, [2], 0⟩, ⟨1, .halt, [], 0⟩, ⟨2, .ret, [], 0⟩]
  usages := [⟨2, x, 1, 0, false, true⟩]
  groups := []

def result : Result := (source.analyze settings).toOption.getD default

theorem evaluates : source.analyze settings = .ok result ∧
    result.graph.routines = [⟨2, [2], [2], [], [0], [1]⟩] ∧
    result.analysis.accesses 2 x = [⟨2, false, some ⟨1#32⟩⟩] ∧
    result.index? ⟨x, ⟨1#32⟩⟩ = some 0 ∧ result.live.routineSetAt 2 = [] := by
  cbv

end LastByte

namespace Turned

def x : Register := Register.slot ⟨0, "x", Bank.vector⟩ 0

/-- The end of the last instruction is too large for a word, and a block starts before the section. -/
def source : Section where
  code := #[]
  length := 12
  hints := [⟨0, .call, [4], 0⟩, ⟨8, .ret, [], Int64.maxValue⟩]
  usages := [⟨4, x, 1, 0, true, false⟩]
  groups := []

def result : Result := (source.analyze (Settings.standard 1)).toOption.getD default

theorem evaluates : source.analyze (Settings.standard 1) = .ok result ∧
    result.graph.routines = [⟨2, [2], [2], [], [1], [2]⟩] ∧
    result.analysis.accesses 2 x = [⟨4, true, none⟩] ∧
    result.analysis.entering 2 x = [Version.entry] ∧
    result.index? ⟨x, Version.entry⟩ = some 0 ∧ result.live.routineSetAt 2 = [] := by
  cbv

end Turned

/-- The set of a routine may lack what the routine uses: a value that is written on the last byte of
its last block, and one that is read, if the end of some instruction exceeds a word. -/
theorem use_unrecorded :
    (LastByte.source.analyze LastByte.settings = .ok LastByte.result ∧
      Hint.Fit LastByte.settings LastByte.source.code LastByte.source.size LastByte.source.hints ∧
      ⟨2, [2], [2], [], [0], [1]⟩ ∈ LastByte.result.graph.routines ∧
      LastByte.result.analysis.accesses 2 LastByte.x = [⟨2, false, some ⟨1#32⟩⟩] ∧
      LastByte.result.index? ⟨LastByte.x, ⟨1#32⟩⟩ = some 0 ∧
      0 ∉ (LastByte.result.live.routineSetAt 2).inBank Bank.vector) ∧
    (Turned.source.analyze (Settings.standard 1) = .ok Turned.result ∧
      ⟨2, [2], [2], [], [1], [2]⟩ ∈ Turned.result.graph.routines ∧
      Turned.result.analysis.accesses 2 Turned.x = [⟨4, true, none⟩] ∧
      Turned.result.analysis.entering 2 Turned.x = [Version.entry] ∧
      Turned.result.index? ⟨Turned.x, Version.entry⟩ = some 0 ∧
      0 ∉ (Turned.result.live.routineSetAt 2).inBank Bank.vector) := by
  obtain ⟨hok, hroutines, hacc, hindex, hset⟩ := LastByte.evaluates
  obtain ⟨hok', hroutines', hacc', hentering', hindex', hset'⟩ := Turned.evaluates
  rw [hroutines, hset, hroutines', hset']
  exact ⟨⟨hok, by decide, List.mem_singleton_self _, hacc, hindex, List.not_mem_nil⟩, hok',
    List.mem_singleton_self _, hacc', hentering', hindex', List.not_mem_nil⟩

end RegisterWeb
