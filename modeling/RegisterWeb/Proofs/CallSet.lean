import Mathlib
import RegisterWeb.Proofs.Extent
import RegisterWeb.Proofs.Place

/-!
Values that survive a call. A routine that does not touch a register is passed by, so a value that is
needed where control comes back is live at the end of the call, and the sets of the section record
it there: at the call, or with a routine that is called. A call in the last act of a routine has no
set of its own; its values are recorded with the routine that makes it.
-/

namespace RegisterWeb

open RegisterWeb.Graph

namespace Analysis

/-- The backward liveness of a register; one that is not used is live nowhere. -/
def liveness (a : Analysis) (r : Register) : LiveFlow :=
  ((a.track? r).map (LiveInstance.liveness a.graph a.order.blocks a.graph.scopes)).getD default

/-- The versions of a register that leave a block; one that is not used has its entry version. -/
def leaving (a : Analysis) (b : Nat) (r : Register) : VersionSet :=
  match a.track? r with
  | some t => t.leaving b
  | none => [Version.entry]

variable {g : Graph} {a s : Analysis} {r : Register} {t : Track} {b : Nat}

theorem liveness_of_track? (h : a.Fresh g) (hs : a.settle.outcome = .ok s)
    (ht : s.track? r = some t) :
    s.liveness r = LiveInstance.liveness g g.order g.scopes t := by
  rw [liveness, ht, Option.map_some, Option.getD_some, h.order_outcome hs, h.graph_outcome hs]

theorem exists_track_of_enters {k : Nat} (hlive : (s.liveness r).enters.get k = true) :
    ∃ t, s.track? r = some t := by
  cases ht : s.track? r with
  | some t => exact ⟨t, rfl⟩
  | none =>
    rw [liveness, ht] at hlive
    cases hlive

/-- A value that is needed where control resumes after an untouched routine is needed at the call. -/
theorem leaves_of_resumes (h : a.Fresh g) (hs : a.settle.outcome = .ok s) {c k : Nat}
    (hcalls : (g.block b).calls = true) (hc : c ∈ (g.block b).callees)
    (hfree : s.touches r c = false) (hk : k ∈ LiveFlow.resumptions g b c)
    (hlive : (s.liveness r).enters.get k = true) : (s.liveness r).leaves.get b = true := by
  obtain ⟨t, ht⟩ := exists_track_of_enters hlive
  rw [liveness_of_track? h hs ht] at hlive ⊢
  have hb : b < g.size := lt_size_of_mem_next ((Block.mem_callees _ _).mp hc)
  have htouch : t.touches g g.scopes c = false := by
    rw [touches, ht, h.graph_outcome hs] at hfree
    exact hfree
  have hfollows : LiveFlow.Follows g (Table.tabulate g.size (t.touches g g.scopes)) b k := by
    refine .past hcalls hc ?_ hk
    rw [Track.get_touches]
    exact htouch
  exact (liveness_closed g t).leaves b hb k hfollows hlive

/-- A value that is needed where control resumes after the calls of a block is needed at the end of
the block, unless all routines that are called there touch it. -/
theorem leaves_of_enters_continuation {usages : List Usage} (ha : ofUsages g usages = .ok a)
    (hs : a.settle.outcome = .ok s) {c k : Nat} (hc : c ∈ (g.block b).callees)
    (hfree : s.touches r c = false) (hk : (g.block b).continuation? = some k)
    (hlive : (s.liveness r).enters.get k = true) : (s.liveness r).leaves.get b = true := by
  refine leaves_of_resumes (fresh_of_ofUsages ha) hs (Block.continuation?_mem hk).1 hc hfree ?_ hlive
  rw [LiveFlow.resumptions, hk]
  exact List.mem_singleton_self k

end Analysis

theorem Detour.leaves_call : (Detour.result.analysis.liveness Detour.x).leaves.get 0 = true := by
  obtain ⟨hcomplete, hgraph, _⟩ := Detour.evaluates
  obtain ⟨g, _, ha, hs, _⟩ := Run.ofSection_complete hcomplete
  obtain rfl : g = Detour.graph :=
    ((Analysis.fresh_of_ofUsages ha).graph_outcome hs).symm.trans hgraph
  have hfree : Detour.result.analysis.touches Detour.x 3 = false ∧
      (Detour.result.analysis.liveness Detour.x).enters.get 1 = true := by
    cbv
  exact Analysis.leaves_of_enters_continuation (c := 3) (k := 1) ha hs (by decide) hfree.1 (by decide)
    hfree.2

namespace Fork

def x : Register := Register.slot ⟨0, "x", Bank.vector⟩ 0

/-- The instruction that calls also jumps, so control goes on at two places after the call. -/
def source : Section where
  code := #[]
  length := 20
  hints := [⟨4, .call, [16], 0⟩, ⟨4, .jump, [12], 0⟩, ⟨8, .halt, [], 0⟩, ⟨12, .halt, [], 0⟩,
    ⟨16, .ret, [], 0⟩]
  usages := [⟨0, x, 1, 0, false, true⟩, ⟨12, x, 1, 0, true, false⟩]
  groups := []

def result : Result := (source.analyze (Settings.standard 1)).toOption.getD default

/-- Only the first of the places where control goes on counts for liveness: the value that reaches the
second one and is read there is not live at the call. -/
theorem not_leaves_second :
    source.analyze (Settings.standard 1) = .ok result ∧ (result.graph.block 0).calls = true ∧
      (result.graph.block 0).callees = [3] ∧ result.analysis.touches x 3 = false ∧
      (result.graph.block 0).successors = [1, 2] ∧
      result.analysis.leaving 0 x = [⟨1#32⟩] ∧ result.analysis.entering 2 x = [⟨1#32⟩] ∧
      (result.analysis.liveness x).enters.get 2 = true ∧
      (result.analysis.liveness x).leaves.get 0 = false := by
  cbv

end Fork

/-! ### The end of a block -/

theorem Block.contains_last {b : Block} (h : b.start < b.stop) : b.contains (b.stop - 1) = true := by
  have hstop := Offset.toInt_sub_one h
  rw [Int64.lt_iff_toInt_lt] at h
  rw [Block.contains, Bool.and_eq_true, decide_eq_true_eq, decide_eq_true_eq,
    Int64.le_iff_toInt_le, Int64.lt_iff_toInt_lt]
  omega

namespace Analysis

variable {g : Graph} {a s : Analysis} {r : Register} {t : Track} {b : Nat}

theorem exists_writesAt {w : Version} (h : a.lastWrite? r b = some w) :
    ∃ x, a.WritesAt r b x w := by
  obtain ⟨u, hu, hlast⟩ := Option.bind_eq_some_iff.mp h
  obtain ⟨made, hmade⟩ := List.getLast?_eq_some_iff.mp hlast
  obtain ⟨l₁, l₂, hacc, _, htail⟩ := List.filterMap_eq_append_iff.mp hmade
  obtain ⟨before, x, after, rfl, _, hx, hquiet⟩ := List.filterMap_eq_cons_iff.mp htail
  refine ⟨x, hx, l₁ ++ before, after, ?_, ?_⟩
  · rw [accesses, hu, Option.map_some, Option.getD_some, hacc, List.append_assoc]
  · exact List.filterMap_eq_nil_iff.mp hquiet

theorem quiet_of_lastWrite? (h : a.lastWrite? r b = none) : a.Quiet r b := by
  intro x hx
  cases hu : a.use? b r with
  | none =>
    rw [accesses, hu] at hx
    exact absurd hx List.not_mem_nil
  | some u =>
    rw [lastWrite?, hu, Option.bind_some, List.getLast?_eq_none_iff] at h
    rw [accesses, hu, Option.map_some, Option.getD_some] at hx
    exact List.filterMap_eq_nil_iff.mp h x hx

/-- What leaves a block is its last write, or else what enters it. -/
theorem Fresh.mem_leaving (h : a.Fresh g) (hg : g.WellFormed) (hs : a.settle.outcome = .ok s)
    (hr : r ∈ a.registers) (hwrites : a.writes r < UInt32.size - 2) (ht : s.track? r = some t)
    {v : Version} (hv : v ∈ t.leaving b) :
    (∃ w, a.lastWrite? r b = some w ∧ s.canonical r w = v) ∨
      (a.lastWrite? r b = none ∧ v ∈ t.entering b) := by
  cases hslot : r.isSlot with
  | true =>
    obtain ⟨t', f, ht', hsettled⟩ := h.settled hg hs hr hslot
    obtain rfl : t' = t := Option.some.inj (ht'.symm.trans ht)
    have hmade : f.made.get b = a.lastWrite? r b :=
      (hsettled.made b).trans (h.last_eq hr hslot hwrites b)
    rw [Track.leaving, hsettled.flow] at hv
    obtain ⟨u, hu, rfl⟩ := (Webs.mem_canonical _ _ _).mp hv
    rw [← hmade, Track.entering, hsettled.flow]
    rcases Flow.mem_leaving.mp hu with hu | ⟨hnone, hu⟩
    · exact Or.inl ⟨u, hu, hsettled.canonical_eq ht u⟩
    · exact Or.inr ⟨hnone, (Webs.mem_canonical _ _ _).mpr ⟨u, hu, rfl⟩⟩
  | false =>
    have hflow : t.flow = none := by
      have hfresh : (trackOf g (FlowOrder.ofGraph g) a.summaries r).flow = none := by
        simp [trackOf, Track.ofRegister, hslot, Track.ofPhysical]
      have ht' := h.track?_outcome hs hr
      simp only [Track.settle, Track.rename, hfresh] at ht'
      rw [← Option.some.inj (ht'.symm.trans ht)]
      exact hfresh
    rw [Track.leaving, hflow] at hv
    cases hlast : a.lastWrite? r b with
    | none =>
      rw [Track.entering, hflow]
      exact Or.inr ⟨rfl, hv⟩
    | some w =>
      obtain ⟨u, hu, hw⟩ := Option.bind_eq_some_iff.mp hlast
      have hentry := h.made_physical hr hslot hu (List.mem_of_getLast? hw)
      refine Or.inl ⟨w, rfl, ?_⟩
      rw [canonical, ht, hentry, List.mem_singleton.mp hv]
      simp only [Track.canonical, hflow]

/-- A value that leaves a block alive is live at its last byte, unless it is written right there. -/
theorem Tracked.live_at_last_byte (h : Tracked g a s r t) (hfresh : a.Fresh g) (hg : g.WellFormed)
    (hs : a.settle.outcome = .ok s) (hr : r ∈ a.registers)
    (hwrites : a.writes r < UInt32.size - 2) (hb : b < g.size)
    (hstart : (g.block b).start < (g.block b).stop)
    (hinside : ∀ x ∈ a.accesses b r, x.offset < (g.block b).stop)
    (hlast : ∀ x ∈ a.accesses b r, x.offset = (g.block b).stop - 1 → x.write = none)
    (hleaves : (LiveInstance.liveness g g.order g.scopes t).leaves.get b = true) {v : Version}
    (hv : v ∈ t.leaving b) :
    ((LiveInstance.rangesOf g g.order g.scopes t).ranges v).contains ((g.block b).stop - 1)
      = true := by
  have hin := Block.contains_last hstart
  rw [Block.contains, Bool.and_eq_true, decide_eq_true_eq, decide_eq_true_eq] at hin
  refine contains_rangesOf hb fun found hfound => ?_
  rcases hfresh.mem_leaving hg hs hr hwrites h.track hv with ⟨w, hw, rfl⟩ | ⟨hnone, hv⟩
  · obtain ⟨x, hwrite⟩ := exists_writesAt hw
    have hx := hwrite.mem
    have hxstop := hinside x hx
    have hne : x.offset ≠ (g.block b).stop - 1 := by
      intro heq
      have hquiet := hlast x hx heq
      rw [hwrite.1] at hquiet
      cases hquiet
    have hafter : x.offset + 1 ≤ (g.block b).stop - 1 := by
      have hstop := Offset.toInt_sub_one hstart
      have hnext := Offset.toInt_add_one hxstop
      have hne' : x.offset.toInt ≠ ((g.block b).stop - 1).toInt :=
        fun heq => hne (Int64.toInt_inj.mp heq)
      rw [Int64.lt_iff_toInt_lt] at hxstop
      rw [Int64.le_iff_toInt_le]
      omega
    obtain ⟨hwx, before, after, hacc, hquiet⟩ := hwrite
    have htrack := h.accesses_eq b
    rw [hacc, List.map_append, List.map_cons] at htrack
    refine Walk.through_write hfound hleaves htrack (by simp [hwx]) ?_ hafter hin.2
    intro y hy
    obtain ⟨y₀, hy₀, rfl⟩ := List.mem_map.mp hy
    simp [hquiet y₀ hy₀]
  · have hquiet := quiet_of_lastWrite? hnone
    have henters := (liveness_closed g t).passes b hb hleaves
      (h.isWritten_eq_false hfresh hr hquiet)
    refine Walk.through_pass hfound henters hleaves hv ?_ hin.1 hin.2
    rw [h.accesses_eq]
    intro y hy
    obtain ⟨y₀, hy₀, rfl⟩ := List.mem_map.mp hy
    simp [hquiet y₀ hy₀]

end Analysis

/-! ### Live sets -/

namespace Live

/-- The set of the routine that a block enters. -/
def routineSetAt (l : Live) (entry : Nat) : LiveSet :=
  (l.routineSets.lookup entry).getD []

/-- The set of a call block, if it has one. -/
def callSetAt? (l : Live) (b : Nat) : Option LiveSet :=
  l.callSets.lookup b

variable {a : Analysis} {is : List LiveInstance} {groups : List SlotGroup} {l : Live}

/-- What the sets of a section are made of. -/
theorem sets_ofInstances (h : ofInstances a is groups = .ok l) :
    SlotGroup.linkAll a is groups = .ok l.links ∧ ∃ placed, is.mapM (blocksOf a.graph) = .ok placed ∧
      l.routineSets = (a.graph.routines.map Routine.entry).map
        (fun c => (c, routineSet a.graph.scopes placed c)) ∧
      l.callSets = ((List.range a.graph.size).filter
        fun b => (a.graph.block b).continuation?.isSome).map
          (fun b => (b, callSet a.graph l.routineSets placed b)) := by
  obtain ⟨links, hlinks, h⟩ := bind_eq_ok.mp h
  obtain ⟨placed, hplaced, h⟩ := bind_eq_ok.mp h
  cases h
  refine ⟨hlinks, placed, hplaced, ?_, rfl⟩
  rw [List.map_map]
  rfl

theorem mem_select_iff {g : Graph} {placed : List (LiveInstance × List Nat)}
    {test : LiveInstance → List Nat → Bool} (hplaced : is.mapM (blocksOf g) = .ok placed)
    {bank : Bank} {n : Nat} : (bank, n) ∈ select placed test ↔
      ∃ x ∈ is, x.bank = bank ∧ x.index = n ∧
        ∃ e, blocksOf g x = .ok e ∧ test x e.2 = true := by
  simp only [select, List.mem_map, List.mem_filter, Prod.mk.injEq]
  constructor
  · intro h
    obtain ⟨e, ⟨he, htest⟩, hbank, hindex⟩ := h
    obtain ⟨x, hx, hblocks⟩ := exists_of_mem_mapM hplaced he
    rw [fst_of_blocksOf hblocks] at htest hbank hindex
    exact ⟨x, hx, hbank, hindex, e, hblocks, htest⟩
  · intro h
    obtain ⟨x, hx, hbank, hindex, e, hblocks, htest⟩ := h
    obtain ⟨e', he', hblocks'⟩ := exists_mem_of_mapM hplaced hx
    cases hblocks.symm.trans hblocks'
    rw [← fst_of_blocksOf hblocks] at htest hbank hindex
    exact ⟨e, ⟨he', htest⟩, hbank, hindex⟩

theorem mem_select {placed : List (LiveInstance × List Nat)}
    {test : LiveInstance → List Nat → Bool} (hplaced : is.mapM (blocksOf a.graph) = .ok placed)
    {i : LiveInstance} (hi : i ∈ is)
    (htest : ∀ blocks, blocksOf a.graph i = .ok (i, blocks) → test i blocks = true) :
    (i.bank, i.index) ∈ select placed test := by
  obtain ⟨e, _, hblocks⟩ := exists_mem_of_mapM hplaced hi
  refine (mem_select_iff hplaced).mpr ⟨i, hi, rfl, rfl, e, hblocks, htest e.2 ?_⟩
  rw [hblocks, ← fst_of_blocksOf hblocks]

theorem exists_of_contains {i : Instance} {p : Offset} (h : (l.ranges i).contains p = true) :
    ∃ x ∈ l.instances, x.inst = i ∧ x.ranges = l.ranges i ∧ l.index? i = some x.index := by
  rw [ranges] at h
  cases hfind : l.instances.find? fun x => x.inst == i with
  | none =>
    rw [hfind] at h
    cases h
  | some x =>
    refine ⟨x, List.mem_of_find?_eq_some hfind, by simpa using List.find?_some hfind, ?_, ?_⟩
    · rw [ranges, hfind]
      rfl
    · rw [index?, LiveInstance.index?, hfind]
      rfl

/-- An instance that is live at the end of a call that comes back is in the set of the call or in that
of a routine called there. -/
theorem mem_callSet (h : ofInstances a is groups = .ok l) {i : LiveInstance} (hi : i ∈ is) {b : Nat}
    (hb : b < a.graph.size) (hresumes : (a.graph.block b).continuation?.isSome = true)
    (hlive : i.ranges.contains ((a.graph.block b).stop - 1) = true) :
    (∃ set, l.callSetAt? b = some set ∧ (i.bank, i.index) ∈ set) ∨
      ∃ c ∈ (a.graph.block b).callees, (i.bank, i.index) ∈ l.routineSetAt c := by
  obtain ⟨_, placed, hplaced, _, hcalls⟩ := sets_ofInstances h
  by_cases hinside : ∃ c ∈ (a.graph.block b).callees, (i.bank, i.index) ∈ l.routineSetAt c
  · exact Or.inr hinside
  · refine Or.inl ⟨callSet a.graph l.routineSets placed b, ?_, ?_⟩
    · rw [callSetAt?, hcalls, lookup_map_pair, if_pos]
      exact List.mem_filter.mpr ⟨List.mem_range.mpr hb, hresumes⟩
    · rw [callSet]
      refine mem_select hplaced hi fun blocks _ => ?_
      rw [hlive, Bool.true_and, Bool.not_eq_true', List.any_eq_false]
      intro set hset
      obtain ⟨c, hc, rfl⟩ := List.mem_map.mp hset
      rw [List.contains_iff_mem]
      exact fun hmem => hinside ⟨c, hc, hmem⟩

theorem callSetAt?_eq_none (h : ofInstances a is groups = .ok l) {b : Nat}
    (htail : (a.graph.block b).continuation? = none) : l.callSetAt? b = none := by
  obtain ⟨_, placed, _, _, hcalls⟩ := sets_ofInstances h
  rw [callSetAt?, hcalls, lookup_map_pair, if_neg]
  intro hmem
  have hresumes := (List.mem_filter.mp hmem).2
  rw [htail] at hresumes
  cases hresumes

/-- An instance is in the set of every routine that it is live in. -/
theorem mem_routineSet (h : ofInstances a is groups = .ok l)
    (hpart : Layout.Partition a.graph.length a.graph.blocks) {i : LiveInstance} (hi : i ∈ is)
    (happart : i.ranges.Apart) (hnonneg : ∀ p, i.ranges.contains p = true → 0 ≤ p) {p : Offset}
    (hp : i.ranges.contains p = true) {b : Nat} (hb : b < a.graph.size)
    (hin : (a.graph.block b).contains p = true) {q : Routine} (hq : q ∈ a.graph.routines)
    (hscope : inScope a.graph.scopes q.entry b = true) :
    (i.bank, i.index) ∈ l.routineSetAt q.entry := by
  obtain ⟨_, placed, hplaced, hroutines, _⟩ := sets_ofInstances h
  rw [routineSetAt, hroutines, lookup_map_pair, if_pos (List.mem_map_of_mem hq), Option.getD_some,
    routineSet]
  refine mem_select hplaced hi fun blocks hok => List.any_eq_true.mpr ⟨b, ?_, hscope⟩
  exact (mem_blocksOf_iff_live hpart happart hnonneg hok b).mpr ⟨hb, p, hp, hin⟩

end Live

theorem Graph.WellFormed.inScope_iff {g : Graph} (hg : g.WellFormed) {q : Routine}
    (hq : q ∈ g.routines) (b : Nat) : inScope g.scopes q.entry b = true ↔ g.Reaches q.entry b := by
  have hentry := hg.entry_lt hq
  simp only [inScope, scopes, Table.get_tabulate, if_pos hentry, hg.routine?_entry hq,
    Option.isSome_some, if_true]
  rw [reach_iff]
  constructor
  · intro h
    obtain ⟨root, hroot, _, hpath⟩ := h
    rwa [List.mem_singleton.mp hroot] at hpath
  · exact fun h => ⟨q.entry, List.mem_singleton.mpr rfl, hentry, h⟩

theorem Graph.Inside.reaches {g : Graph} {a b : Nat} (h : g.Inside a b) : g.Reaches a b := by
  refine Relation.ReflTransGen.mono (fun x y hxy => ?_) a b h
  exact ⟨List.mem_map.mpr ⟨_, (Block.mem_successors _ _).mp hxy.1, rfl⟩, hxy.2⟩

/-! ### Offsets are not negative -/

theorem Walk.Extends.low {leaves : Bool} {stop p since : Offset} {v : Version}
    {current : VersionSet} {l : List Access} (h : Extends leaves stop v p current since l) :
    since ≤ p ∨ ∃ x ∈ l, x.offset + 1 ≤ p := by
  induction l generalizing current since with
  | nil => exact Or.inl h.2.2.1
  | cons x l ih =>
    rcases h with h | h
    · exact Or.inl h.2.2.1
    · cases hwrite : x.write with
      | none =>
        simp only [hwrite] at h
        rcases ih h with h | ⟨y, hy, h⟩
        · exact Or.inl h
        · exact Or.inr ⟨y, List.mem_cons_of_mem x hy, h⟩
      | some w =>
        simp only [hwrite] at h
        rcases h with h | h
        · exact Or.inr ⟨x, List.mem_cons_self, h.2.1⟩
        · rcases ih h with h | ⟨y, hy, h⟩
          · exact Or.inr ⟨x, List.mem_cons_self, h⟩
          · exact Or.inr ⟨y, List.mem_cons_of_mem x hy, h⟩

theorem LiveInstance.nonneg_of_contains {g : Graph} {order : List Nat}
    {scopes : Table (Option (Array Bool))} {t : Track}
    (hpart : Layout.Partition g.length g.blocks)
    (hinside : ∀ b, ∀ x ∈ t.accesses b, (g.block b).contains x.offset = true) {v : Version}
    {p : Offset} (hp : ((rangesOf g order scopes t).ranges v).contains p = true) : 0 ≤ p := by
  obtain ⟨b, hb, hlive⟩ := (contains_rangesOf_iff v p).mp hp
  have hstart := (hpart.bounds hb).1
  rcases hlive.low with hlow | ⟨x, hx, hlow⟩
  · exact Int64.le_trans hstart hlow
  · have hin := hinside b x hx
    rw [Block.contains, Bool.and_eq_true, decide_eq_true_eq, decide_eq_true_eq] at hin
    have hnext := Offset.toInt_add_one hin.2
    have hzero := Int64.le_trans hstart hin.1
    rw [Int64.le_iff_toInt_le, Int64.toInt_zero] at hzero ⊢
    rw [Int64.le_iff_toInt_le] at hlow
    omega

/-- A value that is live somewhere in a block is recorded with every routine that the block belongs
to. -/
theorem Analysis.Tracked.mem_routineSetAt {g : Graph} {a s : Analysis} {r : Register} {t : Track}
    (h : Tracked g a s r t) (hfresh : a.Fresh g) (hg : g.WellFormed)
    (hs : a.settle.outcome = .ok s) {groups : List SlotGroup} {l : Live}
    (hl : Live.ofInstances s (LiveInstance.ofAnalysis s) groups = .ok l)
    (hpart : Layout.Partition g.length g.blocks)
    (hinside : ∀ b, ∀ x ∈ a.accesses b r, (g.block b).contains x.offset = true) {v : Version}
    {i : LiveInstance} (hi : i ∈ LiveInstance.ofAnalysis s) (hranges : i.ranges = l.ranges ⟨r, v⟩)
    {p : Offset} (hp : i.ranges.contains p = true) {b : Nat} (hb : b < g.size)
    (hin : (g.block b).contains p = true) {q : Routine} (hq : q ∈ g.routines)
    (hbq : b ∈ q.blocks) : (i.bank, i.index) ∈ l.routineSetAt q.entry := by
  have hgraph := hfresh.graph_outcome hs
  rw [h.ranges_eq hfresh hs (Live.instances_ofInstances hl)] at hranges
  have happart : i.ranges.Apart := hranges ▸ LiveInstance.ordered_rangesOf.apart_ranges v
  have hnonneg : ∀ p, i.ranges.contains p = true → 0 ≤ p := by
    intro p hp
    rw [hranges] at hp
    refine LiveInstance.nonneg_of_contains hpart (fun b x hx => ?_) hp
    rw [h.accesses_eq] at hx
    obtain ⟨y, hy, rfl⟩ := List.mem_map.mp hx
    exact hinside b y hy
  have hscope := (hg.inScope_iff hq b).mpr ((hg.mem_blocks hq b).mp hbq).reaches
  subst hgraph
  exact Live.mem_routineSet hl hpart hi happart hnonneg hp hb hin hq hscope

/-! ### Sections -/

theorem Run.outcome_finish (start : Analysis) (tasks : Nat) (s : Analysis)
    (groups : List SlotGroup) : (Run.finish start tasks s groups).outcome = (do
      let live ← Live.ofInstances s (LiveInstance.ofAnalysis s) groups
      return ⟨s, live⟩) := by
  simp only [Run.finish]
  cases Live.ofInstances s (LiveInstance.ofAnalysis s) groups with
  | error e => rfl
  | ok live => rfl

theorem Run.outcome_ofGraph (g : Graph) (usages : List Usage) (groups : List SlotGroup) :
    (Run.ofGraph g usages groups).outcome = (do
      let a ← Analysis.ofUsages g (Usage.expand usages).1
      let s ← a.settle.outcome
      let live ← Live.ofInstances s (LiveInstance.ofAnalysis s)
        ((Usage.expand usages).2 ++ groups)
      return ⟨s, live⟩) := by
  simp only [Run.ofGraph]
  cases Analysis.ofUsages g (Usage.expand usages).1 with
  | error e => rfl
  | ok a =>
    show _ = (do
      let s ← a.settle.outcome
      let live ← Live.ofInstances s (LiveInstance.ofAnalysis s)
        ((Usage.expand usages).2 ++ groups)
      return ⟨s, live⟩ : Except Failure Result)
    dsimp only
    cases a.settle.outcome with
    | error e => rfl
    | ok s => exact Run.outcome_finish a a.settle.tasks s _

/-- The stages of the analysis of a section. -/
theorem Section.analyze_eq (settings : Settings) (sec : Section) :
    sec.analyze settings = (do
      let g ← Graph.build settings sec.code sec.size sec.hints
      let a ← Analysis.ofUsages g (Usage.expand sec.usages).1
      let s ← a.settle.outcome
      let live ← Live.ofInstances s (LiveInstance.ofAnalysis s)
        ((Usage.expand sec.usages).2 ++ sec.groups)
      return ⟨s, live⟩) := by
  unfold Section.analyze Run.ofSection
  cases Graph.build settings sec.code sec.size sec.hints with
  | error e => rfl
  | ok g => exact Run.outcome_ofGraph g sec.usages sec.groups

theorem Run.live_of_ofSection {settings : Settings} {sec : Section} {a : Analysis} {tasks : Nat}
    {result : Result} (h : Run.ofSection settings sec = .complete a tasks result) :
    Live.ofInstances result.analysis (LiveInstance.ofAnalysis result.analysis)
      ((Usage.expand sec.usages).2 ++ sec.groups) = .ok result.live := by
  have hok : sec.analyze settings = .ok result := by
    rw [Section.analyze, h]
    rfl
  rw [Section.analyze_eq] at hok
  obtain ⟨g, _, hok⟩ := bind_eq_ok.mp hok
  obtain ⟨a, _, hok⟩ := bind_eq_ok.mp hok
  obtain ⟨s, _, hok⟩ := bind_eq_ok.mp hok
  obtain ⟨live, hlive, hok⟩ := bind_eq_ok.mp hok
  cases hok
  exact hlive

/-- A value that is needed where control comes back after a call of a routine that does not touch it
is recorded: with the call or with a routine that is called there. If the call does not come back to
its block, it has no set; the value is live up to its end, and recorded with every routine that the
block belongs to. -/
theorem Section.survivors_recorded {settings : Settings} {sec : Section} {a : Analysis}
    {tasks : Nat} {result : Result} (hsec : Run.ofSection settings sec = .complete a tasks result)
    {r : Register} (hwrites : a.writes r < UInt32.size - 2) {b c k : Nat}
    (hcalls : (result.graph.block b).calls = true) (hc : c ∈ (result.graph.block b).callees)
    (hfree : result.analysis.touches r c = false) {v : Version}
    (hv : v ∈ result.analysis.leaving b r)
    (hlast : ∀ x ∈ a.accesses b r, x.offset = (result.graph.block b).stop - 1 → x.write = none)
    (hk : k ∈ LiveFlow.resumptions result.graph b c)
    (hlive : (result.analysis.liveness r).enters.get k = true) :
    ∃ i, result.index? ⟨r, v⟩ = some i ∧
      ((result.graph.block b).isTailCall = false →
        (∃ set, result.live.callSetAt? b = some set ∧ (r.bank, i) ∈ set) ∨
          ∃ c' ∈ (result.graph.block b).callees, (r.bank, i) ∈ result.live.routineSetAt c') ∧
      ((result.graph.block b).isTailCall = true →
        result.live.callSetAt? b = none ∧
        (result.live.ranges ⟨r, v⟩).contains ((result.graph.block b).stop - 1) = true ∧
        (Hint.Fit settings sec.code sec.size sec.hints →
          ∀ q ∈ result.graph.routines, b ∈ q.blocks →
            (r.bank, i) ∈ result.live.routineSetAt q.entry)) := by
  obtain ⟨g, hgraph, ha, hs, hinstances⟩ := Run.ofSection_complete hsec
  have hsets := Run.live_of_ofSection hsec
  have hg := Graph.wellFormed_of_build hgraph
  have hfresh := Analysis.fresh_of_ofUsages ha
  have hresult : result.graph = g := hfresh.graph_outcome hs
  have hanalysis : result.analysis.graph = g := hresult
  rw [hresult] at hcalls hc hlast hk ⊢
  have hleaves := Analysis.leaves_of_resumes hfresh hs hcalls hc hfree hk hlive
  obtain ⟨t, ht⟩ := Analysis.exists_track_of_enters hlive
  have hr : r ∈ a.registers := by
    by_contra hr
    rw [Analysis.track?_outcome_eq_none hs hr] at ht
    cases ht
  obtain ⟨t', htracked⟩ := hfresh.tracked hg hs hr hwrites
  obtain rfl : t' = t := Option.some.inj (htracked.track.symm.trans ht)
  rw [Analysis.liveness_of_track? hfresh hs ht] at hleaves
  rw [Analysis.leaving, ht] at hv
  have hb : b < g.size := lt_size_of_mem_next ((Block.mem_callees _ _).mp hc)
  obtain ⟨starts, transfers, hstages⟩ := exists_stages hgraph (length_ne_zero_of_build hgraph hb)
  have hpos := hstages.positive_of_calls hcalls
  have hinside : ∀ b, ∀ x ∈ a.accesses b r, (g.block b).contains x.offset = true :=
    fun b x hx => hstages.contains_of_blockAt (Analysis.blockAt_of_access ha hx)
  have hcontains : (result.live.ranges ⟨r, v⟩).contains ((g.block b).stop - 1) = true := by
    rw [htracked.ranges_eq hfresh hs hinstances]
    refine htracked.live_at_last_byte hfresh hg hs hr hwrites hb (hstages.start_lt_stop hpos hb) ?_
      hlast hleaves hv
    intro x hx
    have hin := hinside b x hx
    rw [Block.contains, Bool.and_eq_true, decide_eq_true_eq, decide_eq_true_eq] at hin
    exact hin.2
  obtain ⟨i, hi, hinst, hranges, hindex⟩ := Live.exists_of_contains hcontains
  rw [hinstances] at hi
  have hbank : i.bank = r.bank := by rw [LiveInstance.bank, hinst]
  refine ⟨i.index, hindex, ?_, ?_⟩
  · intro hresumes
    rw [← hbank, ← hanalysis]
    refine Live.mem_callSet hsets hi (hanalysis ▸ hb) ?_ (hanalysis ▸ hranges ▸ hcontains)
    rw [hanalysis]
    rw [Block.isTailCall, hcalls, Bool.true_and] at hresumes
    simpa using hresumes
  · intro htail
    refine ⟨?_, hcontains, ?_⟩
    · exact Live.callSetAt?_eq_none hsets (hanalysis ▸ Block.continuation?_of_isTailCall htail)
    · intro hfit q hq hbq
      have hpart : Layout.Partition g.length g.blocks := by
        rw [hstages.length_eq]
        exact (hstages.partition hfit hpos).2
      rw [← hranges] at hcontains
      rw [← hbank]
      exact htracked.mem_routineSetAt hfresh hg hs hsets hpart hinside hi hranges hcontains hb
        (Block.contains_last (hpart.full b hb)) hq hbq

/-! ### Two routines at one call, and a call in the last act of a routine -/

namespace Either

def x : Register := Register.slot ⟨0, "x", Bank.vector⟩ 0

/-- Of the two routines that may be called only the second reads the variable, which is read again
after the call. -/
def source : Section where
  code := #[]
  length := 20
  hints := [⟨4, .indirectCall, [12, 16], 0⟩, ⟨8, .halt, [], 0⟩, ⟨12, .ret, [], 0⟩, ⟨16, .ret, [], 0⟩]
  usages := [⟨0, x, 1, 0, false, true⟩, ⟨8, x, 1, 0, true, false⟩, ⟨16, x, 1, 0, true, false⟩]
  groups := []

def graph : Graph where
  length := 20
  blocks := #[⟨0, 0, 8, [⟨1, false⟩, ⟨2, true⟩, ⟨3, true⟩], true, true, false, false⟩,
    ⟨1, 8, 12, [], false, false, false, true⟩,
    ⟨2, 12, 16, [], false, false, true, false⟩,
    ⟨3, 16, 20, [], false, false, true, false⟩]
  preds := ⟨#[[], [⟨0, false⟩], [⟨0, true⟩], [⟨0, true⟩]]⟩
  routines := [⟨2, [2], [2], [], [0], [1]⟩, ⟨3, [3], [3], [], [0], [1]⟩]
  boundaries := []

def stages : Run := Run.ofSection (Settings.standard 1) source

def start : Analysis := stages.start?.getD default

def result : Result := stages.outcome.toOption.getD default

theorem evaluates :
    Run.ofSection (Settings.standard 1) source = .complete start stages.tasks result ∧
      result.graph = graph ∧ start.writes x = 1 ∧
      start.accesses 0 x = [⟨0, false, some ⟨1#32⟩⟩] ∧ result.analysis.touches x 2 = false ∧
      result.analysis.leaving 0 x = [⟨1#32⟩] ∧ (result.analysis.liveness x).enters.get 1 = true ∧
      result.index? ⟨x, ⟨1#32⟩⟩ = some 0 ∧ result.live.callSetAt? 0 = some [] ∧
      result.live.routineSetAt 2 = [] := by
  cbv

/-- The value is recorded with one of the routines. -/
theorem recorded : (Bank.vector, 0) ∈ result.live.routineSetAt 2 ∨
    (Bank.vector, 0) ∈ result.live.routineSetAt 3 := by
  obtain ⟨hcomplete, hgraph, hwrites, hacc, hfree, hleaving, hlive, hindex, hcall, _⟩ := evaluates
  obtain ⟨i, hi, hresumes, _⟩ := Section.survivors_recorded (b := 0) (c := 2) (k := 1) (v := ⟨1#32⟩)
    hcomplete (by rw [hwrites]; decide) (by rw [hgraph]; decide) (by rw [hgraph]; decide) hfree
    (by rw [hleaving]; exact List.mem_singleton_self _)
    (by
      rw [hacc, hgraph]
      intro y hy
      rw [List.mem_singleton.mp hy]
      decide)
    (by rw [hgraph]; decide) hlive
  obtain rfl : i = 0 := Option.some.inj (hi.symm.trans hindex)
  rcases hresumes (by rw [hgraph]; decide) with ⟨set, hset, hmem⟩ | ⟨c, hc, hmem⟩
  · rw [hcall] at hset
    rw [← Option.some.inj hset] at hmem
    exact absurd hmem List.not_mem_nil
  · rw [hgraph] at hc
    have hcases : c = 2 ∨ c = 3 := by simpa using (show c ∈ [2, 3] from hc)
    rcases hcases with rfl | rfl
    · exact Or.inl hmem
    · exact Or.inr hmem

end Either

namespace Relay

def x : Register := Register.slot ⟨0, "x", Bank.vector⟩ 0

/-- The routine that is called reads the variable and calls another one in its last act. -/
def source : Section where
  code := #[]
  length := 24
  hints := [⟨4, .call, [12], 0⟩, ⟨8, .halt, [], 0⟩, ⟨12, .call, [20], 0⟩, ⟨12, .ret, [], 0⟩,
    ⟨20, .ret, [], 0⟩]
  usages := [⟨0, x, 1, 0, false, true⟩, ⟨8, x, 1, 0, true, false⟩, ⟨12, x, 1, 0, true, false⟩]
  groups := []

def graph : Graph where
  length := 24
  blocks := #[⟨0, 0, 8, [⟨1, false⟩, ⟨2, true⟩], true, true, false, false⟩,
    ⟨1, 8, 12, [], false, false, false, true⟩,
    ⟨2, 12, 16, [⟨4, true⟩], false, true, true, false⟩,
    ⟨3, 16, 20, [⟨4, false⟩], true, false, false, false⟩,
    ⟨4, 20, 24, [], false, false, true, false⟩]
  preds := ⟨#[[], [⟨0, false⟩], [⟨0, true⟩], [], [⟨2, true⟩, ⟨3, false⟩]]⟩
  routines := [⟨2, [2], [], [2], [0], [1]⟩, ⟨4, [4], [4], [], [2], [1]⟩]
  boundaries := []

def stages : Run := Run.ofSection (Settings.standard 1) source

def start : Analysis := stages.start?.getD default

def result : Result := stages.outcome.toOption.getD default

theorem evaluates :
    Run.ofSection (Settings.standard 1) source = .complete start stages.tasks result ∧
      result.graph = graph ∧ start.writes x = 1 ∧
      start.accesses 2 x = [⟨12, true, none⟩] ∧ result.analysis.touches x 4 = false ∧
      result.analysis.leaving 2 x = [⟨1#32⟩] ∧ (result.analysis.liveness x).enters.get 1 = true ∧
      result.index? ⟨x, ⟨1#32⟩⟩ = some 0 ∧ result.live.callSetAt? 2 = none ∧
      result.live.routineSetAt 4 = [] := by
  cbv

end Relay

/-- A value that survives a call may be recorded neither with the call nor with the routine that does
not touch it: another routine that may be called there holds it, or the call does not come back. -/
theorem survivors_unrecorded :
    (Run.ofSection (Settings.standard 1) Either.source
        = .complete Either.start Either.stages.tasks Either.result ∧
      (Either.result.graph.block 0).continuation? = some 1 ∧
      2 ∈ (Either.result.graph.block 0).callees ∧
      Either.result.analysis.touches Either.x 2 = false ∧
      ⟨1#32⟩ ∈ Either.result.analysis.leaving 0 Either.x ∧
      (∀ y ∈ Either.start.accesses 0 Either.x, y.offset ≠ (Either.result.graph.block 0).stop - 1) ∧
      (Either.result.analysis.liveness Either.x).enters.get 1 = true ∧
      Either.result.index? ⟨Either.x, ⟨1#32⟩⟩ = some 0 ∧
      (Bank.vector, 0) ∉ (Either.result.live.callSetAt? 0).getD [] ∧
      (Bank.vector, 0) ∉ Either.result.live.routineSetAt 2) ∧
    (Run.ofSection (Settings.standard 1) Relay.source
        = .complete Relay.start Relay.stages.tasks Relay.result ∧
      (Relay.result.graph.block 2).isTailCall = true ∧
      4 ∈ (Relay.result.graph.block 2).callees ∧
      Relay.result.analysis.touches Relay.x 4 = false ∧
      ⟨1#32⟩ ∈ Relay.result.analysis.leaving 2 Relay.x ∧
      (∀ y ∈ Relay.start.accesses 2 Relay.x, y.offset ≠ (Relay.result.graph.block 2).stop - 1) ∧
      1 ∈ ((Relay.result.graph.routine? 4).map Routine.conts).getD [] ∧
      (Relay.result.analysis.liveness Relay.x).enters.get 1 = true ∧
      Relay.result.index? ⟨Relay.x, ⟨1#32⟩⟩ = some 0 ∧
      (Bank.vector, 0) ∉ (Relay.result.live.callSetAt? 2).getD [] ∧
      (Bank.vector, 0) ∉ Relay.result.live.routineSetAt 4) := by
  obtain ⟨hcomplete, hgraph, _, hacc, hfree, hleaving, hlive, hindex, hcall, hroutine⟩ :=
    Either.evaluates
  obtain ⟨hcomplete', hgraph', _, hacc', hfree', hleaving', hlive', hindex', hcall', hroutine'⟩ :=
    Relay.evaluates
  rw [hgraph, hacc, hleaving, hcall, hroutine, hgraph', hacc', hleaving', hcall', hroutine']
  exact ⟨⟨hcomplete, by decide, by decide, hfree, by decide, by decide, hlive, hindex, by decide,
    by decide⟩, hcomplete', by decide, by decide, hfree', by decide, by decide, by decide, hlive',
    hindex', by decide, by decide⟩

end RegisterWeb
