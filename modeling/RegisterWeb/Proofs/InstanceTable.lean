import Mathlib
import RegisterWeb.Proofs.Apart

/-!
The table of live instances. Instances are found in any order and sorted by register and version.
Within each bank they are numbered as they stand, each stands there once, and none precedes an
earlier one. Each has ranges, which lie within the section and the byte behind it and leave gaps
between each other.
-/

namespace RegisterWeb

/-! ### Numbers within a bank -/

theorem LiveInstance.index_number (bank : Bank) (before : List Bank) (l : List (Instance × Ranges)) :
    ((number before l).filter fun i => i.bank == bank).map LiveInstance.index
      = List.range' (before.count bank) ((number before l).filter fun i => i.bank == bank).length := by
  induction l generalizing before with
  | nil => rfl
  | cons e l ih =>
    obtain ⟨i, rs⟩ := e
    have htail := ih (i.register.bank :: before)
    rw [number]
    by_cases hbank : i.register.bank = bank
    · subst hbank
      rw [List.count_cons_self] at htail
      rw [List.filter_cons_of_pos (by simp [LiveInstance.bank]), List.map_cons, htail,
        List.length_cons, List.range'_succ]
    · rw [List.count_cons_of_ne (by simpa using hbank)] at htail
      rw [List.filter_cons_of_neg (by simpa [LiveInstance.bank] using hbank), htail]

theorem LiveInstance.map_inst_number (before : List Bank) (l : List (Instance × Ranges)) :
    (number before l).map LiveInstance.inst = l.map Prod.fst := by
  rw [← LiveInstance.map_number before l, List.map_map, LiveInstance.map_number]
  rfl

namespace Live

/-- The instances of a bank, in the order of their numbers. -/
def listed (l : Live) (bank : Bank) : List Instance :=
  (l.inBank bank).map LiveInstance.inst

/-- The ranges of the instances of a bank, in the order of their numbers. -/
def ranged (l : Live) (bank : Bank) : List Ranges :=
  (l.inBank bank).map LiveInstance.ranges

/-- Instances that are numbered as they stand in their banks. -/
def Counted (l : Live) : Prop :=
  ∀ bank, (l.inBank bank).map LiveInstance.index = List.range (l.inBank bank).length

variable {l : Live}

theorem Counted.index_eq (h : l.Counted) {bank : Bank} {n : Nat} {x : LiveInstance}
    (hx : (l.inBank bank)[n]? = some x) : x.index = n := by
  have hlt := (List.getElem?_eq_some_iff.mp hx).1
  have hindex : ((l.inBank bank).map LiveInstance.index)[n]? = some x.index := by
    rw [List.getElem?_map, hx, Option.map_some]
  rw [h bank, List.getElem?_range hlt] at hindex
  exact (Option.some.inj hindex).symm

/-- The number that is found for an instance is its place in the list of its bank. -/
theorem Counted.index?_eq_some (h : l.Counted)
    (hnodup : (l.instances.map LiveInstance.inst).Nodup) (i : Instance) (n : Nat) :
    l.index? i = some n ↔ (l.listed i.register.bank)[n]? = some i := by
  rw [index?, LiveInstance.index?, Option.map_eq_some_iff, listed, List.getElem?_map,
    Option.map_eq_some_iff]
  constructor
  · intro hfound
    obtain ⟨x, hfind, rfl⟩ := hfound
    have hinst : x.inst = i := by simpa using List.find?_some hfind
    have hmem : x ∈ l.inBank i.register.bank :=
      List.mem_filter.mpr ⟨List.mem_of_find?_eq_some hfind, by simp [LiveInstance.bank, hinst]⟩
    obtain ⟨m, hm⟩ := List.getElem?_of_mem hmem
    rw [h.index_eq hm]
    exact ⟨x, hm, hinst⟩
  · intro hplace
    obtain ⟨x, hx, hinst⟩ := hplace
    have hmem : x ∈ l.instances := (List.mem_filter.mp (List.mem_of_getElem? hx)).1
    cases hfind : l.instances.find? fun y => y.inst == i with
    | none =>
      have hne := List.find?_eq_none.mp hfind x hmem
      exact absurd hinst (by simpa using hne)
    | some y =>
      have hy : y.inst = i := by simpa using List.find?_some hfind
      have heq := List.inj_on_of_nodup_map hnodup (List.mem_of_find?_eq_some hfind) hmem
        (hy.trans hinst.symm)
      exact ⟨y, rfl, heq ▸ h.index_eq hx⟩

end Live

/-! ### The order of the instances -/

/-- What instances are sorted by: the place of the register in a list, and the version. -/
def Instance.key (registers : List Register) (i : Instance) : ℕ ×ₗ ℕ :=
  toLex (registers.idxOf i.register, i.version.toNat)

/-- All instances of an analysis with their ranges. -/
def LiveInstance.collected (a : Analysis) : List (Instance × Ranges) :=
  a.tracks.flatMap fun t =>
    (rangesOf a.graph a.order.blocks a.graph.scopes t).map fun e => (⟨t.register, e.1⟩, e.2)

/-- Sorts instances by the place of the register in a list and by version. -/
def LiveInstance.sorted (registers : List Register) (found : List (Instance × Ranges)) :
    List (Instance × Ranges) :=
  found.mergeSort fun e d => decide (e.1.key registers ≤ d.1.key registers)

namespace Analysis

variable {g : Graph} {a s : Analysis}

theorem Fresh.collected_eq (h : a.Fresh g) (hs : a.settle.outcome = .ok s) :
    LiveInstance.collected s = a.registers.flatMap fun r =>
      (LiveInstance.rangesOf s.graph s.order.blocks s.graph.scopes (settledTrack g a r)).map
        fun e => (⟨r, e.1⟩, e.2) := by
  rw [LiveInstance.collected, h.tracks_outcome hs, List.flatMap_map]
  simp only [register_settledTrack]

theorem Fresh.registers_outcome (h : a.Fresh g) (hs : a.settle.outcome = .ok s) :
    s.registers = a.registers := by
  rw [registers, h.tracks_outcome hs, List.map_map]
  exact List.map_id'' (fun r => register_settledTrack ..) _

/-- Instances are collected in ascending order of what they are sorted by. -/
theorem Fresh.pairwise_key (h : a.Fresh g) (hs : a.settle.outcome = .ok s) :
    (LiveInstance.collected s).Pairwise
      fun e d => e.1.key s.registers < d.1.key s.registers := by
  have hplaces : a.registers.Pairwise fun r q => a.registers.idxOf r < a.registers.idxOf q := by
    refine List.pairwise_iff_getElem.mpr fun i j hi hj hij => ?_
    rwa [h.nodup_registers.idxOf_getElem, h.nodup_registers.idxOf_getElem]
  rw [h.registers_outcome hs, h.collected_eq hs, List.pairwise_flatMap]
  refine ⟨fun r _ => ?_, hplaces.imp fun {r q} hrq e he d hd => ?_⟩
  · rw [List.pairwise_map]
    refine (List.pairwise_map.mp LiveInstance.ordered_rangesOf.keys).imp fun {e d} hed => ?_
    exact Prod.Lex.toLex_lt_toLex.mpr (Or.inr ⟨rfl, UInt32.lt_iff_toNat_lt.mp hed⟩)
  · obtain ⟨_, _, rfl⟩ := List.mem_map.mp he
    obtain ⟨_, _, rfl⟩ := List.mem_map.mp hd
    exact Prod.Lex.toLex_lt_toLex.mpr (Or.inl hrq)

/-- Instances that are found in any order are sorted by register and version, and numbered. -/
theorem Fresh.ofAnalysis_eq_sort (h : a.Fresh g) (hs : a.settle.outcome = .ok s)
    {found : List (Instance × Ranges)} (hfound : found.Perm (LiveInstance.collected s)) :
    LiveInstance.ofAnalysis s
      = LiveInstance.number [] (LiveInstance.sorted s.registers found) := by
  rw [LiveInstance.sorted, mergeSort_eq_of_perm hfound (h.pairwise_key hs)]
  rfl

/-- Instances stand by register and version, each once. Registers of one rank may follow each other
in either order, but their instances do not mix. -/
theorem Fresh.pairwise_instances (h : a.Fresh g) (hs : a.settle.outcome = .ok s) :
    ((LiveInstance.ofAnalysis s).map LiveInstance.inst).Pairwise
      fun i j => i ≠ j ∧ j.precedes i = false := by
  have hlist : (LiveInstance.ofAnalysis s).map LiveInstance.inst = a.registers.flatMap fun r =>
      ((LiveInstance.rangesOf s.graph s.order.blocks s.graph.scopes (settledTrack g a r)).map
        Prod.fst).map (Instance.mk r) := by
    have hcollected : LiveInstance.ofAnalysis s
        = LiveInstance.number [] (LiveInstance.collected s) := rfl
    rw [hcollected, LiveInstance.map_inst_number, h.collected_eq hs, List.map_flatMap]
    simp only [List.map_map]
    rfl
  have hregisters : a.registers.Pairwise fun r q => r ≠ q ∧ r.rank ≤ q.rank := by
    refine List.Pairwise.and h.nodup_registers ?_
    rw [h.registers_eq]
    exact Register.pairwise_sort _
  rw [hlist, List.pairwise_flatMap]
  refine ⟨?_, hregisters.imp ?_⟩
  · intro r _
    rw [List.pairwise_map]
    refine LiveInstance.ordered_rangesOf.keys.imp ?_
    intro v w hvw
    refine ⟨fun heq => UInt32.ne_of_lt hvw (congrArg Instance.version heq), ?_⟩
    rw [Instance.precedes, if_neg (by simp), decide_eq_false_iff_not]
    exact UInt32.not_lt.mpr (UInt32.le_of_lt hvw)
  · intro r q hrq i hi j hj
    obtain ⟨v, _, rfl⟩ := List.mem_map.mp hi
    obtain ⟨w, _, rfl⟩ := List.mem_map.mp hj
    refine ⟨fun heq => hrq.1 (congrArg Instance.register heq), ?_⟩
    rw [Instance.precedes, if_pos (Ne.symm hrq.1), ← Bool.not_eq_true, Register.precedes_iff]
    exact not_lt.mpr hrq.2

end Analysis

/-! ### Where accesses and ranges lie -/

theorem Track.offsets_rename (t : Track) (b : Nat) :
    (t.rename.accesses b).map Access.offset = (t.accesses b).map Access.offset := by
  cases hflow : t.flow with
  | none => rw [Track.rename, hflow]
  | some f =>
    unfold Track.accesses
    rw [Track.uses_rename hflow]
    cases t.uses.get b with
    | none => rfl
    | some u => simp [Track.renameUse, Use.mapWrites, Function.comp_def]

/-- Settling moves no access. -/
theorem Analysis.Fresh.exists_access {g : Graph} {a s : Analysis} (h : a.Fresh g)
    (hs : a.settle.outcome = .ok s) {t : Track} (ht : t ∈ s.tracks) {b : Nat} {x : Access}
    (hx : x ∈ t.accesses b) : ∃ y ∈ a.accesses b t.register, y.offset = x.offset := by
  rw [h.tracks_outcome hs] at ht
  obtain ⟨r, hr, rfl⟩ := List.mem_map.mp ht
  rw [register_settledTrack]
  have hsame := accesses_of_track? (h.track?_of_mem hr) b
  have hoffset : x.offset ∈ ((settledTrack g a r).accesses b).map Access.offset :=
    List.mem_map_of_mem hx
  rw [settledTrack, Track.offsets_rename, Track.accesses, Track.uses_settle, ← Track.accesses,
    ← hsame] at hoffset
  exact List.mem_map.mp hoffset

/-- A walk over accesses within a section finds nothing behind the byte after its end. -/
theorem Walk.Extends.high {leaves : Bool} {stop p since n : Offset} {v : Version}
    {current : VersionSet} {l : List Access} (h : Extends leaves stop v p current since l)
    (hstop : stop ≤ n) (hn : n < Int64.maxValue) (hl : ∀ x ∈ l, x.offset < n) : p ≤ n := by
  induction l generalizing current since with
  | nil => exact Int64.le_of_lt (Int64.lt_of_lt_of_le h.2.2.2 hstop)
  | cons x l ih =>
    have hrest : ∀ y ∈ l, y.offset < n := fun y hy => hl y (List.mem_cons_of_mem x hy)
    have hx := hl x List.mem_cons_self
    have hone := Offset.toInt_add_one hx
    rw [Int64.lt_iff_toInt_lt] at hx
    rcases h with h | h
    · have hp := h.2.2.2
      rw [Int64.lt_iff_toInt_lt] at hp
      rw [Int64.le_iff_toInt_le]
      omega
    · cases hwrite : x.write with
      | none =>
        rw [hwrite] at h
        exact ih h hrest
      | some w =>
        rw [hwrite] at h
        rcases h with h | h
        · have hp := h.2.2
          have hnext : x.offset + 1 < Int64.maxValue := by
            rw [Int64.lt_iff_toInt_lt] at hn ⊢
            omega
          have htwo := Offset.toInt_add_one hnext
          rw [Int64.lt_iff_toInt_lt] at hp
          rw [Int64.le_iff_toInt_le]
          omega
        · exact ih h hrest

theorem VersionRanges.Ordered.ranges_of_mem {m : VersionRanges} (h : m.Ordered)
    {e : Version × Ranges} (he : e ∈ m) : m.ranges e.1 = e.2 := by
  induction m with
  | nil => exact absurd he List.not_mem_nil
  | cons d m ih =>
    obtain ⟨w, rs⟩ := d
    rw [ranges_cons]
    rcases List.mem_cons.mp he with rfl | he
    · exact if_pos rfl
    · have hlt : w < e.1 := (List.pairwise_cons.mp h.keys).1 e.1 (List.mem_map_of_mem he)
      rw [if_neg (UInt32.ne_of_lt hlt).symm]
      exact ih h.tail he

/-- Ranges lie within the section and the byte behind it. -/
theorem LiveInstance.bounds_of_mem {g : Graph} {order : List Nat}
    {scopes : Table (Option (Array Bool))} {t : Track}
    (hpart : Layout.Partition g.length g.blocks) (hn : g.length < Int64.maxValue)
    (hinside : ∀ b, ∀ x ∈ t.accesses b, (g.block b).contains x.offset = true)
    {e : Version × Ranges} (he : e ∈ rangesOf g order scopes t) {q : Range} (hq : q ∈ e.2) :
    0 ≤ q.start ∧ q.stop.toInt ≤ g.length.toInt + 1 := by
  have hordered : (rangesOf g order scopes t).Ordered := ordered_rangesOf
  have hapart := hordered.apart e he
  have hfull := hapart.full q hq
  have hlast := Offset.toInt_sub_one hfull
  rw [Int64.lt_iff_toInt_lt] at hfull
  have hcontains : ∀ p, q.start ≤ p → p < q.stop →
      ((rangesOf g order scopes t).ranges e.1).contains p = true := by
    intro p hlow hhigh
    rw [hordered.ranges_of_mem he]
    exact (hapart.contains_iff p).mpr ⟨q, hq, hlow, hhigh⟩
  have hstart := hcontains q.start (Int64.le_refl _) (hapart.full q hq)
  have hstop := hcontains (q.stop - 1) (by rw [Int64.le_iff_toInt_le]; omega)
    (by rw [Int64.lt_iff_toInt_lt]; omega)
  refine ⟨nonneg_of_contains hpart hinside hstart, ?_⟩
  obtain ⟨b, hb, hlive⟩ := (contains_rangesOf_iff e.1 _).mp hstop
  have hblock := (hpart.bounds hb).2
  have hle := hlive.high hblock hn fun x hx => by
    have hin := hinside b x hx
    rw [Block.contains, Bool.and_eq_true, decide_eq_true_eq, decide_eq_true_eq] at hin
    exact Int64.lt_of_lt_of_le hin.2 hblock
  rw [Int64.le_iff_toInt_le] at hle
  omega

/-- The accesses of a settled track lie in their blocks. -/
theorem Analysis.contains_of_access {settings : Settings} {code : Code} {n : Offset}
    {hints : List Hint} {usages : List Usage} {g : Graph} {a s : Analysis}
    (hgraph : Graph.build settings code n hints = .ok g) (ha : ofUsages g usages = .ok a)
    (hs : a.settle.outcome = .ok s) {t : Track} (ht : t ∈ s.tracks) {b : Nat} {x : Access}
    (hx : x ∈ t.accesses b) : (g.block b).contains x.offset = true := by
  obtain ⟨y, hy, hoffset⟩ := (fresh_of_ofUsages ha).exists_access hs ht hx
  have hblock := blockAt_of_access ha hy
  obtain ⟨starts, transfers, hstages⟩ := Graph.exists_stages hgraph
    (Graph.length_ne_zero_of_build hgraph (Graph.lt_size_of_blockAt hblock))
  rw [← hoffset]
  exact hstages.contains_of_blockAt hblock

theorem Analysis.bounds_of_build {settings : Settings} {code : Code} {n : Offset}
    {hints : List Hint} {usages : List Usage} {g : Graph} {a s : Analysis}
    (hgraph : Graph.build settings code n hints = .ok g) (hfit : Hint.Fit settings code n hints)
    (hlow : 0 ≤ n) (hhigh : n < Int64.maxValue) (ha : ofUsages g usages = .ok a)
    (hs : a.settle.outcome = .ok s) {order : List Nat} {scopes : Table (Option (Array Bool))}
    {t : Track} (ht : t ∈ s.tracks) {e : Version × Ranges}
    (he : e ∈ LiveInstance.rangesOf g order scopes t) {q : Range} (hq : q ∈ e.2) :
    0 ≤ q.start ∧ q.stop.toInt ≤ n.toInt + 1 := by
  -- the version is live in some block, so the section is not empty
  obtain ⟨p, hp⟩ := LiveInstance.full_rangesOf.exists_of_mem LiveInstance.ordered_rangesOf he
  obtain ⟨b, hb, _⟩ := (LiveInstance.contains_rangesOf_iff e.1 p).mp hp
  have hne := Graph.length_ne_zero_of_build hgraph hb
  obtain ⟨starts, transfers, hstages⟩ := Graph.exists_stages hgraph hne
  have hlength := hstages.length_eq
  have hpart := (hstages.partition hfit (Int64.lt_of_le_of_ne hlow (Ne.symm hne))).2
  rw [← hlength] at hpart hhigh ⊢
  exact LiveInstance.bounds_of_mem hpart hhigh (fun b x => contains_of_access hgraph ha hs ht) he hq

/-- In each bank the instances have ranges, are numbered as they stand, and stand in order, each
once; they are numbered so once they have been sorted, in whatever order they are found. The ranges
of an instance are not empty, lie within the section and the byte behind it, and leave gaps between
each other. -/
theorem Section.instance_table {settings : Settings} {sec : Section} {result : Result}
    (h : sec.analyze settings = .ok result)
    (hfit : Hint.Fit settings sec.code sec.size sec.hints) (hlow : 0 ≤ sec.size)
    (hhigh : sec.size < Int64.maxValue) (bank : Bank) :
    (result.live.ranged bank).length = (result.live.listed bank).length ∧
    (∀ i : Instance, i.register.bank = bank → ∀ n,
      result.index? i = some n ↔ (result.live.listed bank)[n]? = some i) ∧
    (result.live.listed bank).Nodup ∧
    (result.live.listed bank).Pairwise (fun i j => j.precedes i = false) ∧
    (∀ found : List (Instance × Ranges), found.Perm (LiveInstance.collected result.analysis) →
      result.live.instances
        = LiveInstance.number [] (LiveInstance.sorted result.analysis.registers found)) ∧
    ∀ rs ∈ result.live.ranged bank, rs ≠ [] ∧
      (∀ q ∈ rs, 0 ≤ q.start ∧ q.start < q.stop ∧ q.stop.toInt ≤ sec.size.toInt + 1) ∧
      rs.Pairwise fun q q' => q.stop < q'.start := by
  rw [Section.analyze_eq] at h
  obtain ⟨g, hgraph, h⟩ := bind_eq_ok.mp h
  obtain ⟨a, ha, h⟩ := bind_eq_ok.mp h
  obtain ⟨s, hs, h⟩ := bind_eq_ok.mp h
  obtain ⟨live, hlive, h⟩ := bind_eq_ok.mp h
  cases h
  have hfresh := Analysis.fresh_of_ofUsages ha
  have hinstances := Live.instances_ofInstances hlive
  have hpairs := hfresh.pairwise_instances hs
  have hcounted : live.Counted := by
    intro bank
    rw [Live.inBank, hinstances, LiveInstance.ofAnalysis, LiveInstance.index_number,
      List.count_nil, List.range_eq_range']
  have hnodup : (live.instances.map LiveInstance.inst).Nodup := by
    rw [hinstances]
    exact hpairs.imp fun hij => hij.1
  have hsub : (live.listed bank).Sublist (live.instances.map LiveInstance.inst) :=
    List.filter_sublist.map _
  refine ⟨?_, ?_, hnodup.sublist hsub, ?_,
    fun found hfound => hinstances.trans (hfresh.ofAnalysis_eq_sort hs hfound), ?_⟩
  · rw [Live.ranged, Live.listed, List.length_map, List.length_map]
  · intro i hi n
    subst hi
    exact hcounted.index?_eq_some hnodup i n
  · rw [hinstances] at hsub
    exact (hpairs.imp fun hij => hij.2).sublist hsub
  · intro rs hrs
    obtain ⟨x, hx, rfl⟩ := List.mem_map.mp hrs
    have hmem : x ∈ LiveInstance.ofAnalysis s := hinstances ▸ (List.mem_filter.mp hx).1
    obtain ⟨t, ht, hmem⟩ := List.mem_flatMap.mp (LiveInstance.mem_of_mem_number hmem)
    obtain ⟨e, he, heq⟩ := List.mem_map.mp hmem
    have hranges : e.2 = x.ranges := congrArg Prod.snd heq
    rw [← hranges]
    have hordered := LiveInstance.ordered_rangesOf.apart e he
    refine ⟨LiveInstance.full_rangesOf e he, fun q hq => ?_, hordered.gaps⟩
    rw [hfresh.graph_outcome hs] at he
    have hbounds := Analysis.bounds_of_build hgraph hfit hlow hhigh ha hs ht he hq
    exact ⟨hbounds.1, hordered.full q hq, hbounds.2⟩

namespace Twins

/-- Two variables of one name; the one that was declared later is used first. -/
def x : Register := Register.slot ⟨0, "x", Bank.vector⟩ 0

def y : Register := Register.slot ⟨1, "x", Bank.vector⟩ 0

def source : Section where
  code := #[]
  length := 8
  hints := [⟨4, .halt, [], 0⟩]
  usages := [⟨0, y, 1, 0, false, true⟩, ⟨4, y, 1, 0, true, false⟩, ⟨7, x, 1, 0, false, true⟩]
  groups := []

def result : Result := (source.analyze (Settings.standard 1)).toOption.getD default

theorem evaluates : source.analyze (Settings.standard 1) = .ok result ∧
    result.live.listed Bank.vector = [⟨y, ⟨1#32⟩⟩, ⟨x, ⟨1#32⟩⟩] ∧
    result.live.ranged Bank.vector = [[⟨1, 5⟩], [⟨8, 9⟩]] := by
  cbv

/-- The later variable comes first, and neither precedes the other. The last write is live in the
byte behind the section only. -/
theorem later_first : source.analyze (Settings.standard 1) = .ok result ∧
    result.index? ⟨y, ⟨1#32⟩⟩ = some 0 ∧ result.index? ⟨x, ⟨1#32⟩⟩ = some 1 ∧
    Instance.precedes ⟨x, ⟨1#32⟩⟩ ⟨y, ⟨1#32⟩⟩ = false ∧
    ∀ rs ∈ result.live.ranged Bank.vector, ∀ q ∈ rs, q.stop.toInt ≤ 9 := by
  obtain ⟨hok, hlisted, _⟩ := evaluates
  obtain ⟨_, hindex, _, horder, _, hranges⟩ := Section.instance_table hok (by decide) (by decide)
    (by decide) Bank.vector
  rw [hlisted] at hindex horder
  refine ⟨hok, (hindex _ rfl 0).mpr rfl, (hindex _ rfl 1).mpr rfl, ?_, ?_⟩
  · exact List.rel_of_pairwise_cons horder (List.mem_singleton_self _)
  · intro rs hrs q hq
    exact ((hranges rs hrs).2.1 q hq).2.2

end Twins

end RegisterWeb
