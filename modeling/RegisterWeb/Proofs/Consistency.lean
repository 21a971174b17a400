import Mathlib
import RegisterWeb.Proofs.Cover

/-!
What settling decides about the reads of a register variable. When it succeeds, each block that
reads the version on entry has one version there, and every way into the block agrees on it: the
start of a flow, ordinary edges, calls, and the ways back from routines. When it fails, the block
that it names has none even in the least family of sets that is closed under what comes in, no run
ever enters that block, and the uses are as they were.
-/

namespace RegisterWeb

/-! ### Agreement of all ways into a block -/

/-- Every way into a block brings the version `v`. A routine that is called on the way brings the
versions that it leaves behind, and those of the caller if they can survive it. -/
structure Track.Agrees (g : Graph) (t : Track) (b : Nat) (v : Version) : Prop where
  entering : t.entering b = [v]
  root : (g.block b).root = true → t.canonical Version.entry = v
  direct : ∀ e ∈ g.preds.get b, e.isCall = true ∨ (g.block e.block).calls = false →
    ∀ w ∈ t.leaving e.block, w = v
  back : ∀ e ∈ g.preds.get b, e.isCall = false → (g.block e.block).calls = true →
    ∀ c ∈ (g.block e.block).callees, (∀ w ∈ t.definitions c, w = v) ∧
      (t.isTransparent c = true → ∀ w ∈ t.leaving e.block, w = v)

namespace Analysis

variable {g : Graph} {a s : Analysis} {r : Register} {t : Track} {f : Flow} {b : Nat}

theorem Solved.lt_size (h : a.Solved g r f) {v : Version} (hv : v ∈ f.entering.get b) :
    b < g.size := by
  by_contra hb
  rw [Table.get_of_size_le (by rw [h.sound.size]; omega)] at hv
  exact absurd hv List.not_mem_nil

theorem Solved.root_eq_of_incoming (h : a.Solved g r f) (hreads : f.reads.get b = true)
    {u v : Version} (hv : v ∈ f.entering.get b) (hu : u ∈ f.incoming g b) :
    f.webs.root u = f.webs.root v := by
  have hin : u ∈ f.entering.get b := h.covered b (h.lt_size hv) id hu
  exact (h.sound.webs.same_iff u v).mpr (Relation.EqvGen.rel u v ⟨b, hreads, hin, hv⟩)

theorem Settled.agrees (h : a.Settled g r t f) (hreads : f.reads.get b = true) {v : Version}
    (hv : v ∈ f.entering.get b) : t.Agrees g b (f.webs.root v) := by
  have hroot : ∀ u ∈ f.incoming g b, f.webs.root u = f.webs.root v :=
    fun u hu => h.root_eq_of_incoming hreads hv hu
  -- representatives of a set agree if what they stand for comes in
  have hall : ∀ set : VersionSet, set ⊆ f.incoming g b →
      ∀ w ∈ f.webs.canonical set, w = f.webs.root v := by
    intro set hset w hw
    obtain ⟨u, hu, rfl⟩ := (Webs.mem_canonical _ _ _).mp hw
    exact hroot u (hset hu)
  have halong : ∀ e ∈ g.preds.get b, f.along g e ⊆ f.incoming g b :=
    fun e he u hu => Flow.mem_incoming.mpr (Or.inr ⟨e, he, hu⟩)
  have hleaving : ∀ c, t.leaving c = f.webs.canonical (f.leaving c) := by
    intro c
    simp only [Track.leaving, h.flow]
  constructor
  case entering =>
    simp only [Track.entering, h.flow]
    exact h.canonical_entering hv hreads
  case root =>
    intro hb
    simp only [Track.canonical, h.flow]
    exact hroot _ (Flow.mem_incoming.mpr (Or.inl ⟨hb, rfl⟩))
  case direct =>
    intro e he hdirect
    rw [hleaving]
    have hsame : f.along g e = f.leaving e.block := by
      cases hcall : e.isCall with
      | true => simp only [Flow.along, hcall, if_true]
      | false =>
        have hquiet := hdirect.resolve_left (by simp [hcall])
        simp only [Flow.along, hcall, Bool.false_eq_true, if_false,
          Flow.passing_of_not_calls hquiet]
    exact hall _ (hsame ▸ halong e he)
  case back =>
    intro e he hplain hcalls c hc
    -- what a callee leaves behind comes in with the caller's versions put in
    have hback : VersionSet.resolve (f.effects.get c) (f.leaving e.block) ⊆ f.incoming g b := by
      intro u hu
      apply halong e he
      simp only [Flow.along, hplain, Bool.false_eq_true, if_false]
      exact (Flow.mem_passing_of_calls hcalls).mpr ⟨c, hc, hu⟩
    constructor
    · simp only [Track.definitions, h.flow]
      apply hall
      intro u hu
      apply hback
      exact (VersionSet.mem_resolve _ _ _).mpr (Or.inl ((VersionSet.mem_without _ _ _).mp hu))
    · intro htransparent
      simp only [Track.isTransparent, h.flow, VersionSet.has_iff] at htransparent
      rw [hleaving]
      apply hall
      intro u hu
      apply hback
      exact (VersionSet.mem_resolve _ _ _).mpr (Or.inr ⟨htransparent, hu⟩)

/-- After settling, the one version that is known where a register variable is read on entry is the
one that every way into the block brings. -/
theorem ways_agree_of_readsFirst {settings : Settings} {code : Code} {n : Offset}
    {hints : List Hint} {usages : List Usage}
    (hgraph : Graph.build settings code n hints = .ok g) (ha : ofUsages g usages = .ok a)
    (hs : a.settle.outcome = .ok s) (hslot : r.isSlot = true) (hreads : s.readsFirst b r = true) :
    ∃ t v, s.track? r = some t ∧ ((s.use? b r).bind fun u => u.info.before) = some v ∧
      t.Agrees g b v := by
  have hg := Graph.wellFormed_of_build hgraph
  have hr : r ∈ a.registers := by
    by_contra hr
    rw [readsFirst, use?, track?_outcome_eq_none hs hr] at hreads
    exact absurd hreads (by simp)
  obtain ⟨t, f, ht, hsettled⟩ := (fresh_of_ofUsages ha).settled hg hs hr hslot
  rw [hsettled.readsFirst_eq ht] at hreads
  obtain ⟨v, hv⟩ := List.exists_mem_of_ne_nil _ (hsettled.defined b hreads)
  exact ⟨t, f.webs.root v, ht, hsettled.before_eq ht hv hreads, hsettled.agrees hreads hv⟩

end Analysis

/-- The routine may write or not, so the caller's version and the routine's own come back as one. -/
theorem Branch.ways_agree : ∃ t, Branch.settled.track? Branch.x = some t ∧
    t.Agrees Branch.graph 1 1 := by
  obtain ⟨hgraph, ha, hs, _⟩ := Branch.evaluates
  have hreads := Branch.lastWrites.2.2.2.2.2
  have hbefore : ((Branch.settled.use? 1 Branch.x).bind fun u => u.info.before)
      = some ⟨1#32⟩ := by
    cbv
  obtain ⟨t, v, ht, hv, hagrees⟩ := Analysis.ways_agree_of_readsFirst hgraph ha hs rfl hreads
  cases hbefore.symm.trans hv
  exact ⟨t, ht, hagrees⟩

/-! ### Reads that nothing reaches -/

/-- The least family of sets that is closed under what comes into the blocks. -/
def Flow.LeastClosed (g : Graph) (f : Flow) (sets : Table VersionSet) : Prop :=
  f.Closed g sets ∧ ∀ sets', f.Closed g sets' → ∀ b, sets.get b ⊆ sets'.get b

namespace Analysis

/-- A block reads a register variable on entry, but the least closed family has no version there. -/
def Starved (g : Graph) (a : Analysis) (r : Register) (b : Nat) : Prop :=
  a.readsFirst b r = true ∧
    ∃ f sets, a.flow? r = some f ∧ f.LeastClosed g sets ∧ sets.get b = []

variable {g : Graph} {a : Analysis} {r : Register} {f : Flow} {b : Nat}

theorem Solved.leastClosed (h : a.Solved g r f) :
    ∃ before, a.flow? r = some before ∧ before.LeastClosed g f.entering := by
  obtain ⟨before, hbefore, halike⟩ := h.start
  refine ⟨before, hbefore, Flow.closed_congr halike.made halike.effects h.covered.closed, ?_⟩
  intro sets hsets
  exact h.sound.least sets (Flow.closed_congr halike.made.symm halike.effects.symm hsets)

theorem Solved.starved_iff (h : a.Solved g r f) :
    a.Starved g r b ↔ f.reads.get b = true ∧ f.entering.get b = [] := by
  obtain ⟨before, hbefore, hleast⟩ := h.leastClosed
  unfold Starved readsFirst
  rw [← h.reads]
  refine and_congr_right fun _ => ?_
  constructor
  · intro hstarved
    obtain ⟨f', sets, hf', hsets, hempty⟩ := hstarved
    cases hbefore.symm.trans hf'
    have hsub := hleast.2 sets hsets.1 b
    rw [hempty] at hsub
    exact List.eq_nil_of_subset_nil hsub
  · exact fun hempty => ⟨before, f.entering, hbefore, hleast, hempty⟩

theorem Fresh.unreached?_eq_some (h : a.Fresh g) (hg : g.WellFormed) (hr : r ∈ a.registers) :
    ((trackOf g (FlowOrder.ofGraph g) a.summaries r).settle g).1.unreached? = some b ↔
      a.Starved g r b ∧ ∀ c < b, ¬ a.Starved g r c := by
  cases hslot : r.isSlot with
  | false =>
    have hflow : ((trackOf g (FlowOrder.ofGraph g) a.summaries r).settle g).1.flow = none := by
      simp [trackOf, Track.ofRegister, hslot, Track.ofPhysical, Track.settle]
    simp only [Track.unreached?, hflow, Option.bind_none, reduceCtorEq, false_iff]
    intro hstarved
    obtain ⟨⟨_, f, _, hf, _⟩, _⟩ := hstarved
    rw [(h.isSlot_of_flow? hf).2] at hslot
    exact absurd hslot (by decide)
  | true =>
    obtain ⟨f, hflow, hsolved⟩ := h.solved hg hr hslot
    -- the test of the search is starvation
    have htest : ∀ c, (((trackOf g (FlowOrder.ofGraph g) a.summaries r).settle g).1.readsFirst c
        && (f.entering.get c).isEmpty) = true ↔ a.Starved g r c := by
      intro c
      rw [hsolved.starved_iff, hsolved.reads, Bool.and_eq_true, List.isEmpty_iff, Track.readsFirst,
        h.uses_settle hr]
    have hlt : a.Starved g r b → b < f.entering.size :=
      fun hstarved => hsolved.lt_of_reads h hr (hsolved.starved_iff.mp hstarved).1
    simp only [Track.unreached?, hflow, Option.bind_some, List.find?_range_eq_some, htest,
      List.mem_range, Bool.not_eq_true', ← Bool.not_eq_true]
    constructor
    · exact fun hfound => ⟨hfound.1, hfound.2.2⟩
    · exact fun hfound => ⟨hfound.1, hlt hfound.1, hfound.2⟩

theorem Fresh.unreached?_eq_none (h : a.Fresh g) (hg : g.WellFormed) (hr : r ∈ a.registers) :
    ((trackOf g (FlowOrder.ofGraph g) a.summaries r).settle g).1.unreached? = none ↔
      ∀ c, ¬ a.Starved g r c := by
  constructor
  · intro hnone c hstarved
    classical
    have hexists : ∃ c, a.Starved g r c := ⟨c, hstarved⟩
    have hfound := (h.unreached?_eq_some hg hr).mpr
      ⟨Nat.find_spec hexists, fun c hc => Nat.find_min hexists hc⟩
    rw [hnone] at hfound
    cases hfound
  · intro hfree
    refine Option.eq_none_iff_forall_ne_some.mpr ?_
    exact fun c hfound => hfree c ((h.unreached?_eq_some hg hr).mp hfound).1

theorem Fresh.failure_eq (h : a.Fresh g) :
    a.settle.failure = a.registers.findSome? fun r =>
      ((trackOf g (FlowOrder.ofGraph g) a.summaries r).settle g).1.unreached?.map fun b =>
        .unreached b r := by
  have hfailure : a.settle.failure = a.tracks.findSome? fun t =>
      ((t.settle a.graph).1.unreached?).map fun b => .unreached b t.register := by
    unfold settle
    simp only [unreached?, List.map_map, List.findSome?_map, Function.comp_def,
      Track.register_settle]
    split <;> (rename_i hfound; exact hfound.symm)
  rw [hfailure, h.registers_eq, h.tracks, h.graph, List.findSome?_map]
  simp only [Function.comp_def, register_trackOf]

theorem settle_eq_of_failure {e : Failure} (h : a.settle.failure = some e) :
    a.settle.analysis.replaces = a.replaces ∧
      ∀ b r, a.settle.analysis.use? b r = a.use? b r := by
  have hafter : a.settle.analysis
      = { a with tracks := a.tracks.map fun t => (t.settle a.graph).1 } := by
    unfold settle at h ⊢
    simp only [List.map_map] at h ⊢
    split
    · rfl
    · rename_i hnone
      rw [hnone] at h
      cases h
  have hreplaces : ∀ t : Track, (t.settle a.graph).1.replaces = t.replaces := by
    intro t
    unfold Track.settle
    split <;> rfl
  rw [hafter]
  constructor
  · simp only [replaces, List.filter_map, List.map_map, Function.comp_def, hreplaces,
      Track.register_settle]
  · intro b r
    simp only [use?, track?, Track.find?_map (Track.register_settle a.graph), Option.bind_map,
      Function.comp_def, Track.uses_settle]

theorem Fresh.mem_of_starved (h : a.Fresh g) (hstarved : a.Starved g r b) :
    r ∈ a.registers ∧ r.isSlot = true := by
  obtain ⟨_, f, _, hf, _⟩ := hstarved
  exact h.isSlot_of_flow? hf

/-- A run brings some version to each block that it enters, so it enters no starved one. -/
theorem Fresh.not_entered (h : a.Fresh g) (hg : g.WellFormed)
    (hwrites : a.writes r < UInt32.size - 2) (hstarved : a.Starved g r b) {run : Nat → Config}
    {m i : Nat} (hrun : g.IsRun run m) (hi : i ≤ m) : (run i).block ≠ b := by
  obtain ⟨hr, hslot⟩ := h.mem_of_starved hstarved
  obtain ⟨f, _, hsolved⟩ := h.solved hg hr hslot
  rintro rfl
  have hv := hsolved.mem_entering hg h hr hslot hwrites (hrun.brings hi)
  rw [(hsolved.starved_iff.mp hstarved).2] at hv
  exact absurd hv List.not_mem_nil

/-- The first register that some block is starved of, with the lowest such block. -/
structure FirstStarved (g : Graph) (a : Analysis) (r : Register) (b : Nat) : Prop where
  starved : a.Starved g r b
  lowest : ∀ c < b, ¬ a.Starved g r c
  first : ∃ before after, a.registers = before ++ r :: after ∧
    ∀ q ∈ before, ∀ c, ¬ a.Starved g q c

theorem Fresh.firstStarved (h : a.Fresh g) (hg : g.WellFormed) {e : Failure}
    (hfailure : a.settle.failure = some e) : ∃ r b, e = .unreached b r ∧ a.FirstStarved g r b := by
  rw [h.failure_eq, List.findSome?_eq_some_iff] at hfailure
  obtain ⟨before, r, after, hregisters, hfound, hbefore⟩ := hfailure
  have hmem : ∀ q ∈ before ++ r :: after, q ∈ a.registers := fun q hq => hregisters ▸ hq
  obtain ⟨b, hb, rfl⟩ := Option.map_eq_some_iff.mp hfound
  obtain ⟨hstarved, hlowest⟩ := (h.unreached?_eq_some hg (hmem r (by simp))).mp hb
  refine ⟨r, b, rfl, hstarved, hlowest, before, after, hregisters, ?_⟩
  intro q hq
  have hnone := Option.map_eq_none_iff.mp (hbefore q hq)
  exact (h.unreached?_eq_none hg (hmem q (List.mem_append_left _ hq))).mp hnone

theorem Fresh.failure_eq_none (h : a.Fresh g) (hg : g.WellFormed) :
    a.settle.failure = none ↔ ∀ r ∈ a.registers, ∀ b, ¬ a.Starved g r b := by
  rw [h.failure_eq, List.findSome?_eq_none_iff]
  refine forall_congr' fun r => forall_congr' fun hr => ?_
  rw [Option.map_eq_none_iff, h.unreached?_eq_none hg hr]

/-- Settling fails exactly if some block is starved of a register variable. It names the first such
register and the lowest such block, which no run enters, and leaves all uses as they were. -/
theorem settle_fails_iff_starved {settings : Settings} {code : Code} {n : Offset}
    {hints : List Hint} {usages : List Usage}
    (hgraph : Graph.build settings code n hints = .ok g) (ha : ofUsages g usages = .ok a) :
    (∀ r ∈ a.registers, r.isSlot = true →
      ∃ f sets, a.flow? r = some f ∧ f.LeastClosed g sets) ∧
    (a.settle.failure ≠ none ↔ ∃ r ∈ a.registers, r.isSlot = true ∧ ∃ b, a.Starved g r b) ∧
    ∀ e, a.settle.failure = some e →
      (∃ r b, e = .unreached b r ∧ a.FirstStarved g r b ∧
        (a.writes r < UInt32.size - 2 →
          ∀ run m, g.IsRun run m → ∀ i ≤ m, (run i).block ≠ b)) ∧
      a.settle.analysis.replaces = a.replaces ∧
      ∀ c q, a.settle.analysis.use? c q = a.use? c q := by
  have hg := Graph.wellFormed_of_build hgraph
  have hfresh := fresh_of_ofUsages ha
  refine ⟨?_, ?_, ?_⟩
  · intro r hr hslot
    obtain ⟨f, _, hsolved⟩ := hfresh.solved hg hr hslot
    obtain ⟨before, hbefore, hleast⟩ := hsolved.leastClosed
    exact ⟨before, f.entering, hbefore, hleast⟩
  · rw [ne_eq, hfresh.failure_eq_none hg]
    push Not
    constructor
    · intro hstarved
      obtain ⟨r, hr, b, hb⟩ := hstarved
      exact ⟨r, hr, (hfresh.mem_of_starved hb).2, b, hb⟩
    · intro hstarved
      obtain ⟨r, hr, _, b, hb⟩ := hstarved
      exact ⟨r, hr, b, hb⟩
  · intro e hfailure
    obtain ⟨r, b, he, hfirst⟩ := hfresh.firstStarved hg hfailure
    refine ⟨⟨r, b, he, hfirst, ?_⟩, settle_eq_of_failure hfailure⟩
    intro hwrites run m hrun i hi
    exact hfresh.not_entered hg hwrites hfirst.starved hrun hi

end Analysis

/-! ### A call that never returns -/

namespace DeadEnd

def y : Register := Register.slot ⟨0, "y", Bank.vector⟩ 0

/-- The routine called halts, so the block behind the call is never entered. It reads a variable that
only the routine writes; the routine reads another one. -/
def hints : List Hint :=
  [⟨4, .call, [16], 0⟩, ⟨12, .halt, [], 0⟩, ⟨16, .halt, [], 0⟩]

def usages : List Usage :=
  [⟨8, y, 1, 0, true, false⟩, ⟨16, y, 1, 0, false, true⟩, ⟨16, Branch.x, 1, 0, true, false⟩]

def graph : Graph where
  length := 20
  blocks := #[⟨0, 0, 8, [⟨1, false⟩, ⟨2, true⟩], true, true, false, false⟩,
    ⟨1, 8, 16, [], false, false, false, true⟩,
    ⟨2, 16, 20, [], false, false, false, true⟩]
  preds := ⟨#[[], [⟨0, false⟩], [⟨0, true⟩]]⟩
  routines := [⟨2, [2], [], [], [0], [1]⟩]
  boundaries := []

def start : Analysis := (Analysis.ofUsages graph usages).toOption.getD default

theorem evaluates : Graph.build (Settings.standard 1) #[] 20 hints = .ok graph ∧
    Analysis.ofUsages graph usages = .ok start ∧ start.writes y = 1 ∧
    start.settle.failure = some (.unreached 1 y) := by
  cbv

/-- The read behind the call is reported and never reached. -/
theorem reported : start.FirstStarved graph y 1 ∧
    (∀ run m, graph.IsRun run m → ∀ i ≤ m, (run i).block ≠ 1) ∧
    start.settle.analysis.use? 1 y = start.use? 1 y := by
  obtain ⟨hgraph, ha, hwrites, hfailure⟩ := evaluates
  obtain ⟨_, _, hreport⟩ := Analysis.settle_fails_iff_starved hgraph ha
  obtain ⟨⟨r, b, he, hfirst, hruns⟩, _, huses⟩ := hreport _ hfailure
  cases he
  exact ⟨hfirst, hruns (by rw [hwrites]; decide), huses 1 y⟩

end DeadEnd

end RegisterWeb
