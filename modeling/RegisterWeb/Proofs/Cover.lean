import RegisterWeb.Proofs.Live

/-!
Live ranges along runs. If a run brings a value from a write, or from its start, to a read, then the
ranges of the version that the value has cover the way: from the write to the end of its block, all
blocks in between, and from the start of the last block to the read. The exception is by design: a
value goes past a routine that does not touch its register, and is not live inside it.
-/

namespace RegisterWeb

open RegisterWeb.Graph

/-! ### The settled track of a register -/

namespace Analysis

/-- The accesses of a block to a register. -/
def accesses (a : Analysis) (b : Nat) (r : Register) : List Access :=
  ((a.use? b r).map Use.accesses).getD []

theorem accesses_of_track? {a : Analysis} {r : Register} {t : Track} (ht : a.track? r = some t)
    (b : Nat) : a.accesses b r = t.accesses b := by
  rw [accesses, use?, ht, Option.bind_some, Track.accesses]
  cases t.uses.get b with
  | none => rfl
  | some u => rfl

/-- Whether the routine that a block enters, or any routine that it calls, touches a register. -/
def touches (a : Analysis) (r : Register) (entry : Nat) : Bool :=
  (a.track? r).any fun t => t.touches a.graph a.graph.scopes entry

/-- A read of a register in a block that no write of the block comes before. -/
def ReadsAt (a : Analysis) (r : Register) (b : Nat) (x : Access) : Prop :=
  x.reads = true ∧ ∃ before after, a.accesses b r = before ++ x :: after ∧
    ∀ y ∈ before, y.write = none

/-- The last write of a register in a block, with the version that it makes. -/
def WritesAt (a : Analysis) (r : Register) (b : Nat) (x : Access) (w : Version) : Prop :=
  x.write = some w ∧ ∃ before after, a.accesses b r = before ++ x :: after ∧
    ∀ y ∈ after, y.write = none

theorem ReadsAt.mem {a : Analysis} {r : Register} {b : Nat} {x : Access} (h : a.ReadsAt r b x) :
    x ∈ a.accesses b r := by
  obtain ⟨_, before, after, hacc, _⟩ := h
  simp [hacc]

theorem WritesAt.mem {a : Analysis} {r : Register} {b : Nat} {x : Access} {w : Version}
    (h : a.WritesAt r b x w) : x ∈ a.accesses b r := by
  obtain ⟨_, before, after, hacc, _⟩ := h
  simp [hacc]

/-- A block that does not write a register. -/
def Quiet (a : Analysis) (r : Register) (b : Nat) : Prop :=
  ∀ x ∈ a.accesses b r, x.write = none

/-- The track of a register in a settled analysis `s`, with what it says about the uses before: the
writes are renamed, and what a run brings to a block is known there. -/
structure Tracked (g : Graph) (a s : Analysis) (r : Register) (t : Track) : Prop where
  track : s.track? r = some t
  uses : ∀ b, ∃ φ : Use → Use, t.uses.get b = (a.use? b r).map φ ∧ ∀ u,
    (φ u).accesses = (u.mapWrites (s.canonical r)).accesses ∧
      (φ u).info.changes = u.info.changes ∧ (φ u).info.readsFirst = u.info.readsFirst
  entering : ∀ c v, g.Brings (a.lastWrite? r) c v → s.canonical r v ∈ t.entering c.block

variable {g : Graph} {a s : Analysis} {r : Register} {t : Track}

theorem Fresh.entry_of_brings (h : a.Fresh g) (hr : r ∈ a.registers) (hslot : r.isSlot = false)
    {c : Config} {v : Version} (hrun : g.Brings (a.lastWrite? r) c v) : v = Version.entry := by
  induction hrun with
  | start => rfl
  | @step c _ v _ _ ih =>
    cases hlast : a.lastWrite? r c.block with
    | none => exact ih
    | some w =>
      obtain ⟨u, hu, hw⟩ := Option.bind_eq_some_iff.mp hlast
      exact h.made_physical hr hslot hu (List.mem_of_getLast? hw)

theorem Fresh.tracked (h : a.Fresh g) (hg : g.WellFormed) (hs : a.settle.outcome = .ok s)
    (hr : r ∈ a.registers) (hwrites : a.writes r < UInt32.size - 2) : ∃ t, Tracked g a s r t := by
  cases hslot : r.isSlot with
  | true =>
    obtain ⟨t, f, ht, hsettled⟩ := h.settled hg hs hr hslot
    refine ⟨t, ht, ?_, ?_⟩
    · intro b
      refine ⟨_, hsettled.uses b, fun u => ⟨?_, rfl, rfl⟩⟩
      rw [show s.canonical r = f.webs.root from funext (hsettled.canonical_eq ht)]
      rfl
    · intro c v hrun
      exact hsettled.canonical_mem_entering ht (hsettled.mem_entering hg h hr hslot hwrites hrun)
  | false =>
    have hflow : (trackOf g (FlowOrder.ofGraph g) a.summaries r).flow = none := by
      simp [trackOf, Track.ofRegister, hslot, Track.ofPhysical]
    have ht := h.track?_outcome hs hr
    simp only [Track.settle, Track.rename, hflow] at ht
    have hcanonical : s.canonical r = id := by
      funext v
      simp only [canonical, ht, Track.canonical, hflow, id_eq]
    refine ⟨_, ht, ?_, ?_⟩
    · intro b
      refine ⟨id, ?_, fun u => ⟨?_, rfl, rfl⟩⟩
      · rw [use?, h.track?_of_mem hr, Option.bind_some, Option.map_id, id_eq]
      · simp [Use.mapWrites, hcanonical, Option.map_id]
    · intro c v hrun
      rw [h.entry_of_brings hr hslot hrun, hcanonical]
      simp [Track.entering, hflow]

theorem Tracked.accesses_eq (h : Tracked g a s r t) (b : Nat) :
    t.accesses b =
      (a.accesses b r).map fun x => { x with write := x.write.map (s.canonical r) } := by
  obtain ⟨φ, huse, hφ⟩ := h.uses b
  unfold Track.accesses accesses
  rw [huse]
  cases a.use? b r with
  | none => rfl
  | some u => exact (hφ u).1

theorem made_of_quiet {b : Nat} {u : Use} (hu : a.use? b r = some u)
    (hquiet : a.Quiet r b) : u.made = [] := by
  apply List.filterMap_eq_nil_iff.mpr
  simpa [Quiet, accesses, hu] using hquiet

theorem Tracked.isWritten_eq_false (h : Tracked g a s r t) (hfresh : a.Fresh g)
    (hr : r ∈ a.registers) {b : Nat} (hquiet : a.Quiet r b) :
    t.isWritten b = false := by
  obtain ⟨φ, huse, hφ⟩ := h.uses b
  unfold Track.isWritten
  rw [huse]
  cases hu : a.use? b r with
  | none => rfl
  | some u =>
    have hchanges := (hfresh.regular_use? hr hu).changes
    rw [made_of_quiet hu hquiet] at hchanges
    simp [Info.isWritten, (hφ u).2.1, hchanges]

theorem Tracked.readsFirst_eq_true (h : Tracked g a s r t) (hfresh : a.Fresh g)
    (hr : r ∈ a.registers) {b : Nat} {x : Access} (hread : a.ReadsAt r b x) :
    t.readsFirst b = true := by
  obtain ⟨hx, before, after, hacc, hquiet⟩ := hread
  obtain ⟨φ, huse, hφ⟩ := h.uses b
  cases hu : a.use? b r with
  | none => simp [accesses, hu] at hacc
  | some u =>
    simp only [accesses, hu, Option.map_some, Option.getD_some] at hacc
    have hfirst := (hfresh.regular_use? hr hu).readsFirst_of_read hacc hx hquiet
    simp [Track.readsFirst, huse, hu, (hφ u).2.2, hfirst]

theorem mem_registers_of_accesses {b : Nat} {x : Access} (hx : x ∈ a.accesses b r) :
    r ∈ a.registers := by
  by_contra hr
  rw [accesses, use?, track?_eq_none hr] at hx
  exact absurd hx List.not_mem_nil

theorem Tracked.isSome_of_mem (h : Tracked g a s r t) (hfresh : a.Fresh g) {b : Nat} {x : Access}
    (hx : x ∈ a.accesses b r) : b < g.size ∧ (t.uses.get b).isSome = true := by
  have hr := mem_registers_of_accesses hx
  obtain ⟨φ, huse, _⟩ := h.uses b
  cases hu : a.use? b r with
  | none => simp [accesses, hu] at hx
  | some u =>
    refine ⟨?_, ?_⟩
    · by_contra hb
      rw [hfresh.use?_of_size_le hr (Nat.le_of_not_lt hb)] at hu
      exact absurd hu (by simp)
    · simp [huse, hu]

end Analysis

/-! ### The version that a run holds -/

namespace Graph

variable {g : Graph} {last : Nat → Option Version} {run : Nat → Config} {n : Nat}

/-- The version that the register has at each place of a run. -/
def held (last : Nat → Option Version) (run : Nat → Config) : Nat → Version
  | 0 => Version.entry
  | m + 1 => (last (run m).block).getD (held last run m)

theorem IsRun.brings (h : g.IsRun run n) {m : Nat} (hm : m ≤ n) :
    g.Brings last (run m) (held last run m) := by
  induction m with
  | zero =>
    have hstart : run 0 = ⟨(run 0).block, []⟩ := by rw [← h.empty]
    rw [hstart]
    exact Brings.start h.root
  | succ m ih => exact Brings.step (ih (by omega)) (h.step m (by omega))

theorem held_of_quiet {i m : Nat} (him : i ≤ m)
    (hquiet : ∀ p, i ≤ p → p < m → last (run p).block = none) :
    held last run m = held last run i := by
  induction m with
  | zero => rw [Nat.le_zero.mp him]
  | succ m ih =>
    by_cases heq : i = m + 1
    · rw [heq]
    · rw [held, hquiet m (by omega) (by omega), Option.getD_none]
      exact ih (by omega) fun p hip hpm => hquiet p hip (by omega)

end Graph

namespace Analysis

theorem lastWrite?_of_quiet {a : Analysis} {r : Register} {b : Nat}
    (hquiet : a.Quiet r b) : a.lastWrite? r b = none := by
  unfold lastWrite?
  cases hu : a.use? b r with
  | none => rfl
  | some u =>
    rw [Option.bind_some, made_of_quiet hu hquiet]
    rfl

theorem lastWrite?_of_write {a : Analysis} {r : Register} {b : Nat} {x : Access} {w : Version}
    (hwrite : a.WritesAt r b x w) : a.lastWrite? r b = some w := by
  obtain ⟨hx, before, after, hacc, hquiet⟩ := hwrite
  unfold lastWrite?
  cases hu : a.use? b r with
  | none => simp [accesses, hu] at hacc
  | some u =>
    simp only [accesses, hu, Option.map_some, Option.getD_some] at hacc
    have hafter : after.filterMap Access.write = [] := List.filterMap_eq_nil_iff.mpr hquiet
    have hmade : u.made = before.filterMap Access.write ++ [w] := by
      rw [Use.made, hacc, List.filterMap_append, List.filterMap_cons, hx, hafter]
    rw [Option.bind_some, hmade, List.getLast?_concat]

end Analysis

/-! ### Coverage -/

/-- All offsets from `start` up to but not including `stop` are in the ranges. -/
def Ranges.Covers (rs : Ranges) (start stop : Offset) : Prop :=
  ∀ p, start ≤ p → p < stop → rs.contains p = true

theorem Track.get_touches (g : Graph) (t : Track) :
    (Table.tabulate g.size (t.touches g g.scopes)).get = t.touches g g.scopes := by
  funext c
  rw [Table.get_tabulate]
  split
  · rfl
  · rename_i hc
    exact (Track.touches_of_size_le (Nat.le_of_not_lt hc)).symm

namespace Analysis

section Cover

variable {g : Graph} {a s : Analysis} {r : Register} {t : Track} {run : Nat → Config} {n j : Nat}
  {y : Access}

theorem liveness_closed (g : Graph) (t : Track) :
    (LiveInstance.liveness g g.order g.scopes t).Closed g t
      (Table.tabulate g.size (t.touches g g.scopes)) := by
  apply LiveFlow.solve_closed
  intro b hb
  rw [List.mem_reverse, Graph.mem_order]
  exact hb

theorem Tracked.enters_of_reads (h : Tracked g a s r t) (hfresh : a.Fresh g)
    (hr : r ∈ a.registers) {b : Nat} (hread : a.ReadsAt r b y) :
    (LiveInstance.liveness g g.order g.scopes t).enters.get b = true := by
  exact (liveness_closed g t).reads b (h.isSome_of_mem hfresh hread.mem).1
    (h.readsFirst_eq_true hfresh hr hread)

theorem Tracked.leaves_of_reads (h : Tracked g a s r t) (hg : g.WellFormed) (hfresh : a.Fresh g)
    (hr : r ∈ a.registers) (hsingle : g.Single) (hrun : g.IsRun run n) (hj : j ≤ n)
    (hread : a.ReadsAt r (run j).block y) {m : Nat} (hm : m < j)
    (hquiet : ∀ i, m < i → i < j → a.Quiet r (run i).block)
    (hopen : ¬ g.Bypassed (t.touches g g.scopes) run m) :
    (LiveInstance.liveness g g.order g.scopes t).leaves.get (run m).block = true := by
  obtain ⟨hsize, huse⟩ := h.isSome_of_mem hfresh hread.mem
  have hfree := hrun.not_bypassed hg hj hsize huse
  rw [← Track.get_touches] at hopen hfree
  refine hrun.leaves_of_enters hg hsingle (liveness_closed g t) hj ?_ hfree hm ?_ hopen
  · exact h.enters_of_reads hfresh hr hread
  · exact fun i hmi hij => h.isWritten_eq_false hfresh hr (hquiet i hmi hij)

theorem Tracked.covers_block (h : Tracked g a s r t) (hg : g.WellFormed) (hfresh : a.Fresh g)
    (hr : r ∈ a.registers) (hsingle : g.Single) (hrun : g.IsRun run n) (hj : j ≤ n)
    (hread : a.ReadsAt r (run j).block y) {m : Nat} (hm : m < j)
    (hquiet : ∀ i, m ≤ i → i < j → a.Quiet r (run i).block)
    (hopen : ¬ g.Bypassed (t.touches g g.scopes) run m) {v : Version}
    (hv : v ∈ t.entering (run m).block) :
    ((LiveInstance.rangesOf g g.order g.scopes t).ranges v).Covers (g.block (run m).block).start
      (g.block (run m).block).stop := by
  intro p hlow hhigh
  have hsize := (hrun.step m (by omega)).lt_size
  have hhere := hquiet m (Nat.le_refl m) hm
  have hleaves := h.leaves_of_reads hg hfresh hr hsingle hrun hj hread hm
    (fun i hmi hij => hquiet i (by omega) hij) hopen
  have henters := (liveness_closed g t).passes _ hsize hleaves
    (h.isWritten_eq_false hfresh hr hhere)
  refine contains_rangesOf hsize ?_
  intro found hfound
  refine Walk.through_pass hfound henters hleaves hv ?_ hlow hhigh
  rw [h.accesses_eq]
  intro x hx
  obtain ⟨x₀, hx₀, rfl⟩ := List.mem_map.mp hx
  simp [hhere x₀ hx₀]

theorem Tracked.covers_read (h : Tracked g a s r t) (hfresh : a.Fresh g) (hr : r ∈ a.registers)
    {b : Nat} (hread : a.ReadsAt r b y) {v : Version} (hv : v ∈ t.entering b) :
    ((LiveInstance.rangesOf g g.order g.scopes t).ranges v).Covers (g.block b).start
      (y.offset + 1) := by
  intro p hlow hhigh
  have henters := h.enters_of_reads hfresh hr hread
  refine contains_rangesOf (h.isSome_of_mem hfresh hread.mem).1 ?_
  intro found hfound
  obtain ⟨hy, before, after, hacc, hquiet⟩ := hread
  have htrack := h.accesses_eq b
  rw [hacc, List.map_append, List.map_cons] at htrack
  refine Walk.through_read hfound henters hv htrack ?_ hy hlow hhigh
  intro x hx
  obtain ⟨x₀, hx₀, rfl⟩ := List.mem_map.mp hx
  simp [hquiet x₀ hx₀]

theorem Tracked.covers_write (h : Tracked g a s r t) (hg : g.WellFormed) (hfresh : a.Fresh g)
    (hr : r ∈ a.registers) (hsingle : g.Single) (hrun : g.IsRun run n) (hj : j ≤ n)
    (hread : a.ReadsAt r (run j).block y) {i : Nat} (hi : i < j) {x : Access} {w : Version}
    (hwrite : a.WritesAt r (run i).block x w)
    (hquiet : ∀ m, i < m → m < j → a.Quiet r (run m).block) :
    ((LiveInstance.rangesOf g g.order g.scopes t).ranges (s.canonical r w)).Covers (x.offset + 1)
      (g.block (run i).block).stop := by
  intro p hlow hhigh
  obtain ⟨hsize, huse⟩ := h.isSome_of_mem hfresh hwrite.mem
  have hopen := hrun.not_bypassed hg (by omega) hsize huse
  have hleaves := h.leaves_of_reads hg hfresh hr hsingle hrun hj hread hi hquiet hopen
  refine contains_rangesOf hsize ?_
  intro found hfound
  obtain ⟨hx, before, after, hacc, hafter⟩ := hwrite
  have htrack := h.accesses_eq (run i).block
  rw [hacc, List.map_append, List.map_cons] at htrack
  refine Walk.through_write hfound hleaves htrack ?_ ?_ hlow hhigh
  · simp [hx]
  · intro z hz
    obtain ⟨z₀, hz₀, rfl⟩ := List.mem_map.mp hz
    simp [hafter z₀ hz₀]

/-- The way of a version from a place of a run to a read is covered. -/
theorem Tracked.covers_way (h : Tracked g a s r t) (hg : g.WellFormed) (hfresh : a.Fresh g)
    (hsingle : g.Single) (hrun : g.IsRun run n) (hj : j ≤ n)
    (hread : a.ReadsAt r (run j).block y) {i : Nat} (hi : i ≤ j) {v : Version}
    (hv : held (a.lastWrite? r) run i = v)
    (hquiet : ∀ m, i ≤ m → m < j → a.Quiet r (run m).block) :
    (∀ m, i ≤ m → m < j → ¬ g.Bypassed (t.touches g g.scopes) run m →
      ((LiveInstance.rangesOf g g.order g.scopes t).ranges (s.canonical r v)).Covers
        (g.block (run m).block).start (g.block (run m).block).stop) ∧
    ((LiveInstance.rangesOf g g.order g.scopes t).ranges (s.canonical r v)).Covers
      (g.block (run j).block).start (y.offset + 1) := by
  have hr := mem_registers_of_accesses hread.mem
  -- no write in between, so the version is the same all along
  have henters : ∀ m, i ≤ m → m ≤ j → s.canonical r v ∈ t.entering (run m).block := by
    intro m him hmj
    have hsame : held (a.lastWrite? r) run m = held (a.lastWrite? r) run i :=
      held_of_quiet him fun p hip hpm => lastWrite?_of_quiet (hquiet p hip (by omega))
    rw [← hv, ← hsame]
    exact h.entering _ _ (hrun.brings (by omega))
  refine ⟨?_, h.covers_read hfresh hr hread (henters j hi (Nat.le_refl j))⟩
  intro m him hmj hopen
  exact h.covers_block hg hfresh hr hsingle hrun hj hread hmj
    (fun p hmp hpj => hquiet p (by omega) hpj) hopen (henters m him (Nat.le_of_lt hmj))

end Cover

end Analysis

/-! ### Sections -/

theorem Live.instances_ofInstances {a : Analysis} {is : List LiveInstance}
    {groups : List SlotGroup} {l : Live} (h : Live.ofInstances a is groups = .ok l) :
    l.instances = is := by
  unfold Live.ofInstances at h
  obtain ⟨links, _, h⟩ := bind_eq_ok.mp h
  obtain ⟨placed, _, h⟩ := bind_eq_ok.mp h
  cases h
  rfl

theorem Run.ofSection_complete {settings : Settings} {sec : Section} {a : Analysis} {tasks : Nat}
    {result : Result} (h : Run.ofSection settings sec = .complete a tasks result) :
    ∃ g, Graph.build settings sec.code sec.size sec.hints = .ok g ∧
      Analysis.ofUsages g (Usage.expand sec.usages).1 = .ok a ∧
      a.settle.outcome = .ok result.analysis ∧
      result.live.instances = LiveInstance.ofAnalysis result.analysis := by
  unfold Run.ofSection at h
  split at h
  · exact absurd h (by simp)
  · rename_i g hgraph
    simp only [Run.ofGraph] at h
    split at h
    · exact absurd h (by simp)
    · rename_i start hstart
      split at h
      · exact absurd h (by simp)
      · rename_i settled hsettled
        simp only [Run.finish] at h
        split at h
        · exact absurd h (by simp)
        · rename_i live hlive
          cases h
          exact ⟨g, hgraph, hstart, hsettled, Live.instances_ofInstances hlive⟩

namespace Analysis

variable {g : Graph} {a s : Analysis} {r : Register} {t : Track}

theorem Fresh.graph_outcome (h : a.Fresh g) (hs : a.settle.outcome = .ok s) : s.graph = g := by
  rw [(outcome_settle hs).1]
  exact h.graph

theorem Fresh.order_outcome (h : a.Fresh g) (hs : a.settle.outcome = .ok s) :
    s.order.blocks = g.order := by
  rw [(outcome_settle hs).1]
  exact congrArg FlowOrder.blocks h.order

theorem Tracked.touches_eq (h : Tracked g a s r t) (hgraph : s.graph = g) :
    s.touches r = t.touches g g.scopes := by
  funext c
  rw [touches, h.track, ← hgraph]
  rfl

theorem Tracked.ranges_eq (h : Tracked g a s r t) (hfresh : a.Fresh g)
    (hs : a.settle.outcome = .ok s) {l : Live} (hl : l.instances = LiveInstance.ofAnalysis s)
    (v : Version) :
    l.ranges ⟨r, v⟩ = (LiveInstance.rangesOf g g.order g.scopes t).ranges v := by
  have hsame : ∀ t' ∈ s.tracks, t'.register = r → t' = t := by
    intro t' ht' hreg
    have hquery := hfresh.track?_of_mem_outcome hs ht'
    rw [hreg, h.track] at hquery
    exact (Option.some.inj hquery).symm
  rw [Live.ranges, hl, LiveInstance.ranges_ofAnalysis hsame h.track, hfresh.order_outcome hs,
    hfresh.graph_outcome hs]

end Analysis

namespace Result

/-- The ranges of a version of a register, up to merging, cover the offsets from `start` up to but
not including `stop`. -/
def Covers (result : Result) (r : Register) (v : Version) (start stop : Offset) : Prop :=
  (result.live.ranges ⟨r, result.analysis.canonical r v⟩).Covers start stop

end Result

/-- Along a run of a section, the ranges of a version cover the way from its write, or from the
start of the run, to a read, except for the blocks inside calls of routines that do not touch the
register. -/
theorem Section.ranges_cover_run {settings : Settings} {sec : Section} {a : Analysis}
    {tasks : Nat} {result : Result} (hsec : Run.ofSection settings sec = .complete a tasks result)
    (hsingle : result.graph.Single) {r : Register} (hwrites : a.writes r < UInt32.size - 2)
    {run : Nat → Config} {n j : Nat} (hrun : result.graph.IsRun run n) (hj : j ≤ n) {y : Access}
    (hread : a.ReadsAt r (run j).block y) :
    (∀ i < j, ∀ x w, a.WritesAt r (run i).block x w →
      (∀ m, i < m → m < j → a.Quiet r (run m).block) →
      result.Covers r w (x.offset + 1) (result.graph.block (run i).block).stop ∧
      (∀ m, i < m → m < j → ¬ result.graph.Bypassed (result.analysis.touches r) run m →
        result.Covers r w (result.graph.block (run m).block).start
          (result.graph.block (run m).block).stop) ∧
      result.Covers r w (result.graph.block (run j).block).start (y.offset + 1)) ∧
    ((∀ m < j, a.Quiet r (run m).block) →
      (∀ m < j, ¬ result.graph.Bypassed (result.analysis.touches r) run m →
        result.Covers r Version.entry (result.graph.block (run m).block).start
          (result.graph.block (run m).block).stop) ∧
      result.Covers r Version.entry (result.graph.block (run j).block).start (y.offset + 1)) := by
  obtain ⟨g, hgraph, ha, hs, hinstances⟩ := Run.ofSection_complete hsec
  have hg := Graph.wellFormed_of_build hgraph
  have hfresh := Analysis.fresh_of_ofUsages ha
  have hr := Analysis.mem_registers_of_accesses hread.mem
  obtain ⟨t, ht⟩ := hfresh.tracked hg hs hr hwrites
  have hresult : result.graph = g := hfresh.graph_outcome hs
  simp only [Result.Covers, ht.ranges_eq hfresh hs hinstances, ht.touches_eq hresult, hresult]
    at hrun hsingle ⊢
  refine ⟨?_, ?_⟩
  · intro i hij x w hwrite hquiet
    have hheld : held (a.lastWrite? r) run (i + 1) = w := by
      rw [held, Analysis.lastWrite?_of_write hwrite, Option.getD_some]
    obtain ⟨hblocks, hlast⟩ := ht.covers_way hg hfresh hsingle hrun hj hread hij hheld
      fun m him hmj => hquiet m him hmj
    exact ⟨ht.covers_write hg hfresh hr hsingle hrun hj hread hij hwrite hquiet,
      fun m him hmj => hblocks m him hmj, hlast⟩
  · intro hquiet
    obtain ⟨hblocks, hlast⟩ := ht.covers_way hg hfresh hsingle hrun hj hread (Nat.zero_le j)
      (v := Version.entry) rfl fun m _ hmj => hquiet m hmj
    exact ⟨fun m hmj => hblocks m (Nat.zero_le m) hmj, hlast⟩

/-! ### A value that goes past a routine -/

namespace Detour

def x : Register := Register.slot ⟨0, "x", Bank.vector⟩ 0

/-- A variable is written before a call of a routine that leaves it alone, and read by a routine
that is called after that. -/
def source : Section where
  code := #[]
  length := 28
  hints := [⟨4, .call, [16], 0⟩, ⟨8, .call, [20], 0⟩, ⟨12, .halt, [], 0⟩, ⟨16, .ret, [], 0⟩,
    ⟨24, .ret, [], 0⟩]
  usages := [⟨0, x, 1, 0, false, true⟩, ⟨20, x, 1, 0, true, false⟩]
  groups := []

def graph : Graph where
  length := 28
  blocks := #[⟨0, 0, 8, [⟨1, false⟩, ⟨3, true⟩], true, true, false, false⟩,
    ⟨1, 8, 12, [⟨2, false⟩, ⟨4, true⟩], false, true, false, false⟩,
    ⟨2, 12, 16, [], false, false, false, true⟩,
    ⟨3, 16, 20, [], false, false, true, false⟩,
    ⟨4, 20, 28, [], false, false, true, false⟩]
  preds := ⟨#[[], [⟨0, false⟩], [⟨1, false⟩], [⟨0, true⟩], [⟨1, true⟩]]⟩
  routines := [⟨3, [3], [3], [], [0], [1]⟩, ⟨4, [4], [4], [], [1], [2]⟩]
  boundaries := []

def stages : Run := Run.ofSection (Settings.standard 1) source

def start : Analysis := stages.start?.getD default

def result : Result := stages.outcome.toOption.getD default

/-- Through the first routine into the second. -/
def run (m : Nat) : Config :=
  [⟨0, []⟩, ⟨3, [1]⟩, ⟨1, []⟩].getD m ⟨4, [2]⟩

theorem evaluates :
    Run.ofSection (Settings.standard 1) source = .complete start stages.tasks result ∧
      result.graph = graph ∧ start.writes x = 1 ∧
      start.accesses 0 x = [⟨0, false, some ⟨1#32⟩⟩] ∧ start.accesses 1 x = [] ∧
      start.accesses 3 x = [] ∧ start.accesses 4 x = [⟨20, true, none⟩] ∧
      (result.live.ranges ⟨x, result.analysis.canonical x 1⟩).contains 16 = false := by
  cbv

theorem writes_reads : start.WritesAt x (run 0).block ⟨0, false, some 1⟩ 1 ∧
    (∀ m, 0 < m → m < 3 → start.Quiet x (run m).block) ∧
    start.ReadsAt x (run 3).block ⟨20, true, none⟩ := by
  obtain ⟨_, _, _, hfirst, hmiddle, hdetour, hlast, _⟩ := evaluates
  refine ⟨⟨rfl, [], [], hfirst, by simp⟩, ?_, ⟨rfl, [], [], hlast, by simp⟩⟩
  intro m hlow hhigh y hy
  obtain rfl | rfl : m = 1 ∨ m = 2 := by omega
  · exact absurd (hdetour ▸ hy) List.not_mem_nil
  · exact absurd (hmiddle ▸ hy) List.not_mem_nil

/-- The way from the write to the read is covered, but for the first routine. -/
theorem covers_around :
    result.Covers x 1 1 8 ∧ result.Covers x 1 8 12 ∧ result.Covers x 1 20 21 := by
  obtain ⟨hcomplete, hgraph, hwrites, _⟩ := evaluates
  obtain ⟨hwrite, hquiet, hread⟩ := writes_reads
  have hsingle : result.graph.Single := by
    rw [hgraph]
    decide
  have hrun : result.graph.IsRun run 3 := by
    rw [hgraph]
    decide
  have hopen : ¬ result.graph.Bypassed (result.analysis.touches x) run 2 := by
    intro ⟨i, hcall, _, hlt, hstays⟩
    obtain rfl | rfl : i = 0 ∨ i = 1 := by omega
    · exact absurd (hstays 2 (by decide) (by decide)) (by decide)
    · rw [hgraph] at hcall
      exact absurd hcall.1 (by decide)
  obtain ⟨hfirst, hmiddle, hlast⟩ := (Section.ranges_cover_run hcomplete hsingle
    (by rw [hwrites]; decide) hrun (Nat.le_refl 3) hread).1 0 (by decide) _ 1 hwrite hquiet
  have hmiddle := hmiddle 2 (by decide) (by decide) hopen
  rw [hgraph] at hfirst hmiddle hlast
  exact ⟨hfirst, hmiddle, hlast⟩

/-- The value is held in the first routine, on the way from the write to the read, but is not live
there. -/
theorem not_covers_untouched :
    Run.ofSection (Settings.standard 1) source = .complete start stages.tasks result ∧
      result.graph.Single ∧ start.writes x < UInt32.size - 2 ∧ result.graph.IsRun run 3 ∧
      start.WritesAt x (run 0).block ⟨0, false, some 1⟩ 1 ∧
      (∀ m, 0 < m → m < 3 → start.Quiet x (run m).block) ∧
      start.ReadsAt x (run 3).block ⟨20, true, none⟩ ∧
      ¬ result.Covers x 1 (result.graph.block (run 1).block).start
        (result.graph.block (run 1).block).stop := by
  obtain ⟨hcomplete, hgraph, hwrites, _, _, _, _, hdead⟩ := evaluates
  obtain ⟨hwrite, hquiet, hread⟩ := writes_reads
  rw [hgraph, hwrites]
  refine ⟨hcomplete, by decide, by decide, by decide, hwrite, hquiet, hread, ?_⟩
  intro hcovers
  have hlive := hcovers 16 (by decide) (by decide)
  rw [hdead] at hlive
  exact absurd hlive (by decide)

end Detour

end RegisterWeb
