import RegisterWeb.Proofs.Settle

/-!
Runs of a graph with a stack of return places. A run that follows one register knows which version
the register holds: the last one written. Main statement: whatever version a run brings to a block
is, up to merging, among the versions that enter the block, and if the block reads it, it is the one
version that is known there. The inside of a routine is not repeated for each of its callers, so the
invariant of a run says for each frame of the stack what its routine may still leave behind.
-/

namespace RegisterWeb

/-- Where control is, and the blocks at which it resumes. -/
structure Config where
  block : Nat
  stack : List Nat
  deriving DecidableEq, Repr

/-- One step of control. A call pushes one of the blocks that follow, unless none does. -/
inductive Graph.Step (g : Graph) : Config → Config → Prop
  | go {b c : Nat} {stack : List Nat} (calls : (g.block b).calls = false)
      (next : c ∈ (g.block b).successors) : Step g ⟨b, stack⟩ ⟨c, stack⟩
  | call {b c k : Nat} {stack : List Nat} (calls : (g.block b).calls = true)
      (callee : c ∈ (g.block b).callees) (next : k ∈ (g.block b).successors) :
      Step g ⟨b, stack⟩ ⟨c, k :: stack⟩
  | tailCall {b c : Nat} {stack : List Nat} (calls : (g.block b).isTailCall = true)
      (callee : c ∈ (g.block b).callees) : Step g ⟨b, stack⟩ ⟨c, stack⟩
  | ret {b k : Nat} {stack : List Nat} (returns : (g.block b).returns = true)
      (stays : (g.block b).isTailCall = false) : Step g ⟨b, k :: stack⟩ ⟨k, stack⟩

namespace Graph

variable {g : Graph}

theorem Step.iff {c c' : Config} : g.Step c c' ↔
    ((g.block c.block).calls = false ∧ c'.block ∈ (g.block c.block).successors ∧
        c'.stack = c.stack) ∨
      ((g.block c.block).calls = true ∧ c'.block ∈ (g.block c.block).callees ∧
        ∃ k ∈ (g.block c.block).successors, c'.stack = k :: c.stack) ∨
      ((g.block c.block).isTailCall = true ∧ c'.block ∈ (g.block c.block).callees ∧
        c'.stack = c.stack) ∨
      ((g.block c.block).returns = true ∧ (g.block c.block).isTailCall = false ∧
        c.stack = c'.block :: c'.stack) := by
  obtain ⟨b, stack⟩ := c
  obtain ⟨b', stack'⟩ := c'
  constructor
  · intro h
    cases h with
    | go calls next => exact Or.inl ⟨calls, next, rfl⟩
    | call calls callee next => exact Or.inr (Or.inl ⟨calls, callee, _, next, rfl⟩)
    | tailCall calls callee => exact Or.inr (Or.inr (Or.inl ⟨calls, callee, rfl⟩))
    | ret returns stays => exact Or.inr (Or.inr (Or.inr ⟨returns, stays, rfl⟩))
  · rintro (⟨calls, next, rfl⟩ | ⟨calls, callee, k, next, rfl⟩ | ⟨calls, callee, rfl⟩ |
      ⟨returns, stays, rfl⟩)
    · exact Step.go calls next
    · exact Step.call calls callee next
    · exact Step.tailCall calls callee
    · exact Step.ret returns stays

instance (g : Graph) (c c' : Config) : Decidable (g.Step c c') :=
  decidable_of_iff _ Step.iff.symm

theorem lt_size_of_root {b : Nat} (h : (g.block b).root = true) : b < g.size := by
  by_contra hb
  rw [block_of_size_le (Nat.le_of_not_lt hb)] at h
  exact absurd h (by decide)

end Graph

/-- A run from a root with an empty stack that comes to a place with a version of a register, where
`last` is the last version that a block writes, if it writes any. -/
inductive Graph.Brings (g : Graph) (last : Nat → Option Version) : Config → Version → Prop
  | start {b : Nat} (root : (g.block b).root = true) : Brings g last ⟨b, []⟩ Version.entry
  | step {c c' : Config} {v : Version} (run : Brings g last c v) (step : g.Step c c') :
      Brings g last c' ((last c.block).getD v)

namespace Version

/-- What a version left behind by a routine is for a caller that had the version `given`. -/
def resolve (given v : Version) : Version :=
  if v = inherited then given else v

theorem resolve_inherited (given : Version) : resolve given inherited = given :=
  if_pos rfl

theorem resolve_of_ne {v : Version} (h : v ≠ inherited) (given : Version) :
    resolve given v = v :=
  if_neg h

end Version

theorem VersionSet.resolve_mem {effect given : VersionSet} {x v : Version} (hx : x ∈ effect)
    (hv : v ∈ given) : Version.resolve v x ∈ VersionSet.resolve effect given := by
  rw [VersionSet.mem_resolve]
  by_cases h : x = Version.inherited
  · rw [h, Version.resolve_inherited]
    exact Or.inr ⟨h ▸ hx, hv⟩
  · rw [Version.resolve_of_ne h]
    exact Or.inl ⟨hx, h⟩

theorem Version.resolve_resolve (given v x : Version) :
    Version.resolve given (Version.resolve v x)
      = Version.resolve (Version.resolve given v) x := by
  by_cases h : x = Version.inherited
  · rw [h, resolve_inherited, resolve_inherited]
  · rw [resolve_of_ne h, resolve_of_ne h, resolve_of_ne h]

namespace Flow

/-- The version at the end of a block that was entered with a version. -/
def after (f : Flow) (b : Nat) (v : Version) : Version :=
  (f.made.get b).getD v

variable {g : Graph} {f : Flow}

theorem after_mem_leaving {b : Nat} {v : Version} (h : v ∈ f.entering.get b) :
    f.after b v ∈ f.leaving b :=
  getD_mem_leaving h

theorem resolve_mem_passing {b c : Nat} {v x : Version} (hcalls : (g.block b).calls = true)
    (hc : c ∈ (g.block b).callees) (hx : x ∈ f.effects.get c) (hv : v ∈ f.leaving b) :
    Version.resolve v x ∈ f.passing g b := by
  rw [mem_passing_of_calls hcalls]
  exact ⟨c, hc, VersionSet.resolve_mem hx hv⟩

/-! ### Closed flows -/

theorem mem_entering_of_successor (hg : g.WellFormed) (hcov : f.Covered g fun _ => False)
    {b c : Nat} (hc : c ∈ (g.block b).successors) : f.passing g b ⊆ f.entering.get c := by
  intro v hv
  apply hcov c (hg.successor_lt hc) id
  rw [mem_incoming]
  refine Or.inr ⟨⟨b, false⟩, (hg.mem_preds c ⟨b, false⟩).mpr ((Block.mem_successors _ c).mp hc), ?_⟩
  exact hv

theorem mem_entering_of_callee (hg : g.WellFormed) (hcov : f.Covered g fun _ => False)
    {b c : Nat} (hc : c ∈ (g.block b).callees) : f.leaving b ⊆ f.entering.get c := by
  intro v hv
  apply hcov c (hg.callee_lt hc) id
  rw [mem_incoming]
  refine Or.inr ⟨⟨b, true⟩, (hg.mem_preds c ⟨b, true⟩).mpr ((Block.mem_callees _ c).mp hc), ?_⟩
  exact hv

/-! ### Frames -/

/-- What the stack promises about the version at a block: the innermost frame belongs to a routine
that was entered with some version `given`; the version at hand is one that the routine has there;
and whatever the routine may leave behind enters the block on top of the stack, with the promise of
the rest of the stack. -/
def Frames (g : Graph) (f : Flow) : Nat → Version → List Nat → Prop
  | _, _, [] => True
  | b, v, k :: stack => ∃ q inner given, Summarized g f q inner ∧ q ∈ g.routines ∧ b ∈ q.blocks ∧
      (∃ w ∈ inner.entering.get b, Version.resolve given w = v) ∧
      ∀ x ∈ f.effects.get q.entry,
        Version.resolve given x ∈ f.entering.get k ∧ Frames g f k (Version.resolve given x) stack

section Frames

variable {b c k : Nat} {v : Version} {stack : List Nat}

/-- No block makes the word for the caller's version. -/
def Proper (f : Flow) : Prop :=
  ∀ b v, f.made.get b = some v → v ≠ Version.inherited

theorem Summarized.after_mem {q : Routine} {inner : Flow} (h : Summarized g f q inner)
    (hproper : f.Proper) (given : Version) {w : Version} (hw : w ∈ inner.entering.get b) :
    inner.after b w ∈ inner.leaving b ∧
      Version.resolve given (inner.after b w) = f.after b (Version.resolve given w) := by
  refine ⟨after_mem_leaving hw, ?_⟩
  unfold after
  rw [h.made]
  cases hmade : f.made.get b with
  | none => rfl
  | some m => exact Version.resolve_of_ne (hproper b m hmade) given

theorem Frames.go (hg : g.WellFormed) (hproper : f.Proper) (h : Frames g f b v stack)
    (hcalls : (g.block b).calls = false) (hc : c ∈ (g.block b).successors) :
    Frames g f c (f.after b v) stack := by
  cases stack with
  | nil => trivial
  | cons k stack =>
    obtain ⟨q, inner, given, hsum, hq, hb, ⟨w, hw, rfl⟩, hrest⟩ := h
    obtain ⟨hleave, hsame⟩ := hsum.after_mem hproper given hw
    refine ⟨q, inner, given, hsum, hq, hg.successor_mem_blocks hq hb hc, ?_, hrest⟩
    refine ⟨inner.after b w, hsum.closed b hb c hc ?_, hsame⟩
    rwa [passing_of_not_calls hcalls]

/-- After a call the promise of the stack holds where control resumes, for all that the routine
called may leave behind. -/
theorem Frames.resume (hg : g.WellFormed) (hproper : f.Proper) (h : Frames g f b v stack)
    (hcalls : (g.block b).calls = true) (hc : c ∈ (g.block b).callees)
    (hk : k ∈ (g.block b).successors) {x : Version} (hx : x ∈ f.effects.get c) :
    Frames g f k (Version.resolve (f.after b v) x) stack := by
  cases stack with
  | nil => trivial
  | cons k' stack =>
    obtain ⟨q, inner, given, hsum, hq, hb, ⟨w, hw, rfl⟩, hrest⟩ := h
    obtain ⟨hleave, hsame⟩ := hsum.after_mem hproper given hw
    refine ⟨q, inner, given, hsum, hq, hg.successor_mem_blocks hq hb hk, ?_, hrest⟩
    refine ⟨Version.resolve (inner.after b w) x, hsum.closed b hb k hk ?_, ?_⟩
    · exact resolve_mem_passing hcalls hc (hsum.effects ▸ hx) hleave
    · rw [Version.resolve_resolve, hsame]

theorem Frames.enter (hg : g.WellFormed)
    (hsummarized : ∀ q ∈ g.routines, ∃ inner, Summarized g f q inner)
    (hc : c ∈ (g.block b).callees)
    (hrest : ∀ x ∈ f.effects.get c,
      Version.resolve v x ∈ f.entering.get k ∧ Frames g f k (Version.resolve v x) stack) :
    Frames g f c v (k :: stack) := by
  obtain ⟨q, hq, rfl⟩ := hg.exists_routine hc
  obtain ⟨inner, hsum⟩ := hsummarized q hq
  refine ⟨q, inner, v, hsum, hq, hg.entry_mem_blocks hq, ?_, hrest⟩
  exact ⟨Version.inherited, hsum.entry, Version.resolve_inherited v⟩

theorem Frames.call (hg : g.WellFormed) (hcov : f.Covered g fun _ => False) (hproper : f.Proper)
    (hsummarized : ∀ q ∈ g.routines, ∃ inner, Summarized g f q inner)
    (hv : v ∈ f.entering.get b) (h : Frames g f b v stack) (hcalls : (g.block b).calls = true)
    (hc : c ∈ (g.block b).callees) (hk : k ∈ (g.block b).successors) :
    Frames g f c (f.after b v) (k :: stack) := by
  apply Frames.enter hg hsummarized hc
  intro x hx
  refine ⟨?_, h.resume hg hproper hcalls hc hk hx⟩
  exact mem_entering_of_successor hg hcov hk
    (resolve_mem_passing hcalls hc hx (after_mem_leaving hv))

theorem Frames.tailCall (hg : g.WellFormed) (hproper : f.Proper)
    (hsummarized : ∀ q ∈ g.routines, ∃ inner, Summarized g f q inner)
    (h : Frames g f b v stack) (htail : (g.block b).isTailCall = true)
    (hc : c ∈ (g.block b).callees) : Frames g f c (f.after b v) stack := by
  cases stack with
  | nil => trivial
  | cons k stack =>
    obtain ⟨q, inner, given, hsum, hq, hb, ⟨w, hw, rfl⟩, hrest⟩ := h
    obtain ⟨hleave, hsame⟩ := hsum.after_mem hproper given hw
    have hcalls := ((Block.isTailCall_iff _).mp htail).1
    apply Frames.enter hg hsummarized hc
    intro x hx
    -- what the routine called leaves behind is left behind by the one that calls it
    have hexit : Version.resolve (inner.after b w) x ∈ f.effects.get q.entry :=
      hsum.tailCalls b ((hg.mem_tailCalls hq b).mpr ⟨hb, htail⟩)
        (resolve_mem_passing hcalls hc (hsum.effects ▸ hx) hleave)
    have hpromise := hrest _ hexit
    rwa [Version.resolve_resolve, hsame] at hpromise

theorem Frames.ret (hg : g.WellFormed) (hproper : f.Proper) (h : Frames g f b v (k :: stack))
    (hreturns : (g.block b).returns = true) (hstays : (g.block b).isTailCall = false) :
    f.after b v ∈ f.entering.get k ∧ Frames g f k (f.after b v) stack := by
  obtain ⟨q, inner, given, hsum, hq, hb, ⟨w, hw, rfl⟩, hrest⟩ := h
  obtain ⟨hleave, hsame⟩ := hsum.after_mem hproper given hw
  have hexit := hsum.returns b ((hg.mem_returns hq b).mpr ⟨hb, hstays, hreturns⟩) hleave
  have hpromise := hrest _ hexit
  rwa [hsame] at hpromise

end Frames

/-! ### Runs -/

/-- A run brings to each block a version that enters it, and keeps the promises of its stack. -/
theorem frames_of_brings (hg : g.WellFormed) (hcov : f.Covered g fun _ => False)
    (hproper : f.Proper) (hsummarized : ∀ q ∈ g.routines, ∃ inner, Summarized g f q inner)
    {c : Config} {v : Version} (hrun : g.Brings f.made.get c v) :
    v ∈ f.entering.get c.block ∧ Frames g f c.block v c.stack := by
  induction hrun with
  | @start b hroot =>
    refine ⟨?_, trivial⟩
    exact hcov b (Graph.lt_size_of_root hroot) id (mem_incoming.mpr (Or.inl ⟨hroot, rfl⟩))
  | @step c c' v _ hstep ih =>
    obtain ⟨hv, hframes⟩ := ih
    have hleave := after_mem_leaving hv
    cases hstep with
    | go hcalls hc =>
      refine ⟨?_, hframes.go hg hproper hcalls hc⟩
      apply mem_entering_of_successor hg hcov hc
      rwa [passing_of_not_calls hcalls]
    | call hcalls hc hk =>
      exact ⟨mem_entering_of_callee hg hcov hc hleave,
        hframes.call hg hcov hproper hsummarized hv hcalls hc hk⟩
    | tailCall htail hc =>
      exact ⟨mem_entering_of_callee hg hcov hc hleave,
        hframes.tailCall hg hproper hsummarized htail hc⟩
    | ret hreturns hstays => exact hframes.ret hg hproper hreturns hstays

end Flow

namespace Analysis

variable {g : Graph} {a s : Analysis} {r : Register} {t : Track} {f : Flow}

/-- A flow that makes what the uses say makes the last version that each block writes. -/
theorem Fresh.lastWrite?_of_made (hfresh : a.Fresh g) (hr : r ∈ a.registers)
    (hslot : r.isSlot = true) (hwrites : a.writes r < UInt32.size - 2)
    (h : ∀ b, f.made.get b =
      (a.use? b r).bind fun u => u.info.last.filter fun v => v != Version.unknown) :
    f.made.get = a.lastWrite? r ∧ f.Proper := by
  have hmade : ∀ b, f.made.get b = a.lastWrite? r b :=
    fun b => (h b).trans (hfresh.last_eq hr hslot hwrites b)
  refine ⟨funext hmade, ?_⟩
  intro b v hv
  rw [hmade, lastWrite?] at hv
  obtain ⟨u, hu, hlast⟩ := Option.bind_eq_some_iff.mp hv
  exact (hfresh.made_lt hr hslot hwrites hu (List.mem_of_getLast? hlast)).2.1

theorem Solved.lastWrite?_eq (h : a.Solved g r f) (hfresh : a.Fresh g) (hr : r ∈ a.registers)
    (hslot : r.isSlot = true) (hwrites : a.writes r < UInt32.size - 2) :
    f.made.get = a.lastWrite? r ∧ f.Proper :=
  hfresh.lastWrite?_of_made hr hslot hwrites h.made

theorem Solved.mem_entering (h : a.Solved g r f) (hg : g.WellFormed) (hfresh : a.Fresh g)
    (hr : r ∈ a.registers) (hslot : r.isSlot = true) (hwrites : a.writes r < UInt32.size - 2)
    {c : Config} {v : Version} (hrun : g.Brings (a.lastWrite? r) c v) :
    v ∈ f.entering.get c.block := by
  obtain ⟨hlast, hproper⟩ := h.lastWrite?_eq hfresh hr hslot hwrites
  rw [← hlast] at hrun
  exact (Flow.frames_of_brings hg h.covered hproper h.summarized hrun).1

theorem Settled.canonical_mem_entering (h : a.Settled g r t f) (ht : s.track? r = some t) {b : Nat}
    {v : Version} (hv : v ∈ f.entering.get b) : s.canonical r v ∈ t.entering b := by
  rw [h.canonical_eq ht]
  simp only [Track.entering, h.flow]
  exact (Webs.mem_canonical _ _ _).mpr ⟨v, hv, rfl⟩

/-- Where the version on entry is read, all versions that enter have one representative. -/
theorem Settled.canonical_entering (h : a.Settled g r t f) {b : Nat} {v : Version}
    (hv : v ∈ f.entering.get b) (hreads : f.reads.get b = true) :
    f.webs.canonical (f.entering.get b) = [f.webs.root v] := by
  apply Webs.canonical_eq_singleton hv
  intro u hu
  exact (h.sound.webs.same_iff u v).mpr (Relation.EqvGen.rel u v ⟨b, hreads, hu, hv⟩)

theorem Settled.before_eq (h : a.Settled g r t f) (ht : s.track? r = some t) {b : Nat} {v : Version}
    (hv : v ∈ f.entering.get b) (hreads : f.reads.get b = true) :
    ((s.use? b r).bind fun u => u.info.before) = some (f.webs.root v) := by
  have hany := h.reads b
  rw [hreads] at hany
  cases hu : a.use? b r with
  | none => simp [hu] at hany
  | some u =>
    have hfirst : u.info.readsFirst = true := by
      rw [hu] at hany
      exact hany.symm
    rw [use?, ht, Option.bind_some, h.uses, hu, Option.map_some, Option.bind_some,
      h.canonical_entering hv hreads]
    simp [Track.renameUse, Use.mapWrites, hfirst]

theorem eq_entry_of_brings (hr : r ∉ a.registers) {c : Config} {v : Version}
    (hrun : g.Brings (a.lastWrite? r) c v) : v = Version.entry := by
  induction hrun with
  | start => rfl
  | step _ _ ih =>
    rw [lastWrite?, use?, track?_eq_none hr]
    exact ih

/-- The version that a run brings to a block is, up to merging, one of those that enter the block;
and if the block reads it, it is the version that is known on entry. -/
theorem canonical_mem_entering_of_brings {settings : Settings} {code : Code} {n : Offset}
    {hints : List Hint} {usages : List Usage}
    (hgraph : Graph.build settings code n hints = .ok g) (ha : ofUsages g usages = .ok a)
    (hs : a.settle.outcome = .ok s) (hslot : r.isSlot = true) (hwrites : a.writes r < UInt32.size - 2)
    {c : Config} {v : Version} (hrun : g.Brings (a.lastWrite? r) c v) :
    s.canonical r v ∈ s.entering c.block r ∧
      (s.readsFirst c.block r = true →
        ((s.use? c.block r).bind fun u => u.info.before) = some (s.canonical r v)) := by
  have hg := Graph.wellFormed_of_build hgraph
  have hfresh := fresh_of_ofUsages ha
  by_cases hr : r ∈ a.registers
  · obtain ⟨t, f, ht, hsettled⟩ := hfresh.settled hg hs hr hslot
    have hv := hsettled.mem_entering hg hfresh hr hslot hwrites hrun
    refine ⟨?_, ?_⟩
    · rw [entering, ht]
      exact hsettled.canonical_mem_entering ht hv
    · rw [hsettled.canonical_eq ht, hsettled.readsFirst_eq ht]
      exact hsettled.before_eq ht hv
  · have hnone := track?_outcome_eq_none hs hr
    rw [eq_entry_of_brings hr hrun]
    simp [canonical, entering, readsFirst, use?, hnone]

end Analysis

namespace Branch

theorem lastWrites : start.writes x = 3 ∧ start.lastWrite? x 0 = some ⟨1#32⟩ ∧
    start.lastWrite? x 2 = none ∧ start.lastWrite? x 3 = some ⟨3#32⟩ ∧
    start.lastWrite? x 4 = none ∧ settled.readsFirst 1 x = true := by
  cbv

/-- A run through the routine that writes brings its version to the read after the call. -/
theorem entering_after_call : settled.canonical x 3 ∈ settled.entering 1 x ∧
    ((settled.use? 1 x).bind fun u => u.info.before) = some (settled.canonical x 3) := by
  obtain ⟨hgraph, ha, hs, _⟩ := evaluates
  obtain ⟨hwrites, hcall, hin, hwrite, hout, hreads⟩ := lastWrites
  have hrun : graph.Brings (start.lastWrite? x) ⟨1, []⟩ 3 := by
    have hstart : graph.Brings (start.lastWrite? x) ⟨0, []⟩ Version.entry :=
      Graph.Brings.start (by decide)
    have henter := hstart.step (show graph.Step _ ⟨2, [1]⟩ by decide)
    have hpass := henter.step (show graph.Step _ ⟨3, [1]⟩ by decide)
    have hleave := hpass.step (show graph.Step _ ⟨4, [1]⟩ by decide)
    have hback := hleave.step (show graph.Step _ ⟨1, []⟩ by decide)
    simp only [hcall, hin, hwrite, hout, Option.getD_some, Option.getD_none] at hback
    exact hback
  have hmain := Analysis.canonical_mem_entering_of_brings hgraph ha hs rfl
    (by rw [hwrites]; decide) hrun
  exact ⟨hmain.1, hmain.2 hreads⟩

end Branch

end RegisterWeb
