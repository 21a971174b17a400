import Mathlib
import RegisterWeb.Proofs.Least
import RegisterWeb.Proofs.RoutineTable

/-!
What a call does to a register, told by runs. A run enters a routine with a marker on the stack and
comes to its end when the marker is popped. The caller's value survives in some run exactly if the
effect of the routine has the inherited version, and whatever a run writes last is part of the
effect. The first half needs a run wherever the effect has the inherited version: a way through a
routine that writes nothing is built along its ordinary edges, with such ways through the routines
called on it, and the effects are the least family, so they have the inherited version only where
there is a way.
-/

namespace RegisterWeb

/-- A run until the stack is empty, with the blocks that it executes. -/
inductive Unwinds (move : Config → Config → Prop) : Config → List Nat → Prop
  | done {b : Nat} : Unwinds move ⟨b, []⟩ []
  | next {c c' : Config} {blocks : List Nat} (framed : c.stack ≠ []) (step : move c c')
      (rest : Unwinds move c' blocks) : Unwinds move c (c.block :: blocks)

/-- A step of control that resumes at the first block that follows a call, and at no other. -/
def Graph.Resume (g : Graph) (c c' : Config) : Prop :=
  g.Step c c' ∧ ∀ k, c'.stack = k :: c.stack → (g.block c.block).continuation? = some k

/-- Where at most one block follows a call, control resumes nowhere else. -/
theorem Graph.Single.resume_eq {g : Graph} (h : g.Single) : g.Resume = g.Step := by
  funext c c'
  refine propext ⟨fun hstep => hstep.1, fun hstep => ⟨hstep, ?_⟩⟩
  intro k hk
  rcases Step.iff.mp hstep with ⟨_, _, hsame⟩ | ⟨hcalls, _, k', hk', hpush⟩ | ⟨_, _, hsame⟩ |
    ⟨_, _, hpop⟩
  · exact absurd (hk.symm.trans hsame) (List.cons_ne_self k c.stack)
  · obtain rfl : k' = k := (List.cons.inj (hpush.symm.trans hk)).1
    exact h.continuation?_eq hcalls hk'
  · exact absurd (hk.symm.trans hsame) (List.cons_ne_self k c.stack)
  · have hlength := congrArg List.length hk
    rw [hpop, List.length_cons, List.length_cons] at hlength
    omega

/-! ### The version after some blocks -/

/-- The version that a register has after the given blocks. -/
def carry (last : Nat → Option Version) (v : Version) (blocks : List Nat) : Version :=
  blocks.foldl (fun v b => (last b).getD v) v

section Carry

variable {last : Nat → Option Version}

theorem carry_cons (v : Version) (b : Nat) (blocks : List Nat) :
    carry last v (b :: blocks) = carry last ((last b).getD v) blocks :=
  rfl

theorem carry_append (v : Version) (front back : List Nat) :
    carry last v (front ++ back) = carry last (carry last v front) back :=
  List.foldl_append

/-- It is the last version that the blocks write, if they write any. -/
theorem carry_eq (v : Version) (blocks : List Nat) :
    carry last v blocks = (blocks.filterMap last).getLast?.getD v := by
  induction blocks generalizing v with
  | nil => rfl
  | cons b blocks ih =>
    rw [carry_cons, ih, List.filterMap_cons]
    cases last b with
    | none => rfl
    | some w => rw [Option.getD_some, List.getLast?_cons, Option.getD_some]

/-- What blocks do to the inherited version says what they do to any. -/
theorem resolve_carry (hproper : ∀ b v, last b = some v → v ≠ Version.inherited)
    (given v : Version) (blocks : List Nat) :
    Version.resolve given (carry last v blocks) = carry last (Version.resolve given v) blocks := by
  induction blocks generalizing v with
  | nil => rfl
  | cons b blocks ih =>
    rw [carry_cons, carry_cons, ih]
    cases hlast : last b with
    | none => rfl
    | some w => rw [Option.getD_some, Option.getD_some, Version.resolve_of_ne (hproper b w hlast)]

end Carry

namespace Flow

variable {g : Graph} {f : Flow}

/-! ### Runs keep to the effects -/

/-- A run from inside a routine leaves it at some point, with a version of its effect, and goes on
where the frame says. -/
theorem Summarized.unwinds_split (hg : g.WellFormed) (hproper : f.Proper)
    (hall : ∀ q ∈ g.routines, ∃ inner, Summarized g f q inner) {q : Routine} {inner : Flow}
    (hsum : Summarized g f q inner) (hq : q ∈ g.routines) {b k : Nat} {stack blocks : List Nat}
    (hrun : Unwinds g.Step ⟨b, k :: stack⟩ blocks) (hb : b ∈ q.blocks) {v : Version}
    (hv : v ∈ inner.entering.get b) :
    ∃ front back, blocks = front ++ back ∧ Unwinds g.Step ⟨k, stack⟩ back ∧
      carry f.made.get v front ∈ f.effects.get q.entry := by
  -- the run through a routine that is called is a part of the rest, and so is what follows it
  induction hn : blocks.length using Nat.strong_induction_on
    generalizing q inner b k stack blocks v with
  | _ n ih =>
    have hleave : (f.made.get b).getD v ∈ inner.leaving b := hsum.made ▸ after_mem_leaving hv
    cases hrun with
    | @next _ _ rest _ hstep hrest =>
      rw [List.length_cons] at hn
      cases hstep with
      | @go _ c _ hcalls hc =>
        have hnext := hsum.closed b hb c hc (by rwa [passing_of_not_calls hcalls])
        obtain ⟨front, back, rfl, hback, hexit⟩ := ih _ (by omega) hsum hq hrest
          (hg.successor_mem_blocks hq hb hc) hnext rfl
        exact ⟨b :: front, back, rfl, hback, hexit⟩
      | @call _ c k' _ hcalls hc hk =>
        obtain ⟨q', hq', rfl⟩ := hg.exists_routine hc
        obtain ⟨inner', hsum'⟩ := hall q' hq'
        obtain ⟨through, after, rfl, hafter, heffect⟩ := ih _ (by omega) hsum' hq' hrest
          (hg.entry_mem_blocks hq') hsum'.entry rfl
        have hpass := resolve_mem_passing hcalls hc (hsum.effects.symm ▸ heffect) hleave
        rw [resolve_carry hproper, Version.resolve_inherited] at hpass
        rw [List.length_append] at hn
        obtain ⟨front, back, rfl, hback, hexit⟩ := ih _ (by omega) hsum hq hafter
          (hg.successor_mem_blocks hq hb hk) (hsum.closed b hb k' hk hpass) rfl
        refine ⟨b :: (through ++ front), back, by simp, hback, ?_⟩
        rwa [carry_cons, carry_append]
      | @tailCall _ c _ htail hc =>
        obtain ⟨q', hq', rfl⟩ := hg.exists_routine hc
        obtain ⟨inner', hsum'⟩ := hall q' hq'
        obtain ⟨through, back, rfl, hback, heffect⟩ := ih _ (by omega) hsum' hq' hrest
          (hg.entry_mem_blocks hq') hsum'.entry rfl
        have hcalls := ((Block.isTailCall_iff _).mp htail).1
        have hpass := resolve_mem_passing hcalls hc (hsum.effects.symm ▸ heffect) hleave
        rw [resolve_carry hproper, Version.resolve_inherited] at hpass
        exact ⟨b :: through, back, rfl, hback,
          hsum.tailCalls b ((hg.mem_tailCalls hq b).mpr ⟨hb, htail⟩) hpass⟩
      | ret hreturns hstays =>
        exact ⟨[b], rest, rfl, hrest,
          hsum.returns b ((hg.mem_returns hq b).mpr ⟨hb, hstays, hreturns⟩) hleave⟩

/-- What a call does to the inherited version is part of the effect of the routine called. -/
theorem carry_mem_effects (hg : g.WellFormed) (hproper : f.Proper)
    (hall : ∀ q ∈ g.routines, ∃ inner, Summarized g f q inner) {q : Routine} (hq : q ∈ g.routines)
    {marker : Nat} {blocks : List Nat} (hrun : Unwinds g.Step ⟨q.entry, [marker]⟩ blocks) :
    carry f.made.get Version.inherited blocks ∈ f.effects.get q.entry := by
  obtain ⟨inner, hsum⟩ := hall q hq
  obtain ⟨front, back, rfl, hback, hexit⟩ :=
    hsum.unwinds_split hg hproper hall hq hrun (hg.entry_mem_blocks hq) hsum.entry
  cases hback with
  | done => rwa [List.append_nil]
  | next framed => exact absurd rfl framed

end Flow

/-! ### Ways through routines -/

/-- A way through the routine entered at a block, over quiet blocks only: to another block of it, or
out of it. Routines that are called on the way are passed in the same manner. -/
inductive Graph.Clears (g : Graph) (quiet : Nat → Prop) : Nat → Option Nat → Prop
  | enter {e : Nat} : Clears g quiet e (some e)
  | go {e b c : Nat} (way : Clears g quiet e (some b)) (still : quiet b)
      (calls : (g.block b).calls = false) (next : c ∈ (g.block b).successors) :
      Clears g quiet e (some c)
  | past {e b c k : Nat} (way : Clears g quiet e (some b)) (still : quiet b)
      (calls : (g.block b).calls = true) (callee : c ∈ (g.block b).callees)
      (through : Clears g quiet c none) (next : k ∈ (g.block b).successors) :
      Clears g quiet e (some k)
  | ret {e b : Nat} (way : Clears g quiet e (some b)) (still : quiet b)
      (returns : (g.block b).returns = true) (stays : (g.block b).isTailCall = false) :
      Clears g quiet e none
  | last {e b c : Nat} (way : Clears g quiet e (some b)) (still : quiet b)
      (tail : (g.block b).isTailCall = true) (callee : c ∈ (g.block b).callees)
      (through : Clears g quiet c none) : Clears g quiet e none

/-- Some run from a place until the stack is empty executes quiet blocks only. -/
def Graph.Returns (g : Graph) (quiet : Nat → Prop) (c : Config) : Prop :=
  ∃ blocks, Unwinds g.Step c blocks ∧ ∀ b ∈ blocks, quiet b

/-- Where a way ends: at a block under the frame, or at the block that the frame names. -/
def Config.onward (k : Nat) (stack : List Nat) : Option Nat → Config
  | some b => ⟨b, k :: stack⟩
  | none => ⟨k, stack⟩

namespace Graph

variable {g : Graph} {quiet : Nat → Prop}

theorem Returns.back {b k : Nat} {stack : List Nat} {c' : Config} (h : g.Returns quiet c')
    (still : quiet b) (step : g.Step ⟨b, k :: stack⟩ c') : g.Returns quiet ⟨b, k :: stack⟩ := by
  obtain ⟨blocks, hrun, hquiet⟩ := h
  exact ⟨b :: blocks, .next (List.cons_ne_nil k stack) step hrun,
    List.forall_mem_cons.mpr ⟨still, hquiet⟩⟩

/-- A way and a run from its end make a run. -/
theorem Clears.returns {e : Nat} {goal : Option Nat} (h : g.Clears quiet e goal) (k : Nat)
    (stack : List Nat) (hrest : g.Returns quiet (Config.onward k stack goal)) :
    g.Returns quiet ⟨e, k :: stack⟩ := by
  induction h generalizing k stack with
  | enter => exact hrest
  | go _ still calls next ih => exact ih k stack (hrest.back still (.go calls next))
  | past _ still calls callee _ next ih ihthrough =>
    have hcalled := ihthrough _ (k :: stack) hrest
    exact ih k stack (hcalled.back still (.call calls callee next))
  | ret _ still returns stays ih => exact ih k stack (hrest.back still (.ret returns stays))
  | last _ still tail callee _ ih ihthrough =>
    have hcalled := ihthrough k stack hrest
    exact ih k stack (hcalled.back still (.tailCall tail callee))

theorem Clears.unwinds {e : Nat} (h : g.Clears quiet e none) (marker : Nat) :
    ∃ blocks, Unwinds g.Step ⟨e, [marker]⟩ blocks ∧ ∀ b ∈ blocks, quiet b :=
  h.returns marker [] ⟨[], .done, fun _ hb => absurd hb List.not_mem_nil⟩

end Graph

/-! ### Effects keep to the ways -/

/-- Tables hold any family of sets of versions. -/
theorem Table.exists_family (n : Nat) (family : Nat → Version → Prop) :
    ∃ t : Table VersionSet, (∀ b v, v ∈ t.get b → family b v) ∧
      ∀ b < n, ∀ v, family b v → v ∈ t.get b := by
  have hfinite : Finite Version :=
    Finite.of_injective UInt32.toBitVec fun _ _ => UInt32.toBitVec_inj.mp
  have hsets : ∀ b, ∃ s : VersionSet, ∀ v, v ∈ s ↔ family b v := by
    intro b
    exact ⟨(Set.toFinite {v | family b v}).toFinset.toList, fun v => by simp⟩
  choose sets hmem using hsets
  refine ⟨Table.tabulate n sets, ?_, ?_⟩
  · intro b v hv
    rw [Table.get_tabulate] at hv
    split at hv
    · exact (hmem b v).mp hv
    · exact absurd hv List.not_mem_nil
  · intro b hb v hv
    rw [Table.get_tabulate, if_pos hb]
    exact (hmem b v).mpr hv

namespace Flow

variable {g : Graph} {f : Flow}

/-- The inherited version leaves a block only if it enters the block and the block writes nothing. -/
theorem Proper.inherited_leaving (h : f.Proper) {b : Nat} (hv : Version.inherited ∈ f.leaving b) :
    f.made.get b = none ∧ Version.inherited ∈ f.entering.get b := by
  rcases mem_leaving.mp hv with hmade | hpass
  · exact absurd rfl (h b _ hmade)
  · exact hpass

/-- The inherited version is handed on by a call only if a routine called has it in its effect. -/
theorem inherited_passing {b : Nat} (hcalls : (g.block b).calls = true)
    (hv : Version.inherited ∈ f.passing g b) :
    ∃ c ∈ (g.block b).callees, Version.inherited ∈ f.effects.get c ∧
      Version.inherited ∈ f.leaving b := by
  obtain ⟨c, hc, hv⟩ := (mem_passing_of_calls hcalls).mp hv
  rcases (VersionSet.mem_resolve _ _ _).mp hv with hown | hthrough
  · exact absurd rfl hown.2
  · exact ⟨c, hc, hthrough.1, hthrough.2⟩

/-- Sets that have the inherited version only where there is a way are kept to by the exits. -/
theorem Proper.summarized_ways (hg : g.WellFormed) (hproper : f.Proper)
    (hways : ∀ c v, v ∈ f.effects.get c → v = Version.inherited →
      g.Clears (fun b => f.made.get b = none) c none)
    (hfull : ∀ c < g.size, ∀ v, (v = Version.inherited →
      g.Clears (fun b => f.made.get b = none) c none) → v ∈ f.effects.get c)
    {q : Routine} (hq : q ∈ g.routines) : ∃ inner, Summarized g f q inner := by
  obtain ⟨entering, hinside, hrest⟩ := Table.exists_family g.size fun b v =>
    v = Version.inherited → g.Clears (fun b => f.made.get b = none) q.entry (some b)
  have hentry := hg.entry_lt hq
  have hinner : ({ f with entering } : Flow).Proper := hproper
  have hstill : ∀ b, Version.inherited ∈ ({ f with entering } : Flow).leaving b →
      f.made.get b = none ∧ g.Clears (fun b => f.made.get b = none) q.entry (some b) := by
    intro b hv
    obtain ⟨hmade, henters⟩ := hinner.inherited_leaving hv
    exact ⟨hmade, hinside b _ henters rfl⟩
  refine ⟨{ f with entering }, rfl, rfl, ?_, ?_, ?_, ?_⟩
  · exact hrest q.entry hentry _ fun _ => .enter
  · intro b _ c hc v hv
    refine hrest c (hg.successor_lt hc) v ?_
    rintro rfl
    cases hcalls : (g.block b).calls with
    | false =>
      rw [passing_of_not_calls hcalls] at hv
      obtain ⟨hmade, hway⟩ := hstill b hv
      exact .go hway hmade hcalls hc
    | true =>
      obtain ⟨c', hc', heffect, hleave⟩ := inherited_passing hcalls hv
      obtain ⟨hmade, hway⟩ := hstill b hleave
      exact .past hway hmade hcalls hc' (hways c' _ heffect rfl) hc
  · intro b hb v hv
    refine hfull q.entry hentry v ?_
    rintro rfl
    obtain ⟨_, hstays, hreturns⟩ := (hg.mem_returns hq b).mp hb
    obtain ⟨hmade, hway⟩ := hstill b hv
    exact .ret hway hmade hreturns hstays
  · intro b hb v hv
    refine hfull q.entry hentry v ?_
    rintro rfl
    have htail := ((hg.mem_tailCalls hq b).mp hb).2
    obtain ⟨c', hc', heffect, hleave⟩ :=
      inherited_passing ((Block.isTailCall_iff _).mp htail).1 hv
    obtain ⟨hmade, hway⟩ := hstill b hleave
    exact .last hway hmade htail hc' (hways c' _ heffect rfl)

/-- Where the effect of a routine has the inherited version, there is a way through the routine. -/
theorem Alike.clears {a : Analysis} {r : Register}
    (h : ((Track.initial g.size (Analysis.numbering g a r)).withEffects g).Alike f)
    (hg : g.WellFormed) (hproper : f.Proper) {c : Nat}
    (hc : Version.inherited ∈ f.effects.get c) :
    g.Clears (fun b => f.made.get b = none) c none := by
  obtain ⟨effects, hways, hfull⟩ := Table.exists_family g.size fun c v =>
    v = Version.inherited → g.Clears (fun b => f.made.get b = none) c none
  have hwhole : ({ f with effects } : Flow).Proper := hproper
  have hmade : ({ f with effects } : Flow).made = f.made := rfl
  have hsub := h.effects_subset hmade (fun q hq => hwhole.summarized_ways hg hways hfull hq) c
  exact hways c _ (hsub hc) rfl

/-- The effect of a routine has the inherited version exactly if some run through the routine writes
nothing. -/
theorem Alike.inherited_iff {a : Analysis} {r : Register}
    (h : ((Track.initial g.size (Analysis.numbering g a r)).withEffects g).Alike f)
    (hg : g.WellFormed) (hproper : f.Proper)
    (hall : ∀ q ∈ g.routines, ∃ inner, Summarized g f q inner) {q : Routine} (hq : q ∈ g.routines)
    (marker : Nat) : Version.inherited ∈ f.effects.get q.entry ↔
      ∃ blocks, Unwinds g.Step ⟨q.entry, [marker]⟩ blocks ∧ ∀ b ∈ blocks, f.made.get b = none := by
  constructor
  · intro hin
    exact (h.clears hg hproper hin).unwinds marker
  · intro hex
    obtain ⟨blocks, hrun, hquiet⟩ := hex
    have hcarry := carry_mem_effects hg hproper hall hq hrun
    rw [carry_eq, List.filterMap_eq_nil_iff.mpr hquiet] at hcarry
    exact hcarry

/-- What a run through a routine writes last is part of its effect. -/
theorem last_mem_effects (hg : g.WellFormed) (hproper : f.Proper)
    (hall : ∀ q ∈ g.routines, ∃ inner, Summarized g f q inner) {q : Routine} (hq : q ∈ g.routines)
    {marker : Nat} {blocks : List Nat} (hrun : Unwinds g.Step ⟨q.entry, [marker]⟩ blocks)
    {w : Version} (hw : (blocks.filterMap f.made.get).getLast? = some w) :
    w ∈ f.effects.get q.entry ∧ w ≠ Version.inherited := by
  have hcarry := carry_mem_effects hg hproper hall hq hrun
  rw [carry_eq, hw, Option.getD_some] at hcarry
  obtain ⟨b, _, hb⟩ := List.mem_filterMap.mp (List.mem_of_getLast? hw)
  exact ⟨hcarry, hproper b w hb⟩

end Flow

/-! ### What the summaries say -/

namespace Analysis

variable {g : Graph} {a s : Analysis} {r : Register}

/-- Before and after settling, a register variable that is used has a track with the effects that
were found at first. -/
theorem Fresh.exists_alike (h : a.Fresh g) (hg : g.WellFormed) (hr : r ∈ a.registers)
    (hslot : r.isSlot = true) (hs : s = a ∨ s = a.settle.analysis) :
    ∃ t f, s.track? r = some t ∧ t.flow = some f ∧ f.Sound g ∧
      ((Track.initial g.size (numbering g a r)).withEffects g).Alike f := by
  rcases hs with rfl | rfl
  · obtain ⟨f, hf, hsound, _, halike⟩ := h.exists_flow hr hslot
    obtain ⟨t, ht, hflow⟩ := Option.bind_eq_some_iff.mp hf
    exact ⟨t, f, ht, hflow, hsound, halike⟩
  · obtain ⟨f, hf, hsolved⟩ := h.solved hg hr hslot
    have hfound : a.settle.analysis.flow? r = some f := by
      rw [settle_flow?, h.track?_of_mem hr, Option.bind_some, h.graph]
      exact hf
    obtain ⟨t, ht, hflow⟩ := Option.bind_eq_some_iff.mp hfound
    exact ⟨t, f, ht, hflow, hsolved.sound, hsolved.alike h⟩

/-- What the summaries of routines say of a register variable is what runs do. A routine is
transparent exactly if some run through it writes nothing, and what a run through it writes last is
among its definitions. The effects are the least sets that the exits of all routines keep to. -/
theorem summaries_match_runs {usages : List Usage} (hg : g.WellFormed)
    (ha : ofUsages g usages = .ok a) (hr : r ∈ a.registers) (hslot : r.isSlot = true)
    (hwrites : a.writes r < UInt32.size - 2) (hs : s = a ∨ s = a.settle.analysis) :
    ∃ t f, s.track? r = some t ∧ t.flow = some f ∧
    (∀ q ∈ g.routines, ∀ marker,
      (t.isTransparent q.entry = true ↔
        ∃ blocks, Unwinds g.Step ⟨q.entry, [marker]⟩ blocks ∧ ∀ b ∈ blocks, a.Quiet r b) ∧
      ∀ blocks, Unwinds g.Step ⟨q.entry, [marker]⟩ blocks → ∀ w,
        (blocks.filterMap (a.lastWrite? r)).getLast? = some w →
          t.canonical w ∈ t.definitions q.entry) ∧
    (g.Single → g.Resume = g.Step) ∧
    (∀ q ∈ g.routines, f.exits g q ⊆ f.effects.get q.entry) ∧
    ∀ sets : Table VersionSet, (∀ c, Ascending (sets.get c)) →
      (∀ q ∈ g.routines, ({ f with effects := sets } : Flow).exits g q ⊆ sets.get q.entry) →
        ∀ c, f.effects.get c ⊆ sets.get c := by
  have hfresh := fresh_of_ofUsages ha
  obtain ⟨t, f, ht, hflow, hsound, halike⟩ := hfresh.exists_alike hg hr hslot hs
  obtain ⟨hlast, hproper⟩ := hfresh.lastWrite?_of_made hr hslot hwrites
    fun b => (hfresh.flow_rules hr hslot halike b).2
  have hinitial := Flow.tidy_initial g.size (numbering g a r)
  have hall : ∀ q ∈ g.routines, ∃ inner, Flow.Summarized g f q inner := fun q hq =>
    ⟨_, (hinitial.summarized hg (Table.size_blank _) (Table.size_blank _) hq).congr halike⟩
  refine ⟨t, f, ht, hflow, ?_, Graph.Single.resume_eq, ?_, ?_⟩
  · intro q hq marker
    refine ⟨?_, ?_⟩
    · have hquiet : ∀ b, a.Quiet r b ↔ f.made.get b = none := by
        rw [hlast]
        exact fun b => ⟨lastWrite?_of_quiet, quiet_of_lastWrite?⟩
      rw [Track.isTransparent, hflow]
      simp only [VersionSet.has_iff, hquiet]
      exact halike.inherited_iff hg hproper hall hq marker
    · intro blocks hrun w hw
      rw [← hlast] at hw
      have hin := Flow.last_mem_effects hg hproper hall hq hrun hw
      rw [Track.definitions, Track.canonical, hflow]
      exact (Webs.mem_canonical _ _ _).mpr ⟨w, (VersionSet.mem_without _ _ _).mpr hin, rfl⟩
  · intro q hq
    obtain ⟨inner, hsum⟩ := hall q hq
    exact hsum.exits_subset hsum.made fun c => List.Subset.refl _
  · intro sets hsets hexits
    have htidy : ({ f with effects := sets } : Flow).Tidy :=
      ⟨hsets, hsound.tidy.entering, hsound.tidy.webs⟩
    have hmade : ({ f with effects := sets } : Flow).made = f.made := rfl
    exact halike.effects_subset hmade fun q hq =>
      ⟨_, htidy.summarized_of_exits hg hsound.size hq (hexits q hq)⟩

end Analysis

namespace Rally

def x : Register := Register.slot ⟨0, "x", Bank.vector⟩ 0

/-- The outer of the two routines writes the variable before it calls the inner one. -/
def usages : List Usage :=
  [⟨0, x, 1, 0, false, true⟩, ⟨4, x, 1, 0, true, false⟩, ⟨12, x, 1, 0, false, true⟩]

def start : Analysis := (Analysis.ofUsages graph usages).toOption.getD default

theorem evaluates : Analysis.ofUsages graph usages = .ok start ∧ start.registers = [x] ∧
    start.writes x = 2 ∧ start.lastWrite? x 2 = none ∧ start.lastWrite? x 3 = some ⟨2#32⟩ ∧
    start.lastWrite? x 4 = none ∧ start.lastWrite? x 5 = none := by
  cbv

/-- The inner routine may come back with the caller's value, and with the one that the outer routine
writes after the two have called each other. -/
theorem inner_leaves : ∃ t, start.track? x = some t ∧ t.isTransparent 5 = true ∧
    t.canonical ⟨2#32⟩ ∈ t.definitions 5 := by
  obtain ⟨ha, hregisters, hwrites, htwo, hthree, hfour, hfive⟩ := evaluates
  have hx : x ∈ start.registers := by simp [hregisters]
  obtain ⟨t, f, ht, _, hruns, _⟩ := Analysis.summaries_match_runs
    (Graph.wellFormed_of_build builds) ha hx rfl (by rw [hwrites]; decide) (Or.inl rfl)
  have hshort : Unwinds graph.Step ⟨2, [1]⟩ [2, 4] := by
    refine .next (by decide) (show graph.Step _ ⟨4, [1]⟩ by decide) ?_
    exact .next (by decide) (show graph.Step _ ⟨1, []⟩ by decide) .done
  have henter : Unwinds graph.Step ⟨5, [1]⟩ [5, 2, 4] :=
    .next (by decide) (show graph.Step _ ⟨2, [1]⟩ by decide) hshort
  have hlong : Unwinds graph.Step ⟨5, [1]⟩ [5, 2, 3, 5, 2, 4] := by
    refine .next (by decide) (show graph.Step _ ⟨2, [1]⟩ by decide) ?_
    refine .next (by decide) (show graph.Step _ ⟨3, [1]⟩ by decide) ?_
    exact .next (by decide) (show graph.Step _ ⟨5, [1]⟩ by decide) henter
  obtain ⟨hclear, hwritten⟩ := hruns ⟨5, [5], [], [5], [3], [1]⟩ (by decide) 1
  refine ⟨t, ht, hclear.mpr ⟨_, henter, ?_⟩, hwritten _ hlong _ ?_⟩
  · intro b hb
    simp only [List.mem_cons, List.not_mem_nil, or_false] at hb
    rcases hb with rfl | rfl | rfl
    · exact Analysis.quiet_of_lastWrite? hfive
    · exact Analysis.quiet_of_lastWrite? htwo
    · exact Analysis.quiet_of_lastWrite? hfour
  · simp [htwo, hthree, hfour, hfive]

end Rally

namespace Sidestep

def x : Register := Register.slot ⟨0, "x", Bank.vector⟩ 0

/-- A call on which there is also a jump: the code behind the call ends, the target of the jump
returns. -/
def hints : List Hint :=
  [⟨0, .call, [8], 0⟩, ⟨4, .halt, [], 0⟩, ⟨8, .call, [20], 0⟩, ⟨8, .jump, [16], 0⟩,
    ⟨12, .halt, [], 0⟩, ⟨16, .ret, [], 0⟩, ⟨20, .ret, [], 0⟩]

def usages : List Usage :=
  [⟨0, x, 1, 0, false, true⟩, ⟨4, x, 1, 0, true, false⟩]

def graph : Graph where
  length := 24
  blocks := #[⟨0, 0, 4, [⟨1, false⟩, ⟨2, true⟩], true, true, false, false⟩,
    ⟨1, 4, 8, [], false, false, false, true⟩,
    ⟨2, 8, 12, [⟨3, false⟩, ⟨4, false⟩, ⟨5, true⟩], false, true, false, true⟩,
    ⟨3, 12, 16, [], false, false, false, true⟩,
    ⟨4, 16, 20, [], false, false, true, false⟩,
    ⟨5, 20, 24, [], false, false, true, false⟩]
  preds := ⟨#[[], [⟨0, false⟩], [⟨0, true⟩], [⟨2, false⟩], [⟨2, false⟩], [⟨2, true⟩]]⟩
  routines := [⟨2, [2, 3, 4], [4], [], [0], [1]⟩, ⟨5, [5], [5], [], [2], [3]⟩]
  boundaries := []

def start : Analysis := (Analysis.ofUsages graph usages).toOption.getD default

theorem evaluates : Graph.build (Settings.standard 1) #[] 24 hints = .ok graph ∧
    Analysis.ofUsages graph usages = .ok start ∧
    (start.track? x).map (fun t => t.isTransparent 2) = some true := by
  cbv

/-- The outer routine is transparent, although no run through it comes back that resumes at the first
block behind the call only. -/
theorem no_return_behind_call : Graph.build (Settings.standard 1) #[] 24 hints = .ok graph ∧
    Analysis.ofUsages graph usages = .ok start ∧
    (start.track? x).map (fun t => t.isTransparent 2) = some true ∧
    ∀ marker blocks, ¬ Unwinds graph.Resume ⟨2, [marker]⟩ blocks := by
  obtain ⟨hgraph, ha, hclear⟩ := evaluates
  refine ⟨hgraph, ha, hclear, ?_⟩
  have hstuck : ∀ marker blocks, ¬ Unwinds graph.Resume ⟨3, [marker]⟩ blocks := by
    intro marker blocks hrun
    cases hrun with
    | next _ hstep _ =>
      cases hstep.1 with
      | go _ hc => exact absurd hc List.not_mem_nil
      | call hcalls _ _ => exact absurd hcalls (by decide)
      | tailCall htail _ => exact absurd htail (by decide)
      | ret hreturns _ => exact absurd hreturns (by decide)
  have hinner : ∀ marker blocks, ¬ Unwinds graph.Resume ⟨5, [3, marker]⟩ blocks := by
    intro marker blocks hrun
    cases hrun with
    | next _ hstep hrest =>
      cases hstep.1 with
      | go _ hc => exact absurd hc List.not_mem_nil
      | call hcalls _ _ => exact absurd hcalls (by decide)
      | tailCall htail _ => exact absurd htail (by decide)
      | ret => exact hstuck marker _ hrest
  intro marker blocks hrun
  cases hrun with
  | next _ hstep hrest =>
    cases hstep.1 with
    | go hcalls _ => exact absurd hcalls (by decide)
    | @call _ c k _ _ hc _ =>
      obtain rfl : c = 5 := List.mem_singleton.mp hc
      obtain rfl : 3 = k := Option.some.inj (hstep.2 k rfl)
      exact hinner marker _ hrest
    | tailCall htail _ => exact absurd htail (by decide)
    | ret hreturns _ => exact absurd hreturns (by decide)

end Sidestep

end RegisterWeb
