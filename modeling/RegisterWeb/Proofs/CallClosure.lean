import Mathlib
import RegisterWeb.Proofs.Backward
import RegisterWeb.Proofs.RoutineSet
import RegisterWeb.Proofs.Unwind

/-!
What routines touch, by way of the call graph. A routine touches the registers of its own blocks and
whatever the routines that it calls touch, and rounds over the calls find out what that is. A run
through a routine stays in the scope of the routine, and the effect of a routine has nothing but the
inherited version and what is made in the scope; so what a routine does not touch, no run through it
reads or writes, and it leaves none of it behind.
-/

namespace RegisterWeb

open Relation
open RegisterWeb.Graph

/-! ### Registers in rounds -/

namespace Analysis

variable {g : Graph} {us : List Usage} {a s : Analysis} {q : Routine} {r : Register}

/-- The registers that a block touches. -/
def touchedIn (a : Analysis) (b : Nat) : List Register :=
  (a.summaries.get b).registers

/-- The rounds end with all that routines touch, by themselves or through calls. -/
theorem exists_rounds (ha : ofUsages g us = .ok a) :
    ∃ k ≤ g.routines.length * a.registers.length,
      Touched.round g ((Touched.round g)^[k] (Touched.own g a.touchedIn))
        = (Touched.round g)^[k] (Touched.own g a.touchedIn) ∧
      (∀ j < k, (Touched.round g)^[j + 1] (Touched.own g a.touchedIn)
        ≠ (Touched.round g)^[j] (Touched.own g a.touchedIn)) ∧
      ∀ e r, (e, r) ∈ (Touched.round g)^[k] (Touched.own g a.touchedIn) ↔
        ∃ b, g.Scope e b ∧ g.Accesses us b r := by
  have hcontent : ∀ b r, r ∈ a.touchedIn b ↔ g.Accesses us b r := by
    intro b r
    rw [touchedIn, Summary.mem_registers, use?_ne_none_iff ha]
  have hgiven : ∀ q ∈ g.routines, ∀ b ∈ q.blocks, ∀ r ∈ a.touchedIn b, r ∈ a.registers := by
    intro q _ b _ r hr
    obtain ⟨u, hu, _, hacts⟩ := (hcontent b r).mp hr
    exact (mem_registers_iff_acts ha).mpr ⟨u, hu, hacts⟩
  obtain ⟨k, hk, hstill, hmoves, hmem⟩ := Touched.exists_rounds hgiven
  refine ⟨k, hk, hstill, hmoves, fun e r => ?_⟩
  simp only [hmem, hcontent]

theorem touches_eq (s : Analysis) (r : Register) (e : Nat) :
    s.touches r e = (List.range s.graph.size).any fun b =>
      inScope s.graph.scopes e b && (s.use? b r).isSome := by
  cases htrack : s.track? r with
  | none => simp [touches, use?, htrack]
  | some t =>
    simp only [touches, use?, htrack, Option.any_some, Option.bind_some]
    rfl

/-- Settling changes neither the graph nor which blocks use a register. -/
theorem settle_keeps (hs : s = a ∨ s = a.settle.analysis) :
    s.graph = a.graph ∧ ∀ b r, (s.use? b r).isSome = (a.use? b r).isSome := by
  rcases hs with rfl | rfl
  · exact ⟨rfl, fun _ _ => rfl⟩
  · refine ⟨graph_settle a, fun b r => ?_⟩
    obtain ⟨change, htrack, hchange⟩ := a.settle_track? r
    rw [use?, use?, htrack]
    cases a.track? r with
    | none => rfl
    | some t => exact (hchange t).2 b

theorem touches_iff (hg : g.WellFormed) (ha : ofUsages g us = .ok a)
    (hs : s = a ∨ s = a.settle.analysis) (hq : q ∈ g.routines) :
    s.touches r q.entry = true ↔ ∃ b, g.Scope q.entry b ∧ g.Accesses us b r := by
  obtain ⟨hgraph, huse⟩ := settle_keeps hs
  rw [(fresh_of_ofUsages ha).graph] at hgraph
  rw [touches_eq, hgraph, List.any_eq_true]
  refine exists_congr fun b => ?_
  rw [Bool.and_eq_true, huse, isSome_use?_iff ha, hg.inScope_iff hq, ← hg.scope_iff hq,
    List.mem_range]
  exact and_iff_right_of_imp fun h => hg.lt_of_scope h.1

end Analysis

/-! ### Runs stay in the scope -/

namespace Graph

variable {g : Graph} {q : Routine} {e b c : Nat}

theorem scope_of_mem_blocks (hq : q ∈ g.routines) (hb : b ∈ q.blocks) : g.Scope q.entry b :=
  ⟨q, hq, ReflTransGen.refl, hb⟩

theorem Scope.of_invokes (h : g.Scope c b) (hcall : g.Invokes e c) : g.Scope e b := by
  obtain ⟨q, hq, hpath, hb⟩ := h
  exact ⟨q, hq, hpath.head hcall, hb⟩

/-- A run until the marker is popped executes blocks of the scope only, if it starts at one and will
resume at others. -/
theorem WellFormed.scope_of_unwinds (hg : g.WellFormed) {config : Config} {blocks : List Nat}
    (hrun : Unwinds g.Step config blocks) {frames : List Nat} {marker : Nat}
    (hstack : config.stack = frames ++ [marker]) (hblock : g.Scope e config.block)
    (hframes : ∀ k ∈ frames, g.Scope e k) : ∀ b ∈ blocks, g.Scope e b := by
  induction hrun generalizing frames with
  | done => exact fun b hb => absurd hb List.not_mem_nil
  | @next config config' blocks _ step rest ih =>
    refine List.forall_mem_cons.mpr ⟨hblock, ?_⟩
    cases step with
    | go _ hc => exact ih hstack (hg.scope_of_successor hblock hc) hframes
    | @call _ c k stack _ hc hk =>
      have hpushed : k :: stack = (k :: frames) ++ [marker] := congrArg (k :: ·) hstack
      refine ih hpushed (hg.scope_of_callee hblock hc) ?_
      exact List.forall_mem_cons.mpr ⟨hg.scope_of_successor hblock hk, hframes⟩
    | tailCall _ hc => exact ih hstack (hg.scope_of_callee hblock hc) hframes
    | @ret _ k stack _ _ =>
      cases frames with
      | nil =>
        -- the marker is popped, and the run is over
        obtain ⟨rfl, rfl⟩ : k = marker ∧ stack = [] := by simpa using hstack
        cases rest with
        | done => exact fun b hb => absurd hb List.not_mem_nil
        | next framed => exact absurd rfl framed
      | cons k' frames =>
        obtain ⟨rfl, hrest⟩ := List.cons.inj hstack
        obtain ⟨hk, hframes⟩ := List.forall_mem_cons.mp hframes
        exact ih hrest hk hframes

end Graph

/-! ### Effects keep to the scope -/

namespace Flow

variable {g : Graph} {f : Flow}

/-- The inherited version, or one that is made in the scope of a routine. -/
def MadeIn (g : Graph) (f : Flow) (e : Nat) (v : Version) : Prop :=
  v = Version.inherited ∨ ∃ b, g.Scope e b ∧ f.made.get b = some v

theorem summarized_scopes (hg : g.WellFormed) (hin : ∀ c v, v ∈ f.effects.get c → f.MadeIn g c v)
    (hfull : ∀ c < g.size, ∀ v, f.MadeIn g c v → v ∈ f.effects.get c) {q : Routine}
    (hq : q ∈ g.routines) : ∃ inner, Summarized g f q inner := by
  obtain ⟨entering, hinside, hrest⟩ := Table.exists_family g.size fun _ => f.MadeIn g q.entry
  have hentry := hg.entry_lt hq
  have hleave : ∀ b ∈ q.blocks, ∀ v ∈ ({ f with entering } : Flow).leaving b,
      f.MadeIn g q.entry v := by
    intro b hb v hv
    rcases mem_leaving.mp hv with hmade | ⟨_, henters⟩
    · exact Or.inr ⟨b, scope_of_mem_blocks hq hb, hmade⟩
    · exact hinside b v henters
  have hpass : ∀ b ∈ q.blocks, ∀ v ∈ ({ f with entering } : Flow).passing g b,
      f.MadeIn g q.entry v := by
    intro b hb v hv
    cases hcalls : (g.block b).calls with
    | false =>
      rw [passing_of_not_calls hcalls] at hv
      exact hleave b hb v hv
    | true =>
      obtain ⟨c, hc, hv⟩ := (mem_passing_of_calls hcalls).mp hv
      rcases (VersionSet.mem_resolve _ _ _).mp hv with ⟨heffect, _⟩ | ⟨_, hthrough⟩
      · refine (hin c v heffect).imp_right fun h => ?_
        obtain ⟨d, hd, hmade⟩ := h
        exact ⟨d, hd.of_invokes ⟨q, hq, rfl, b, hb, hc⟩, hmade⟩
      · exact hleave b hb v hthrough
  refine ⟨{ f with entering }, rfl, rfl, hrest q.entry hentry _ (Or.inl rfl), ?_, ?_, ?_⟩
  · exact fun b hb c hc v hv => hrest c (hg.successor_lt hc) v (hpass b hb v hv)
  · intro b hb v hv
    exact hfull q.entry hentry v (hleave b ((hg.mem_returns hq b).mp hb).1 v hv)
  · intro b hb v hv
    exact hfull q.entry hentry v (hpass b ((hg.mem_tailCalls hq b).mp hb).1 v hv)

/-- A routine leaves behind nothing but the inherited version and what is made in its scope. -/
theorem Alike.madeIn {a : Analysis} {r : Register}
    (h : ((Track.initial g.size (Analysis.numbering g a r)).withEffects g).Alike f)
    (hg : g.WellFormed) {c : Nat} {v : Version} (hv : v ∈ f.effects.get c) : f.MadeIn g c v := by
  obtain ⟨effects, hin, hfull⟩ := Table.exists_family g.size (f.MadeIn g)
  have hmade : ({ f with effects } : Flow).made = f.made := rfl
  have hsub := h.effects_subset hmade (fun q hq => summarized_scopes hg hin hfull hq) c
  exact hin c v (hsub hv)

end Flow

/-! ### What is not touched -/

namespace Analysis

variable {g : Graph} {us : List Usage} {a s : Analysis} {q : Routine} {r : Register}

theorem flow?_settle_eq_none (h : a.flow? r = none) : a.settle.analysis.flow? r = none := by
  rw [settle_flow?]
  cases ht : a.track? r with
  | none => rfl
  | some t =>
    have hflow : t.flow = none := by
      rwa [flow?, ht] at h
    rw [Option.bind_some, Track.settle, hflow]
    exact hflow

/-- Only register variables that are used have a flow, before and after settling. -/
theorem Fresh.isSlot_of_settled_flow? (h : a.Fresh g) (hs : s = a ∨ s = a.settle.analysis) {f : Flow}
    (hf : s.flow? r = some f) : r ∈ a.registers ∧ r.isSlot = true := by
  cases hbefore : a.flow? r with
  | some f' => exact h.isSlot_of_flow? hbefore
  | none =>
    have hnone : s.flow? r = none := by
      rcases hs with rfl | rfl
      · exact hbefore
      · exact flow?_settle_eq_none hbefore
    exact absurd (hf.symm.trans hnone) (Option.some_ne_none f)

/-- A routine leaves nothing behind of a register that its scope does not access. -/
theorem definitions_eq_nil (hg : g.WellFormed) (ha : ofUsages g us = .ok a)
    (hs : s = a ∨ s = a.settle.analysis) {e : Nat}
    (hquiet : ∀ b, g.Scope e b → ¬ g.Accesses us b r) : s.definitions r e = [] := by
  have hfresh := fresh_of_ofUsages ha
  rw [definitions]
  cases ht : s.track? r with
  | none => rfl
  | some t =>
    cases hf : t.flow with
    | none => simp only [Track.definitions, hf]
    | some f =>
      have hfound : s.flow? r = some f := by
        rw [flow?, ht]
        exact hf
      obtain ⟨hr, hslot⟩ := hfresh.isSlot_of_settled_flow? hs hfound
      obtain ⟨t', f', ht', hf', _, halike⟩ := hfresh.exists_alike hg hr hslot hs
      cases ht.symm.trans ht'
      cases hf.symm.trans hf'
      simp only [Track.definitions, hf]
      refine List.eq_nil_iff_forall_not_mem.mpr fun v hv => ?_
      obtain ⟨w, hw, _⟩ := (Webs.mem_canonical _ _ _).mp hv
      obtain ⟨hin, hne⟩ := (VersionSet.mem_without _ _ _).mp hw
      obtain ⟨b, hb, hmade⟩ := (halike.madeIn hg hin).resolve_left hne
      rw [(hfresh.flow_rules hr hslot halike b).2] at hmade
      obtain ⟨u, huse, _⟩ := Option.bind_eq_some_iff.mp hmade
      exact hquiet b hb ((isSome_use?_iff ha).mp (Option.isSome_of_eq_some huse))

/-- Rounds over the calls end after at most one for each routine and register, and find what the
scopes say: a routine touches a register exactly if some block of a routine that it calls, directly
or not, or of its own reads or writes it. Of a register that it does not touch a routine leaves
nothing behind, and no run through it reads or writes the register. -/
theorem touches_call_closure (hg : g.WellFormed) (ha : ofUsages g us = .ok a)
    (hs : s = a ∨ s = a.settle.analysis) :
    (∃ k ≤ g.routines.length * a.registers.length,
      Touched.round g ((Touched.round g)^[k] (Touched.own g a.touchedIn))
        = (Touched.round g)^[k] (Touched.own g a.touchedIn) ∧
      (∀ j < k, (Touched.round g)^[j + 1] (Touched.own g a.touchedIn)
        ≠ (Touched.round g)^[j] (Touched.own g a.touchedIn)) ∧
      ∀ q ∈ g.routines, ∀ r,
        (q.entry, r) ∈ (Touched.round g)^[k] (Touched.own g a.touchedIn) ↔
          s.touches r q.entry = true) ∧
    ∀ q ∈ g.routines, ∀ r,
      (s.touches r q.entry = true ↔ ∃ q' ∈ g.routines,
        ReflTransGen g.Invokes q.entry q'.entry ∧ ∃ b ∈ q'.blocks, g.Accesses us b r) ∧
      (s.touches r q.entry = false → s.definitions r q.entry = [] ∧
        ∀ marker blocks, Unwinds g.Step ⟨q.entry, [marker]⟩ blocks →
          ∀ b ∈ blocks, ¬ g.Accesses us b r) := by
  refine ⟨?_, fun q hq r => ⟨?_, fun hfree => ?_⟩⟩
  · obtain ⟨k, hk, hstill, hmoves, hmem⟩ := exists_rounds ha
    refine ⟨k, hk, hstill, hmoves, fun q hq r => ?_⟩
    rw [hmem, touches_iff hg ha hs hq]
  · rw [touches_iff hg ha hs hq]
    constructor
    · intro h
      obtain ⟨b, ⟨q', hq', hpath, hb⟩, haccess⟩ := h
      exact ⟨q', hq', hpath, b, hb, haccess⟩
    · intro h
      obtain ⟨q', hq', hpath, b, hb, haccess⟩ := h
      exact ⟨b, ⟨q', hq', hpath, hb⟩, haccess⟩
  · have hquiet : ∀ b, g.Scope q.entry b → ¬ g.Accesses us b r := by
      intro b hb haccess
      have htouched := (touches_iff hg ha hs hq).mpr ⟨b, hb, haccess⟩
      exact Bool.false_ne_true (hfree.symm.trans htouched)
    refine ⟨definitions_eq_nil hg ha hs hquiet, fun marker blocks hrun b hb => hquiet b ?_⟩
    exact hg.scope_of_unwinds hrun (List.nil_append [marker]).symm
      (scope_of_mem_blocks hq (hg.entry_mem_blocks hq))
      (fun k hk => absurd hk List.not_mem_nil) b hb

end Analysis

namespace Bystander

def y : Register := Register.slot ⟨1, "y", Bank.vector⟩ 0

/-- The outer of the two routines writes one variable, and another one is kept over the call. -/
def usages : List Usage :=
  [⟨0, y, 1, 0, false, true⟩, ⟨4, y, 1, 0, true, false⟩, ⟨12, Rally.x, 1, 0, false, true⟩]

def start : Analysis := (Analysis.ofUsages Rally.graph usages).toOption.getD default

theorem evaluates : Analysis.ofUsages Rally.graph usages = .ok start ∧
    start.touches y 5 = false ∧ Rally.graph.blockAt 12 = .ok (some 3) := by
  cbv

/-- The inner routine touches what only the outer one writes. It leaves the other variable alone, and
so does a run in which both of them are executed. -/
theorem inner_touches : Analysis.ofUsages Rally.graph usages = .ok start ∧
    start.touches Rally.x 5 = true ∧ start.touches y 5 = false ∧ start.definitions y 5 = [] ∧
    Unwinds Rally.graph.Step ⟨5, [1]⟩ [5, 2, 4] ∧
    ∀ b ∈ [5, 2, 4], ¬ Rally.graph.Accesses usages b y := by
  obtain ⟨ha, hfree, hblock⟩ := evaluates
  have hinner : ⟨5, [5], [], [5], [3], [1]⟩ ∈ Rally.graph.routines := by decide
  have houter : ⟨2, [2, 3, 4], [4], [3], [0, 5], [1]⟩ ∈ Rally.graph.routines := by decide
  have hrun : Unwinds Rally.graph.Step ⟨5, [1]⟩ [5, 2, 4] := by
    refine .next (by decide) (show Rally.graph.Step _ ⟨2, [1]⟩ by decide) ?_
    refine .next (by decide) (show Rally.graph.Step _ ⟨4, [1]⟩ by decide) ?_
    exact .next (by decide) (show Rally.graph.Step _ ⟨1, []⟩ by decide) .done
  obtain ⟨_, hall⟩ := Analysis.touches_call_closure (Graph.wellFormed_of_build Rally.builds) ha
    (Or.inl rfl)
  obtain ⟨hdefinitions, hruns⟩ := (hall _ hinner y).2 hfree
  refine ⟨ha, (hall _ hinner Rally.x).1.mpr ?_, hfree, hdefinitions, hrun, hruns 1 _ hrun⟩
  have hcall : Rally.graph.Invokes 5 2 := ⟨_, hinner, rfl, 5, by decide, by decide⟩
  exact ⟨_, houter, ReflTransGen.single hcall, 3, by decide, ⟨12, Rally.x, 1, 0, false, true⟩,
    by decide, hblock, by decide⟩

end Bystander

end RegisterWeb
