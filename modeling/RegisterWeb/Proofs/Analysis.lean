import RegisterWeb.Analysis
import RegisterWeb.Proofs.Fixpoint

/-!
The tracks of an analysis, before and after settling. There is one track for each register that is
used, and settling keeps the registers, so a query for a register finds the same track throughout.
-/

namespace RegisterWeb

namespace Track

theorem register_ofRegister (g : Graph) (o : FlowOrder) (r : Register)
    (uses : Table (Option Use)) : (ofRegister g o r uses).register = r := by
  unfold ofRegister
  split <;> rfl

theorem register_settle (g : Graph) (t : Track) : (t.settle g).1.register = t.register := by
  unfold settle
  split <;> rfl

theorem uses_settle (g : Graph) (t : Track) : (t.settle g).1.uses = t.uses := by
  unfold settle
  split <;> rfl

theorem uses_rename {t : Track} {f : Flow} (h : t.flow = some f) (b : Nat) :
    t.rename.uses.get b
      = (t.uses.get b).map (renameUse f.webs (f.webs.canonical (f.entering.get b))) := by
  have hentering : t.entering b = f.webs.canonical (f.entering.get b) := by
    simp only [entering, h]
  simp only [rename, h, Table.get_tabulate]
  split
  · rw [hentering]
  · rename_i hb
    rw [Table.get_of_size_le (Nat.le_of_not_lt hb)]
    rfl

theorem isSome_rename (t : Track) (b : Nat) :
    (t.rename.uses.get b).isSome = (t.uses.get b).isSome := by
  cases hflow : t.flow with
  | none => rw [rename, hflow]
  | some f => rw [uses_rename hflow, Option.isSome_map]

theorem register_rename (t : Track) : t.rename.register = t.register := by
  unfold rename
  split <;> rfl

theorem flow_rename (t : Track) : t.rename.flow = t.flow := by
  unfold rename
  split <;> rfl

theorem find?_map {tracks : List Track} {φ : Track → Track}
    (h : ∀ t, (φ t).register = t.register) (r : Register) :
    (tracks.map φ).find? (fun t => t.register == r)
      = (tracks.find? fun t => t.register == r).map φ := by
  rw [List.find?_map]
  congr 2
  funext t
  simp only [Function.comp_apply, h]

end Track

namespace Analysis

/-- The flow of a register variable. -/
def flow? (a : Analysis) (r : Register) : Option Flow :=
  (a.track? r).bind Track.flow

/-! ### Before settling -/

/-- An analysis with the tracks that its summaries give. -/
structure Fresh (g : Graph) (a : Analysis) : Prop where
  graph : a.graph = g
  order : a.order = FlowOrder.ofGraph g
  summaries : ∃ placed, a.summaries = summarize g placed
  tracks : a.tracks =
    (registersOf a.summaries).map (trackOf g (FlowOrder.ofGraph g) a.summaries)

theorem fresh_of_ofUsages {g : Graph} {usages : List Usage} {a : Analysis}
    (h : ofUsages g usages = .ok a) : a.Fresh g := by
  unfold ofUsages at h
  obtain ⟨placed, _, h⟩ := bind_eq_ok.mp h
  cases h
  exact ⟨rfl, rfl, ⟨placed, rfl⟩, rfl⟩

section Fresh

variable {g : Graph} {a : Analysis}

theorem register_trackOf (g : Graph) (o : FlowOrder) (summaries : Table Summary) (r : Register) :
    (trackOf g o summaries r).register = r :=
  Track.register_ofRegister ..

theorem Fresh.registers_eq (h : a.Fresh g) : a.registers = registersOf a.summaries := by
  rw [registers, h.tracks, List.map_map]
  exact List.map_id'' (fun r => register_trackOf ..) _

theorem Fresh.track?_of_mem (h : a.Fresh g) {r : Register} (hr : r ∈ a.registers) :
    a.track? r = some (trackOf g (FlowOrder.ofGraph g) a.summaries r) := by
  rw [h.registers_eq] at hr
  unfold track?
  rw [h.tracks]
  cases hfind : ((registersOf a.summaries).map
      (trackOf g (FlowOrder.ofGraph g) a.summaries)).find? (fun t => t.register == r) with
  | none =>
    have hall := List.find?_eq_none.mp hfind _ (List.mem_map_of_mem hr)
    simp [register_trackOf] at hall
  | some t =>
    obtain ⟨r', _, ht⟩ := List.mem_map.mp (List.mem_of_find?_eq_some hfind)
    have hreg := List.find?_some hfind
    rw [← ht, register_trackOf, beq_iff_eq] at hreg
    rw [← ht, hreg]

theorem track?_eq_none {r : Register} (hr : r ∉ a.registers) : a.track? r = none := by
  refine List.find?_eq_none.mpr ?_
  intro t ht heq
  exact hr (List.mem_map.mpr ⟨t, ht, beq_iff_eq.mp heq⟩)

/-- The numbering of the versions of a register variable. -/
def numbering (g : Graph) (a : Analysis) (r : Register) : Track.Numbering :=
  Track.Numbering.ofUses (FlowOrder.ofGraph g).blocks
    (Table.tabulate g.size fun b => (a.summaries.get b).use? r)

theorem Fresh.use?_eq (h : a.Fresh g) {r : Register} (hr : r ∈ a.registers)
    (hslot : r.isSlot = true) (b : Nat) : a.use? b r = (numbering g a r).uses.get b := by
  rw [use?, h.track?_of_mem hr, Option.bind_some]
  simp only [trackOf, Track.ofRegister, hslot, if_true]
  rfl

theorem Fresh.exists_flow (h : a.Fresh g) {r : Register} (hr : r ∈ a.registers)
    (hslot : r.isSlot = true) :
    ∃ f, a.flow? r = some f ∧ f.Sound g ∧
      f.Covered g (fun b => b ∈ (FlowOrder.ofGraph g).late g) ∧
      ((Track.initial g.size (numbering g a r)).withEffects g).Alike f := by
  obtain ⟨f, hflow, halike, hsound, hcov⟩ := Flow.ofVariable_flow g r
    (Table.tabulate g.size fun b => (a.summaries.get b).use? r)
  refine ⟨f, ?_, hsound, hcov, halike⟩
  rw [flow?, h.track?_of_mem hr]
  simp only [trackOf, Track.ofRegister, hslot, if_true, Option.bind_some]
  exact hflow

theorem Fresh.isSlot_of_flow? (h : a.Fresh g) {r : Register} {f : Flow}
    (hf : a.flow? r = some f) : r ∈ a.registers ∧ r.isSlot = true := by
  have hr : r ∈ a.registers := by
    by_contra hr
    rw [flow?, track?_eq_none hr] at hf
    exact absurd hf (by simp)
  refine ⟨hr, ?_⟩
  by_contra hslot
  rw [flow?, h.track?_of_mem hr] at hf
  simp [trackOf, Track.ofRegister, hslot, Track.ofPhysical] at hf

theorem Fresh.mem_deferred (h : a.Fresh g) (r : Register) (b : Nat) :
    (r, b) ∈ a.deferred ↔
      r ∈ a.registers ∧ r.isSlot = true ∧ b ∈ (FlowOrder.ofGraph g).late g := by
  have hlate : ∀ r, (trackOf g (FlowOrder.ofGraph g) a.summaries r).late
      = if r.isSlot = true then (FlowOrder.ofGraph g).late g else [] := by
    intro r
    unfold trackOf Track.ofRegister
    split <;> rfl
  rw [h.registers_eq, deferred, h.tracks]
  simp only [List.mem_flatMap, List.mem_map, Prod.mk.injEq]
  constructor
  · intro ⟨_, ⟨r', hr', ht⟩, c, hc, hreg, hcb⟩
    rw [← ht, register_trackOf] at hreg
    rw [← ht, hlate, hcb] at hc
    rw [← hreg]
    split at hc
    · rename_i hslot
      exact ⟨hr', hslot, hc⟩
    · exact absurd hc List.not_mem_nil
  · intro ⟨hr, hslot, hb⟩
    refine ⟨_, ⟨r, hr, rfl⟩, b, ?_, register_trackOf .., rfl⟩
    rw [hlate, if_pos hslot]
    exact hb

end Fresh

/-! ### After settling -/

/-- Settling does the same to all tracks, whether or not it renames them in the end. -/
theorem settle_track? (a : Analysis) (r : Register) : ∃ change : Track → Track,
    a.settle.analysis.track? r = (a.track? r).map change ∧ ∀ t,
      (change t).flow = (t.settle a.graph).1.flow ∧
        ∀ b, ((change t).uses.get b).isSome = (t.uses.get b).isSome := by
  have hregister : ∀ t : Track, ((Prod.fst ∘ Track.settle a.graph) t).register = t.register :=
    fun t => Track.register_settle a.graph t
  have hrenamed : ∀ t : Track,
      ((Track.rename ∘ Prod.fst ∘ Track.settle a.graph) t).register = t.register :=
    fun t => (Track.register_rename _).trans (hregister t)
  unfold track? settle
  simp only [List.map_map]
  split
  · refine ⟨_, Track.find?_map hregister r, fun t => ⟨rfl, fun b => ?_⟩⟩
    rw [Function.comp_apply, Track.uses_settle]
  · refine ⟨_, Track.find?_map hrenamed r, fun t => ⟨Track.flow_rename _, fun b => ?_⟩⟩
    rw [Function.comp_apply, Track.isSome_rename, Function.comp_apply, Track.uses_settle]

theorem settle_flow? (a : Analysis) (r : Register) :
    a.settle.analysis.flow? r = (a.track? r).bind fun t => (t.settle a.graph).1.flow := by
  obtain ⟨change, htrack, hchange⟩ := a.settle_track? r
  rw [flow?, htrack, Option.bind_map]
  congr 1
  funext t
  exact (hchange t).1

theorem graph_settle (a : Analysis) : a.settle.analysis.graph = a.graph := by
  unfold settle
  dsimp only
  split <;> rfl

theorem outcome_settle {a s : Analysis} (h : a.settle.outcome = .ok s) :
    s = { a with tracks := a.tracks.map fun t => (t.settle a.graph).1.rename } ∧
      ∀ t ∈ a.tracks, (t.settle a.graph).1.unreached? = none := by
  unfold settle at h
  simp only [List.map_map] at h
  split at h
  · simp [Settlement.outcome] at h
  · rename_i hnone
    simp only [Settlement.outcome, Except.ok.injEq] at h
    refine ⟨?_, ?_⟩
    · rw [← h]
      rfl
    · intro t ht
      have hall := List.findSome?_eq_none_iff.mp hnone ((t.settle a.graph).1)
        (List.mem_map.mpr ⟨t, ht, rfl⟩)
      exact Option.map_eq_none_iff.mp hall

theorem Fresh.track?_outcome {g : Graph} {a s : Analysis} (h : a.Fresh g)
    (hs : a.settle.outcome = .ok s) {r : Register} (hr : r ∈ a.registers) :
    s.track? r
      = some (((trackOf g (FlowOrder.ofGraph g) a.summaries r).settle g).1.rename) := by
  have hregister : ∀ t : Track, ((t.settle a.graph).1.rename).register = t.register :=
    fun t => (Track.register_rename _).trans (Track.register_settle _ t)
  rw [(outcome_settle hs).1, track?, Track.find?_map hregister, ← track?, h.track?_of_mem hr,
    h.graph]
  rfl

/-- Each settled track is the one that a query for its register finds. -/
theorem Fresh.track?_of_mem_outcome {g : Graph} {a s : Analysis} (h : a.Fresh g)
    (hs : a.settle.outcome = .ok s) {t : Track} (ht : t ∈ s.tracks) :
    s.track? t.register = some t := by
  rw [(outcome_settle hs).1] at ht
  obtain ⟨t₀, ht₀, rfl⟩ := List.mem_map.mp ht
  have hreg : ((t₀.settle a.graph).1.rename).register = t₀.register :=
    (Track.register_rename _).trans (Track.register_settle _ t₀)
  have hmem := ht₀
  rw [h.tracks] at hmem
  obtain ⟨r, _, rfl⟩ := List.mem_map.mp hmem
  rw [hreg, register_trackOf, h.graph]
  refine h.track?_outcome hs (List.mem_map.mpr ⟨_, ht₀, register_trackOf ..⟩)

end Analysis

end RegisterWeb
