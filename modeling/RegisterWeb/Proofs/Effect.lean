import RegisterWeb.Proofs.Flow
import RegisterWeb.Proofs.Routine
import RegisterWeb.Track.Effect

/-!
The effects of routines at the end of their rounds. A routine is looked at with the inherited
version at its entry. The sets inside it are closed under its ordinary edges, and whatever they hold
at its exits is part of its effect, for the effects of all routines at once.
-/

namespace RegisterWeb

namespace Flow

/-! ### Receiving -/

theorem Tidy.room_receive {f : Flow} (h : f.Tidy) (b : Nat) {s : VersionSet} (hs : Ascending s) :
    (f.receive b s).room + (f.receive b s).entering.weight = f.room + f.entering.weight := by
  have hbefore := h.room_eq
  have hafter := (h.receive b hs).room_eq
  have hsize : (f.receive b s).entering.size = f.entering.size := Table.size_set ..
  have hwebs : (f.receive b s).webs = f.webs := rfl
  rw [hsize, hwebs] at hafter
  omega

theorem Tidy.receive_still {f : Flow} (h : f.Tidy) {b : Nat} {s : VersionSet} (hs : Ascending s)
    (hroom : f.room ≤ (f.receive b s).room) :
    f.receive b s = f ∧ (b < f.entering.size → s ⊆ f.entering.get b) := by
  have hbalance := h.room_receive b hs
  have hweight : (f.receive b s).entering.weight ≤ f.entering.weight := by omega
  obtain ⟨hsame, hsub⟩ := Table.union_eq_of_weight_le (h.entering b) hs hweight
  refine ⟨?_, hsub⟩
  unfold Flow.receive
  rw [hsame]

theorem below_receive (f : Flow) (b : Nat) (s : VersionSet) : f.Below (f.receive b s) := by
  refine ⟨rfl, rfl, ?_⟩
  intro c v hv
  simp only [receive, Table.get_set]
  split
  · rename_i hbc
    obtain ⟨rfl, _⟩ := hbc
    exact (VersionSet.mem_union _ _ v).mpr (Or.inl hv)
  · exact hv

/-! ### Spreading -/

/-- What a round inside a routine keeps: the sets are in order and only grow. -/
structure Within (start f : Flow) : Prop where
  tidy : f.Tidy
  below : start.Below f
  size : f.entering.size = start.entering.size

theorem Within.receive {start f : Flow} (h : start.Within f) (c : Nat) {s : VersionSet}
    (hs : Ascending s) : start.Within (f.receive c s) :=
  ⟨h.tidy.receive c hs, h.below.trans (below_receive f c s), (Table.size_set ..).trans h.size⟩

section Spread

variable {g : Graph} {start f : Flow} {b : Nat}

theorem Within.spread (h : start.Within f) (g : Graph) (b : Nat) :
    start.Within (f.spread g b) :=
  foldl_keeps (fun f c (hf : start.Within f) => hf.receive c (hf.tidy.passing g b)) _ f h

theorem Within.room_spread_le (h : start.Within f) (g : Graph) (b : Nat) :
    (f.spread g b).room ≤ f.room :=
  room_foldl_le (fun f c (hf : start.Within f) => hf.receive c (hf.tidy.passing g b))
    (fun f c _ => room_receive_le f c (f.passing g b)) _ f h

theorem Within.spread_still (h : start.Within f) (hroom : f.room ≤ (f.spread g b).room) :
    (∀ c ∈ (g.block b).successors, c < f.entering.size → f.passing g b ⊆ f.entering.get c) ∧
      f.spread g b = f := by
  have hstill := foldl_still
    (fun f c (hf : start.Within f) => hf.receive c (hf.tidy.passing g b))
    (fun f c _ => room_receive_le f c (f.passing g b))
    (fun f c (hf : start.Within f) hr => (hf.tidy.receive_still (hf.tidy.passing g b) hr).1)
    (g.block b).successors f h hroom
  refine ⟨?_, hstill.2⟩
  intro c hc
  have heq := hstill.1 c hc
  exact (h.tidy.receive_still (h.tidy.passing g b) (Nat.le_of_eq (congrArg room heq).symm)).2

end Spread

/-! ### The body of a routine -/

section Body

variable {g : Graph} {f : Flow}

/-- The flow with the inherited version at the entry of a routine and nothing elsewhere. -/
def opening (f : Flow) (r : Routine) : Flow :=
  { f with entering := (Table.blank f.entering.size).set r.entry [Version.inherited] }

theorem Tidy.opening (h : f.Tidy) (r : Routine) : (f.opening r).Tidy := by
  refine ⟨h.effects, ?_, h.webs⟩
  intro b
  simp only [Flow.opening, Table.get_set, Table.get_blank]
  split
  · exact List.pairwise_singleton _ _
  · exact List.Pairwise.nil

theorem Tidy.body (h : f.Tidy) (g : Graph) (r : Routine) :
    (f.opening r).Within (f.body g r) ∧
      ∀ b ∈ r.blocks, ∀ c ∈ (g.block b).successors, c < f.entering.size →
        (f.body g r).passing g b ⊆ (f.body g r).entering.get c := by
  have hstart : (f.opening r).Within (f.opening r) := ⟨h.opening r, Below.refl _, rfl⟩
  obtain ⟨hwithin, hstill⟩ := saturate_still
    (fun s b (hs : (f.opening r).Within s) => hs.spread g b)
    (fun s b (hs : (f.opening r).Within s) => hs.room_spread_le g b)
    (fun s b (hs : (f.opening r).Within s) hr => (hs.spread_still hr).2) r.blocks _ hstart
  refine ⟨hwithin, ?_⟩
  intro b hb c hc hlt
  have heq := hstill b hb
  apply (hwithin.spread_still (Nat.le_of_eq (congrArg room heq).symm)).1 c hc
  rw [hwithin.size]
  simpa [Flow.opening] using hlt

theorem Tidy.exits (h : f.Tidy) (g : Graph) (r : Routine) : Ascending (f.exits g r) := by
  have hbody := (h.body g r).1.tidy
  exact Ascending.ascending_union
    (Ascending.ascending_gather _ _ fun b _ => hbody.leaving b)
    (Ascending.ascending_gather _ _ fun b _ => hbody.passing g b)

theorem mem_exits {r : Routine} {v : Version} :
    v ∈ f.exits g r ↔
      (∃ b ∈ r.returns, v ∈ (f.body g r).leaving b) ∨
        ∃ b ∈ r.tailCalls, v ∈ (f.body g r).passing g b := by
  simp [exits]

end Body

/-! ### Rounds over all routines -/

/-- What learning keeps: only the effects change. -/
structure Learns (start f : Flow) : Prop where
  tidy : f.Tidy
  frame : f = { start with effects := f.effects }
  size : f.effects.size = start.effects.size

section Learn

variable {g : Graph} {start f : Flow}

theorem Learns.learn (h : start.Learns f) (g : Graph) (r : Routine) :
    start.Learns (f.learn g r) := by
  refine ⟨⟨?_, h.tidy.entering, h.tidy.webs⟩, ?_, (Table.size_set ..).trans h.size⟩
  · intro b
    simp only [Flow.learn, Table.get_set]
    split
    · exact Ascending.ascending_union (h.tidy.effects r.entry) (h.tidy.exits g r)
    · exact h.tidy.effects b
  · simp only [Flow.learn]
    rw [h.frame]

theorem effectRoom_learn_le (g : Graph) (f : Flow) (r : Routine) :
    (f.learn g r).effectRoom ≤ f.effectRoom := by
  have hweight := Table.weight_le_set
    (Ascending.length_le_union (f.effects.get r.entry) (f.exits g r))
  simp only [effectRoom, learn, Table.size_set, VersionSet.union]
  omega

theorem Tidy.learn_still (h : f.Tidy) {r : Routine}
    (hroom : f.effectRoom ≤ (f.learn g r).effectRoom) :
    f.learn g r = f ∧ (r.entry < f.effects.size → f.exits g r ⊆ f.effects.get r.entry) := by
  have hfull := Table.weight_le h.effects
  have hweight : (f.learn g r).effects.weight ≤ f.effects.weight := by
    have hle := Table.weight_le_set
      (Ascending.length_le_union (f.effects.get r.entry) (f.exits g r))
    simp only [effectRoom, learn, Table.size_set, VersionSet.union] at hroom hle ⊢
    have hlimit : (f.effects.set r.entry
        (Ascending.union (f.effects.get r.entry) (f.exits g r))).weight
          ≤ UInt32.size * f.effects.size := by
      have hlearned := Table.weight_le
        ((⟨h, rfl, rfl⟩ : f.Learns f).learn g r).tidy.effects
      rwa [Flow.learn, Table.size_set] at hlearned
    omega
  obtain ⟨hsame, hsub⟩ := Table.union_eq_of_weight_le (h.effects r.entry) (h.exits g r) hweight
  refine ⟨?_, hsub⟩
  unfold learn
  simp only [hsame]

/-- At the end only the effects have changed, and each routine's exits are part of its effect. -/
theorem Tidy.withEffects (h : f.Tidy) (g : Graph) :
    f.Learns (f.withEffects g) ∧
      ∀ r ∈ g.routines, r.entry < f.effects.size →
        (f.withEffects g).exits g r ⊆ (f.withEffects g).effects.get r.entry := by
  obtain ⟨hlearns, hstill⟩ := saturate_still
    (fun s r (hs : f.Learns s) => hs.learn g r)
    (fun s r _ => effectRoom_learn_le g s r)
    (fun s r (hs : f.Learns s) hr => (hs.tidy.learn_still hr).1) g.routines f ⟨h, rfl, rfl⟩
  refine ⟨hlearns, ?_⟩
  intro r hr hlt
  have heq := hstill r hr
  apply (hlearns.tidy.learn_still (Nat.le_of_eq (congrArg effectRoom heq).symm)).2
  rw [hlearns.size]
  exact hlt

/-! ### What an effect says about the inside of a routine -/

/-- A flow inside a routine that is closed under its ordinary edges, starts from the inherited
version, and whose exits are part of the effect of the routine. -/
structure Summarized (g : Graph) (f : Flow) (r : Routine) (inner : Flow) : Prop where
  made : inner.made = f.made
  effects : inner.effects = f.effects
  entry : Version.inherited ∈ inner.entering.get r.entry
  closed : ∀ b ∈ r.blocks, ∀ c ∈ (g.block b).successors,
    inner.passing g b ⊆ inner.entering.get c
  returns : ∀ b ∈ r.returns, inner.leaving b ⊆ f.effects.get r.entry
  tailCalls : ∀ b ∈ r.tailCalls, inner.passing g b ⊆ f.effects.get r.entry

/-- If the exits of a routine are part of its effect, the flow through its body is such a flow. -/
theorem Tidy.summarized_of_exits (h : f.Tidy) (hg : g.WellFormed)
    (hentering : f.entering.size = g.size) {r : Routine} (hr : r ∈ g.routines)
    (hexits : f.exits g r ⊆ f.effects.get r.entry) : Summarized g f r (f.body g r) := by
  obtain ⟨hwithin, hclosed⟩ := h.body g r
  refine ⟨hwithin.below.made, hwithin.below.effects, ?_, ?_, ?_, ?_⟩
  · apply hwithin.below.entering r.entry
    simp only [Flow.opening, Table.get_set, Table.size_blank, hentering, hg.entry_lt hr, and_self,
      if_true]
    exact List.mem_singleton.mpr rfl
  · intro b hb c hc
    exact hclosed b hb c hc (hentering.symm ▸ hg.successor_lt hc)
  · intro b hb v hv
    exact hexits (mem_exits.mpr (Or.inl ⟨b, hb, hv⟩))
  · intro b hb v hv
    exact hexits (mem_exits.mpr (Or.inr ⟨b, hb, hv⟩))

theorem Tidy.summarized (h : f.Tidy) (hg : g.WellFormed) (hentering : f.entering.size = g.size)
    (heffects : f.effects.size = g.size) {r : Routine} (hr : r ∈ g.routines) :
    Summarized g (f.withEffects g) r ((f.withEffects g).body g r) := by
  obtain ⟨hlearns, hexits⟩ := h.withEffects g
  have hsize : (f.withEffects g).entering.size = g.size := by
    rw [hlearns.frame]
    exact hentering
  exact hlearns.tidy.summarized_of_exits hg hsize hr
    (hexits r hr (heffects.symm ▸ hg.entry_lt hr))

end Learn

end Flow

end RegisterWeb
