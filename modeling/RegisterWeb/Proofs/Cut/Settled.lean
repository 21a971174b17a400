import Mathlib
import RegisterWeb.Proofs.Cut.Uses

/-!
Settled tracks of a graph in which a block was cut. Each register has the same versions after
merging, in the same places, so its live ranges are the same.
-/

namespace RegisterWeb

open RegisterWeb.Seam

theorem Webs.canonical_congr {w w' : Webs} (h : ∀ v, w'.root v = w.root v) (s : VersionSet) :
    w'.canonical s = w.canonical s := by
  rw [canonical, canonical, funext h]

theorem Track.merged_congr {f f' : Flow} (hversions : f'.versions = f.versions)
    (hroot : ∀ v, f'.webs.root v = f.webs.root v) : merged f' = merged f := by
  unfold merged
  simp only [hversions, hroot]

theorem Walk.after_map (current : VersionSet) (φ : Version → Version) (l : List Access) :
    after current (l.map fun x => { x with write := x.write.map φ })
      = match (l.filterMap Access.write).getLast? with
        | some w => [φ w]
        | none => current := by
  have hwrites : (l.map fun x => { x with write := x.write.map φ }).filterMap Access.write
      = (l.filterMap Access.write).map φ := by
    simp only [List.filterMap_map, List.map_filterMap]
    rfl
  rw [after, hwrites, List.getLast?_map]
  cases (l.filterMap Access.write).getLast? with
  | none => rfl
  | some w => rfl

theorem Track.regular_of_uses {t : Track}
    (h : ∀ b u, t.uses.get b = some u → u.Regular ∧ u.accesses ≠ []) : t.Regular := by
  constructor
  · intro b
    rw [readsFirst, accesses]
    cases hu : t.uses.get b with
    | none => rfl
    | some u => exact (h b u hu).1.readsFirst
  · intro b
    rw [isWritten, accesses]
    cases hu : t.uses.get b with
    | none => rfl
    | some u =>
      show (u.info.changes != 0) = u.accesses.any fun x => x.write.isSome
      rw [Bool.eq_iff_iff, bne_iff_ne, (h b u hu).1.changes, Ne, List.length_eq_zero_iff, Use.made,
        List.filterMap_eq_nil_iff, List.any_eq_true]
      simp [Option.isSome_iff_ne_none]
  · intro b
    rw [accesses]
    cases hu : t.uses.get b with
    | none => simp
    | some u => simpa using (h b u hu).2
  · intro b
    rw [accesses]
    cases hu : t.uses.get b with
    | none => exact fun x hx => absurd hx List.not_mem_nil
    | some u => exact (h b u hu).1.acts

namespace Analysis

section Tracks

variable {g : Graph} {us : List Usage} {a s : Analysis} {r : Register} {t : Track} {f : Flow}

/-- A use has accesses. -/
theorem accesses_ne_nil (hpart : Layout.Partition g.length g.blocks) (ha : ofUsages g us = .ok a)
    (hr : r ∈ a.registers) {b : Nat} {u : Use} (hu : a.use? b r = some u) : u.accesses ≠ [] := by
  have hsome : ∀ u₀, Use.ofTouches? (g.touchesAt us r b) = some u₀ → u₀.accesses ≠ [] := by
    intro u₀ hu₀ hnil
    rw [Use.ofTouches?] at hu₀
    split at hu₀
    · cases hu₀
    · rename_i hne
      cases hu₀
      obtain ⟨t, ts, hts⟩ := List.exists_cons_of_ne_nil hne
      rw [hts] at hnil
      cases hw : t.writes <;> simp [Use.ofAccesses, Touch.number, hw] at hnil
  have hfresh := fresh_of_ofUsages ha
  cases hslot : r.isSlot with
  | true =>
    obtain ⟨base, hbase⟩ := hfresh.use?_shifted hr hslot b
    rw [hbase, uses_eq hpart ha] at hu
    obtain ⟨u₀, hu₀, rfl⟩ := Option.map_eq_some_iff.mp hu
    exact fun hnil => hsome u₀ hu₀ (List.map_eq_nil_iff.mp hnil)
  | false =>
    rw [hfresh.use?_physical hr hslot, uses_eq hpart ha] at hu
    obtain ⟨u₀, hu₀, rfl⟩ := Option.map_eq_some_iff.mp hu
    exact fun hnil => hsome u₀ hu₀ (List.map_eq_nil_iff.mp hnil)

theorem Tracked.regular (h : Tracked g a s r t) (hpart : Layout.Partition g.length g.blocks)
    (ha : ofUsages g us = .ok a) (hr : r ∈ a.registers) : t.Regular := by
  have hfresh := fresh_of_ofUsages ha
  refine Track.regular_of_uses fun b u' hu' => ?_
  obtain ⟨φ, huse, hφ⟩ := h.uses b
  rw [huse] at hu'
  obtain ⟨u, hu, rfl⟩ := Option.map_eq_some_iff.mp hu'
  obtain ⟨hacc, hchanges, hreads⟩ := hφ u
  have hregular := (hfresh.regular_use? hr hu).mapWrites (s.canonical r)
  refine ⟨⟨?_, ?_, ?_⟩, ?_⟩
  · rw [Use.made, hchanges, hacc]
    exact hregular.changes
  · rw [hreads, hacc]
    exact hregular.readsFirst
  · rw [hacc]
    exact hregular.acts
  · rw [hacc]
    exact fun hnil => accesses_ne_nil hpart ha hr hu (List.map_eq_nil_iff.mp hnil)

/-- The settled track of a register. -/
def settledTrack (g : Graph) (a : Analysis) (r : Register) : Track :=
  ((trackOf g (FlowOrder.ofGraph g) a.summaries r).settle g).1.rename

theorem Fresh.tracks_outcome (h : a.Fresh g) (hs : a.settle.outcome = .ok s) :
    s.tracks = a.registers.map (settledTrack g a) := by
  rw [(outcome_settle hs).1, h.registers_eq, h.graph]
  show a.tracks.map _ = _
  rw [h.tracks, List.map_map]
  rfl

theorem register_settledTrack (g : Graph) (a : Analysis) (r : Register) :
    (settledTrack g a r).register = r := by
  rw [settledTrack, Track.register_rename, Track.register_settle, register_trackOf]

theorem flow_of_physical (hslot : r.isSlot = false) :
    (trackOf g (FlowOrder.ofGraph g) a.summaries r).flow = none := by
  simp [trackOf, Track.ofRegister, hslot, Track.ofPhysical]

theorem settledTrack_physical (hslot : r.isSlot = false) :
    settledTrack g a r = trackOf g (FlowOrder.ofGraph g) a.summaries r := by
  rw [settledTrack]
  simp only [Track.settle, Track.rename, flow_of_physical hslot]

theorem replaces_settledTrack (h : (settledTrack g a r).flow = some f) :
    (settledTrack g a r).replaces = Track.merged f := by
  rw [settledTrack, Track.flow_rename] at h
  simp only [settledTrack, Track.rename, h]

theorem Solved.versions_eq (h : a.Solved g r f) (hfresh : a.Fresh g) (hr : r ∈ a.registers)
    (hslot : r.isSlot = true) : f.versions = (numbering g a r).versions := by
  obtain ⟨before, hbefore, halike⟩ := h.start
  obtain ⟨first, hfirst, _, _, hstart⟩ := hfresh.exists_flow hr hslot
  cases hbefore.symm.trans hfirst
  have hframe := ((Flow.tidy_initial g.size (numbering g a r)).withEffects g).1.frame
  rw [halike.versions, hstart.versions, hframe]
  rfl

theorem Fresh.tracked_settledTrack (h : a.Fresh g) (hg : g.WellFormed)
    (hs : a.settle.outcome = .ok s) (hr : r ∈ a.registers)
    (hwrites : a.writes r < UInt32.size - 2) : Tracked g a s r (settledTrack g a r) := by
  obtain ⟨t, ht⟩ := h.tracked hg hs hr hwrites
  cases (h.track?_outcome hs hr).symm.trans ht.track
  exact ht

end Tracks

namespace Cut

variable {g g' : Graph} {i b : Nat} {us : List Usage} {a a' s s' : Analysis} {r : Register}

/-- A register that enters the blocks as before, with the versions merged as before, does in the
parts what it did in the whole block. -/
theorem trackCut (h : Cut g g' i us a a') (hr : r ∈ a.registers)
    (ht : Tracked g a s r (settledTrack g a r)) (ht' : Tracked g' a' s' r (settledTrack g' a' r))
    (hcanonical : s'.canonical r = s.canonical r)
    (hentering : ∀ b, (settledTrack g' a' r).entering (head i b) = (settledTrack g a r).entering b)
    (hsucc : (settledTrack g' a' r).entering (i + 1)
      = match ((a'.accesses i r).filterMap Access.write).getLast? with
        | some w => [s.canonical r w]
        | none => (settledTrack g a r).entering i) :
    (settledTrack g a r).Cut i (settledTrack g' a' r) := by
  have hr' : r ∈ a'.registers := h.registers_eq ▸ hr
  refine ⟨ht.regular h.part h.usages hr, ht'.regular h.part' h.usages' hr', ?_, ?_, hentering, ?_⟩
  · intro b hb
    rw [ht.accesses_eq, ht'.accesses_eq, h.accesses_head hr hb, hcanonical]
  · rw [ht.accesses_eq, ht'.accesses_eq, ht'.accesses_eq, h.accesses_self hr, List.map_append,
      hcanonical]
  · rw [hsucc, ht'.accesses_eq, hcanonical, Walk.after_map]

/-- A physical register enters and leaves every block with its entry version. -/
theorem trackCut_physical (h : Cut g g' i us a a') (hr : r ∈ a.registers)
    (ht : Tracked g a s r (settledTrack g a r)) (ht' : Tracked g' a' s' r (settledTrack g' a' r))
    (hslot : r.isSlot = false) : (settledTrack g a r).Cut i (settledTrack g' a' r) := by
  have hr' : r ∈ a'.registers := h.registers_eq ▸ hr
  have hflow : (settledTrack g a r).flow = none := by
    rw [settledTrack_physical hslot, flow_of_physical hslot]
  have hflow' : (settledTrack g' a' r).flow = none := by
    rw [settledTrack_physical hslot, flow_of_physical hslot]
  have hcanonical : s.canonical r = id := by
    funext v
    simp only [canonical, ht.track, Track.canonical, hflow, id_eq]
  have hcanonical' : s'.canonical r = id := by
    funext v
    simp only [canonical, ht'.track, Track.canonical, hflow', id_eq]
  refine h.trackCut hr ht ht' (hcanonical'.trans hcanonical.symm) ?_ ?_
  · intro b
    simp only [Track.entering, hflow, hflow']
  · simp only [Track.entering, hflow, hflow', hcanonical]
    cases hlast : ((a'.accesses i r).filterMap Access.write).getLast? with
    | none => rfl
    | some w =>
      rw [accesses_physical h.part' h.usages' hr' hslot] at hlast
      obtain ⟨x, hx, hw⟩ := List.mem_filterMap.mp (List.mem_of_getLast? hlast)
      obtain ⟨y, _, rfl⟩ := List.mem_map.mp hx
      rw [Touch.fixed] at hw
      split at hw
      · cases hw
        rfl
      · cases hw

theorem trackCut_slot (h : Cut g g' i us a a') (hr : r ∈ a.registers)
    (hs : a.settle.outcome = .ok s) (hs' : a'.settle.outcome = .ok s')
    (ht : Tracked g a s r (settledTrack g a r)) (ht' : Tracked g' a' s' r (settledTrack g' a' r))
    (hslot : r.isSlot = true) (hwrites : a.writes r < UInt32.size - 2) :
    (settledTrack g a r).Cut i (settledTrack g' a' r) ∧
      (settledTrack g' a' r).replaces = (settledTrack g a r).replaces := by
  have hr' : r ∈ a'.registers := h.registers_eq ▸ hr
  obtain ⟨t, f, hst, hf⟩ := h.fresh.settled h.graph hs hr hslot
  obtain ⟨t', f', hst', hf'⟩ := h.fresh'.settled h.graph' hs' hr' hslot
  cases hst.symm.trans ht.track
  cases hst'.symm.trans ht'.track
  have hcut := h.solvedCut hr hslot hwrites hf.toSolved hf'.toSolved
  have hcanonical : s'.canonical r = s.canonical r := by
    funext v
    rw [hf.canonical_eq hst, hf'.canonical_eq hst', hcut.root_eq]
  have hentering : ∀ b, (settledTrack g' a' r).entering (head i b)
      = (settledTrack g a r).entering b := by
    intro b
    simp only [Track.entering, hf.flow, hf'.flow, hcut.entering_head,
      Webs.canonical_congr hcut.root_eq]
  refine ⟨h.trackCut hr ht ht' hcanonical hentering ?_, ?_⟩
  · have hself := hcut.entering_head i
    rw [head_self] at hself
    simp only [Track.entering, hf.flow, hf'.flow, hcut.entering_succ, Flow.leaving, hself,
      hf'.made_eq h.fresh' hr' hslot (h.writes_eq hr ▸ hwrites), Webs.canonical_congr hcut.root_eq]
    cases ((a'.accesses i r).filterMap Access.write).getLast? with
    | none => rfl
    | some w =>
      show f.webs.canonical [w] = [s.canonical r w]
      rw [hf.canonical_eq hst]
      rfl
  · rw [replaces_settledTrack hf.flow, replaces_settledTrack hf'.flow]
    refine Track.merged_congr ?_ hcut.root_eq
    rw [hf.toSolved.versions_eq h.fresh hr hslot, hf'.toSolved.versions_eq h.fresh' hr' hslot,
      h.versions_eq]

/-- The settled tracks of a register match, and the same versions are replaced. -/
theorem settledTrack_cut (h : Cut g g' i us a a') (hs : a.settle.outcome = .ok s)
    (hs' : a'.settle.outcome = .ok s') (hr : r ∈ a.registers)
    (hwrites : a.writes r < UInt32.size - 2) :
    (settledTrack g a r).Cut i (settledTrack g' a' r) ∧
      (settledTrack g' a' r).replaces = (settledTrack g a r).replaces := by
  have hr' : r ∈ a'.registers := h.registers_eq ▸ hr
  have ht := h.fresh.tracked_settledTrack h.graph hs hr hwrites
  have ht' := h.fresh'.tracked_settledTrack h.graph' hs' hr' (h.writes_eq hr ▸ hwrites)
  cases hslot : r.isSlot with
  | true => exact h.trackCut_slot hr hs hs' ht ht' hslot hwrites
  | false =>
    refine ⟨h.trackCut_physical hr ht ht' hslot, ?_⟩
    rw [settledTrack_physical hslot, settledTrack_physical hslot]
    simp [trackOf, Track.ofRegister, hslot, Track.ofPhysical]

end Cut

end Analysis

end RegisterWeb
