import Mathlib
import RegisterWeb.Proofs.Canonical
import RegisterWeb.Proofs.Queue

/-!
Registers do not get in each other's way. What is said of a register depends on the graph and on the
usages of that register alone: its accesses, the versions that enter and leave each block, how they
are merged, what routines leave behind, and where its instances are live. That all registers wait in
one line to be settled makes no difference.
-/

namespace RegisterWeb

/-! ### The usages of one register -/

theorem Touch.of?_filter (r : Register) (instr : List Usage) :
    of? r (instr.filter fun u => u.register == r) = of? r instr := by
  simp only [of?, List.filter_filter, Bool.and_self]

theorem Touch.of?_eq_none {r : Register} {instr : List Usage} (h : ∀ u ∈ instr, u.register ≠ r) :
    of? r instr = none := by
  have hnil : instr.filter (fun u => u.register == r) = [] := by
    refine List.filter_eq_nil_iff.mpr fun u hu heq => h u hu (beq_iff_eq.mp heq)
  simp only [of?, hnil]

/-- The touches of a register are those of its own usages. -/
theorem Summary.touches_filter {us : List Usage}
    (hus : us.Pairwise fun a b => a.offset.toInt ≤ b.offset.toInt) (r : Register) :
    touches (us.filter fun u => u.register == r) r = touches us r := by
  have hoffsets : Usage.offsets (us.filter fun u => u.register == r)
      = (Usage.offsets us).filter fun p => us.any fun u => u.register == r && u.offset == p := by
    refine Ascending.eq_of_mem_iff (Usage.ascending_offsets _)
      ((Usage.ascending_offsets us).filter _) fun p => ?_
    simp only [Usage.mem_offsets, List.mem_filter, List.any_eq_true, Bool.and_eq_true, beq_iff_eq]
    grind
  rw [touches, touches, instructions_eq hus, instructions_eq (hus.filter _), hoffsets,
    List.filterMap_map, List.filterMap_map, List.filterMap_filter]
  refine List.filterMap_congr fun p _ => ?_
  simp only [Function.comp_apply]
  split
  · rw [← Touch.of?_filter r (us.filter fun u => u.offset == p), List.filter_filter,
      List.filter_filter]
    congr 2
    funext u
    exact Bool.and_comm ..
  · rename_i hnone
    refine (Touch.of?_eq_none fun u hu hreg => hnone ?_).symm
    obtain ⟨hmem, hp⟩ := List.mem_filter.mp hu
    exact List.any_eq_true.mpr ⟨u, hmem, by rw [hreg, hp, beq_self_eq_true, Bool.and_self]⟩

theorem Summary.mem_registers {s : Summary} {r : Register} :
    r ∈ s.registers ↔ s.use? r ≠ none := by
  rw [registers, use?, Ne, List.lookup_eq_none_iff, List.mem_map]
  constructor
  · intro hr hnone
    obtain ⟨p, hp, rfl⟩ := hr
    simpa using hnone p hp
  · intro hsome
    by_contra hr
    refine hsome fun p hp => bne_iff_ne.mpr fun heq => hr ⟨p, hp, heq.symm⟩

namespace Analysis

variable {g : Graph} {us us' : List Usage} {a a' s s' : Analysis} {r : Register}

theorem mapM_place_filter {placed : List (Nat × Usage)} (h : us.mapM (place g) = .ok placed)
    (test : Usage → Bool) :
    (us.filter test).mapM (place g) = .ok (placed.filter fun p => test p.2) := by
  induction us generalizing placed with
  | nil =>
    cases h
    rfl
  | cons u us ih =>
    rw [List.mapM_cons] at h
    obtain ⟨p, hp, h⟩ := bind_eq_ok.mp h
    obtain ⟨ps, hps, h⟩ := bind_eq_ok.mp h
    cases h
    rw [List.filter_cons, List.filter_cons, snd_of_place hp]
    split
    · rw [List.mapM_cons, hp, ih hps]
      rfl
    · exact ih hps

theorem use?_summarize {placed : List (Nat × Usage)}
    (h : (Usage.sort us).mapM (place g) = .ok placed) (r : Register) (b : Nat) :
    ((summarize g placed).get b).use? r = if b < g.size then
      Use.ofTouches? (Summary.touches
        (((placed.filter fun p => p.2.register == r).filter fun p => p.1 == b).map Prod.snd) r)
      else none := by
  rw [summarize, Table.get_tabulate]
  split
  · rw [Summary.use?_eq, ← Summary.touches_filter (pairwise_placed h _), List.filter_map,
      List.filter_filter, List.filter_filter, Use.ofTouches?]
    simp only [Function.comp_apply, Bool.and_comm]
  · rfl

/-- The uses that the blocks make of a register are given by its own usages. -/
theorem use?_summaries_eq
    (hsame : (Usage.sort us).filter (fun u => u.register == r)
      = (Usage.sort us').filter fun u => u.register == r)
    (ha : ofUsages g us = .ok a) (ha' : ofUsages g us' = .ok a') (b : Nat) :
    (a.summaries.get b).use? r = (a'.summaries.get b).use? r := by
  obtain ⟨placed, hplaced, hok⟩ := bind_eq_ok.mp ha
  obtain ⟨placed', hplaced', hok'⟩ := bind_eq_ok.mp ha'
  have hmine := mapM_place_filter hplaced fun u => u.register == r
  rw [hsame, mapM_place_filter hplaced' fun u => u.register == r] at hmine
  have hfilter := Except.ok.inj hmine
  cases hok
  cases hok'
  show ((summarize g placed).get b).use? r = ((summarize g placed').get b).use? r
  rw [use?_summarize hplaced, use?_summarize hplaced', hfilter]

theorem Fresh.mem_registers (h : a.Fresh g) :
    r ∈ a.registers ↔ ∃ b < g.size, (a.summaries.get b).use? r ≠ none := by
  obtain ⟨placed, hplaced⟩ := h.summaries
  rw [h.registers_eq, registersOf, Register.mem_sort, List.mem_eraseDups, List.mem_flatMap, hplaced,
    summarize, Table.toList, Table.tabulate, Array.toList_map, Array.toList_range]
  constructor
  · intro hr
    obtain ⟨s, hs, hr⟩ := hr
    obtain ⟨b, hb, rfl⟩ := List.mem_map.mp hs
    refine ⟨b, List.mem_range.mp hb, ?_⟩
    rw [← Table.tabulate, Table.get_tabulate, if_pos (List.mem_range.mp hb)]
    exact Summary.mem_registers.mp hr
  · intro hr
    obtain ⟨b, hb, hr⟩ := hr
    rw [← Table.tabulate, Table.get_tabulate, if_pos hb] at hr
    exact ⟨_, List.mem_map_of_mem (List.mem_range.mpr hb), Summary.mem_registers.mpr hr⟩

/-- Analyses whose blocks use a register alike have the same settled track for it. -/
theorem Fresh.track?_congr (h : a.Fresh g) (h' : a'.Fresh g) (hs : a.settle.outcome = .ok s)
    (hs' : a'.settle.outcome = .ok s')
    (huse : ∀ b, (a.summaries.get b).use? r = (a'.summaries.get b).use? r) :
    s.track? r = s'.track? r := by
  have hmem : r ∈ a.registers ↔ r ∈ a'.registers := by
    simp only [h.mem_registers, h'.mem_registers, huse]
  by_cases hr : r ∈ a.registers
  · have htrack : trackOf g (FlowOrder.ofGraph g) a.summaries r
        = trackOf g (FlowOrder.ofGraph g) a'.summaries r := by
      simp only [trackOf, huse]
    rw [h.track?_outcome hs hr, h'.track?_outcome hs' (hmem.mp hr), htrack]
  · rw [track?_outcome_eq_none hs hr, track?_outcome_eq_none hs' (mt hmem.mpr hr)]

end Analysis

/-! ### The instances of one register -/

theorem LiveInstance.map_number (banks : List Bank) (l : List (Instance × Ranges)) :
    (number banks l).map (fun i => (i.inst, i.ranges)) = l := by
  induction l generalizing banks with
  | nil => rfl
  | cons e l ih => rw [number, List.map_cons, ih]

namespace Analysis

variable {g : Graph} {us us' : List Usage} {a a' s s' : Analysis} {r : Register}

/-- The live instances of a register, each with its ranges. -/
def liveRanges (a : Analysis) (r : Register) : VersionRanges :=
  ((LiveInstance.ofAnalysis a).filter fun i => i.inst.register == r).map
    fun i => (i.inst.version, i.ranges)

theorem filter_instances (q r : Register) (m : VersionRanges) :
    ((m.map fun (v, rs) => ((⟨q, v⟩ : Instance), rs)).filter fun e => e.1.register == r).map
        (fun e => (e.1.version, e.2)) = if q = r then m else [] := by
  by_cases h : q = r
  · subst h
    simp [List.filter_map, Function.comp_def]
  · simp [List.filter_map, Function.comp_def, h]

theorem Fresh.liveRanges_eq (h : a.Fresh g) (hs : a.settle.outcome = .ok s) (r : Register) :
    s.liveRanges r
      = ((s.track? r).map (LiveInstance.rangesOf g g.order g.scopes)).getD [] := by
  have hlist : s.liveRanges r =
      ((s.tracks.flatMap fun t => (LiveInstance.rangesOf g g.order g.scopes t).map
        fun (v, rs) => ((⟨t.register, v⟩ : Instance), rs)).filter fun e => e.1.register == r).map
          fun e => (e.1.version, e.2) := by
    rw [← h.order_outcome hs, ← h.graph_outcome hs]
    conv_rhs => rw [← LiveInstance.map_number [] (s.tracks.flatMap _)]
    rw [List.filter_map, List.map_map]
    rfl
  have hone : ∀ q, (if q = r then
      LiveInstance.rangesOf g g.order g.scopes (settledTrack g a q) else [])
      = if q = r then LiveInstance.rangesOf g g.order g.scopes (settledTrack g a r) else [] := by
    intro q
    by_cases hq : q = r
    · rw [hq]
    · rw [if_neg hq, if_neg hq]
  rw [hlist, h.tracks_outcome hs, List.flatMap_map, List.filter_flatMap, List.map_flatMap]
  simp only [filter_instances, register_settledTrack, hone]
  rw [flatMap_ite h.nodup_registers]
  by_cases hr : r ∈ a.registers
  · have htrack : s.track? r = some (settledTrack g a r) := h.track?_outcome hs hr
    rw [if_pos hr, htrack]
    rfl
  · rw [if_neg hr, track?_outcome_eq_none hs hr]
    rfl

/-! ### Two analyses -/

/-- Whether the caller's value of a register may survive the routine entered at a block. -/
def isTransparent (a : Analysis) (r : Register) (entry : Nat) : Bool :=
  (a.track? r).all fun t => t.isTransparent entry

/-- Two analyses say the same of a register. -/
structure AgreeOn (r : Register) (s s' : Analysis) : Prop where
  use : ∀ b, s.use? b r = s'.use? b r
  entering : ∀ b, s.entering b r = s'.entering b r
  leaving : ∀ b, s.leaving b r = s'.leaving b r
  canonical : ∀ v, s.canonical r v = s'.canonical r v
  transparent : ∀ entry, s.isTransparent r entry = s'.isTransparent r entry
  definitions : ∀ entry, s.definitions r entry = s'.definitions r entry
  versions : s.versions r = s'.versions r
  replaces : s.replacesOf r = s'.replacesOf r
  ranges : s.liveRanges r = s'.liveRanges r

/-- The track of a register says all that is said of it. -/
theorem Fresh.agreeOn (h : a.Fresh g) (h' : a'.Fresh g) (hs : a.settle.outcome = .ok s)
    (hs' : a'.settle.outcome = .ok s') (htrack : s.track? r = s'.track? r) : AgreeOn r s s' where
  use b := by rw [use?, use?, htrack]
  entering b := by rw [Analysis.entering, Analysis.entering, htrack]
  leaving b := by rw [Analysis.leaving, Analysis.leaving, htrack]
  canonical v := by rw [Analysis.canonical, Analysis.canonical, htrack]
  transparent entry := by rw [isTransparent, isTransparent, htrack]
  definitions entry := by rw [Analysis.definitions, Analysis.definitions, htrack]
  versions := by rw [Analysis.versions, Analysis.versions, htrack]
  replaces := by rw [h.replacesOf_eq hs, h'.replacesOf_eq hs', htrack]
  ranges := by rw [h.liveRanges_eq hs, h'.liveRanges_eq hs', htrack]

theorem flow?_outcome (hs : a.settle.outcome = .ok s) : a.settle.analysis.flow? r = s.flow? r := by
  unfold Settlement.outcome at hs
  split at hs
  · cases hs
  · rw [Except.ok.inj hs]

/-- Two lists of usages that hold the same usages of a register say the same of it, whatever else
they use. In both the line of tasks comes to an end, and it leaves the register with its one flow. -/
theorem registers_apart
    (hsame : (Usage.sort us).filter (fun u => u.register == r)
      = (Usage.sort us').filter fun u => u.register == r)
    (ha : ofUsages g us = .ok a) (ha' : ofUsages g us' = .ok a')
    (hs : a.settle.outcome = .ok s) (hs' : a'.settle.outcome = .ok s') :
    AgreeOn r s s' ∧ (∃ e, Agenda.Ends g a e) ∧ (∃ e', Agenda.Ends g a' e') ∧
      ∀ e e', Agenda.Ends g a e → Agenda.Ends g a' e' →
        e.flows r = s.flow? r ∧ e'.flows r = s.flow? r := by
  have h := fresh_of_ofUsages ha
  have h' := fresh_of_ofUsages ha'
  have htrack := h.track?_congr h' hs hs' (use?_summaries_eq hsame ha ha')
  obtain ⟨hend, hflow⟩ := h.line_ends
  obtain ⟨hend', hflow'⟩ := h'.line_ends
  refine ⟨h.agreeOn h' hs hs' htrack, hend, hend', ?_⟩
  intro e e' he he'
  rw [hflow e he, hflow' e' he', flow?_outcome hs, flow?_outcome hs', flow?, flow?, htrack]
  exact ⟨rfl, rfl⟩

end Analysis

/-! ### A loop that two registers go through -/

theorem Flow.drain_entering (g : Graph) (f : Flow) (queue : List Nat) (tasks : Nat) :
    (f.drain g queue tasks).1.entering.size = f.entering.size ∧
      ∀ b, f.entering.get b ⊆ (f.drain g queue tasks).1.entering.get b := by
  have hlook : ∀ (f : Flow) (b : Nat), (f.process g b).2.entering.size = f.entering.size ∧
      ∀ c, f.entering.get c ⊆ (f.process g b).2.entering.get c := by
    intro f b
    refine ⟨by rw [process_entering, Table.size_set], ?_⟩
    exact fun c v hv => (mem_process_entering g f b).mpr (Or.inl hv)
  fun_induction Flow.drain g f queue tasks with
  | case1 f tasks => exact ⟨rfl, fun b => List.Subset.refl _⟩
  | case2 f tasks b rest look hnews ih =>
    obtain ⟨hsize, hkeeps⟩ := hlook f b
    exact ⟨ih.1.trans hsize, fun c => List.Subset.trans (hkeeps c) (ih.2 c)⟩
  | case3 f tasks b rest look hnews ih =>
    obtain ⟨hsize, hkeeps⟩ := hlook f b
    exact ⟨ih.1.trans hsize, fun c => List.Subset.trans (hkeeps c) (ih.2 c)⟩

theorem Track.unreached?_settle {g : Graph} {t : Track} (h : t.unreached? = none) :
    (t.settle g).1.unreached? = none := by
  cases hf : t.flow with
  | none => simp only [settle, hf, unreached?, Option.bind_none]
  | some f =>
    obtain ⟨hsize, hkeeps⟩ := Flow.drain_entering g f (Flow.enqueue [] t.late) 0
    simp only [unreached?, hf, Option.bind_some, List.find?_eq_none, List.mem_range,
      Bool.and_eq_true, List.isEmpty_iff] at h
    simp only [settle, hf, unreached?, Option.bind_some, List.find?_eq_none, List.mem_range,
      Bool.and_eq_true, List.isEmpty_iff, hsize]
    intro b hb hempty
    refine h b hb ⟨hempty.1, List.subset_nil.mp ?_⟩
    rw [← hempty.2]
    exact hkeeps b

/-- Settling does not fail if every value that is read is defined before. -/
theorem Analysis.exists_outcome {a : Analysis} (h : a.unreached? = none) :
    ∃ s, a.settle.outcome = .ok s := by
  have hafter : ({ a with tracks := (a.tracks.map (Track.settle a.graph)).map Prod.fst } :
      Analysis).unreached? = none := by
    rw [unreached?, List.findSome?_eq_none_iff] at h ⊢
    intro after hafter
    obtain ⟨_, hmem, rfl⟩ := List.mem_map.mp hafter
    obtain ⟨t, ht, rfl⟩ := List.mem_map.mp hmem
    have hbefore := Option.map_eq_none_iff.mp (h t ht)
    exact Option.map_eq_none_iff.mpr (Track.unreached?_settle hbefore)
  refine ⟨a.settle.analysis, ?_⟩
  simp only [settle, hafter, Settlement.outcome]

namespace Branch

def y : Register := Register.slot ⟨1, "y", Bank.vector⟩ 0

/-- The usages of one variable in a loop, among those of another that goes through the loop too. -/
def crowded : List Usage :=
  [⟨0, y, 1, 0, false, true⟩, ⟨8, y, 1, 0, true, false⟩, ⟨12, y, 1, 0, false, true⟩] ++ usages

/-- The other variable waits in the same line and changes nothing. -/
theorem crowded_agrees : ∃ g a a' s s', Graph.build (Settings.standard 1) #[] 32 looping = .ok g ∧
    Analysis.ofUsages g usages = .ok a ∧ Analysis.ofUsages g crowded = .ok a' ∧
    a.deferred = [(x, 1)] ∧ a'.deferred = [(x, 1), (y, 1)] ∧
    a.settle.outcome = .ok s ∧ a'.settle.outcome = .ok s' ∧
    Analysis.AgreeOn x s s' := by
  have hloop : ∃ g, Graph.build (Settings.standard 1) #[] 32 looping = .ok g ∧
      ∃ a, Analysis.ofUsages g usages = .ok a ∧ a.deferred = [(x, 1)] ∧ a.unreached? = none ∧
      ∃ a', Analysis.ofUsages g crowded = .ok a' ∧ a'.deferred = [(x, 1), (y, 1)] ∧
        a'.unreached? = none :=
    ⟨_, by cbv, _, by cbv, by cbv, by cbv, _, by cbv, by cbv, by cbv⟩
  obtain ⟨g, hgraph, a, ha, hwait, hdefined, a', ha', hwait', hdefined'⟩ := hloop
  obtain ⟨s, hs⟩ := Analysis.exists_outcome hdefined
  obtain ⟨s', hs'⟩ := Analysis.exists_outcome hdefined'
  have hsame : (Usage.sort usages).filter (fun u => u.register == x)
      = (Usage.sort crowded).filter fun u => u.register == x := by cbv
  exact ⟨g, a, a', s, s', hgraph, ha, ha', hwait, hwait', hs, hs',
    (Analysis.registers_apart hsame ha ha' hs hs').1⟩

end Branch

end RegisterWeb
