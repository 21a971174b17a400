import Mathlib
import RegisterWeb.Proofs.CallSet
import RegisterWeb.Proofs.Cut.Settled

/-!
The results for a graph in which a block was cut: the same live instances, the same replacements,
the same links, and the same instances live in each routine.
-/

namespace RegisterWeb

open RegisterWeb.Seam

/-! ### Instances and replacements -/

namespace Analysis

variable {g g' : Graph} {i b : Nat} {us : List Usage} {a a' s s' : Analysis} {r : Register}

/-- What a settled track accesses in a block lies in the block. -/
theorem contains_of_accesses (hg : g.WellFormed) (hpart : Layout.Partition g.length g.blocks)
    (ha : ofUsages g us = .ok a) (hs : a.settle.outcome = .ok s) (hr : r ∈ a.registers)
    (hwrites : a.writes r < UInt32.size - 2) {x : Access}
    (hx : x ∈ (settledTrack g a r).accesses b) : (g.block b).contains x.offset = true := by
  have ht := (fresh_of_ofUsages ha).tracked_settledTrack hg hs hr hwrites
  rw [ht.accesses_eq] at hx
  obtain ⟨y, hy, rfl⟩ := List.mem_map.mp hx
  exact ((Graph.blockAt_iff hpart).mp (blockAt_of_access ha hy)).2

namespace Cut

theorem contains_of_accesses' (h : Cut g g' i us a a') (hs' : a'.settle.outcome = .ok s')
    (hr : r ∈ a.registers) (hwrites : a.writes r < UInt32.size - 2) :
    ∀ b, ∀ x ∈ (settledTrack g' a' r).accesses b, (g'.block b).contains x.offset = true :=
  fun _ _ hx => contains_of_accesses h.graph' h.part' h.usages' hs' (h.registers_eq ▸ hr)
    (h.writes_eq hr ▸ hwrites) hx

/-- The same instances are live, in the same ranges. -/
theorem instances_eq (h : Cut g g' i us a a') (hs : a.settle.outcome = .ok s)
    (hs' : a'.settle.outcome = .ok s') (hwrites : ∀ r ∈ a.registers, a.writes r < UInt32.size - 2) :
    LiveInstance.ofAnalysis s' = LiveInstance.ofAnalysis s := by
  have hranges : ∀ r ∈ a.registers,
      LiveInstance.rangesOf g' g'.order g'.scopes (settledTrack g' a' r)
        = LiveInstance.rangesOf g g.order g.scopes (settledTrack g a r) := by
    intro r hr
    exact (h.settledTrack_cut hs hs' hr (hwrites r hr)).1.rangesOf_eq h.cut h.graph h.graph'
      h.part'.full (h.contains_of_accesses' hs' hr (hwrites r hr))
  unfold LiveInstance.ofAnalysis
  rw [h.fresh.graph_outcome hs, h.fresh'.graph_outcome hs', h.fresh.order_outcome hs,
    h.fresh'.order_outcome hs', h.fresh.tracks_outcome hs, h.fresh'.tracks_outcome hs',
    h.registers_eq]
  dsimp only
  rw [List.flatMap_map, List.flatMap_map]
  congr 1
  refine List.flatMap_congr fun r hr => ?_
  rw [hranges r hr, register_settledTrack, register_settledTrack]

/-- The same versions are replaced. -/
theorem replaces_eq (h : Cut g g' i us a a') (hs : a.settle.outcome = .ok s)
    (hs' : a'.settle.outcome = .ok s') (hwrites : ∀ r ∈ a.registers, a.writes r < UInt32.size - 2) :
    s'.replaces = s.replaces := by
  have hsame : ∀ r ∈ a.registers,
      (settledTrack g' a' r).replaces = (settledTrack g a r).replaces :=
    fun r hr => (h.settledTrack_cut hs hs' hr (hwrites r hr)).2
  rw [replaces, replaces, h.fresh.tracks_outcome hs, h.fresh'.tracks_outcome hs', h.registers_eq,
    List.filter_map, List.filter_map, List.map_map, List.map_map]
  have hfilter : a.registers.filter ((fun t => !t.replaces.isEmpty) ∘ settledTrack g' a')
      = a.registers.filter ((fun t => !t.replaces.isEmpty) ∘ settledTrack g a) := by
    refine List.filter_congr fun r hr => ?_
    simp only [Function.comp_apply, hsame r hr]
  rw [hfilter]
  refine List.map_congr_left fun r hr => ?_
  simp only [Function.comp_apply, register_settledTrack, hsame r (List.mem_filter.mp hr).1]

end Cut

end Analysis

/-! ### Links -/

theorem takeWhile_append_of_neg {α : Type} {p : α → Bool} {l m : List α}
    (h : ∀ x ∈ m, p x = false) : (l ++ m).takeWhile p = l.takeWhile p := by
  induction l with
  | nil =>
    cases m with
    | nil => rfl
    | cons x m =>
      rw [List.nil_append, List.takeWhile_cons, h x List.mem_cons_self]
      rfl
  | cons x l ih => rw [List.cons_append, List.takeWhile_cons, List.takeWhile_cons, ih]

namespace Track

/-- The version that the instruction at an offset of a block works on. -/
def versionAt? (t : Track) (b : Nat) (p : Offset) : Option Version :=
  let upTo := (t.accesses b).takeWhile fun x => decide (x.offset ≤ p)
  if upTo.any fun x => x.offset == p then
    match (upTo.filterMap Access.write).getLast? with
    | some v => some v
    | none => (t.entering b).head?
  else none

namespace Cut

variable {g g' : Graph} {i b : Nat} {t t' : Track} {p seam : Offset}

theorem versionAt?_head (h : t.Cut i t') (hb : b ≠ i) :
    t'.versionAt? (head i b) p = t.versionAt? b p := by
  rw [versionAt?, versionAt?, h.other b hb, h.entering]

/-- Before the seam, the accesses of the second part do not count. -/
theorem versionAt?_first (h : t.Cut i t') (hsecond : ∀ x ∈ t'.accesses (i + 1), seam ≤ x.offset)
    (hp : p < seam) : t'.versionAt? i p = t.versionAt? i p := by
  have hself := h.entering i
  rw [head_self] at hself
  have hupTo : (t.accesses i).takeWhile (fun x => decide (x.offset ≤ p))
      = (t'.accesses i).takeWhile fun x => decide (x.offset ≤ p) := by
    rw [h.self]
    refine takeWhile_append_of_neg fun x hx => decide_eq_false fun hle => ?_
    exact Int64.lt_irrefl (Int64.lt_of_le_of_lt (Int64.le_trans (hsecond x hx) hle) hp)
  rw [versionAt?, versionAt?, hupTo, hself]

/-- After the seam, the versions that enter the second part are those that the first part leaves. -/
theorem versionAt?_second (h : t.Cut i t') (hfirst : ∀ x ∈ t'.accesses i, x.offset < seam)
    (hp : seam ≤ p) : t'.versionAt? (i + 1) p = t.versionAt? i p := by
  have hbefore : ∀ x ∈ t'.accesses i, x.offset < p :=
    fun x hx => Int64.lt_of_lt_of_le (hfirst x hx) hp
  have hupTo : (t.accesses i).takeWhile (fun x => decide (x.offset ≤ p))
      = t'.accesses i ++ (t'.accesses (i + 1)).takeWhile fun x => decide (x.offset ≤ p) := by
    rw [h.self]
    exact List.takeWhile_append_of_pos fun x hx =>
      decide_eq_true (Int64.le_of_lt (hbefore x hx))
  have hany : (t'.accesses i).any (fun x => x.offset == p) = false := by
    rw [List.any_eq_false]
    intro x hx heq
    exact Int64.ne_of_lt (hbefore x hx) (beq_iff_eq.mp heq)
  rw [versionAt?, versionAt?, hupTo, h.enteringSucc]
  simp only [List.any_append, hany, Bool.false_or, List.filterMap_append, List.getLast?_append]
  split
  · generalize (((t'.accesses (i + 1)).takeWhile fun x => decide (x.offset ≤ p)).filterMap
      Access.write).getLast? = last
    cases last with
    | some w => rfl
    | none =>
      rw [Option.none_or, Walk.after]
      cases ((t'.accesses i).filterMap Access.write).getLast? with
      | some w => rfl
      | none => rfl
  · rfl

end Cut

end Track

namespace SlotGroup

variable {a : Analysis} {r : Register} {t : Track} {b : Nat}

theorem versionAt?_of_track (ht : a.track? r = some t) (p : Offset) :
    versionAt? a b r p = t.versionAt? b p := by
  have haccesses : ((a.use? b r).map Use.accesses).getD [] = t.accesses b :=
    Analysis.accesses_of_track? ht b
  have hentering : a.entering b r = t.entering b := by
    rw [Analysis.entering, ht]
  rw [versionAt?, haccesses, hentering]
  rfl

theorem versionAt?_of_none (ht : a.track? r = none) (p : Offset) : versionAt? a b r p = none := by
  rw [versionAt?, Analysis.use?, ht]
  rfl

theorem indices?_congr {a a' : Analysis} {is : List LiveInstance} {b b' : Nat} {p : Offset}
    (h : ∀ r, versionAt? a' b' r p = versionAt? a b r p) (first : Register)
    (slots : List Register) :
    indices? a' is b' p first slots = indices? a is b p first slots := by
  induction slots with
  | nil => rfl
  | cons r rest ih => simp only [indices?, indexAt?, h, ih]

end SlotGroup

namespace Graph.Cut

variable {g g' : Graph} {i b : Nat} {p : Offset}

theorem length_eq (h : g.Cut g' i) (hpart : Layout.Partition g.length g.blocks)
    (hpart' : Layout.Partition g'.length g'.blocks) : g'.length = g.length := by
  have hlt := h.lt
  have hlast : tail i (g.size - 1) = g'.size - 1 := by
    rw [tail, if_neg (by omega), h.size]
    omega
  have hstop := h.stop (g.size - 1)
  rw [hlast] at hstop
  exact hpart'.last.symm.trans (hstop.trans hpart.last)

theorem blockAt_head (h : g.Cut g' i) (hpart : Layout.Partition g.length g.blocks)
    (hpart' : Layout.Partition g'.length g'.blocks) (hb : b ≠ i)
    (hfound : g.blockAt p = .ok (some b)) : g'.blockAt p = .ok (some (head i b)) := by
  obtain ⟨hlt, hcontains⟩ := (blockAt_iff hpart).mp hfound
  refine (blockAt_iff hpart').mpr ⟨h.size ▸ (head_lt h.lt).mpr hlt, ?_⟩
  rw [h.contains_head hb, hcontains]

theorem blockAt_self (h : g.Cut g' i) (hpart : Layout.Partition g.length g.blocks)
    (hpart' : Layout.Partition g'.length g'.blocks) (hfound : g.blockAt p = .ok (some i)) :
    (p < (g'.block (i + 1)).start ∧ g'.blockAt p = .ok (some i)) ∨
      ((g'.block (i + 1)).start ≤ p ∧ g'.blockAt p = .ok (some (i + 1))) := by
  have hcontains := ((blockAt_iff hpart).mp hfound).2
  rw [h.contains_self hpart', Bool.or_eq_true] at hcontains
  refine hcontains.imp (fun hin => ?_) fun hin => ?_
  · exact ⟨((h.contains_first p).mp hin).2,
      (blockAt_iff hpart').mpr ⟨h.first_lt, hin⟩⟩
  · exact ⟨((h.contains_second p).mp hin).1,
      (blockAt_iff hpart').mpr ⟨h.second_lt, hin⟩⟩

end Graph.Cut

namespace Analysis.Cut

variable {g g' : Graph} {i b : Nat} {us : List Usage} {a a' s s' : Analysis} {p : Offset}

/-- An instruction works on the same versions. -/
theorem versionAt?_eq (h : Cut g g' i us a a') (hs : a.settle.outcome = .ok s)
    (hs' : a'.settle.outcome = .ok s') (hwrites : ∀ r ∈ a.registers, a.writes r < UInt32.size - 2)
    {b' : Nat} (hfound : g.blockAt p = .ok (some b)) (hfound' : g'.blockAt p = .ok (some b'))
    (r : Register) :
    SlotGroup.versionAt? s' b' r p = SlotGroup.versionAt? s b r p := by
  by_cases hr : r ∈ a.registers
  · have ht : s.track? r = some (settledTrack g a r) := h.fresh.track?_outcome hs hr
    have ht' : s'.track? r = some (settledTrack g' a' r) :=
      h.fresh'.track?_outcome hs' (h.registers_eq ▸ hr)
    have hcut := (h.settledTrack_cut hs hs' hr (hwrites r hr)).1
    have hinside := h.contains_of_accesses' hs' hr (hwrites r hr)
    rw [SlotGroup.versionAt?_of_track ht, SlotGroup.versionAt?_of_track ht']
    by_cases hb : b = i
    · subst hb
      rcases h.cut.blockAt_self h.part h.part' hfound with ⟨hp, hpart⟩ | ⟨hp, hpart⟩
      · cases hpart.symm.trans hfound'
        exact hcut.versionAt?_first
          (fun x hx => ((h.cut.contains_second _).mp (hinside _ x hx)).1) hp
      · cases hpart.symm.trans hfound'
        exact hcut.versionAt?_second
          (fun x hx => ((h.cut.contains_first _).mp (hinside _ x hx)).2) hp
    · cases (h.cut.blockAt_head h.part h.part' hb hfound).symm.trans hfound'
      exact hcut.versionAt?_head hb
  · rw [SlotGroup.versionAt?_of_none (track?_outcome_eq_none hs hr),
      SlotGroup.versionAt?_of_none (track?_outcome_eq_none hs' (h.registers_eq ▸ hr))]

/-- The same instances are linked. -/
theorem linkAll_eq (h : Cut g g' i us a a') (hs : a.settle.outcome = .ok s)
    (hs' : a'.settle.outcome = .ok s') (hwrites : ∀ r ∈ a.registers, a.writes r < UInt32.size - 2)
    (is : List LiveInstance) (ds : List SlotGroup) :
    SlotGroup.linkAll s' is ds = SlotGroup.linkAll s is ds := by
  have hlink : SlotGroup.link s' is = SlotGroup.link s is := by
    funext ls d
    unfold SlotGroup.link
    rw [h.fresh.graph_outcome hs, h.fresh'.graph_outcome hs']
    by_cases hin : 0 ≤ d.offset ∧ d.offset < g.length
    · obtain ⟨b, _, hfound, _⟩ := h.part.blockAt_inside hin.1 hin.2
      rw [← h.cut.length_eq h.part h.part'] at hin
      obtain ⟨b', _, hfound', _⟩ := h.part'.blockAt_inside hin.1 hin.2
      have hindices : ∀ first, SlotGroup.indices? s' is b' d.offset first d.slots
          = SlotGroup.indices? s is b d.offset first d.slots := by
        intro first
        exact SlotGroup.indices?_congr (h.versionAt?_eq hs hs' hwrites hfound hfound') first _
      simp only [Graph.blockAt, hfound, hfound', hindices]
    · have hout : ¬ (0 ≤ d.offset ∧ d.offset < g'.length) := by
        rwa [h.cut.length_eq h.part h.part']
      simp only [Graph.blockAt, Layout.blockAt_outside _ _ hin, Layout.blockAt_outside _ _ hout]
  rw [SlotGroup.linkAll, SlotGroup.linkAll, hlink]

end Analysis.Cut

/-! ### Live sets -/

namespace Live

theorem select_congr {g g' : Graph} {is : List LiveInstance}
    {placed placed' : List (LiveInstance × List Nat)} {test test' : LiveInstance → List Nat → Bool}
    (hplaced : is.mapM (blocksOf g) = .ok placed) (hplaced' : is.mapM (blocksOf g') = .ok placed')
    (h : ∀ x ∈ is, ∀ e e', blocksOf g x = .ok e → blocksOf g' x = .ok e' →
      test' x e'.2 = test x e.2) : select placed' test' = select placed test := by
  induction is generalizing placed placed' with
  | nil =>
    cases hplaced
    cases hplaced'
    rfl
  | cons x is ih =>
    rw [List.mapM_cons] at hplaced hplaced'
    obtain ⟨e, he, hplaced⟩ := bind_eq_ok.mp hplaced
    obtain ⟨rest, hrest, hplaced⟩ := bind_eq_ok.mp hplaced
    obtain ⟨e', he', hplaced'⟩ := bind_eq_ok.mp hplaced'
    obtain ⟨rest', hrest', hplaced'⟩ := bind_eq_ok.mp hplaced'
    cases hplaced
    cases hplaced'
    have hih := ih hrest hrest' fun y hy => h y (List.mem_cons_of_mem x hy)
    have hsame := h x List.mem_cons_self e e' he he'
    unfold select at hih ⊢
    rw [List.filter_cons, List.filter_cons, fst_of_blocksOf he, fst_of_blocksOf he', hsame]
    split
    · rw [List.map_cons, List.map_cons, hih, fst_of_blocksOf he, fst_of_blocksOf he']
    · exact hih

end Live

theorem LiveInstance.mem_of_mem_number {banks : List Bank} {l : List (Instance × Ranges)}
    {x : LiveInstance} (h : x ∈ number banks l) : (x.inst, x.ranges) ∈ l := by
  induction l generalizing banks with
  | nil => exact absurd h List.not_mem_nil
  | cons e l ih =>
    rcases List.mem_cons.mp h with rfl | h
    · exact List.mem_cons_self
    · exact List.mem_cons_of_mem e (ih h)

/-- No live range is empty. -/
theorem LiveInstance.start_lt_stop {s : Analysis} {x : LiveInstance} (hx : x ∈ ofAnalysis s)
    {q : Range} (hq : q ∈ x.ranges) : q.start < q.stop := by
  obtain ⟨t, _, hmem⟩ := List.mem_flatMap.mp (mem_of_mem_number hx)
  obtain ⟨e, he, heq⟩ := List.mem_map.mp hmem
  have hranges : e.2 = x.ranges := congrArg Prod.snd heq
  exact (ordered_rangesOf.apart e he).full q (hranges ▸ hq)

namespace Graph.Cut

variable {g g' : Graph} {i : Nat} {q : Range}

/-- A range that is not empty meets a block if it meets one of the parts of it. -/
theorem meets_reached (h : g.Cut g' i) (hpart' : Layout.Partition g'.length g'.blocks)
    (hq : q.start < q.stop) (c : Nat) :
    (∃ x < g'.size, (g'.block x).start < q.stop ∧ q.start < (g'.block x).stop ∧
        g'.Reaches (head i c) x) ↔
      ∃ b < g.size, (g.block b).start < q.stop ∧ q.start < (g.block b).stop ∧ g.Reaches c b := by
  have hseam := h.seam hpart'
  have hfirst := h.start_first
  have hsecond := h.stop_second
  constructor
  · rintro ⟨x, hx, hstart, hstop, hreach⟩
    obtain ⟨b, hpath, hb⟩ := (h.reaches_iff x).mp hreach
    by_cases hbi : b = i
    · subst hbi
      refine ⟨b, h.lt, ?_, ?_, hpath⟩
      · rcases mem_parts.mp hb with rfl | rfl
        · rwa [head_self, hfirst] at hstart
        · rw [tail_self] at hstart
          exact Int64.lt_trans hseam.1 hstart
      · rcases mem_parts.mp hb with rfl | rfl
        · rw [head_self, h.meet] at hstop
          exact Int64.lt_trans hstop hseam.2
        · rwa [tail_self, hsecond] at hstop
    · rw [parts_of_ne hbi, List.mem_singleton] at hb
      subst hb
      rw [h.start] at hstart
      rw [← tail_of_ne hbi, h.stop] at hstop
      exact ⟨b, (head_lt h.lt).mp (h.size ▸ hx), hstart, hstop, hpath⟩
  · rintro ⟨b, hb, hstart, hstop, hreach⟩
    by_cases hbi : b = i
    · subst hbi
      -- The range starts before the seam and meets the first part, or it meets the second.
      by_cases hqs : q.start < (g'.block (b + 1)).start
      · refine ⟨b, h.size ▸ Nat.lt_succ_of_lt hb, ?_, ?_, h.reaches_self.mpr hreach⟩
        · rwa [hfirst]
        · rwa [h.meet]
      · refine ⟨b + 1, h.size ▸ Nat.succ_lt_succ hb, ?_, ?_, h.reaches_succ.mpr hreach⟩
        · exact Int64.lt_of_le_of_lt (Int64.not_lt.mp hqs) hq
        · rwa [hsecond]
    · refine ⟨head i b, h.size ▸ (head_lt h.lt).mpr hb, ?_, ?_, h.reaches_head.mpr hreach⟩
      · rwa [h.start]
      · rwa [← tail_of_ne hbi, h.stop]

end Graph.Cut

namespace Analysis.Cut

variable {g g' : Graph} {i : Nat} {us : List Usage} {a a' : Analysis} {is : List LiveInstance}
  {placed placed' : List (LiveInstance × List Nat)}

/-- The same instances are live in a routine. -/
theorem routineSet_eq (h : Cut g g' i us a a')
    (hfull : ∀ x ∈ is, ∀ q ∈ x.ranges, q.start < q.stop)
    (hplaced : is.mapM (Live.blocksOf g) = .ok placed)
    (hplaced' : is.mapM (Live.blocksOf g') = .ok placed') {c : Nat}
    (hc : c ∈ g.routines.map Routine.entry) :
    Live.routineSet g'.scopes placed' (head i c) = Live.routineSet g.scopes placed c := by
  have hc' : head i c ∈ g'.routines.map Routine.entry := by
    rw [h.cut.entries_eq h.graph h.graph']
    exact List.mem_map_of_mem hc
  have hscope : ∀ b, Graph.inScope g.scopes c b = true ↔ g.Reaches c b := by
    obtain ⟨q, hq, rfl⟩ := List.mem_map.mp hc
    exact h.graph.inScope_iff hq
  have hscope' : ∀ b, Graph.inScope g'.scopes (head i c) b = true ↔ g'.Reaches (head i c) b := by
    obtain ⟨q, hq, hentry⟩ := List.mem_map.mp hc'
    rw [← hentry]
    exact h.graph'.inScope_iff hq
  refine Live.select_congr hplaced hplaced' fun x hx e e' he he' => ?_
  rw [Bool.eq_iff_iff, List.any_eq_true, List.any_eq_true]
  simp only [hscope, hscope', Live.mem_blocksOf h.part he, Live.mem_blocksOf h.part' he']
  constructor
  · rintro ⟨b, ⟨range, hrange, hlow, hb, hstart, hstop⟩, hreach⟩
    obtain ⟨d, hd, hmeets⟩ := (h.cut.meets_reached h.part' (hfull x hx range hrange) c).mp
      ⟨b, hb, hstart, hstop, hreach⟩
    exact ⟨d, ⟨range, hrange, hlow, hd, hmeets.1, hmeets.2.1⟩, hmeets.2.2⟩
  · rintro ⟨b, ⟨range, hrange, hlow, hb, hstart, hstop⟩, hreach⟩
    obtain ⟨d, hd, hmeets⟩ := (h.cut.meets_reached h.part' (hfull x hx range hrange) c).mpr
      ⟨b, hb, hstart, hstop, hreach⟩
    exact ⟨d, ⟨range, hrange, hlow, hd, hmeets.1, hmeets.2.1⟩, hmeets.2.2⟩

/-- The liveness of the two analyses differs in the numbers of blocks only. -/
theorem live_eq (h : Cut g g' i us a a') {s s' : Analysis} (hs : a.settle.outcome = .ok s)
    (hs' : a'.settle.outcome = .ok s') (hwrites : ∀ r ∈ a.registers, a.writes r < UInt32.size - 2)
    {ds : List SlotGroup} {l l' : Live}
    (hl : Live.ofInstances s (LiveInstance.ofAnalysis s) ds = .ok l)
    (hl' : Live.ofInstances s' (LiveInstance.ofAnalysis s') ds = .ok l') :
    l'.instances = l.instances ∧ l'.links = l.links ∧
      l'.routineSets = l.routineSets.map fun e => (head i e.1, e.2) := by
  have hinstances := h.instances_eq hs hs' hwrites
  obtain ⟨hlinks, placed, hplaced, hroutines, _⟩ := Live.sets_ofInstances hl
  obtain ⟨hlinks', placed', hplaced', hroutines', _⟩ := Live.sets_ofInstances hl'
  rw [hinstances, h.linkAll_eq hs hs' hwrites, hlinks] at hlinks'
  rw [h.fresh.graph_outcome hs] at hplaced hroutines
  rw [hinstances, h.fresh'.graph_outcome hs'] at hplaced'
  rw [h.fresh'.graph_outcome hs', h.cut.entries_eq h.graph h.graph'] at hroutines'
  refine ⟨?_, (Except.ok.inj hlinks').symm, ?_⟩
  · rw [Live.instances_ofInstances hl, Live.instances_ofInstances hl', hinstances]
  · have hset : ∀ c ∈ g.routines.map Routine.entry,
        Live.routineSet g'.scopes placed' (head i c) = Live.routineSet g.scopes placed c :=
      fun c hc => h.routineSet_eq (fun x hx q hq => LiveInstance.start_lt_stop hx hq) hplaced
        hplaced' hc
    rw [hroutines, hroutines']
    generalize g.routines.map Routine.entry = entries at hset
    rw [List.map_map, List.map_map]
    exact List.map_congr_left fun c hc => Prod.ext rfl (hset c hc)

end Analysis.Cut

end RegisterWeb
