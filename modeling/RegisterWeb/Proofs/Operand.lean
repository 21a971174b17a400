import Mathlib
import RegisterWeb.Proofs.Cut.Result
import RegisterWeb.Proofs.InstanceTable
import RegisterWeb.Proofs.Offsets
import RegisterWeb.Proofs.Shuffle

/-!
Every operand has a live instance. A write starts a range right behind its instruction. A read lies
in the range of the version that is current before it: that of the last write before it in the
block, or else the one that enters. A read of the latter kind makes the register live on entry, and
once versions are settled exactly one of them enters there. So every access finds the number of its
instance, and the slots of a wide operand can always be linked.
-/

namespace RegisterWeb

/-! ### What a walk finds at an access -/

namespace Walk

variable {leaves : Bool} {stop since : Offset} {current : VersionSet} {before after : List Access}
  {x : Access} {v : Version}

theorem extends_of_write (hx : x.write = some v) (hroom : x.offset + 1 < x.offset + 1 + 1) :
    Extends leaves stop v (x.offset + 1) current since (before ++ x :: after) := by
  induction before generalizing current since with
  | nil =>
    right
    rw [hx]
    exact Or.inl ⟨rfl, Int64.le_refl _, hroom⟩
  | cons y before ih =>
    right
    cases y.write with
    | some w => exact Or.inr ih
    | none => exact ih

theorem extends_of_read (hx : x.reads = true) (hroom : x.offset < x.offset + 1)
    (hbefore : ∀ y ∈ before, y.offset < x.offset) (hsince : since ≤ x.offset)
    (hv : v ∈ Walk.after current before) :
    Extends leaves stop v x.offset current since (before ++ x :: after) := by
  induction before generalizing current since with
  | nil => exact Or.inl ⟨hx, hv, hsince, hroom⟩
  | cons y before ih =>
    have hrest : ∀ z ∈ before, z.offset < x.offset :=
      fun z hz => hbefore z (List.mem_cons_of_mem y hz)
    right
    cases hy : y.write with
    | some w =>
      -- the new version counts from behind the write, which is still not behind the read
      rw [after_cons_write hy] at hv
      have hlt := hbefore y List.mem_cons_self
      have hle : y.offset + 1 ≤ x.offset := by
        rw [Int64.le_iff_toInt_le, Offset.toInt_add_one hlt]
        exact Int64.lt_iff_toInt_lt.mp hlt
      exact Or.inr (ih hrest hle hv)
    | none =>
      rw [after_cons_none hy] at hv
      exact ih hrest hsince hv

theorem after_concat_write (hx : x.write = some v) :
    Walk.after current (before ++ [x]) = [v] := by
  rw [Walk.after, List.filterMap_append]
  simp [hx]

theorem after_concat_none (hx : x.write = none) :
    Walk.after current (before ++ [x]) = Walk.after current before := by
  rw [Walk.after, Walk.after, List.filterMap_append]
  simp [hx]

end Walk

theorem Access.around {before after : List Access} {x : Access}
    (h : Ascending ((before ++ x :: after).map offset)) :
    (∀ y ∈ before, y.offset < x.offset) ∧ ∀ y ∈ after, x.offset < y.offset := by
  rw [Ascending, List.pairwise_map, List.pairwise_append, List.pairwise_cons] at h
  exact ⟨fun y hy => h.2.2 y hy x List.mem_cons_self, h.2.1.1⟩

/-- An instruction that accesses a register works on the version that is current after it. -/
theorem Track.versionAt?_of_access {t : Track} {b : Nat} {before after : List Access} {x : Access}
    (hacc : t.accesses b = before ++ x :: after)
    (hasc : Ascending ((t.accesses b).map Access.offset)) :
    t.versionAt? b x.offset = (Walk.after (t.entering b) (before ++ [x])).head? := by
  rw [hacc] at hasc
  obtain ⟨hbefore, hafter⟩ := Access.around hasc
  have hupTo : (t.accesses b).takeWhile (fun y => decide (y.offset ≤ x.offset))
      = before ++ [x] := by
    rw [hacc, List.append_cons, takeWhile_append_of_neg fun y hy => ?_]
    · refine List.takeWhile_eq_self_iff.mpr fun y hy => decide_eq_true ?_
      rcases List.mem_append.mp hy with hy | hy
      · exact Int64.le_of_lt (hbefore y hy)
      · rw [List.mem_singleton.mp hy]
        exact Int64.le_refl _
    · exact decide_eq_false (Int64.not_le.mpr (hafter y hy))
  have hany : ((before ++ [x]).any fun y => y.offset == x.offset) = true := by
    simp
  rw [versionAt?, hupTo, if_pos hany, Walk.after]
  cases ((before ++ [x]).filterMap Access.write).getLast? with
  | some w => rfl
  | none => rfl

namespace LiveInstance

/-- An instance has a number in its bank, and its ranges contain an offset. -/
def LiveAt (is : List LiveInstance) (i : Instance) (p : Offset) : Prop :=
  ∃ l ∈ is, l.inst = i ∧ index? is i = some l.index ∧ l.ranges.contains p = true

theorem LiveAt.isSome_index? {is : List LiveInstance} {i : Instance} {p : Offset}
    (h : LiveAt is i p) : (index? is i).isSome = true := by
  obtain ⟨l, _, _, hindex, _⟩ := h
  rw [hindex]
  rfl

theorem liveAt_of_contains {is : List LiveInstance} {i : Instance} {p : Offset}
    (h : (((is.find? fun l => l.inst == i).map LiveInstance.ranges).getD []).contains p = true) :
    LiveAt is i p := by
  cases hfound : is.find? fun l => l.inst == i with
  | none =>
    rw [hfound] at h
    exact absurd h Bool.false_ne_true
  | some l =>
    rw [hfound] at h
    have hinst := List.find?_some hfound
    refine ⟨l, List.mem_of_find?_eq_some hfound, beq_iff_eq.mp hinst, ?_, h⟩
    rw [index?, hfound]
    rfl

end LiveInstance

/-! ### What settling leaves of a track -/

namespace Analysis

variable {g : Graph} {us : List Usage} {a s : Analysis} {r : Register} {t : Track} {b : Nat}
  {before after : List Access} {x : Access} {v : Version} {p : Offset}

/-- The track of a register in a settled analysis. However often the register is written, each use
tells of its own accesses, no access has moved, and where the value on entry is read one version
enters. -/
structure Resolved (a s : Analysis) (r : Register) (t : Track) : Prop where
  track : s.track? r = some t
  regular : ∀ b u, t.uses.get b = some u → u.Regular
  offsets : ∀ b, (t.accesses b).map Access.offset = (a.accesses b r).map Access.offset
  entering : ∀ b, t.readsFirst b = true → ∃ v, t.entering b = [v]

theorem Fresh.resolved (h : a.Fresh g) (hg : g.WellFormed) (hs : a.settle.outcome = .ok s)
    (hr : r ∈ a.registers) : ∃ t, Resolved a s r t := by
  cases hslot : r.isSlot with
  | true =>
    obtain ⟨t, f, ht, hsettled⟩ := h.settled hg hs hr hslot
    refine ⟨t, ht, fun b u hu => ?_, fun b => ?_, fun b hb => ?_⟩
    · rw [hsettled.uses] at hu
      obtain ⟨u, hbefore, rfl⟩ := Option.map_eq_some_iff.mp hu
      have hregular := (h.regular_use? hr hbefore).mapWrites f.webs.root
      exact ⟨hregular.changes, hregular.readsFirst, hregular.acts⟩
    · rw [Track.accesses, accesses, hsettled.uses]
      cases a.use? b r with
      | none => rfl
      | some u => simp [Track.renameUse, Use.mapWrites, Function.comp_def]
    · have hreads : f.reads.get b = true := by
        rw [hsettled.reads, ← hb, Track.readsFirst, hsettled.uses]
        cases a.use? b r with
        | none => rfl
        | some u => rfl
      obtain ⟨v, hv⟩ := List.exists_mem_of_ne_nil _ (hsettled.defined b hreads)
      refine ⟨f.webs.root v, ?_⟩
      simp only [Track.entering, hsettled.flow]
      exact hsettled.canonical_entering hv hreads
  | false =>
    have ht := h.track?_outcome hs hr
    simp only [Track.settle, Track.rename, flow_of_physical hslot] at ht
    have hbefore := h.track?_of_mem hr
    refine ⟨_, ht, fun b u hu => h.regular_use? (b := b) hr ?_, fun b => ?_,
      fun b _ => ⟨Version.entry, ?_⟩⟩
    · rw [use?, hbefore]
      exact hu
    · rw [accesses_of_track? hbefore]
    · simp only [Track.entering, flow_of_physical hslot]

namespace Resolved

theorem exists_use (h : Resolved a s r t) (hx : x ∈ t.accesses b) :
    ∃ u, t.uses.get b = some u ∧ u.Regular ∧ t.accesses b = u.accesses := by
  cases hu : t.uses.get b with
  | none =>
    rw [Track.accesses, hu] at hx
    exact absurd hx List.not_mem_nil
  | some u =>
    refine ⟨u, rfl, h.regular b u hu, ?_⟩
    rw [Track.accesses, hu]

theorem acts (h : Resolved a s r t) (hx : x ∈ t.accesses b) :
    x.reads = true ∨ x.write ≠ none := by
  obtain ⟨u, _, hregular, heq⟩ := h.exists_use hx
  exact hregular.acts x (heq ▸ hx)

theorem readsFirst_of_read (h : Resolved a s r t) (hacc : t.accesses b = before ++ x :: after)
    (hx : x.reads = true) (hquiet : ∀ y ∈ before, y.write = none) : t.readsFirst b = true := by
  have hmem : x ∈ t.accesses b := hacc ▸ List.mem_append_cons_self
  obtain ⟨u, hu, hregular, heq⟩ := h.exists_use hmem
  rw [Track.readsFirst, hu, Option.any_some]
  exact hregular.readsFirst_of_read (heq ▸ hacc) hx hquiet

/-- A read finds one version: that of the last write before it, or else the one that enters. It is
live there. -/
theorem exists_liveIn_of_read (h : Resolved a s r t) (hb : b < g.size)
    (hacc : t.accesses b = before ++ x :: after) (hx : x.reads = true)
    (hroom : x.offset < x.offset + 1) (hbefore : ∀ y ∈ before, y.offset < x.offset)
    (hstart : (g.block b).start ≤ x.offset) :
    ∃ v, Walk.after (t.entering b) before = [v] ∧
      Walk.LiveIn g t (LiveInstance.liveness g g.order g.scopes t) b v x.offset := by
  unfold Walk.LiveIn
  rw [hacc]
  cases hlast : (before.filterMap Access.write).getLast? with
  | some w =>
    refine ⟨w, ?_, Walk.extends_of_read hx hroom hbefore hstart ?_⟩
    · rw [Walk.after, hlast]
    · rw [Walk.after, hlast]
      exact List.mem_singleton_self w
  | none =>
    have hquiet : ∀ y ∈ before, y.write = none :=
      List.filterMap_eq_nil_iff.mp (List.getLast?_eq_none_iff.mp hlast)
    -- the value on entry is read first, so it is live there and one version enters
    have hreads := h.readsFirst_of_read hacc hx hquiet
    obtain ⟨v, hv⟩ := h.entering b hreads
    refine ⟨v, ?_, Walk.extends_of_read hx hroom hbefore hstart ?_⟩
    · rw [Walk.after, hlast]
      exact hv
    · rw [Walk.after, hlast, if_pos ((liveness_closed g t).reads b hb hreads), hv]
      exact List.mem_singleton_self v

theorem liveAt (h : Resolved a s r t) (hfresh : a.Fresh g) (hs : a.settle.outcome = .ok s)
    (hb : b < g.size)
    (hlive : Walk.LiveIn g t (LiveInstance.liveness g g.order g.scopes t) b v p) :
    LiveInstance.LiveAt (LiveInstance.ofAnalysis s) ⟨r, v⟩ p := by
  have hsame : ∀ t' ∈ s.tracks, t'.register = r → t' = t := by
    intro t' ht' hreg
    have hfound := hfresh.track?_of_mem_outcome hs ht'
    rw [hreg, h.track] at hfound
    exact (Option.some.inj hfound).symm
  apply LiveInstance.liveAt_of_contains
  rw [LiveInstance.ranges_ofAnalysis hsame h.track, hfresh.order_outcome hs,
    hfresh.graph_outcome hs]
  exact (LiveInstance.contains_rangesOf_iff v p).mpr ⟨b, hb, hlive⟩

end Resolved

/-- Settling moves no access: in each block they stand in ascending order, at the offsets of the
usages that read or write the register. -/
theorem offsets_outcome (ha : ofUsages g us = .ok a) (hg : g.WellFormed)
    (hs : a.settle.outcome = .ok s) (b : Nat) (r : Register) :
    Ascending ((s.accesses b r).map Access.offset) ∧
      ∀ p, p ∈ (s.accesses b r).map Access.offset ↔
        g.blockAt p = .ok (some b) ∧ ∃ u ∈ us, u.offset = p ∧ u.acts r = true := by
  have hoffsets : (s.accesses b r).map Access.offset = (a.accesses b r).map Access.offset := by
    by_cases hr : r ∈ a.registers
    · obtain ⟨t, ht⟩ := (fresh_of_ofUsages ha).resolved hg hs hr
      rw [accesses_of_track? ht.track]
      exact ht.offsets b
    · rw [accesses, accesses, use?, use?, track?_outcome_eq_none hs hr, track?_eq_none hr]
  rw [hoffsets]
  exact offsets_accesses ha b r

end Analysis

/-! ### Linking what accesses find -/

namespace SlotGroup

variable {a : Analysis} {is : List LiveInstance} {b : Nat} {r : Register} {p : Offset}

theorem exists_access_of_versionAt? (h : (versionAt? a b r p).isSome = true) :
    ∃ x ∈ a.accesses b r, x.offset = p := by
  simp only [versionAt?] at h
  split at h
  · rename_i hany
    obtain ⟨x, hx, heq⟩ := List.any_eq_true.mp hany
    exact ⟨x, (List.takeWhile_sublist _).mem hx, beq_iff_eq.mp heq⟩
  · exact absurd h Bool.false_ne_true

theorem exists_indices? {first : Register} {slots : List Register}
    (hslots : ∀ r ∈ slots, r.isSlot = true ∧ r.bank = first.bank ∧
      (indexAt? a is b r p).isSome = true) :
    ∃ found, indices? a is b p first slots = .ok (some found) := by
  induction slots with
  | nil => exact ⟨[], rfl⟩
  | cons r rest ih =>
    obtain ⟨hslot, hbank, hsome⟩ := hslots r List.mem_cons_self
    obtain ⟨i, hi⟩ := Option.isSome_iff_exists.mp hsome
    obtain ⟨found, hfound⟩ := ih fun q hq => hslots q (List.mem_cons_of_mem r hq)
    refine ⟨i :: found, ?_⟩
    simp [indices?, hslot, hbank, hi, hfound, bind, Except.bind, pure, Except.pure]

end SlotGroup

namespace Usage

variable {us : List Usage} {u : Usage} {d : SlotGroup} {r : Register}

theorem slots_of_group? (h : u.group? = some d) :
    ∀ r ∈ d.slots, r.isSlot = true ∧ r.bank = u.register.bank := by
  unfold group? at h
  split at h
  · rename_i hwide
    cases h
    intro r hr
    obtain ⟨i, _, rfl⟩ := List.mem_map.mp hr
    exact ⟨(Bool.and_eq_true_iff.mp hwide).2, rfl⟩
  · cases h

/-- A wide usage does to each slot of its group what it does to the first one. -/
theorem exists_acts_of_group? (hu : u ∈ us) (hacts : u.reads = true ∨ u.writes = true)
    (h : u.group? = some d) (hr : r ∈ d.slots) :
    ∃ w ∈ (expand us).1, w.offset = d.offset ∧ w.acts r = true := by
  unfold group? at h
  split at h
  · rename_i hwide
    cases h
    refine ⟨{ u with register := r, count := 1, align := 0 }, ?_, rfl, acts_iff.mpr ⟨rfl, hacts⟩⟩
    refine (sort_perm _).mem_iff.mpr (List.mem_flatMap.mpr ⟨u, hu, ?_⟩)
    rw [split, if_pos (Bool.and_eq_true_iff.mp hwide).1]
    exact List.mem_map_of_mem hr
  · cases h

end Usage

/-! ### The operands of a section -/

theorem Graph.lt_length_of_blockAt {g : Graph} {p : Offset} {b : Nat}
    (h : g.blockAt p = .ok (some b)) : p < g.length := by
  rw [Graph.blockAt, RegisterWeb.blockAt] at h
  split at h
  · cases h
  · rename_i hin
    exact Int64.not_le.mp fun hle => hin (Or.inr hle)

/-- The stages of a section up to the settled analysis. -/
structure Section.Settles (settings : Settings) (sec : Section) (g : Graph) (a s : Analysis) :
    Prop where
  graph : Graph.build settings sec.code sec.size sec.hints = .ok g
  placed : Analysis.ofUsages g (Usage.expand sec.usages).1 = .ok a
  settled : a.settle.outcome = .ok s

theorem Run.settles_of_settled? {settings : Settings} {sec : Section} {s : Analysis}
    (h : (Run.ofSection settings sec).settled? = some s) :
    ∃ g a, sec.Settles settings g a s ∧
      (Run.ofSection settings sec).instances = LiveInstance.ofAnalysis s := by
  rw [Run.ofSection] at h ⊢
  cases hgraph : Graph.build settings sec.code sec.size sec.hints with
  | error e =>
    rw [hgraph] at h
    cases h
  | ok g =>
    simp only [hgraph, Run.ofGraph] at h ⊢
    cases hplaced : Analysis.ofUsages g (Usage.expand sec.usages).1 with
    | error e =>
      rw [hplaced] at h
      cases h
    | ok a =>
      simp only [hplaced] at h ⊢
      cases hsettled : a.settle.outcome with
      | error e =>
        rw [hsettled] at h
        cases h
      | ok s' =>
        simp only [hsettled, Run.finish] at h ⊢
        cases hlive : Live.ofInstances s' (LiveInstance.ofAnalysis s')
            ((Usage.expand sec.usages).2 ++ sec.groups) with
        | error e =>
          rw [hlive] at h
          cases h
          exact ⟨g, a, ⟨hgraph, hplaced, hsettled⟩, rfl⟩
        | ok live =>
          rw [hlive] at h
          cases h
          exact ⟨g, a, ⟨hgraph, hplaced, hsettled⟩, Live.instances_ofInstances hlive⟩

namespace Section.Settles

variable {settings : Settings} {sec : Section} {g : Graph} {a s : Analysis} {b : Nat} {r : Register}
  {before after : List Access} {x : Access} {v : Version} {p : Offset}

theorem fresh (h : sec.Settles settings g a s) : a.Fresh g :=
  Analysis.fresh_of_ofUsages h.placed

theorem offsets (h : sec.Settles settings g a s) (b : Nat) (r : Register) :
    Ascending ((s.accesses b r).map Access.offset) ∧
      ∀ p, p ∈ (s.accesses b r).map Access.offset ↔ g.blockAt p = .ok (some b) ∧
        ∃ u ∈ (Usage.expand sec.usages).1, u.offset = p ∧ u.acts r = true :=
  Analysis.offsets_outcome h.placed (Graph.wellFormed_of_build h.graph) h.settled b r

theorem contains (h : sec.Settles settings g a s) (hx : x ∈ s.accesses b r) :
    (g.block b).contains x.offset = true := by
  obtain ⟨hblock, _⟩ := ((h.offsets b r).2 x.offset).mp (List.mem_map_of_mem hx)
  obtain ⟨starts, transfers, hstages⟩ := Graph.exists_stages h.graph
    (Graph.length_ne_zero_of_build h.graph (Graph.lt_size_of_blockAt hblock))
  exact hstages.contains_of_blockAt hblock

theorem access (h : sec.Settles settings g a s) (hx : x ∈ s.accesses b r) :
    (∃ t, Analysis.Resolved a s r t) ∧ b < g.size ∧ (g.block b).start ≤ x.offset ∧
      x.offset < sec.size := by
  obtain ⟨hblock, u, hu, _, hacts⟩ := ((h.offsets b r).2 x.offset).mp (List.mem_map_of_mem hx)
  have hr := (Analysis.mem_registers_iff_acts h.placed).mpr ⟨u, hu, hacts⟩
  have hb := Graph.lt_size_of_blockAt hblock
  obtain ⟨starts, transfers, hstages⟩ :=
    Graph.exists_stages h.graph (Graph.length_ne_zero_of_build h.graph hb)
  have hin := h.contains hx
  rw [Block.contains, Bool.and_eq_true, decide_eq_true_eq, decide_eq_true_eq] at hin
  refine ⟨h.fresh.resolved (Graph.wellFormed_of_build h.graph) h.settled hr, hb, hin.1, ?_⟩
  rw [← hstages.length_eq]
  exact Graph.lt_length_of_blockAt hblock

theorem liveAt_behind_write (h : sec.Settles settings g a s)
    (hacc : s.accesses b r = before ++ x :: after) (hx : x.write = some v)
    (hroom : x.offset + 1 < p) :
    LiveInstance.LiveAt (LiveInstance.ofAnalysis s) ⟨r, v⟩ (x.offset + 1) := by
  have hmem : x ∈ s.accesses b r := hacc ▸ List.mem_append_cons_self
  obtain ⟨⟨t, ht⟩, hb, _⟩ := h.access hmem
  rw [Analysis.accesses_of_track? ht.track] at hacc
  refine ht.liveAt h.fresh h.settled hb ?_
  rw [Walk.LiveIn, hacc]
  refine Walk.extends_of_write hx ?_
  rw [Int64.lt_iff_toInt_lt, Offset.toInt_add_one hroom]
  omega

theorem liveAt_of_write (h : sec.Settles settings g a s) (hhigh : sec.size < Int64.maxValue)
    (hacc : s.accesses b r = before ++ x :: after) (hx : x.write = some v) :
    LiveInstance.LiveAt (LiveInstance.ofAnalysis s) ⟨r, v⟩ (x.offset + 1) := by
  have hmem : x ∈ s.accesses b r := hacc ▸ List.mem_append_cons_self
  obtain ⟨_, _, _, hlt⟩ := h.access hmem
  refine h.liveAt_behind_write hacc hx (p := Int64.maxValue) ?_
  have hone := Offset.toInt_add_one hlt
  rw [Int64.lt_iff_toInt_lt] at hlt hhigh ⊢
  omega

theorem exists_liveAt_of_read (h : sec.Settles settings g a s)
    (hacc : s.accesses b r = before ++ x :: after) (hx : x.reads = true) :
    ∃ v, Walk.after (s.entering b r) before = [v] ∧
      LiveInstance.LiveAt (LiveInstance.ofAnalysis s) ⟨r, v⟩ x.offset := by
  have hmem : x ∈ s.accesses b r := hacc ▸ List.mem_append_cons_self
  obtain ⟨⟨t, ht⟩, hb, hstart, hlt⟩ := h.access hmem
  have hasc := (h.offsets b r).1
  rw [hacc] at hasc
  have hroom : x.offset < x.offset + 1 := by
    rw [Int64.lt_iff_toInt_lt, Offset.toInt_add_one hlt]
    omega
  rw [Analysis.accesses_of_track? ht.track] at hacc
  rw [Analysis.entering, ht.track]
  obtain ⟨v, hv, hlive⟩ :=
    ht.exists_liveIn_of_read hb hacc hx hroom (Access.around hasc).1 hstart
  exact ⟨v, hv, ht.liveAt h.fresh h.settled hb hlive⟩

theorem isSome_indexAt?_iff (h : sec.Settles settings g a s) (hhigh : sec.size < Int64.maxValue) :
    (SlotGroup.indexAt? s (LiveInstance.ofAnalysis s) b r p).isSome = true ↔
      ∃ x ∈ s.accesses b r, x.offset = p := by
  constructor
  · intro hsome
    rw [SlotGroup.indexAt?] at hsome
    exact SlotGroup.exists_access_of_versionAt? (Option.isSome_of_isSome_bind hsome)
  · intro hx
    obtain ⟨x, hx, rfl⟩ := hx
    obtain ⟨⟨t, ht⟩, _⟩ := h.access hx
    obtain ⟨before, after, hacc⟩ := List.append_of_mem hx
    have hasc := (h.offsets b r).1
    have hentering : s.entering b r = t.entering b := by
      rw [Analysis.entering, ht.track]
    have htrack := Analysis.accesses_of_track? ht.track b
    rw [htrack] at hasc hx
    have hversion := Track.versionAt?_of_access (htrack ▸ hacc) hasc
    rw [SlotGroup.indexAt?, SlotGroup.versionAt?_of_track ht.track, hversion]
    cases hwrite : x.write with
    | some v =>
      rw [Walk.after_concat_write hwrite]
      exact (h.liveAt_of_write hhigh hacc hwrite).isSome_index?
    | none =>
      have hreads := (ht.acts hx).resolve_right fun hne => hne hwrite
      obtain ⟨v, hv, hlive⟩ := h.exists_liveAt_of_read hacc hreads
      rw [Walk.after_concat_none hwrite, ← hentering, hv]
      exact hlive.isSome_index?

theorem exists_link (h : sec.Settles settings g a s) (hhigh : sec.size < Int64.maxValue)
    {u : Usage} (hu : u ∈ sec.usages) (hacts : u.reads = true ∨ u.writes = true) {d : SlotGroup}
    (hd : u.group? = some d) (ls : Links) :
    ∃ ls', SlotGroup.link s (LiveInstance.ofAnalysis s) ls d = .ok ls' := by
  cases hslots : d.slots with
  | nil =>
    refine ⟨ls, ?_⟩
    rw [SlotGroup.link, hslots]
  | cons first rest =>
    have hfirst : first ∈ d.slots := hslots ▸ List.mem_cons_self
    obtain ⟨w, hw, hoffset, _⟩ := Usage.exists_acts_of_group? hu hacts hd hfirst
    obtain ⟨b, hb⟩ := Analysis.exists_block h.placed hw
    rw [hoffset] at hb
    have hfound : ∀ r ∈ d.slots, r.isSlot = true ∧ r.bank = first.bank ∧
        (SlotGroup.indexAt? s (LiveInstance.ofAnalysis s) b r d.offset).isSome = true := by
      intro r hr
      obtain ⟨hslot, hbank⟩ := Usage.slots_of_group? hd r hr
      refine ⟨hslot, hbank.trans (Usage.slots_of_group? hd first hfirst).2.symm, ?_⟩
      have hmem := ((h.offsets b r).2 d.offset).mpr
        ⟨hb, Usage.exists_acts_of_group? hu hacts hd hr⟩
      exact (h.isSome_indexAt?_iff hhigh).mpr (List.mem_map.mp hmem)
    obtain ⟨found, hindices⟩ := SlotGroup.exists_indices? hfound
    refine ⟨ls.bind first.bank d.align found, ?_⟩
    rw [hslots] at hindices
    simp [SlotGroup.link, hslots, h.fresh.graph_outcome h.settled, hb, hindices, bind, Except.bind,
      pure, Except.pure]

end Section.Settles

/-- Every operand has a live instance. A version that is written is live right behind the write, and
the version that a read finds, that of the last write before it or else the only one that enters,
is live at the read. So an instruction finds the instance of a register if and only if it accesses
the register, and the slots of an operand that takes several can be linked. -/
theorem Section.operands_live {settings : Settings} {sec : Section} {s : Analysis}
    (h : (Run.ofSection settings sec).settled? = some s) (hhigh : sec.size < Int64.maxValue) :
    (∀ b r before x after, s.accesses b r = before ++ x :: after →
      (∀ v, x.write = some v →
        LiveInstance.LiveAt (Run.ofSection settings sec).instances ⟨r, v⟩ (x.offset + 1)) ∧
      (x.reads = true → ∃ v, Walk.after (s.entering b r) before = [v] ∧
        LiveInstance.LiveAt (Run.ofSection settings sec).instances ⟨r, v⟩ x.offset)) ∧
    (∀ b r p, (SlotGroup.indexAt? s (Run.ofSection settings sec).instances b r p).isSome = true ↔
      ∃ x ∈ s.accesses b r, x.offset = p) ∧
    ∀ u ∈ sec.usages, u.reads = true ∨ u.writes = true → ∀ d, u.group? = some d →
      ∀ ls, ∃ ls', SlotGroup.link s (Run.ofSection settings sec).instances ls d = .ok ls' := by
  obtain ⟨g, a, hsettles, hinstances⟩ := Run.settles_of_settled? h
  rw [hinstances]
  refine ⟨fun b r before x after hacc => ⟨fun v hx => ?_, fun hx => ?_⟩, fun b r p => ?_, ?_⟩
  · exact hsettles.liveAt_of_write hhigh hacc hx
  · exact hsettles.exists_liveAt_of_read hacc hx
  · exact hsettles.isSome_indexAt?_iff hhigh
  · intro u hu hacts d hd ls
    exact hsettles.exists_link hhigh hu hacts hd ls

namespace Operands

/-- The last instruction has a block of its own. -/
def parted : Section := { source with hints := [⟨8, .label, [], 0⟩, ⟨8, .halt, [], 0⟩] }

def settled : Analysis := (Run.ofSection (Settings.standard 1) parted).settled?.getD default

/-- The instruction at 4 reads one version of a slot and makes the next one, which the instruction
at 8 reads across the blocks, together with the slot beside it. -/
theorem parted_live :
    (Run.ofSection (Settings.standard 1) parted).settled? = some settled ∧
    (LiveInstance.LiveAt (Run.ofSection (Settings.standard 1) parted).instances
      ⟨x 0, ⟨1#32⟩⟩ 4 ∧
    LiveInstance.LiveAt (Run.ofSection (Settings.standard 1) parted).instances
      ⟨x 0, ⟨2#32⟩⟩ 5 ∧
    LiveInstance.LiveAt (Run.ofSection (Settings.standard 1) parted).instances
      ⟨x 0, ⟨2#32⟩⟩ 8) ∧
    (∀ p, (SlotGroup.indexAt? settled (Run.ofSection (Settings.standard 1) parted).instances 1 y
      p).isSome = true ↔ p = 8) ∧
    ∃ ls, SlotGroup.link settled (Run.ofSection (Settings.standard 1) parted).instances []
      ⟨8, 4, [x 0, x 1]⟩ = .ok ls := by
  have hvalues : (Run.ofSection (Settings.standard 1) parted).settled? = some settled ∧
      settled.accesses 0 (x 0) = [⟨0, false, some ⟨1#32⟩⟩, ⟨4, true, some ⟨2#32⟩⟩] ∧
      settled.accesses 1 (x 0) = [⟨8, true, none⟩] ∧ settled.accesses 1 y = [⟨8, true, none⟩] ∧
      settled.entering 1 (x 0) = [⟨2#32⟩] := by
    cbv
  obtain ⟨hsettled, hfirst, hsecond, hy, hentering⟩ := hvalues
  obtain ⟨hlive, hfound, hlink⟩ := Section.operands_live hsettled (by decide)
  obtain ⟨hmakes, hreads⟩ :=
    hlive 0 (x 0) [⟨0, false, some ⟨1#32⟩⟩] ⟨4, true, some ⟨2#32⟩⟩ [] hfirst
  obtain ⟨v, hv, hbefore⟩ := hreads rfl
  cases hv
  obtain ⟨w, hw, hacross⟩ := (hlive 1 (x 0) [] ⟨8, true, none⟩ [] hsecond).2 rfl
  cases hentering.symm.trans hw
  refine ⟨hsettled, ⟨hbefore, hmakes _ rfl, hacross⟩, fun p => ?_, ?_⟩
  · rw [hfound, hy]
    simp [eq_comm]
  · exact hlink ⟨8, x 0, 2, 4, true, false⟩ (by decide) (by decide) _ (by cbv) []

end Operands

end RegisterWeb
