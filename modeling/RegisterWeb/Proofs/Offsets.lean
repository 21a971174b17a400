import Mathlib
import RegisterWeb.Proofs.Apart
import RegisterWeb.Proofs.Place

/-!
Where a block touches a register. The accesses of a register in a block stand at the offsets of the
usages there that read or write it, in ascending order, each offset once. So a register is tracked
exactly if some usage reads or writes it.
-/

namespace RegisterWeb

namespace Usage

/-- A usage does something to a register. -/
def acts (u : Usage) (r : Register) : Bool :=
  u.register == r && (u.reads || u.writes)

theorem acts_iff {u : Usage} {r : Register} :
    u.acts r = true ↔ u.register = r ∧ (u.reads = true ∨ u.writes = true) := by
  rw [acts, Bool.and_eq_true, beq_iff_eq, Bool.or_eq_true]

theorem acts_eq (u : Usage) (r : Register) :
    u.acts r = (u.register == r && u.reads || u.register == r && u.isPureWrite) := by
  unfold acts isPureWrite
  cases u.register == r <;> cases u.reads <;> cases u.writes <;> rfl

end Usage

theorem Touch.map_offset_number (k : Nat) (ts : List Touch) :
    (number k ts).map Access.offset = ts.map Touch.offset := by
  fun_induction number k ts with
  | case1 => rfl
  | case2 k t ts hwrites ih => rw [List.map_cons, ih, List.map_cons]
  | case3 k t ts hwrites ih => rw [List.map_cons, ih, List.map_cons]

/-- An instruction touches a register at its offset if one of its usages acts on the register. -/
theorem Touch.offset_of? {r : Register} {instr : List Usage} {p : Offset}
    (h : ∀ u ∈ instr, u.offset = p) :
    (of? r instr).map Touch.offset = if instr.any fun u => u.acts r then some p else none := by
  have hany : (instr.any fun u => u.acts r)
      = (instr.any (fun u => u.register == r && u.reads) ||
          instr.any fun u => u.register == r && u.isPureWrite) := by
    rw [Bool.eq_iff_iff, Bool.or_eq_true]
    simp only [List.any_eq_true, Usage.acts_eq, Bool.or_eq_true, and_or_left, exists_or]
  rw [of?_eq h, hany]
  split <;> rfl

/-- The touches of a register stand at the offsets of the usages that act on it. -/
theorem Summary.offsets_touches {us : List Usage}
    (hus : us.Pairwise fun a b => a.offset.toInt ≤ b.offset.toInt) (r : Register) :
    (touches us r).map Touch.offset = Usage.offsets (us.filter fun u => u.acts r) := by
  have hsame : ∀ p, ∀ u ∈ us.filter (fun u => u.offset == p), u.offset = p :=
    fun p u hu => beq_iff_eq.mp (List.mem_filter.mp hu).2
  have htouches : (touches us r).map Touch.offset
      = (Usage.offsets us).filter fun p => us.any fun u => u.offset == p && u.acts r := by
    rw [touches, instructions_eq hus, List.filterMap_map, List.map_filterMap,
      ← List.filterMap_eq_filter]
    refine List.filterMap_congr fun p _ => ?_
    rw [Function.comp_apply, Touch.offset_of? (hsame p), List.any_filter, Option.guard]
  rw [htouches]
  refine Ascending.eq_of_mem_iff ((Usage.ascending_offsets us).filter _)
    (Usage.ascending_offsets _) fun p => ?_
  simp only [List.mem_filter, Usage.mem_offsets, List.any_eq_true, Bool.and_eq_true, beq_iff_eq]
  constructor
  · intro h
    obtain ⟨_, u, hu, hp, hacts⟩ := h
    exact ⟨u, ⟨hu, hacts⟩, hp⟩
  · intro h
    obtain ⟨u, ⟨hu, hacts⟩, hp⟩ := h
    exact ⟨⟨u, hu, hp⟩, u, hu, hp, hacts⟩

/-- A block holds a usage that reads or writes a register. -/
def Graph.Accesses (g : Graph) (us : List Usage) (b : Nat) (r : Register) : Prop :=
  ∃ u ∈ us, g.blockAt u.offset = .ok (some b) ∧ u.acts r = true

namespace Analysis

variable {g : Graph} {us : List Usage} {a s : Analysis} {r : Register} {b : Nat} {p : Offset}

theorem place_eq_ok {u : Usage} {q : Nat × Usage} :
    place g u = .ok q ↔ g.blockAt u.offset = .ok (some q.1) ∧ q.2 = u := by
  unfold place
  constructor
  · intro h
    split at h
    · rename_i c hc
      cases h
      exact ⟨hc, rfl⟩
    · cases h
    · cases h
  · intro h
    rw [h.1, ← h.2]

/-- The usages that were placed in a block are those that stand in it. -/
theorem mem_placed {placed : List (Nat × Usage)} (h : (Usage.sort us).mapM (place g) = .ok placed)
    (u : Usage) : u ∈ (placed.filter fun q => q.1 == b).map Prod.snd ↔
      u ∈ us ∧ g.blockAt u.offset = .ok (some b) := by
  rw [List.mem_map]
  constructor
  · intro hu
    obtain ⟨q, hq, rfl⟩ := hu
    obtain ⟨hq, hb⟩ := List.mem_filter.mp hq
    obtain ⟨v, hv, hplace⟩ := exists_of_mem_mapM h hq
    obtain ⟨hblock, rfl⟩ := place_eq_ok.mp hplace
    rw [beq_iff_eq.mp hb] at hblock
    exact ⟨(Usage.sort_perm us).mem_iff.mp hv, hblock⟩
  · intro hu
    obtain ⟨hu, hblock⟩ := hu
    obtain ⟨q, hq, hplace⟩ := exists_mem_of_mapM h ((Usage.sort_perm us).mem_iff.mpr hu)
    obtain ⟨hblock', rfl⟩ := place_eq_ok.mp hplace
    cases hblock.symm.trans hblock'
    exact ⟨q, List.mem_filter.mpr ⟨hq, beq_self_eq_true _⟩, rfl⟩

theorem exists_block (ha : ofUsages g us = .ok a) {u : Usage} (hu : u ∈ us) :
    ∃ b, g.blockAt u.offset = .ok (some b) := by
  obtain ⟨placed, hplaced, _⟩ := bind_eq_ok.mp ha
  obtain ⟨q, _, hplace⟩ := exists_mem_of_mapM hplaced ((Usage.sort_perm us).mem_iff.mpr hu)
  exact ⟨q.1, (place_eq_ok.mp hplace).1⟩

/-- A block summarizes the usages that stand in it. -/
theorem exists_touches (ha : ofUsages g us = .ok a) (b : Nat) (r : Register) :
    ∃ ts : List Touch, (a.summaries.get b).use? r = Use.ofTouches? ts ∧
      Ascending (ts.map Touch.offset) ∧
      ∀ p, p ∈ ts.map Touch.offset ↔
        g.blockAt p = .ok (some b) ∧ ∃ u ∈ us, u.offset = p ∧ u.acts r = true := by
  obtain ⟨placed, hplaced, hok⟩ := bind_eq_ok.mp ha
  cases hok
  by_cases hb : b < g.size
  · have hoffsets := Summary.offsets_touches (pairwise_placed hplaced fun q => q.1 == b) r
    refine ⟨_, ?_, hoffsets ▸ Usage.ascending_offsets _, fun p => ?_⟩
    · show ((summarize g placed).get b).use? r = _
      rw [summarize, Table.get_tabulate, if_pos hb, Summary.use?_eq]
      rfl
    · rw [hoffsets, Usage.mem_offsets]
      simp only [List.mem_filter, mem_placed hplaced]
      constructor
      · intro h
        obtain ⟨u, ⟨⟨hu, hblock⟩, hacts⟩, rfl⟩ := h
        exact ⟨hblock, u, hu, rfl, hacts⟩
      · intro h
        obtain ⟨hblock, u, hu, rfl, hacts⟩ := h
        exact ⟨u, ⟨⟨hu, hblock⟩, hacts⟩, rfl⟩
  · refine ⟨[], ?_, List.Pairwise.nil, fun p => ?_⟩
    · show ((summarize g placed).get b).use? r = _
      rw [summarize, Table.get_tabulate, if_neg hb]
      rfl
    · refine iff_of_false List.not_mem_nil fun h => hb ?_
      exact Graph.lt_size_of_blockAt h.1

theorem use?_ne_none_iff (ha : ofUsages g us = .ok a) :
    (a.summaries.get b).use? r ≠ none ↔ g.Accesses us b r := by
  obtain ⟨ts, hts, _, hmem⟩ := exists_touches ha b r
  rw [hts, Use.ofTouches?, ne_eq, ite_eq_left_iff, Classical.not_imp]
  constructor
  · intro huse
    obtain ⟨t, ht⟩ := List.exists_mem_of_ne_nil ts huse.1
    obtain ⟨hblock, u, hu, hoffset, hacts⟩ := (hmem t.offset).mp (List.mem_map_of_mem ht)
    exact ⟨u, hu, hoffset ▸ hblock, hacts⟩
  · intro haccess
    obtain ⟨u, hu, hblock, hacts⟩ := haccess
    have hin := (hmem u.offset).mpr ⟨hblock, u, hu, rfl, hacts⟩
    refine ⟨?_, Option.some_ne_none _⟩
    rintro rfl
    exact List.not_mem_nil hin

theorem mem_registers_iff_acts (ha : ofUsages g us = .ok a) :
    r ∈ a.registers ↔ ∃ u ∈ us, u.acts r = true := by
  rw [(fresh_of_ofUsages ha).mem_registers]
  constructor
  · intro h
    obtain ⟨b, _, huse⟩ := h
    obtain ⟨u, hu, _, hacts⟩ := (use?_ne_none_iff ha).mp huse
    exact ⟨u, hu, hacts⟩
  · intro h
    obtain ⟨u, hu, hacts⟩ := h
    obtain ⟨b, hblock⟩ := exists_block ha hu
    exact ⟨b, Graph.lt_size_of_blockAt hblock, (use?_ne_none_iff ha).mpr ⟨u, hu, hblock, hacts⟩⟩

theorem Fresh.get_uses (h : a.Fresh g) (r : Register) (b : Nat) :
    (Table.tabulate g.size fun b => (a.summaries.get b).use? r).get b
      = (a.summaries.get b).use? r := by
  rw [Table.get_tabulate]
  split
  · rfl
  · rename_i hb
    obtain ⟨placed, hplaced⟩ := h.summaries
    rw [hplaced, summarize, Table.get_tabulate, if_neg hb]
    rfl

theorem isSome_use?_iff (ha : ofUsages g us = .ok a) :
    (a.use? b r).isSome = true ↔ g.Accesses us b r := by
  have hfresh := fresh_of_ofUsages ha
  rw [← use?_ne_none_iff ha, ← Option.isSome_iff_ne_none]
  by_cases hr : r ∈ a.registers
  · cases hslot : r.isSlot with
    | true =>
      obtain ⟨base, hbase⟩ := hfresh.use?_shifted hr hslot b
      rw [hbase, Option.isSome_map, hfresh.get_uses]
    | false => rw [hfresh.use?_physical hr hslot, Option.isSome_map, hfresh.get_uses]
  · rw [use?, track?_eq_none hr, Option.bind_none, Option.isSome_none]
    refine iff_of_false Bool.false_ne_true fun huse => hr ?_
    obtain ⟨u, hu, _, hacts⟩ := (use?_ne_none_iff ha).mp (Option.isSome_iff_ne_none.mp huse)
    exact (mem_registers_iff_acts ha).mpr ⟨u, hu, hacts⟩

/-- The accesses of a register in a block stand in ascending order, at the offsets of the usages
there that read or write it. -/
theorem offsets_accesses (ha : ofUsages g us = .ok a) (b : Nat) (r : Register) :
    Ascending ((a.accesses b r).map Access.offset) ∧
      ∀ p, p ∈ (a.accesses b r).map Access.offset ↔
        g.blockAt p = .ok (some b) ∧ ∃ u ∈ us, u.offset = p ∧ u.acts r = true := by
  by_cases hr : r ∈ a.registers
  · obtain ⟨φ, hφ⟩ := (fresh_of_ofUsages ha).accesses_eq hr b
    obtain ⟨ts, hts, hasc, hmem⟩ := exists_touches ha b r
    have hoffsets : (a.accesses b r).map Access.offset = ts.map Touch.offset := by
      rw [hφ, (fresh_of_ofUsages ha).get_uses, hts, Use.accesses_ofTouches?, List.map_map,
        ← Touch.map_offset_number 0 ts]
      rfl
    rw [hoffsets]
    exact ⟨hasc, hmem⟩
  · have hnil : a.accesses b r = [] :=
      List.eq_nil_iff_forall_not_mem.mpr fun x hx => hr (mem_registers_of_accesses hx)
    rw [hnil]
    refine ⟨List.Pairwise.nil, fun p => iff_of_false List.not_mem_nil fun h => hr ?_⟩
    obtain ⟨_, u, hu, _, hacts⟩ := h
    exact (mem_registers_iff_acts ha).mpr ⟨u, hu, hacts⟩

end Analysis

end RegisterWeb
