import Mathlib
import RegisterWeb.Proofs.Cover
import RegisterWeb.Proofs.Link

/-!
Where accesses lie. The block that is found for an offset spans it, also where the sizes of hinted
instructions run over the end of the words, so every access of a block lies between its start and
its stop.
-/

namespace RegisterWeb

open RegisterWeb.Graph

/-! ### Blocks without a bound on sizes -/

namespace Instr

variable {s : Settings} {code : Code} {n : Offset} {hints : List Hint} {known : List Instr} {h : Hint}

/-- The check at the end of the section bounds the wrapped sum, whatever the sizes are. -/
theorem next_le_of_ofHints (hok : ofHints s code n hints = .ok known) : ∀ i ∈ known, i.next ≤ n := by
  refine ofHints_induct (P := fun _ known => ∀ i ∈ known, i.next ≤ n)
    (fun _ hi => absurd hi List.not_mem_nil) ?_ hok
  intro done known h known' hknown hrecord
  obtain ⟨_, ⟨_, _, _, rfl⟩ | ⟨z, _, _, _, hend, rfl⟩⟩ := record_cases hrecord
  · exact hknown
  · intro i hi
    rcases List.mem_append.mp hi with hi | hi
    · exact hknown i hi
    · rw [List.mem_singleton.mp hi]
      exact hend

theorem entries_le (hok : ofHints s code n hints = .ok known) (hh : h ∈ hints)
    {entries : List Offset} (hentries : entriesOf s n known h = .ok entries) :
    ∀ p ∈ entries, p ≤ n := by
  have hrec := recorded_of_ofHints hok
  have hafter : after known h ≤ n := by
    cases hi : at? known h.offset with
    | none => exact absurd hi (hrec.found h hh)
    | some i =>
      rw [after, hi]
      exact next_le_of_ofHints hok i (List.mem_of_find?_eq_some hi)
  rcases entriesOf_cases hentries with ⟨_, rfl⟩ | ⟨_, rfl⟩ | ⟨_, _, htargets, rfl⟩
  · intro p hp
    rw [List.mem_singleton.mp hp]
    exact Int64.le_of_lt (hrec.inside h hh).2
  · intro p hp
    rw [List.mem_singleton.mp hp]
    exact hafter
  · intro p hp
    rcases List.mem_append.mp hp with hp | hp
    · exact Int64.le_of_lt (targets_inside htargets p hp).2
    · rw [List.mem_singleton.mp hp]
      exact hafter

end Instr

theorem Layout.starts_lt {s : Settings} {code : Code} {n : Offset} {hints : List Hint}
    {starts : List Offset} (hok : Layout.starts s code n hints = .ok starts) (hn : 0 < n) :
    Ascending starts ∧ ∀ p ∈ starts, p < n := by
  obtain ⟨known, marked, hknown, hmarked, rfl⟩ := starts_eq_ok hok
  refine ⟨(Ascending.ascending_ofList _).filter _, ?_⟩
  intro p hp
  rw [List.mem_filter, bne_iff_ne, Ascending.mem_ofList, List.mem_cons,
    mem_flatten_mapM hmarked] at hp
  have hle : p ≤ n := by
    rcases hp.1 with rfl | ⟨h, hh, entries, hentries, hp⟩
    · exact Int64.le_of_lt hn
    · exact Instr.entries_le hknown hh hentries p hp
  exact Int64.lt_of_le_of_ne hle hp.2

namespace Graph

variable {s : Settings} {code : Code} {n : Offset} {hints : List Hint} {g : Graph}
  {starts : List Offset} {transfers : List Transfer}

theorem length_ne_zero_of_build (hok : build s code n hints = .ok g) {b : Nat} (hb : b < g.size) :
    n ≠ 0 := by
  rintro rfl
  rw [(build_zero hok).2] at hb
  exact absurd hb (Nat.not_lt_zero b)

theorem Stages.stop_eq (h : Stages s code n hints g starts transfers) {i : Nat}
    (hi : i < starts.length) : (g.block i).stop = starts[i + 1]?.getD n := by
  have hplace := h.place_eq (h.size_eq ▸ hi)
  rw [hplace.2.2.2, Layout.getD_blocks hi]

/-- In a section that has bytes no block is empty. -/
theorem Stages.start_lt_stop (h : Stages s code n hints g starts transfers) (hn : 0 < n) {b : Nat}
    (hb : b < g.size) : (g.block b).start < (g.block b).stop := by
  have hb' : b < starts.length := h.size_eq ▸ hb
  obtain ⟨hasc, hlt⟩ := Layout.starts_lt h.opened hn
  rw [h.start_eq hb', h.stop_eq hb']
  by_cases hnext : b + 1 < starts.length
  · rw [List.getElem?_eq_getElem hnext]
    exact List.pairwise_iff_getElem.mp hasc b (b + 1) hb' hnext (Nat.lt_succ_self b)
  · rw [List.getElem?_eq_none (Nat.not_lt.mp hnext)]
    exact hlt _ (List.getElem_mem hb')

/-- The block that is found for an offset holds it. -/
theorem Stages.contains_of_blockAt (h : Stages s code n hints g starts transfers) {p : Offset}
    {b : Nat} (hb : g.blockAt p = .ok (some b)) : (g.block b).contains p = true := by
  have hsize := lt_size_of_blockAt hb
  have hb' : b < starts.length := h.size_eq ▸ hsize
  rw [Graph.blockAt, RegisterWeb.blockAt, h.length_eq] at hb
  split at hb
  · cases hb
  · rename_i hin
    rw [not_or, Int64.not_lt, Int64.not_le] at hin
    have hn : 0 < n := Int64.lt_of_le_of_lt hin.1 hin.2
    obtain ⟨hasc, hlt⟩ := Layout.starts_lt h.opened hn
    have hget : ∀ i j (hi : i < starts.length) (hj : j < starts.length), i < j →
        starts[i] < starts[j] := List.pairwise_iff_getElem.mp hasc
    have htest : ∀ i (hi : i < starts.length),
        decide (p < (g.blocks.getD i default).start) = decide (p < starts[i]) := by
      intro i hi
      rw [← h.start_eq hi]
      rfl
    have hup : Upward g.blocks.size fun i => decide (p < (g.blocks.getD i default).start) := by
      intro i j hij hj hi
      have hj' : j < starts.length := h.size_eq ▸ hj
      have hi' : i < starts.length := Nat.lt_of_le_of_lt hij hj'
      simp only [htest i hi', htest j hj', decide_eq_true_eq] at hi ⊢
      rcases Nat.lt_or_eq_of_le hij with hlt | rfl
      · exact Int64.lt_trans hi (hget i j hi' hj' hlt)
      · exact hi
    split at hb
    · cases hb
    · rename_i i hbisect
      cases hb
      have hhere := bisect_splits hup hsize
      rw [hbisect, htest b hb', decide_eq_true_eq] at hhere
      have hstart : starts[b] ≤ p := by
        rw [← Int64.not_lt, hhere]
        omega
      rw [Block.contains, Bool.and_eq_true, decide_eq_true_eq, decide_eq_true_eq,
        h.start_eq hb', h.stop_eq hb']
      refine ⟨hstart, ?_⟩
      by_cases hnext : b + 1 < starts.length
      · have hthere := bisect_splits hup (show b + 1 < g.size from h.size_eq ▸ hnext)
        rw [hbisect, htest (b + 1) hnext, decide_eq_true_eq] at hthere
        rw [List.getElem?_eq_getElem hnext]
        exact hthere.mpr (Nat.le_refl _)
      · rw [List.getElem?_eq_none (Nat.not_lt.mp hnext)]
        exact hin.2

/-- A section that holds a block with calls has bytes. -/
theorem Stages.positive_of_calls (h : Stages s code n hints g starts transfers) {b : Nat}
    (hcalls : (g.block b).calls = true) : 0 < n := by
  have hb : b < g.size := by
    by_contra hb
    rw [block_of_size_le (Nat.not_lt.mp hb)] at hcalls
    cases hcalls
  obtain ⟨root, hblock⟩ := h.block_eq hb
  rw [hblock] at hcalls
  obtain ⟨t, ht, _⟩ := List.any_eq_true.mp hcalls
  obtain ⟨hint, hmem, _⟩ := exists_of_mem_mapM h.located (List.mem_filter.mp ht).1
  exact h.positive (List.mem_filter.mp hmem).1

end Graph

/-! ### Accesses -/

theorem lookup_map_pair {α β : Type} [DecidableEq α] (f : α → β) (l : List α)
    (a : α) : (l.map fun c => (c, f c)).lookup a = if a ∈ l then some (f a) else none := by
  induction l with
  | nil => rfl
  | cons c l ih =>
    rw [List.map_cons, List.lookup_cons, ih]
    by_cases hac : a = c
    · simp [hac]
    · simp [hac, beq_false_of_ne hac]

theorem Touch.exists_of_mem_number {k : Nat} {touches : List Touch} {x : Access}
    (hx : x ∈ number k touches) : ∃ t ∈ touches, t.offset = x.offset := by
  fun_induction number k touches with
  | case1 => exact absurd hx List.not_mem_nil
  | case2 k t ts hwrites ih =>
    rcases List.mem_cons.mp hx with rfl | hx
    · exact ⟨t, List.mem_cons_self, rfl⟩
    · obtain ⟨t', ht', heq⟩ := ih hx
      exact ⟨t', List.mem_cons_of_mem _ ht', heq⟩
  | case3 k t ts hwrites ih =>
    rcases List.mem_cons.mp hx with rfl | hx
    · exact ⟨t, List.mem_cons_self, rfl⟩
    · obtain ⟨t', ht', heq⟩ := ih hx
      exact ⟨t', List.mem_cons_of_mem _ ht', heq⟩

theorem Touch.exists_of_of? {r : Register} {instr : List Usage} {t : Touch}
    (h : of? r instr = some t) : ∃ u ∈ instr, u.offset = t.offset := by
  unfold of? at h
  simp only at h
  split at h
  · cases h
  · rename_i u rest hmine
    split at h
    · cases h
      exact ⟨u, (List.mem_filter.mp (hmine ▸ List.mem_cons_self)).1, rfl⟩
    · cases h

theorem Summary.mem_of_mem_instructions {usages instr : List Usage} {u : Usage}
    (h : instr ∈ instructions usages) (hu : u ∈ instr) : u ∈ usages := by
  rw [← List.flatten_splitBy (fun a b : Usage => a.offset == b.offset) usages]
  exact List.mem_flatten.mpr ⟨instr, h, hu⟩

namespace Analysis

variable {g : Graph} {a : Analysis} {r : Register} {b : Nat}

/-- The accesses of a register are those of the summary, with other versions. -/
theorem Fresh.accesses_eq (h : a.Fresh g) (hr : r ∈ a.registers) (b : Nat) :
    ∃ φ : Version → Version, a.accesses b r =
      ((((Table.tabulate g.size fun b => (a.summaries.get b).use? r).get b).map
        Use.accesses).getD []).map fun x => { x with write := x.write.map φ } := by
  cases hslot : r.isSlot with
  | true =>
    obtain ⟨base, hbase⟩ := h.use?_shifted hr hslot b
    refine ⟨(· + base), ?_⟩
    rw [accesses, hbase]
    cases (Table.tabulate g.size fun b => (a.summaries.get b).use? r).get b <;> rfl
  | false =>
    refine ⟨fun _ => Version.entry, ?_⟩
    rw [accesses, h.use?_physical hr hslot]
    cases (Table.tabulate g.size fun b => (a.summaries.get b).use? r).get b <;> rfl

/-- Every access is that of a usage that was placed in the block. -/
theorem blockAt_of_access {usages : List Usage} (ha : ofUsages g usages = .ok a) {x : Access}
    (hx : x ∈ a.accesses b r) : g.blockAt x.offset = .ok (some b) := by
  have hfresh := fresh_of_ofUsages ha
  obtain ⟨φ, hφ⟩ := hfresh.accesses_eq (mem_registers_of_accesses hx) b
  obtain ⟨placed, hplaced, hok⟩ := bind_eq_ok.mp ha
  have hsummaries : a.summaries = summarize g placed := by
    cases hok
    rfl
  rw [hφ] at hx
  obtain ⟨y, hy, rfl⟩ := List.mem_map.mp hx
  rw [Table.get_tabulate] at hy
  split at hy
  · rename_i hb
    rw [hsummaries, summarize, Table.get_tabulate, if_pos hb] at hy
    cases huse : (Summary.ofUsages ((placed.filter fun p => p.1 == b).map Prod.snd)).use? r with
    | none =>
      rw [huse] at hy
      exact absurd hy List.not_mem_nil
    | some u =>
      rw [huse, Summary.use?_ofUsages huse] at hy
      obtain ⟨t, ht, hoffset⟩ := Touch.exists_of_mem_number hy
      obtain ⟨instr, hinstr, ht⟩ := List.mem_filterMap.mp ht
      obtain ⟨v, hv, hv'⟩ := Touch.exists_of_of? ht
      obtain ⟨p, hp, rfl⟩ := List.mem_map.mp (Summary.mem_of_mem_instructions hinstr hv)
      obtain ⟨hp, hpb⟩ := List.mem_filter.mp hp
      obtain ⟨w, _, hw⟩ := exists_of_mem_mapM hplaced hp
      unfold place at hw
      split at hw
      · rename_i c hc
        cases hw
        have hcb : c = b := beq_iff_eq.mp hpb
        rw [← hoffset, ← hv', hc, hcb]
      · cases hw
      · cases hw
  · exact absurd hy List.not_mem_nil

end Analysis

/-! ### Neighbouring offsets -/

theorem Offset.toInt_add_one {p q : Offset} (h : p < q) : (p + 1).toInt = p.toInt + 1 := by
  rw [Int64.lt_iff_toInt_lt] at h
  have hq := q.toInt_lt
  have hp := p.le_toInt
  rw [Int64.toInt_add, Int64.toInt_one]
  apply Int.bmod_eq_of_le <;> omega

theorem Offset.toInt_sub_one {p q : Offset} (h : p < q) : (q - 1).toInt = q.toInt - 1 := by
  rw [Int64.lt_iff_toInt_lt] at h
  have hq := q.toInt_lt
  have hp := p.le_toInt
  rw [Int64.toInt_sub, Int64.toInt_one]
  apply Int.bmod_eq_of_le <;> omega

/-! ### The blocks of a range -/

theorem Layout.Partition.start_mono {n : Offset} {blocks : Array Block} (h : Partition n blocks)
    {i j : Nat} (hij : i ≤ j) (hj : j < blocks.size) :
    (blocks.getD i default).start ≤ (blocks.getD j default).start := by
  rcases Nat.lt_or_eq_of_le hij with hlt | rfl
  · exact Int64.le_trans (Int64.le_of_lt (h.full i (Nat.lt_trans hlt hj))) (h.stop_le_start hlt hj)
  · exact Int64.le_refl _

namespace Live

/-- On a test that never holds again after it failed, the elements before the first failure are those
that pass. -/
theorem mem_takeWhile_range' {test : Nat → Bool} {b : Nat} (k n : Nat)
    (hdown : ∀ i j, k ≤ i → i ≤ j → j < k + n → test j = true → test i = true) :
    b ∈ (List.range' k n).takeWhile test ↔ k ≤ b ∧ b < k + n ∧ test b = true := by
  induction n generalizing k with
  | zero =>
    simp only [List.range'_zero, List.takeWhile_nil, List.not_mem_nil, false_iff]
    omega
  | succ n ih =>
    rw [List.range'_succ, List.takeWhile_cons]
    by_cases hk : test k = true
    · rw [if_pos hk, List.mem_cons, ih (k + 1) fun i j hki hij hj => hdown i j (by omega) hij (by omega)]
      constructor
      · intro h
        rcases h with rfl | h
        · exact ⟨Nat.le_refl _, by omega, hk⟩
        · exact ⟨by omega, by omega, h.2.2⟩
      · intro h
        rcases Nat.eq_or_lt_of_le h.1 with rfl | hlt
        · exact Or.inl rfl
        · exact Or.inr ⟨hlt, by omega, h.2.2⟩
    · rw [if_neg hk]
      simp only [List.not_mem_nil, false_iff]
      intro h
      exact hk (hdown k b (Nat.le_refl k) h.1 h.2.1 h.2.2)

/-- A range meets the blocks that it has an offset in common with. -/
theorem mem_blocksOfRange {g : Graph} (hpart : Layout.Partition g.length g.blocks) {r : Range}
    {blocks : List Nat} (hok : blocksOfRange g r = .ok blocks) (b : Nat) :
    b ∈ blocks ↔ 0 ≤ r.start ∧ b < g.size ∧
      (g.block b).start < r.stop ∧ r.start < (g.block b).stop := by
  unfold blocksOfRange at hok
  split at hok
  · cases hok
  · rename_i hnone
    cases hok
    simp only [List.not_mem_nil, false_iff]
    intro h
    have hhigh := Int64.lt_of_lt_of_le h.2.2.2 (hpart.bounds h.2.1).2
    obtain ⟨i, _, hi, _⟩ := hpart.blockAt_inside h.1 hhigh
    rw [Graph.blockAt, hi] at hnone
    cases hnone
  · rename_i c hc
    cases hok
    have hlow : 0 ≤ r.start ∧ r.start < g.length := by
      by_contra hout
      rw [Graph.blockAt, Layout.blockAt_outside _ _ hout] at hc
      cases hc
    obtain ⟨i, hi, hfound, hin⟩ := hpart.blockAt_inside hlow.1 hlow.2
    rw [Graph.blockAt, hfound] at hc
    obtain rfl : i = c := by simpa using hc
    have hin : (g.block i).start ≤ r.start ∧ r.start < (g.block i).stop := by
      rwa [Block.contains, Bool.and_eq_true, decide_eq_true_eq, decide_eq_true_eq] at hin
    have hsize : i + (g.size - i) = g.size := Nat.add_sub_cancel' (Nat.le_of_lt hi)
    rw [List.range_eq_range', List.drop_range', mem_takeWhile_range', decide_eq_true_eq,
      Nat.zero_add, Nat.mul_one, hsize]
    · constructor
      · intro h
        refine ⟨hlow.1, h.2.1, h.2.2, ?_⟩
        rcases Nat.lt_or_eq_of_le h.1 with hlt | rfl
        · exact Int64.lt_of_lt_of_le hin.2 (Int64.le_trans (hpart.stop_le_start hlt h.2.1)
            (Int64.le_of_lt (hpart.full b h.2.1)))
        · exact hin.2
      · intro h
        refine ⟨?_, h.2.1, h.2.2.1⟩
        by_contra hlt
        have hbefore := hpart.stop_le_start (Nat.not_le.mp hlt) hi
        exact Int64.lt_irrefl (Int64.lt_of_lt_of_le h.2.2.2 (Int64.le_trans hbefore hin.1))
    · intro j k hij hjk hk hlt
      rw [decide_eq_true_eq] at hlt ⊢
      exact Int64.lt_of_le_of_lt (hpart.start_mono hjk (show k < g.size by omega)) hlt

theorem fst_of_blocksOf {g : Graph} {x : LiveInstance} {e : LiveInstance × List Nat}
    (h : blocksOf g x = .ok e) : e.1 = x := by
  obtain ⟨_, _, h⟩ := bind_eq_ok.mp h
  cases h
  rfl

/-- The blocks of an instance are those that one of its ranges meets. -/
theorem mem_blocksOf {g : Graph} (hpart : Layout.Partition g.length g.blocks) {x : LiveInstance}
    {e : LiveInstance × List Nat} (h : blocksOf g x = .ok e) (b : Nat) :
    b ∈ e.2 ↔ ∃ q ∈ x.ranges, 0 ≤ q.start ∧ b < g.size ∧
      (g.block b).start < q.stop ∧ q.start < (g.block b).stop := by
  obtain ⟨blocks, hblocks, h⟩ := bind_eq_ok.mp h
  cases h
  rw [Layout.mem_flatten_mapM hblocks]
  constructor
  · rintro ⟨q, hq, met, hmet, hb⟩
    exact ⟨q, hq, (mem_blocksOfRange hpart hmet b).mp hb⟩
  · rintro ⟨q, hq, hb⟩
    obtain ⟨met, _, hmet⟩ := exists_mem_of_mapM hblocks hq
    exact ⟨q, hq, met, hmet, (mem_blocksOfRange hpart hmet b).mpr hb⟩

/-- Those are the blocks that hold an offset at which the instance is live. -/
theorem mem_blocksOf_iff_live {g : Graph} (hpart : Layout.Partition g.length g.blocks)
    {x : LiveInstance} (happart : x.ranges.Apart)
    (hnonneg : ∀ p, x.ranges.contains p = true → 0 ≤ p) {e : LiveInstance × List Nat}
    (h : blocksOf g x = .ok e) (b : Nat) :
    b ∈ e.2 ↔
      b < g.size ∧ ∃ p, x.ranges.contains p = true ∧ (g.block b).contains p = true := by
  simp only [mem_blocksOf hpart h, Block.contains, Bool.and_eq_true, decide_eq_true_eq]
  constructor
  · intro hb
    obtain ⟨q, hq, _, hsize, hstart, hstop⟩ := hb
    refine ⟨hsize, ?_⟩
    -- the later of the two starts lies in both
    rcases Int64.le_total q.start (g.block b).start with hle | hle
    · exact ⟨_, (happart.contains_iff _).mpr ⟨q, hq, hle, hstart⟩, Int64.le_refl _,
        hpart.full b hsize⟩
    · exact ⟨_, (happart.contains_iff _).mpr ⟨q, hq, Int64.le_refl _, happart.full q hq⟩, hle,
        hstop⟩
  · intro hb
    obtain ⟨hsize, p, hp, hlow, hhigh⟩ := hb
    obtain ⟨q, hq, hstart, hstop⟩ := (happart.contains_iff p).mp hp
    have hzero := hnonneg q.start
      ((happart.contains_iff _).mpr ⟨q, hq, Int64.le_refl _, happart.full q hq⟩)
    exact ⟨q, hq, hzero, hsize, Int64.lt_of_le_of_lt hlow hstop, Int64.lt_of_le_of_lt hstart hhigh⟩

end Live

end RegisterWeb
