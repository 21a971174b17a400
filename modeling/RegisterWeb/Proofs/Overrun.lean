import Mathlib
import RegisterWeb.Proofs.HintOrder

/-!
Instructions that run over the end of the words. A hinted instruction is refused if it ends behind the
section, but its end is a sum of two words: beyond the largest word the sum is negative and nothing
is refused. So an accepted instruction lies in the section or overruns all words, and a block of a
section that has bytes starts in the section or at such a negative sum.
-/

namespace RegisterWeb

namespace Instr

/-- The offset right after the instruction, in numbers without bounds. -/
def stop (i : Instr) : Int :=
  i.offset.toInt + i.size.toInt

/-- The instruction ends beyond the largest word. -/
def Overruns (i : Instr) : Prop :=
  Int64.maxValue.toInt < i.stop

instance (i : Instr) : Decidable i.Overruns :=
  inferInstanceAs (Decidable (Int64.maxValue.toInt < i.stop))

variable {s : Settings} {code : Code} {n : Offset} {hints : List Hint} {known : List Instr}
  {i : Instr} {h : Hint}

theorem toInt_next_of_not_overruns (hlow : 0 ≤ i.offset) (hsize : 0 < i.size)
    (hfits : ¬ i.Overruns) : i.next.toInt = i.stop :=
  Offset.toInt_add_of_le hlow hsize (Int.not_lt.mp hfits)

theorem next_nonneg_of_not_overruns (hlow : 0 ≤ i.offset) (hsize : 0 < i.size)
    (hfits : ¬ i.Overruns) : 0 ≤ i.next := by
  have hnext := toInt_next_of_not_overruns hlow hsize hfits
  have hstop : i.stop = i.offset.toInt + i.size.toInt := rfl
  rw [Int64.le_iff_toInt_le, Int64.toInt_zero] at hlow ⊢
  rw [Int64.lt_iff_toInt_lt, Int64.toInt_zero] at hsize
  omega

/-- The end of an instruction that overruns the words is a negative word. -/
theorem toInt_next_of_overruns (hover : i.Overruns) :
    i.next.toInt = i.stop - UInt64.size ∧ i.next < 0 := by
  have hoffset := i.offset.toInt_lt
  have hsize := i.size.toInt_lt
  have hmax : Int64.maxValue.toInt = 9223372036854775807 := rfl
  have hwords : ((UInt64.size : Nat) : Int) = 18446744073709551616 := rfl
  have hstop : i.stop = i.offset.toInt + i.size.toInt := rfl
  rw [Overruns, hmax] at hover
  have hnext : i.next.toInt = i.stop - UInt64.size := by
    rw [next, Int64.toInt_add, Int.bmod_eq_iff (by decide), hwords]
    omega
  refine ⟨hnext, ?_⟩
  rw [Int64.lt_iff_toInt_lt, hnext, Int64.toInt_zero, hwords]
  omega

theorem Recorded.exists_hint (hrec : Recorded s code n hints known) (hi : i ∈ known) :
    ∃ h ∈ hints, h.offset = i.offset := by
  by_contra hnone
  have hsize := hrec.size i.offset
  rw [Hint.sizeAt?_eq_none hnone, Option.map_eq_none_iff] at hsize
  exact List.find?_eq_none.mp hsize i hi (beq_self_eq_true i.offset)

/-- A recorded instruction starts in the section, and it ends there unless it overruns the words. -/
theorem inside_unless_overruns (hok : ofHints s code n hints = .ok known) (hi : i ∈ known) :
    0 ≤ i.offset ∧ i.offset < n ∧ 0 < i.size ∧ (i.stop ≤ n.toInt ↔ ¬ i.Overruns) := by
  have hrec := recorded_of_ofHints hok
  obtain ⟨h, hh, hoffset⟩ := hrec.exists_hint hi
  have hin := hrec.inside h hh
  rw [hoffset] at hin
  have hsize := hrec.positive i hi
  refine ⟨hin.1, hin.2, hsize, ?_⟩
  constructor
  · intro hstop
    have hmax := Int64.le_iff_toInt_le.mp (Int64.le_maxValue n)
    exact Int.not_lt.mpr (Int.le_trans hstop hmax)
  · intro hfits
    have hend := Int64.le_iff_toInt_le.mp (next_le_of_ofHints hok i hi)
    rwa [toInt_next_of_not_overruns hin.1 hsize hfits] at hend

/-- A hint makes blocks start in the section, at its end, or at the negative end of an instruction
that overruns the words. -/
theorem entries_cases (hok : ofHints s code n hints = .ok known) (hh : h ∈ hints)
    {entries : List Offset} (hentries : entriesOf s n known h = .ok entries) {p : Offset}
    (hp : p ∈ entries) : (0 ≤ p ∧ p ≤ n) ∨ ∃ i ∈ known, i.Overruns ∧ p = i.next := by
  have hrec := recorded_of_ofHints hok
  have hin := hrec.inside h hh
  have hafter : (0 ≤ after known h ∧ after known h ≤ n) ∨
      ∃ i ∈ known, i.Overruns ∧ after known h = i.next := by
    obtain ⟨i, hat⟩ := Option.ne_none_iff_exists'.mp (hrec.found h hh)
    have hi := List.mem_of_find?_eq_some hat
    rw [after, hat]
    by_cases hover : i.Overruns
    · exact Or.inr ⟨i, hi, hover, rfl⟩
    · obtain ⟨hlow, _, hsize, _⟩ := inside_unless_overruns hok hi
      exact Or.inl ⟨next_nonneg_of_not_overruns hlow hsize hover, next_le_of_ofHints hok i hi⟩
  rcases entriesOf_cases hentries with ⟨_, rfl⟩ | ⟨_, rfl⟩ | ⟨_, _, hcheck, rfl⟩
  · rw [List.mem_singleton.mp hp]
    exact Or.inl ⟨hin.1, Int64.le_of_lt hin.2⟩
  · rw [List.mem_singleton.mp hp]
    exact hafter
  · rcases List.mem_append.mp hp with hp | hp
    · have htarget := targets_inside hcheck p hp
      exact Or.inl ⟨htarget.1, Int64.le_of_lt htarget.2⟩
    · rw [List.mem_singleton.mp hp]
      exact hafter

end Instr

/-- Blocks start at zero, in the section, or at the negative end of an instruction that overruns the
words. -/
theorem Layout.starts_cases {s : Settings} {code : Code} {n : Offset} {hints : List Hint}
    {starts : List Offset} (hok : Layout.starts s code n hints = .ok starts) :
    ∃ known, Instr.ofHints s code n hints = .ok known ∧ ∀ p ∈ starts,
      (0 ≤ p ∧ p < n) ∨ (n < 0 ∧ p = 0) ∨ ∃ i ∈ known, i.Overruns ∧ p = i.next := by
  obtain ⟨known, hknown, _, _, hmem⟩ := mem_starts_iff hok
  refine ⟨known, hknown, fun p hp => ?_⟩
  obtain ⟨hne, rfl | ⟨h, hh, entries, hentries, hp⟩⟩ := (hmem p).mp hp
  · rcases Int64.lt_or_lt_of_ne hne with hpos | hneg
    · exact Or.inl ⟨Int64.le_refl 0, hpos⟩
    · exact Or.inr (Or.inl ⟨hneg, rfl⟩)
  · rcases Instr.entries_cases hknown hh hentries hp with hin | hover
    · exact Or.inl ⟨hin.1, Int64.lt_of_le_of_ne hin.2 hne⟩
    · exact Or.inr (Or.inr hover)

/-- Every recorded instruction starts in the section and has a size. It ends in the section, in
numbers without bounds, if and only if it does not overrun the words. A block of a built graph
starts in the section, at zero if the length is negative, or at the wrapped end of an instruction
that overruns the words. -/
theorem Graph.inside_unless_overrun (s : Settings) (code : Code) (n : Offset) (hints : List Hint) :
    (∀ known, Instr.ofHints s code n hints = .ok known → ∀ i ∈ known,
      0 ≤ i.offset ∧ i.offset < n ∧ 0 < i.size ∧ (i.stop ≤ n.toInt ↔ ¬ i.Overruns)) ∧
    ∀ g, Graph.build s code n hints = .ok g →
      ∃ known, Instr.ofHints s code n (Hint.sort hints) = .ok known ∧ ∀ b < g.size,
        (0 ≤ (g.block b).start ∧ (g.block b).start < n) ∨ (n < 0 ∧ (g.block b).start = 0) ∨
          ∃ i ∈ known, i.Overruns ∧ (g.block b).start.toInt = i.stop - UInt64.size := by
  refine ⟨fun known hok i hi => Instr.inside_unless_overruns hok hi, fun g hgraph => ?_⟩
  by_cases hzero : n = 0
  · subst hzero
    obtain ⟨rfl, rfl⟩ := build_zero hgraph
    refine ⟨[], ?_, fun b hb => absurd hb (Nat.not_lt_zero b)⟩
    rw [Hint.sort, List.mergeSort_nil]
    rfl
  · obtain ⟨starts, transfers, hstages⟩ := exists_stages hgraph hzero
    obtain ⟨known, hknown, hcases⟩ := Layout.starts_cases hstages.opened
    refine ⟨known, hknown, fun b hb => ?_⟩
    have hb' : b < starts.length := hstages.size_eq ▸ hb
    rw [hstages.start_eq hb']
    rcases hcases _ (List.getElem_mem hb') with hin | hneg | ⟨i, hi, hover, heq⟩
    · exact Or.inl hin
    · exact Or.inr (Or.inl hneg)
    · exact Or.inr (Or.inr ⟨i, hi, hover, heq ▸ (Instr.toInt_next_of_overruns hover).1⟩)

namespace Overlong

/-- The return is said to be as long as the largest word. -/
def hints : List Hint :=
  [⟨0, .jump, [4], 0⟩, ⟨4, .ret, [], Int64.maxValue⟩]

def graph : Graph where
  length := 8
  blocks := #[⟨0, -9223372036854775805, 0, [⟨1, false⟩], true, false, false, false⟩,
    ⟨1, 0, 4, [⟨2, false⟩], false, false, false, true⟩,
    ⟨2, 4, 8, [], false, false, true, false⟩]
  preds := ⟨#[[], [⟨0, false⟩], [⟨1, false⟩]]⟩
  routines := []
  boundaries := []

theorem builds : Graph.build (Settings.standard 1) #[] 8 hints = .ok graph := by
  cbv

theorem records :
    Instr.ofHints (Settings.standard 1) #[] 8 hints = .ok [⟨0, 4⟩, ⟨4, Int64.maxValue⟩] := by
  cbv

/-- The jump ends in the section and the return overruns the words; of the blocks only the first one
does not start in the section. -/
theorem first_block_wrapped : Instr.stop ⟨0, 4⟩ ≤ 8 ∧ ¬ Instr.stop ⟨4, Int64.maxValue⟩ ≤ 8 ∧
    ∃ i : Instr, i.Overruns ∧ (graph.block 0).start.toInt = i.stop - UInt64.size := by
  obtain ⟨hknown, hblocks⟩ :=
    Graph.inside_unless_overrun (Settings.standard 1) #[] 8 hints
  have hall := hknown _ records
  obtain ⟨_, _, _, hjump⟩ := hall ⟨0, 4⟩ (by decide)
  obtain ⟨_, _, _, hreturn⟩ := hall ⟨4, Int64.maxValue⟩ (by decide)
  refine ⟨hjump.mpr (by decide), fun hstop => absurd (hreturn.mp hstop) (by decide), ?_⟩
  obtain ⟨known, _, hstart⟩ := hblocks graph builds
  rcases hstart 0 (by decide) with hin | hneg | ⟨i, _, hi⟩
  · exact absurd hin.1 (by decide)
  · exact absurd hneg.1 (by decide)
  · exact ⟨i, hi⟩

/-- An instruction that reaches far beyond the section is accepted, and a block starts before
zero. -/
theorem accepted_beyond_section :
    ∃ known, Instr.ofHints (Settings.standard 1) #[] 8 hints = .ok known ∧
      (∃ i ∈ known, (8 : Offset).toInt < i.offset.toInt + i.size.toInt) ∧
      ∃ g, Graph.build (Settings.standard 1) #[] 8 hints = .ok g ∧
        ∃ b < g.size, (g.block b).start < 0 := by
  refine ⟨_, records, ⟨⟨4, Int64.maxValue⟩, by decide, by decide⟩, graph, builds, 0, ?_, ?_⟩
  · decide
  · decide

end Overlong

end RegisterWeb
