import Mathlib
import RegisterWeb.Proofs.Overrun

/-!
Branch targets. The targets of jumps and calls lie in the section and are aligned. Of the hinted
instructions only the last one that starts at or before a target is looked at, so no target lies
inside of that one, unless its end is beyond all words. Inside of an earlier instruction a target
may lie, if another instruction starts between the two.
-/

namespace RegisterWeb

theorem Hint.pairwise_sort (hs : List Hint) :
    (sort hs).Pairwise fun a b => a.offset ≤ b.offset := by
  refine (List.pairwise_mergeSort ?_ ?_ hs).imp of_decide_eq_true
  · intro a b c hab hbc
    exact decide_eq_true (Int64.le_trans (of_decide_eq_true hab) (of_decide_eq_true hbc))
  · intro a b
    simp only [Bool.or_eq_true, decide_eq_true_eq]
    exact Int64.le_total a.offset b.offset

namespace Instr

variable {s : Settings} {code : Code} {n t : Offset} {hints : List Hint} {known : List Instr}
  {i j : Instr}

/-- The offset lies strictly inside of the instruction, in numbers without bounds. -/
def Covers (i : Instr) (t : Offset) : Prop :=
  i.offset < t ∧ t.toInt < i.stop

instance (i : Instr) (t : Offset) : Decidable (i.Covers t) :=
  inferInstanceAs (Decidable (i.offset < t ∧ t.toInt < i.stop))

/-- The instructions of sorted hints stand in ascending order. -/
theorem ascending_of_ofHints (hsorted : hints.Pairwise fun a b => a.offset ≤ b.offset)
    (hok : ofHints s code n hints = .ok known) : Ascending (known.map Instr.offset) := by
  have hboth : Recorded s code n hints known ∧
      ((hints.Pairwise fun a b => a.offset ≤ b.offset) → Ascending (known.map Instr.offset)) := by
    refine ofHints_induct (P := fun done known => Recorded s code n done known ∧
      ((done.Pairwise fun a b => a.offset ≤ b.offset) → Ascending (known.map Instr.offset)))
      ⟨recorded_nil s code n, fun _ => List.Pairwise.nil⟩ ?_ hok
    intro done known h known' hdone hrecord
    obtain ⟨hrec, hasc⟩ := hdone
    refine ⟨hrec.record hrecord, fun hsorted => ?_⟩
    obtain ⟨hbefore, _, hlast⟩ := List.pairwise_append.mp hsorted
    obtain ⟨_, ⟨_, _, _, rfl⟩ | ⟨z, hfree, _, _, _, rfl⟩⟩ := record_cases hrecord
    · exact hasc hbefore
    · rw [List.map_append]
      refine List.pairwise_append.mpr ⟨hasc hbefore, List.pairwise_singleton _ _, ?_⟩
      intro p hp q hq
      obtain ⟨i, hi, rfl⟩ := List.mem_map.mp hp
      obtain rfl := List.mem_singleton.mp hq
      -- a hint at or before the new one has the instruction, and none is known at the new offset
      obtain ⟨h', hh', hoffset⟩ := hrec.exists_hint hi
      have hle := hlast h' hh' h (List.mem_singleton_self h)
      rw [hoffset] at hle
      refine Int64.lt_of_le_of_ne hle fun heq => ?_
      exact List.find?_eq_none.mp hfree i hi (beq_iff_eq.mpr heq)
  exact hboth.2 hsorted

/-- The last instruction at or before an offset starts no earlier than any other one there. -/
theorem exists_lastAt? (hasc : Ascending (known.map Instr.offset)) (hi : i ∈ known)
    (hle : i.offset ≤ t) :
    ∃ j ∈ known, lastAt? known t = some j ∧ j.offset ≤ t ∧ (i = j ∨ i.offset < j.offset) := by
  have hmem : i ∈ known.filter fun i => decide (i.offset ≤ t) :=
    List.mem_filter.mpr ⟨hi, decide_eq_true hle⟩
  have hordered : (known.filter fun i => decide (i.offset ≤ t)).Pairwise
      fun i j => i.offset < j.offset := (List.pairwise_map.mp hasc).filter _
  cases hlast : lastAt? known t with
  | none =>
    rw [List.getLast?_eq_none_iff.mp hlast] at hmem
    exact absurd hmem List.not_mem_nil
  | some j =>
    obtain ⟨before, hbefore⟩ := List.getLast?_eq_some_iff.mp hlast
    have hj : j ∈ known.filter fun i => decide (i.offset ≤ t) := List.mem_of_getLast? hlast
    obtain ⟨hjknown, hjle⟩ := List.mem_filter.mp hj
    refine ⟨j, hjknown, rfl, of_decide_eq_true hjle, ?_⟩
    rw [hbefore] at hmem hordered
    rcases List.mem_append.mp hmem with hmem | hmem
    · exact Or.inr ((List.pairwise_append.mp hordered).2.2 i hmem j (List.mem_singleton_self j))
    · exact Or.inl (List.mem_singleton.mp hmem)

/-- A target without a flaw lies in the section, is aligned, and is not inside of the last
instruction that starts at or before it, as far as words can tell. -/
theorem targetFlaw?_eq_none (hnone : targetFlaw? s n known t = none) :
    (0 ≤ t ∧ t < n) ∧ s.isAligned t = true ∧
      ∀ j, lastAt? known t = some j → ¬ (j.offset < t ∧ t < j.next) := by
  unfold targetFlaw? at hnone
  split at hnone
  · cases hnone
  · rename_i hin
    rw [not_or, Int64.not_lt, Int64.not_le] at hin
    split at hnone
    · cases hnone
    · rename_i haligned
      refine ⟨hin, by simpa using haligned, fun j hj hinside => ?_⟩
      rw [hj] at hnone
      simp only [if_pos hinside] at hnone
      cases hnone

theorem targetFlaw?_of_checkTargets {h : Hint} (hok : checkTargets s n known h = .ok ())
    (ht : t ∈ h.targets) : targetFlaw? s n known t = none := by
  have hcheck := forM_eq_ok hok t ht
  cases hflaw : targetFlaw? s n known t with
  | none => rfl
  | some flaw =>
    rw [hflaw] at hcheck
    cases hcheck

/-- An accepted target is not inside of the last instruction that starts at or before it, unless that
one overruns the words; so it is inside of an earlier one only behind another start. -/
theorem covers_cases (hsorted : hints.Pairwise fun a b => a.offset ≤ b.offset)
    (hok : ofHints s code n hints = .ok known) (hnone : targetFlaw? s n known t = none)
    (hi : i ∈ known) (hcovers : i.Covers t) :
    i.Overruns ∨ ∃ j ∈ known, i.offset < j.offset ∧ j.offset ≤ t ∧ (j.Covers t → j.Overruns) := by
  obtain ⟨_, _, hlast⟩ := targetFlaw?_eq_none hnone
  obtain ⟨j, hj, hfound, hle, hij⟩ :=
    exists_lastAt? (ascending_of_ofHints hsorted hok) hi (Int64.le_of_lt hcovers.1)
  have hover : j.Covers t → j.Overruns := by
    intro hcovers
    by_contra hfits
    obtain ⟨hlow, _, hsize, _⟩ := inside_unless_overruns hok hj
    refine hlast j hfound ⟨hcovers.1, ?_⟩
    rw [Int64.lt_iff_toInt_lt, toInt_next_of_not_overruns hlow hsize hfits]
    exact hcovers.2
  rcases hij with rfl | hlt
  · exact Or.inl (hover hcovers)
  · exact Or.inr ⟨j, hj, hlt, hle, hover⟩

end Instr

/-- The targets of jumps and calls lie in the section and are aligned. A target lies strictly inside
of a hinted instruction only if that instruction overruns the words, or if another one starts in it
at or before the target, which then does not cover the target either without overrunning the
words. -/
theorem Graph.targets_clear {s : Settings} {code : Code} {n : Offset} {hints : List Hint} {g : Graph}
    (hgraph : Graph.build s code n hints = .ok g) :
    ∃ known, Instr.ofHints s code n (Hint.sort hints) = .ok known ∧
      ∀ h ∈ hints, h.kind.isJump = true ∨ h.kind.isCall = true → ∀ t ∈ h.targets,
        0 ≤ t ∧ t < n ∧ s.isAligned t = true ∧ ∀ i ∈ known, i.Covers t → i.Overruns ∨
          ∃ j ∈ known, i.offset < j.offset ∧ j.offset ≤ t ∧ (j.Covers t → j.Overruns) := by
  by_cases hzero : n = 0
  · subst hzero
    obtain ⟨rfl, _⟩ := build_zero hgraph
    refine ⟨[], ?_, fun h hh => absurd hh List.not_mem_nil⟩
    rw [Hint.sort, List.mergeSort_nil]
    rfl
  · obtain ⟨starts, transfers, hstages⟩ := exists_stages hgraph hzero
    obtain ⟨known, hknown, hmarks, _⟩ := Layout.mem_starts_iff hstages.opened
    refine ⟨known, hknown, fun h hh hkind t ht => ?_⟩
    obtain ⟨entries, hentries⟩ := hmarks h (Hint.mem_sort.mpr hh)
    have hcheck : Instr.checkTargets s n known h = .ok () := by
      rcases Instr.entriesOf_cases hentries with ⟨hmark, _⟩ | ⟨hexit, _⟩ | ⟨_, _, hcheck, _⟩
      · rcases hmark with hmark | hmark <;> simp [hmark, HintKind.isJump, HintKind.isCall] at hkind
      · rcases hexit with hexit | hexit <;> simp [hexit, HintKind.isJump, HintKind.isCall] at hkind
      · exact hcheck
    have hnone := Instr.targetFlaw?_of_checkTargets hcheck ht
    obtain ⟨hin, haligned, _⟩ := Instr.targetFlaw?_eq_none hnone
    exact ⟨hin.1, hin.2, haligned, fun i hi hcovers =>
      Instr.covers_cases (Hint.pairwise_sort hints) hknown hnone hi hcovers⟩

namespace Nested

/-- A label stands inside of a long instruction, and the jump leads behind the label's instruction,
which is still inside of the long one. -/
def hints : List Hint :=
  [⟨0, .label, [], 12⟩, ⟨4, .label, [], 0⟩, ⟨12, .jump, [8], 0⟩]

def graph : Graph where
  length := 16
  blocks := #[⟨0, 0, 4, [⟨1, false⟩], true, false, false, false⟩,
    ⟨1, 4, 8, [⟨2, false⟩], false, false, false, false⟩,
    ⟨2, 8, 16, [⟨2, false⟩], false, false, false, true⟩]
  preds := ⟨#[[], [⟨0, false⟩], [⟨1, false⟩, ⟨2, false⟩]]⟩
  routines := []
  boundaries := []

theorem builds : Graph.build (Settings.standard 1) #[] 16 hints = .ok graph := by
  cbv

theorem records : Instr.ofHints (Settings.standard 1) #[] 16 (Hint.sort hints)
    = .ok [⟨0, 12⟩, ⟨4, 4⟩, ⟨12, 4⟩] := by
  cbv

/-- Another instruction starts inside of the long one before the target. -/
theorem hidden_by_label : (0 : Offset) ≤ 8 ∧ (8 : Offset) < 16 ∧
    (Settings.standard 1).isAligned 8 = true ∧
    ∃ j ∈ ([⟨0, 12⟩, ⟨4, 4⟩, ⟨12, 4⟩] : List Instr), 0 < j.offset ∧ j.offset ≤ 8 := by
  obtain ⟨known, hknown, htargets⟩ := Graph.targets_clear builds
  cases records.symm.trans hknown
  obtain ⟨hlow, hhigh, haligned, hinside⟩ :=
    htargets ⟨12, .jump, [8], 0⟩ (by decide) (by decide) 8 (by decide)
  refine ⟨hlow, hhigh, haligned, ?_⟩
  rcases hinside ⟨0, 12⟩ (by decide) (by decide) with hover | ⟨j, hj, hstart, hle, _⟩
  · exact absurd hover (by decide)
  · exact ⟨j, hj, hstart, hle⟩

/-- The target of an accepted jump lies strictly inside of a hinted instruction. -/
theorem target_inside_accepted :
    ∃ g known, Graph.build (Settings.standard 1) #[] 16 hints = .ok g ∧
      Instr.ofHints (Settings.standard 1) #[] 16 (Hint.sort hints) = .ok known ∧
      ∃ h ∈ hints, h.kind = .jump ∧ ∃ t ∈ h.targets, ∃ i ∈ known,
        i.offset.toInt < t.toInt ∧ t.toInt < i.offset.toInt + i.size.toInt := by
  refine ⟨graph, _, builds, records, ⟨12, .jump, [8], 0⟩, by decide, rfl, 8, by decide, ⟨0, 12⟩, ?_⟩
  decide

end Nested

end RegisterWeb
