import Mathlib
import RegisterWeb.Proofs.Instructions
import RegisterWeb.Section.Basic

/-!
Operands that span several registers are shorthand. Each stands for one usage per register and, if
its registers are slots, for a group that keeps them together; the usages of an instruction stay in
the order in which they are listed. Usages that are written out in this way expand to themselves, so
a section and its written-out form have the same analysis, whether it succeeds or not.
-/

namespace RegisterWeb

namespace Usage

/-- How many registers a usage spans. -/
def width (u : Usage) : Nat :=
  max 1 u.count.toNatClampNeg

/-- The usage of a single register, `i` places from the first. The alignment belongs to the operand
as a whole, so the parts of a wide one have none. -/
def part (u : Usage) (i : Nat) : Usage where
  offset := u.offset
  register := u.register.next (Int64.ofNat i)
  count := 1
  align := if u.width = 1 then u.align else 0
  reads := u.reads
  writes := u.writes

/-- The usages of single registers that a usage is short for. -/
def parts (u : Usage) : List Usage :=
  (List.range u.width).map u.part

/-- The group that a wide usage of slots stands for. -/
def together (u : Usage) : SlotGroup :=
  ⟨u.offset, u.align, u.parts.map Usage.register⟩

/-! ### What a usage is short for -/

theorem isWide_iff (u : Usage) : u.isWide = true ↔ 1 < u.count.toNatClampNeg := by
  rw [isWide, decide_eq_true_eq, Int64.lt_iff_toInt_lt, ← Int64.toNat_toInt]
  have hone : (1 : Offset).toInt = 1 := rfl
  omega

theorem split_eq_parts (u : Usage) : u.split = u.parts := by
  unfold split parts width
  split
  · rename_i hwide
    rw [isWide_iff] at hwide
    have hmax : max 1 u.count.toNatClampNeg = u.count.toNatClampNeg := by omega
    rw [span, List.map_map, hmax]
    refine List.map_congr_left fun i _ => ?_
    have hne : u.width ≠ 1 := by
      unfold width
      omega
    simp only [Function.comp_apply, part, if_neg hne]
  · rename_i hnarrow
    rw [isWide_iff] at hnarrow
    have hmax : max 1 u.count.toNatClampNeg = 1 := by omega
    have hnext : u.register.next (Int64.ofNat 0) = u.register := by
      show Register.mk _ _ (u.register.index + 0) = u.register
      rw [Int64.add_zero]
    rw [hmax]
    show _ = [u.part 0]
    simp only [part, width, hmax, if_true, hnext]

theorem group?_eq (u : Usage) :
    u.group? = if 1 < u.width ∧ u.register.isSlot = true then some u.together else none := by
  have hwidth : u.isWide = true ↔ 1 < u.width := by
    rw [isWide_iff, width]
    omega
  simp only [group?, Bool.and_eq_true, hwidth]
  split
  · rename_i hwide
    have hregisters : u.span = u.parts.map Usage.register := by
      have hcount : u.count.toNatClampNeg = u.width := by
        have := hwide.1
        unfold width at this ⊢
        omega
      rw [span, parts, List.map_map, hcount]
      rfl
    rw [together, hregisters]
  · rfl

theorem expand_eq (us : List Usage) :
    expand us = (sort (us.flatMap parts),
      (us.filter fun u => 1 < u.width ∧ u.register.isSlot = true).map together) := by
  have hsplit : us.flatMap split = us.flatMap parts :=
    List.flatMap_congr fun u _ => split_eq_parts u
  have hgroups : us.filterMap group?
      = (us.filter fun u => 1 < u.width ∧ u.register.isSlot = true).map together := by
    rw [← List.filterMap_eq_map, List.filterMap_filter]
    refine List.filterMap_congr fun u _ => ?_
    simp only [group?_eq, decide_eq_true_eq, Function.comp_apply]
  rw [expand, hsplit, hgroups]

/-! ### Usages that are written out -/

theorem count_of_mem_parts {u w : Usage} (h : w ∈ u.parts) : w.count = 1 := by
  obtain ⟨i, _, rfl⟩ := List.mem_map.mp h
  rfl

theorem width_of_single {u : Usage} (h : u.count = 1) : u.width = 1 := by
  rw [width, h]
  rfl

theorem parts_of_single {u : Usage} (h : u.count = 1) : u.parts = [u] := by
  have hsplit := split_eq_parts u
  have hnarrow : ¬ u.isWide = true := by
    rw [isWide_iff, h]
    decide
  rw [split, if_neg hnarrow, ← h] at hsplit
  exact hsplit.symm

/-- Usages of single registers in order of their offsets are as short as they can be. -/
theorem expand_of_single {us : List Usage} (hsingle : ∀ u ∈ us, u.count = 1)
    (hsorted : us.Pairwise fun u v => u.offset ≤ v.offset) : expand us = (us, []) := by
  have hparts : us.flatMap parts = us := by
    rw [List.flatMap_congr fun u hu => parts_of_single (hsingle u hu)]
    exact List.flatMap_singleton' us
  have hsort : sort us = us :=
    List.mergeSort_of_pairwise (hsorted.imp fun h => decide_eq_true h)
  have hgroups : (us.filter fun u => 1 < u.width ∧ u.register.isSlot = true) = [] := by
    refine List.filter_eq_nil_iff.mpr fun u hu => ?_
    rw [decide_eq_true_eq, width_of_single (hsingle u hu)]
    omega
  rw [expand_eq, hparts, hsort, hgroups, List.map_nil]

theorem single_of_mem_expand {us : List Usage} : ∀ u ∈ (expand us).1, u.count = 1 := by
  intro w hw
  rw [expand_eq] at hw
  obtain ⟨u, _, hw⟩ := List.mem_flatMap.mp ((sort_perm _).mem_iff.mp hw)
  exact count_of_mem_parts hw

theorem pairwise_expand (us : List Usage) :
    (expand us).1.Pairwise fun u v => u.offset ≤ v.offset :=
  (pairwise_sort _).imp Int64.le_iff_toInt_le.mpr

/-- At each offset the parts of the usages stand in the order of the usages. -/
theorem filter_expand (us : List Usage) (p : Offset) :
    (expand us).1.filter (fun u => u.offset == p)
      = (us.filter fun u => u.offset == p).flatMap parts := by
  have hoffset : ∀ u : Usage, ∀ w ∈ u.parts, w.offset = u.offset := by
    intro u w hw
    obtain ⟨i, _, rfl⟩ := List.mem_map.mp hw
    rfl
  rw [expand_eq, Summary.filter_offset, sort_eq, filter_mergeSort, ← Summary.filter_offset]
  induction us with
  | nil => rfl
  | cons u us ih =>
    rw [List.flatMap_cons, List.filter_append, ih, List.filter_cons]
    split
    · rename_i hp
      rw [List.flatMap_cons, List.filter_eq_self.mpr fun w hw => hoffset u w hw ▸ hp]
    · rename_i hp
      rw [List.filter_eq_nil_iff.mpr fun w hw => hoffset u w hw ▸ hp, List.nil_append]

end Usage

/-! ### Sections -/

/-- Writing the operands out changes no stage of the analysis. -/
theorem Run.ofSection_expanded (settings : Settings) (sec : Section) :
    Run.ofSection settings { sec with
      usages := (Usage.expand sec.usages).1
      groups := (Usage.expand sec.usages).2 ++ sec.groups } = Run.ofSection settings sec := by
  have hagain := Usage.expand_of_single Usage.single_of_mem_expand
    (Usage.pairwise_expand sec.usages)
  have hgraph : ∀ g, Run.ofGraph g (Usage.expand sec.usages).1
      ((Usage.expand sec.usages).2 ++ sec.groups) = Run.ofGraph g sec.usages sec.groups := by
    intro g
    simp only [Run.ofGraph, hagain, List.nil_append]
  simp only [Run.ofSection, Section.size, hgraph]

/-- Expanding the usages of a section lists all their parts, in order of offset and at each offset in
the order of the usages, and the groups of the wide ones; expanding again adds nothing. The analysis
of the section is that of the section with its operands written out and their groups listed first,
whatever comes of it. -/
theorem Section.analyze_expanded (settings : Settings) (sec : Section) :
    ∃ us ds, Usage.expand sec.usages = (us, ds) ∧
      Usage.expand us = (us, []) ∧
      us.Pairwise (fun u v => u.offset ≤ v.offset) ∧
      (∀ p, us.filter (fun u => u.offset == p)
        = (sec.usages.filter fun u => u.offset == p).flatMap Usage.parts) ∧
      ds = (sec.usages.filter fun u => 1 < u.width ∧ u.register.isSlot = true).map
        Usage.together ∧
      sec.analyze settings
        = ({ sec with usages := us, groups := ds ++ sec.groups } : Section).analyze settings := by
  refine ⟨(Usage.expand sec.usages).1, (Usage.expand sec.usages).2, rfl, ?_, ?_, ?_, ?_, ?_⟩
  · exact Usage.expand_of_single Usage.single_of_mem_expand (Usage.pairwise_expand _)
  · exact Usage.pairwise_expand _
  · exact Usage.filter_expand _
  · rw [Usage.expand_eq]
  · rw [analyze, analyze, Run.ofSection_expanded]

end RegisterWeb
