import Mathlib
import RegisterWeb.Proofs.Saturate
import RegisterWeb.Proofs.Search

/-!
Sets of versions after any steps. As long as the lists that are given to the steps are ascending, the
list that they leave is the ascending list of a finite set, on which the steps act as union, removal
and substitution. Then members may be searched by halving, a union that adds nothing may hand its
first part back, and the length of a union tells whether it has added anything: by this the solvers
see that a set has grown.
-/

namespace RegisterWeb

namespace VersionSet

/-- What can be done to a set of versions. -/
inductive Step where
  | add (v : Version)
  | union (t : VersionSet)
  | without (v : Version)
  | resolve (given : VersionSet)

namespace Step

/-- The versions that are given to a step, as a list. -/
def argument : Step → List Version
  | .add v => [v]
  | .union t => t
  | .without v => [v]
  | .resolve given => given

/-- The list that a step leaves behind. -/
def apply (s : VersionSet) : Step → VersionSet
  | .add v => s.add v
  | .union t => s.union t
  | .without v => s.without v
  | .resolve given => s.resolve given

/-- The finite set that a step leaves behind. -/
def act (m : Finset Version) : Step → Finset Version
  | .add v => insert v m
  | .union t => m ∪ t.toFinset
  | .without v => m.erase v
  | .resolve given =>
    if Version.inherited ∈ m then m.erase Version.inherited ∪ given.toFinset else m

end Step

/-- The list after the given steps in turn, from the empty one. -/
def ofSteps (steps : List Step) : VersionSet :=
  steps.foldl Step.apply []

/-! ### The same with less work -/

/-- Looks for a version by halving. -/
def search (s : VersionSet) (v : Version) : Bool :=
  s[bisect s.length fun i => (s[i]?).all fun u => decide (v ≤ u)]? == some v

/-- A union that hands its first part back if it holds the second. -/
def extend (s t : VersionSet) : VersionSet :=
  if t.all (search s) then s else Ascending.union s t

/-- Removes a version, unless the search for it fails. -/
def discard (s : VersionSet) (v : Version) : VersionSet :=
  if search s v then s.filter (fun w => w != v) else s

/-- Puts the caller's versions in the place of the inherited one, unless the search for it fails. -/
def substitute (effect given : VersionSet) : VersionSet :=
  if search effect Version.inherited then extend (discard effect Version.inherited) given
  else effect

/-- The list that a step leaves behind if it searches by halving. -/
def Step.perform (s : VersionSet) : Step → VersionSet
  | .add v => s.extend [v]
  | .union t => s.extend t
  | .without v => s.discard v
  | .resolve given => s.substitute given

section Search

variable {s t : VersionSet}

theorem search_iff (hs : Ascending s) (v : Version) : search s v = true ↔ v ∈ s := by
  have htest : (fun u : Version => decide (v ≤ u)) = fun u => !decide (u < v) := by
    funext u
    rw [← decide_not]
    exact decide_eq_decide.mpr UInt32.not_lt.symm
  rw [search, beq_iff_eq, htest]
  exact Ascending.getElem?_position_iff hs v

theorem search_eq (hs : Ascending s) (v : Version) : search s v = has s v :=
  Bool.eq_iff_iff.mpr ((search_iff hs v).trans (has_iff s v).symm)

theorem extend_eq (hs : Ascending s) (ht : Ascending t) : extend s t = union s t := by
  unfold extend
  split
  · rename_i hall
    refine (Ascending.union_eq_left hs ht fun v hv => ?_).symm
    exact (search_iff hs v).mp (List.all_eq_true.mp hall v hv)
  · rfl

theorem discard_eq (hs : Ascending s) (v : Version) : discard s v = without s v := by
  unfold discard
  split
  · rfl
  · rename_i hmiss
    rw [search_iff hs] at hmiss
    refine (List.filter_eq_self.mpr fun w hw => bne_iff_ne.mpr ?_).symm
    rintro rfl
    exact hmiss hw

theorem substitute_eq (hs : Ascending s) (ht : Ascending t) : substitute s t = resolve s t := by
  unfold substitute resolve
  rw [search_eq hs, discard_eq hs, extend_eq (ascending_without hs _) ht]

end Search

/-! ### Steps -/

/-- The list is ascending and has the members of the finite set. -/
structure Stands (s : VersionSet) (m : Finset Version) : Prop where
  ascending : Ascending s
  mem_iff : ∀ v, v ∈ s ↔ v ∈ m

/-- A step does to the list what it does to the set, and does not depend on how it searches. -/
theorem Stands.step {s : VersionSet} {m : Finset Version} (h : s.Stands m) {e : Step}
    (he : Ascending e.argument) : (e.apply s).Stands (e.act m) ∧ e.perform s = e.apply s := by
  have hs := h.ascending
  cases e with
  | add v =>
    refine ⟨⟨Ascending.ascending_union hs he, fun x => ?_⟩, extend_eq hs he⟩
    rw [Step.apply, add, mem_union, List.mem_singleton, Step.act, Finset.mem_insert, h.mem_iff,
      or_comm]
  | union t =>
    refine ⟨⟨Ascending.ascending_union hs he, fun x => ?_⟩, extend_eq hs he⟩
    rw [Step.apply, mem_union, Step.act, Finset.mem_union, List.mem_toFinset, h.mem_iff]
  | without v =>
    refine ⟨⟨ascending_without hs v, fun x => ?_⟩, discard_eq hs v⟩
    rw [Step.apply, mem_without, Step.act, Finset.mem_erase, h.mem_iff, and_comm]
  | resolve given =>
    refine ⟨⟨ascending_resolve hs he, fun x => ?_⟩, substitute_eq hs he⟩
    rw [Step.apply, mem_resolve, Step.act, h.mem_iff, h.mem_iff]
    split
    · rename_i hinherited
      simp only [Finset.mem_union, Finset.mem_erase, List.mem_toFinset, hinherited, true_and,
        and_comm]
    · rename_i hinherited
      simp only [hinherited, false_and, or_false, and_iff_left_iff_imp]
      rintro hx rfl
      exact hinherited hx

theorem Stands.foldl {s : VersionSet} {m : Finset Version} (h : s.Stands m) (steps : List Step)
    (hsteps : ∀ e ∈ steps, Ascending e.argument) :
    (steps.foldl Step.apply s).Stands (steps.foldl Step.act m) ∧
      steps.foldl Step.perform s = steps.foldl Step.apply s := by
  induction steps generalizing s m with
  | nil => exact ⟨h, rfl⟩
  | cons e steps ih =>
    obtain ⟨he, hrest⟩ := List.forall_mem_cons.mp hsteps
    obtain ⟨hnext, hsame⟩ := h.step he
    rw [List.foldl_cons, List.foldl_cons, List.foldl_cons, hsame]
    exact ih hnext hrest

theorem stands_nil : Stands [] ∅ :=
  ⟨List.Pairwise.nil, fun v => by simp⟩

/-- The weight of a table tells whether a union has added anything to one of its sets. -/
theorem weight_union_eq_iff {sets : Table VersionSet} {i : Nat} (hi : i < sets.size)
    {t : VersionSet} (hset : Ascending (sets.get i)) (ht : Ascending t) :
    (sets.set i (union (sets.get i) t)).weight = sets.weight ↔ t ⊆ sets.get i := by
  have hweight := Table.weight_set hi (union (sets.get i) t)
  refine Iff.trans ?_ (Ascending.length_union_eq_iff hset ht)
  simp only [union] at hweight ⊢
  omega

/-- Steps with ascending lists leave the ascending list of a finite set, which they reach by union,
removal and substitution on sets; `has` decides its members. Searching by halving and handing back
what need not change leads to the same list. A union keeps its length, and the table that holds the
set keeps its weight, just when it adds nothing. -/
theorem ofSteps_stands (steps : List Step) (hsteps : ∀ e ∈ steps, Ascending e.argument) :
    Ascending (ofSteps steps) ∧
    (ofSteps steps).toFinset = steps.foldl Step.act ∅ ∧
    (∀ v, has (ofSteps steps) v = true ↔ v ∈ steps.foldl Step.act ∅) ∧
    (∀ v, search (ofSteps steps) v = has (ofSteps steps) v) ∧
    steps.foldl Step.perform [] = ofSteps steps ∧
    ∀ t, Ascending t →
      ((union (ofSteps steps) t).length = (ofSteps steps).length ↔ t ⊆ ofSteps steps) ∧
      ∀ (sets : Table VersionSet) (i : Nat), i < sets.size → sets.get i = ofSteps steps →
        ((sets.set i (union (sets.get i) t)).weight = sets.weight ↔ t ⊆ ofSteps steps) := by
  obtain ⟨hstands, hsame⟩ := stands_nil.foldl steps hsteps
  have hasc : Ascending (ofSteps steps) := hstands.ascending
  refine ⟨hasc, ?_, ?_, search_eq hasc, hsame, fun t ht => ⟨?_, ?_⟩⟩
  · ext v
    rw [List.mem_toFinset]
    exact hstands.mem_iff v
  · exact fun v => (has_iff _ v).trans (hstands.mem_iff v)
  · exact Ascending.length_union_eq_iff hasc ht
  · intro sets i hi hset
    rw [← hset] at hasc ⊢
    exact weight_union_eq_iff hi hasc ht

end VersionSet

namespace Turnover

/-- Two callers' versions take the place of the inherited one, and one of them is there already. -/
def steps : List VersionSet.Step :=
  [.union [2, 5, Version.inherited], .add 3, .resolve [1, 5], .without 2]

/-- A table that holds what the steps leave. -/
def sets : Table VersionSet := ⟨#[[7], [1, 3, 5]]⟩

/-- The steps leave versions 1, 3 and 5; a union with 1 and 5 does not make them more, nor the table
that holds them heavier. -/
theorem nothing_new : (∀ e ∈ steps, Ascending e.argument) ∧
    VersionSet.ofSteps steps = [1, 3, 5] ∧ steps.foldl VersionSet.Step.act ∅ = {1, 3, 5} ∧
    (VersionSet.union (VersionSet.ofSteps steps) [1, 5]).length = 3 ∧
    (sets.set 1 (VersionSet.union (sets.get 1) [1, 5])).weight = sets.weight := by
  have hsteps : ∀ e ∈ steps, Ascending e.argument := by
    unfold Ascending
    decide
  have hpair : Ascending ([1, 5] : VersionSet) := by
    unfold Ascending
    decide
  have hlist : VersionSet.ofSteps steps = [1, 3, 5] := by cbv
  obtain ⟨_, hset, _, _, _, hgrow⟩ := VersionSet.ofSteps_stands steps hsteps
  obtain ⟨hlength, hweight⟩ := hgrow [1, 5] hpair
  have hsub : ([1, 5] : VersionSet) ⊆ VersionSet.ofSteps steps := by
    rw [hlist]
    decide
  refine ⟨hsteps, hlist, ?_, ?_, ?_⟩
  · rw [← hset, hlist]
    rfl
  · rw [hlength.mpr hsub, hlist]
    rfl
  · exact (hweight sets 1 (by decide) hlist.symm).mpr hsub

end Turnover

end RegisterWeb
