import RegisterWeb.Bisect
import RegisterWeb.Proofs.Ascending

/-!
Searching lists by halving. Where a test holds of all that follows its first hit, halving finds the
first hit. In an ascending list it finds an element, or the place where the element belongs.
-/

namespace RegisterWeb

section Seek

variable {α : Type} {l : List α} {test : α → Bool}

/-- The index at which the search for the first hit of a test ends. -/
def seek (l : List α) (test : α → Bool) : Nat :=
  bisect l.length fun i => (l[i]?).all test

theorem seek_eq_findIdx (h : l.Pairwise fun x y => test x = true → test y = true) :
    seek l test = l.findIdx test := by
  have hup : Upward l.length fun i => (l[i]?).all test := by
    intro i j hij hj hi
    rcases Nat.lt_or_eq_of_le hij with hlt | rfl
    · have hilt := Nat.lt_trans hlt hj
      simp only [List.getElem?_eq_getElem, hilt, hj, Option.all_some] at hi ⊢
      exact List.pairwise_iff_getElem.mp h i j hilt hj hlt hi
    · exact hi
  have hsplits : ∀ {i : Nat} (hi : i < l.length), test l[i] = true ↔ seek l test ≤ i := by
    intro i hi
    rw [seek, ← bisect_splits hup hi, List.getElem?_eq_getElem hi, Option.all_some]
  apply Nat.le_antisymm
  · by_cases hfound : l.findIdx test < l.length
    · exact (hsplits hfound).mp List.findIdx_getElem
    · exact Nat.le_trans (bisect_le _ _) (Nat.le_of_not_lt hfound)
  · refine Nat.le_of_not_lt fun hlt => ?_
    have hhit := (hsplits (Nat.lt_of_lt_of_le hlt List.findIdx_le_length)).mpr (Nat.le_refl _)
    rw [List.not_of_lt_findIdx hlt] at hhit
    exact Bool.false_ne_true hhit

/-- The search ends at the first hit. -/
theorem getElem?_seek (h : l.Pairwise fun x y => test x = true → test y = true) :
    l[seek l test]? = l.find? test := by
  rw [seek_eq_findIdx h, List.find?_eq_getElem?_findIdx]

end Seek

namespace Ascending

variable {α : Type} [LT α] [DecidableLT α]

/-- The index of the first element that is not below `a`. -/
def position (l : List α) (a : α) : Nat :=
  seek l fun b => !decide (b < a)

variable [IsStrictTotalOrder α (· < ·)] {l : List α}

theorem position_eq (h : Ascending l) (a : α) :
    position l a = l.findIdx fun b => !decide (b < a) := by
  refine seek_eq_findIdx (h.imp fun hbc hb => ?_)
  simp only [Bool.not_eq_true', decide_eq_false_iff_not] at hb ⊢
  exact fun hc => hb (trans_of (· < ·) hbc hc)

/-- An element of the list stands at its position. -/
theorem getElem?_position_iff (h : Ascending l) (a : α) : l[position l a]? = some a ↔ a ∈ l := by
  refine ⟨List.mem_of_getElem?, fun ha => ?_⟩
  rw [position_eq h]
  induction l with
  | nil => exact absurd ha List.not_mem_nil
  | cons b bs ih =>
    obtain ⟨hb, hbs⟩ := List.pairwise_cons.mp h
    rw [List.findIdx_cons]
    rcases List.mem_cons.mp ha with rfl | ha
    · simp [irrefl_of (· < ·) a]
    · simpa [hb a ha] using ih hbs ha

/-- A new element is put in at its position. -/
theorem insertIdx_position (h : Ascending l) {a : α} (ha : a ∉ l) :
    l.insertIdx (position l a) a = insert a l := by
  rw [position_eq h]
  induction l with
  | nil => rfl
  | cons b bs ih =>
    have hne : b ≠ a := fun heq => ha (heq ▸ List.mem_cons_self)
    rw [List.findIdx_cons, insert]
    by_cases hba : b < a
    · have hab : ¬ a < b := fun hab => irrefl_of (· < ·) a (trans_of (· < ·) hab hba)
      have hrest := ih (List.pairwise_cons.mp h).2 fun hmem => ha (List.mem_cons_of_mem b hmem)
      simpa [hba, hab] using hrest
    · have hab : a < b :=
        Decidable.byContradiction fun hab =>
          hne (Std.Trichotomous.trichotomous b a hba hab)
      simp [hba, hab]

/-- Searches for an element and puts it in where it is missing; the flag is raised if it was. -/
def enter [DecidableEq α] (l : List α) (a : α) (more : Bool) : List α × Bool :=
  if l[position l a]? = some a then (l, more) else (l.insertIdx (position l a) a, true)

theorem insert_of_mem (h : Ascending l) {a : α} (ha : a ∈ l) : insert a l = l := by
  refine eq_of_mem_iff (ascending_insert a h) h fun x => ?_
  rw [mem_insert]
  exact or_iff_right_of_imp fun hx => hx ▸ ha

theorem length_insert {a : α} (ha : a ∉ l) : (insert a l).length = l.length + 1 := by
  induction l with
  | nil => rfl
  | cons b bs ih =>
    rw [insert]
    split
    · rfl
    · rename_i hab
      split
      · rw [List.length_cons, ih fun hmem => ha (List.mem_cons_of_mem b hmem), List.length_cons]
      · rename_i hba
        exact absurd List.mem_cons_self
          (Std.Trichotomous.trichotomous a b hab hba ▸ ha)

theorem enter_eq [DecidableEq α] (h : Ascending l) (a : α) (more : Bool) :
    enter l a more = (insert a l, more || decide (a ∉ l)) := by
  rw [enter]
  split
  · rename_i hfound
    have ha := (getElem?_position_iff h a).mp hfound
    rw [insert_of_mem h ha]
    simp [ha]
  · rename_i hmissing
    have ha : a ∉ l := fun ha => hmissing ((getElem?_position_iff h a).mpr ha)
    rw [insertIdx_position h ha]
    simp [ha]

end Ascending

end RegisterWeb
