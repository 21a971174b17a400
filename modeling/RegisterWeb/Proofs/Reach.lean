import Mathlib.Logic.Relation
import RegisterWeb.Proofs.Ascending
import RegisterWeb.Reach

/-!
The search marks exactly the nodes that a path leads to. What is marked stays marked, every node on
the list is marked in the end, and a node that the search marked has all its successors marked; so
the marks that start from nothing are closed, and each of them is owed to a path.
-/

namespace RegisterWeb

open Relation

/-- A step from one node below `n` to another. -/
def Leads (n : Nat) (next : Nat → List Nat) (a b : Nat) : Prop :=
  b ∈ next a ∧ b < n

theorem get_mark_same {seen : Array Bool} {x : Nat} (h : seen[x]? = some false) :
    (seen.setIfInBounds x true)[x]? = some true := by
  obtain ⟨hx, _⟩ := Array.getElem?_eq_some_iff.mp h
  simp [hx]

/-- Marking one node marks no other. -/
theorem get_mark_iff {seen : Array Bool} {x : Nat} (h : seen[x]? = some false) (y : Nat) :
    (seen.setIfInBounds x true)[y]? = some true ↔ y = x ∨ seen[y]? = some true := by
  by_cases hxy : y = x
  · subst hxy
    simp [get_mark_same h]
  · rw [Array.getElem?_setIfInBounds_ne (Ne.symm hxy)]
    simp [hxy]

theorem get_eq_false_of_not_true {seen : Array Bool} {x : Nat} (hx : x < seen.size)
    (h : seen[x]? ≠ some true) : seen[x]? = some false := by
  rw [Array.getElem?_eq_getElem hx] at h ⊢
  cases hb : seen[x] with
  | true => exact absurd (congrArg some hb) h
  | false => rfl

theorem get_replicate_ne_true (n x : Nat) : (Array.replicate n false)[x]? ≠ some true := by
  rw [Array.getElem?_replicate]
  split <;> simp

/-- What a search leaves behind that starts from the list `todo` and the marks `seen`. -/
structure Searched (next : Nat → List Nat) (todo : List Nat) (seen found : Array Bool) : Prop where
  keeps : ∀ x : Nat, seen[x]? = some true → found[x]? = some true
  visits : ∀ x ∈ todo, x < seen.size → found[x]? = some true
  closed : ∀ x : Nat, found[x]? = some true → seen[x]? = some true ∨
    ∀ y ∈ next x, y < seen.size → found[y]? = some true
  owed : ∀ x : Nat, found[x]? = some true → seen[x]? = some true ∨
    ∃ r ∈ todo, r < seen.size ∧ ReflTransGen (Leads seen.size next) r x

theorem mark_searched (next : Nat → List Nat) (todo : List Nat) (seen : Array Bool) :
    Searched next todo seen (mark next todo seen) := by
  fun_induction mark next todo seen with
  | case1 seen =>
    exact ⟨fun _ h => h, fun _ h => absurd h List.not_mem_nil, fun _ h => Or.inl h,
      fun _ h => Or.inl h⟩
  | case2 x todo seen h ih =>
    obtain ⟨hx, _⟩ := Array.getElem?_eq_some_iff.mp h
    have hsize : (seen.setIfInBounds x true).size = seen.size := by simp
    have hmarked := ih.keeps x (get_mark_same h)
    refine ⟨?_, ?_, ?_, ?_⟩
    · intro y hy
      exact ih.keeps y ((get_mark_iff h y).mpr (Or.inr hy))
    · intro y hy hlt
      rcases List.mem_cons.mp hy with rfl | hy
      · exact hmarked
      · exact ih.visits y (List.mem_append_right _ hy) (hsize ▸ hlt)
    · intro y hy
      rcases ih.closed y hy with hseen | hnext
      · rcases (get_mark_iff h y).mp hseen with rfl | hseen
        · right
          intro z hz hlt
          exact ih.visits z (List.mem_append_left _ hz) (hsize ▸ hlt)
        · exact Or.inl hseen
      · exact Or.inr fun z hz hlt => hnext z hz (hsize ▸ hlt)
    · intro y hy
      rcases ih.owed y hy with hseen | ⟨r, hr, hlt, hpath⟩
      · rcases (get_mark_iff h y).mp hseen with rfl | hseen
        · exact Or.inr ⟨y, List.mem_cons_self .., hx, ReflTransGen.refl⟩
        · exact Or.inl hseen
      · rw [hsize] at hlt hpath
        rcases List.mem_append.mp hr with hr | hr
        · exact Or.inr ⟨x, List.mem_cons_self .., hx, ReflTransGen.head ⟨hr, hlt⟩ hpath⟩
        · exact Or.inr ⟨r, List.mem_cons_of_mem _ hr, hlt, hpath⟩
  | case3 x todo seen h ih =>
    refine ⟨ih.keeps, ?_, ih.closed, ?_⟩
    · intro y hy hlt
      rcases List.mem_cons.mp hy with rfl | hy
      · -- a node on the list that is not unmarked is marked, or no node at all
        by_cases hseen : seen[y]? = some true
        · exact ih.keeps y hseen
        · exact absurd (get_eq_false_of_not_true hlt hseen) h
      · exact ih.visits y hy hlt
    · intro y hy
      rcases ih.owed y hy with hseen | ⟨r, hr, hlt, hpath⟩
      · exact Or.inl hseen
      · exact Or.inr ⟨r, List.mem_cons_of_mem _ hr, hlt, hpath⟩

/-- A node is marked exactly if a path leads to it from one of the roots. -/
theorem reach_iff (n : Nat) (next : Nat → List Nat) (roots : List Nat) (x : Nat) :
    (reach n next roots).getD x false = true ↔
      ∃ r ∈ roots, r < n ∧ ReflTransGen (Leads n next) r x := by
  have hs := mark_searched next roots (Array.replicate n false)
  have hsize : (Array.replicate n false).size = n := by simp
  have hget : (reach n next roots).getD x false = true ↔
      (mark next roots (Array.replicate n false))[x]? = some true := by
    rw [reach, Array.getD_eq_getD_getElem?]
    cases (mark next roots (Array.replicate n false))[x]? with
    | none => simp
    | some b => simp
  rw [hget]
  clear hget
  constructor
  · intro hx
    rcases hs.owed x hx with hseen | ⟨r, hr, hlt, hpath⟩
    · exact absurd hseen (get_replicate_ne_true n x)
    · rw [hsize] at hlt hpath
      exact ⟨r, hr, hlt, hpath⟩
  · rintro ⟨r, hr, hlt, hpath⟩
    induction hpath with
    | refl => exact hs.visits r hr (by rwa [hsize])
    | tail _ hstep ih =>
      rcases hs.closed _ ih with hseen | hnext
      · exact absurd hseen (get_replicate_ne_true n _)
      · exact hnext _ hstep.1 (by rw [hsize]; exact hstep.2)

theorem Leads.lt_of_path {n : Nat} {next : Nat → List Nat} {a b : Nat} (ha : a < n)
    (h : ReflTransGen (Leads n next) a b) : b < n := by
  induction h with
  | refl => exact ha
  | tail _ hstep _ => exact hstep.2

theorem mem_reachable (n : Nat) (next : Nat → List Nat) (roots : List Nat) (x : Nat) :
    x ∈ reachable n next roots ↔ ∃ r ∈ roots, r < n ∧ ReflTransGen (Leads n next) r x := by
  simp only [reachable, List.mem_filter, List.mem_range, reach_iff]
  constructor
  · exact fun h => h.2
  · rintro ⟨r, hr, hlt, hpath⟩
    exact ⟨Leads.lt_of_path hlt hpath, r, hr, hlt, hpath⟩

theorem ascending_reachable (n : Nat) (next : Nat → List Nat) (roots : List Nat) :
    Ascending (reachable n next roots) :=
  List.Pairwise.sublist List.filter_sublist List.pairwise_lt_range

end RegisterWeb
