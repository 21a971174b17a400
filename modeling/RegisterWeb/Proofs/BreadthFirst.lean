import RegisterWeb.BreadthFirst
import RegisterWeb.Proofs.Reach

/-!
Breadth-first order. A node is marked when it joins the queue, so the nodes in the queue are marked
and different, and each node is taken from it once. A search takes the nodes that a path leads to
from its queue through unmarked nodes, and all that follow them are marked in the end. Searches from
one start after the other share their marks, so together they take every node that a path leads to
exactly once.
-/

namespace RegisterWeb

open Relation

theorem lt_size_of_get {seen : Array Bool} {x : Nat} {b : Bool} (h : seen[x]? = some b) :
    x < seen.size :=
  (Array.getElem?_eq_some_iff.mp h).1

/-- Marks that were added to others on the nodes of a list, and on no others. -/
structure Marks (seen : Array Bool) (new : List Nat) (found : Array Bool) : Prop where
  size : found.size = seen.size
  marked_iff : ∀ x : Nat, found[x]? = some true ↔ seen[x]? = some true ∨ x ∈ new

namespace Marks

variable {seen mid found : Array Bool} {new more : List Nat}

theorem refl (seen : Array Bool) : Marks seen [] seen :=
  ⟨rfl, fun _ => by simp⟩

theorem trans (h : Marks seen new mid) (h' : Marks mid more found) :
    Marks seen (new ++ more) found := by
  refine ⟨h'.size.trans h.size, fun x => ?_⟩
  rw [h'.marked_iff, h.marked_iff, List.mem_append, or_assoc]

theorem single {x : Nat} (h : seen[x]? = some false) :
    Marks seen [x] (seen.setIfInBounds x true) := by
  refine ⟨by simp, fun y => ?_⟩
  rw [get_mark_iff h, List.mem_singleton, or_comm]

theorem unmarked (h : Marks seen new found) {x : Nat} (hx : found[x]? = some false) :
    seen[x]? = some false ∧ x ∉ new := by
  have hnot : ¬ (seen[x]? = some true ∨ x ∈ new) := by
    rw [← h.marked_iff, hx]
    simp
  rw [not_or] at hnot
  exact ⟨get_eq_false_of_not_true (h.size ▸ lt_size_of_get hx) hnot.1, hnot.2⟩

end Marks

/-! ### Joining the queue -/

/-- The nodes that join the queue, out of a list of nodes: each unmarked one, once. -/
structure Joins (xs : List Nat) (seen : Array Bool) (new : List Nat) : Prop where
  nodup : new.Nodup
  mem_iff : ∀ x, x ∈ new ↔ x ∈ xs ∧ seen[x]? = some false

theorem foldl_enlist (xs queue : List Nat) (seen : Array Bool) :
    ∃ new, (xs.foldl enlist (queue, seen)).1 = queue ++ new ∧ Joins xs seen new ∧
      Marks seen new (xs.foldl enlist (queue, seen)).2 := by
  induction xs generalizing queue seen with
  | nil => exact ⟨[], by simp, ⟨List.nodup_nil, fun _ => by simp⟩, Marks.refl seen⟩
  | cons x xs ih =>
    rw [List.foldl_cons]
    by_cases hx : seen[x]? = some false
    · have hstep : enlist (queue, seen) x = (queue ++ [x], seen.setIfInBounds x true) :=
        if_pos hx
      have hmark := Marks.single hx
      rw [hstep]
      obtain ⟨new, hqueue, hjoins, hmarks⟩ := ih (queue ++ [x]) (seen.setIfInBounds x true)
      have hxnew : x ∉ new := by
        intro hmem
        have hagain := ((hjoins.mem_iff x).mp hmem).2
        rw [get_mark_same hx] at hagain
        simp at hagain
      refine ⟨x :: new, by rw [hqueue]; simp, ⟨List.nodup_cons.mpr ⟨hxnew, hjoins.nodup⟩, ?_⟩,
        hmark.trans hmarks⟩
      intro y
      rw [List.mem_cons, List.mem_cons, hjoins.mem_iff]
      by_cases hyx : y = x
      · simp [hyx, hx]
      · rw [Array.getElem?_setIfInBounds_ne (Ne.symm hyx)]
        simp [hyx]
    · have hstep : enlist (queue, seen) x = (queue, seen) := if_neg hx
      rw [hstep]
      obtain ⟨new, hqueue, hjoins, hmarks⟩ := ih queue seen
      refine ⟨new, hqueue, ⟨hjoins.nodup, fun y => ?_⟩, hmarks⟩
      rw [hjoins.mem_iff, List.mem_cons]
      by_cases hyx : y = x
      · simp [hyx, hx]
      · simp [hyx]

/-! ### One search -/

/-- What a search takes from a queue of marked nodes: the queue itself and nodes that were unmarked,
each once and each owed to a path from the queue; what follows them is marked in the end. -/
structure Takes (next : Nat → List Nat) (queue : List Nat) (seen : Array Bool) (order : List Nat)
    (found : Array Bool) : Prop where
  marks : Marks seen order found
  nodup : order.Nodup
  queued : queue ⊆ order
  fresh : ∀ x ∈ order, x ∈ queue ∨ seen[x]? = some false
  closed : ∀ x ∈ order, ∀ y ∈ next x, y < seen.size → found[y]? = some true
  owed : ∀ x ∈ order, ∃ r ∈ queue, ReflTransGen (Leads seen.size next) r x

theorem breadthFirst_takes (next : Nat → List Nat) (queue : List Nat) (seen : Array Bool)
    (hnodup : queue.Nodup) (hmarked : ∀ x ∈ queue, seen[x]? = some true) :
    Takes next queue seen (breadthFirst next queue seen).1 (breadthFirst next queue seen).2 := by
  fun_induction breadthFirst next queue seen with
  | case1 seen =>
    exact ⟨Marks.refl seen, List.nodup_nil, List.Subset.refl _, by simp, by simp, by simp⟩
  | case2 seen x rest after found ih =>
    obtain ⟨new, hqueue, hjoins, hmarks⟩ := foldl_enlist (next x) rest seen
    obtain ⟨hxrest, hrest⟩ := List.nodup_cons.mp hnodup
    obtain ⟨hx, hrestmarked⟩ := List.forall_mem_cons.mp hmarked
    have hnew : ∀ y ∈ new, seen[y]? ≠ some true := by
      intro y hy
      rw [((hjoins.mem_iff y).mp hy).2]
      simp
    -- the queue of the next round holds different marked nodes again
    have hround : Takes next (rest ++ new) after.2 found.1 found.2 := by
      rw [← hqueue]
      refine ih ?_ ?_
      · rw [hqueue]
        refine List.nodup_append.mpr ⟨hrest, hjoins.nodup, ?_⟩
        intro y hy z hz hyz
        exact hnew z hz (hyz ▸ hrestmarked y hy)
      · intro y hy
        rw [hqueue, List.mem_append] at hy
        exact (hmarks.marked_iff y).mpr (hy.imp (hrestmarked y) id)
    have hsize : after.2.size = seen.size := hmarks.size
    have hxorder : x ∉ found.1 := by
      intro hmem
      rcases hround.fresh x hmem with hmem | hunmarked
      · rcases List.mem_append.mp hmem with hmem | hmem
        · exact hxrest hmem
        · exact hnew x hmem hx
      · rw [(hmarks.unmarked hunmarked).1] at hx
        simp at hx
    refine ⟨⟨hround.marks.size.trans hsize, fun y => ?_⟩,
      List.nodup_cons.mpr ⟨hxorder, hround.nodup⟩, ?_, ?_, ?_, ?_⟩
    · rw [hround.marks.marked_iff, hmarks.marked_iff, List.mem_cons]
      constructor
      · intro hy
        rcases hy with (hy | hy) | hy
        · exact Or.inl hy
        · exact Or.inr (Or.inr (hround.queued (List.mem_append_right _ hy)))
        · exact Or.inr (Or.inr hy)
      · intro hy
        rcases hy with hy | rfl | hy
        · exact Or.inl (Or.inl hy)
        · exact Or.inl (Or.inl hx)
        · exact Or.inr hy
    · intro y hy
      rcases List.mem_cons.mp hy with rfl | hy
      · exact List.mem_cons_self ..
      · exact List.mem_cons_of_mem _ (hround.queued (List.mem_append_left _ hy))
    · intro y hy
      rcases List.mem_cons.mp hy with rfl | hy
      · exact Or.inl (List.mem_cons_self ..)
      · rcases hround.fresh y hy with hy | hunmarked
        · rcases List.mem_append.mp hy with hy | hy
          · exact Or.inl (List.mem_cons_of_mem _ hy)
          · exact Or.inr ((hjoins.mem_iff y).mp hy).2
        · exact Or.inr (hmarks.unmarked hunmarked).1
    · intro y hy z hz hlt
      rcases List.mem_cons.mp hy with rfl | hy
      · -- a successor of the node that is taken joins the queue unless it is marked
        refine (hround.marks.marked_iff z).mpr (Or.inl ((hmarks.marked_iff z).mpr ?_))
        by_cases hseen : seen[z]? = some true
        · exact Or.inl hseen
        · exact Or.inr ((hjoins.mem_iff z).mpr ⟨hz, get_eq_false_of_not_true hlt hseen⟩)
      · exact hround.closed y hy z hz (hsize ▸ hlt)
    · intro y hy
      rcases List.mem_cons.mp hy with rfl | hy
      · exact ⟨y, List.mem_cons_self .., ReflTransGen.refl⟩
      · obtain ⟨r, hr, hpath⟩ := hround.owed y hy
        rw [hsize] at hpath
        rcases List.mem_append.mp hr with hr | hr
        · exact ⟨r, List.mem_cons_of_mem _ hr, hpath⟩
        · obtain ⟨hstep, hunmarked⟩ := (hjoins.mem_iff r).mp hr
          exact ⟨x, List.mem_cons_self ..,
            ReflTransGen.head ⟨hstep, lt_size_of_get hunmarked⟩ hpath⟩

/-! ### Searches in turn -/

/-- What searches take from one start after the other, beside the marks that were there before. -/
structure Sweeps (next : Nat → List Nat) (starts : List Nat) (seen : Array Bool)
    (order : List Nat) : Prop where
  nodup : order.Nodup
  fresh : ∀ x ∈ order, seen[x]? = some false
  covers : ∀ x ∈ starts, x < seen.size → seen[x]? = some true ∨ x ∈ order
  closed : ∀ x ∈ order, ∀ y ∈ next x, y < seen.size → seen[y]? = some true ∨ y ∈ order
  owed : ∀ x ∈ order, ∃ r ∈ starts, r < seen.size ∧ ReflTransGen (Leads seen.size next) r x

theorem searchAll_of_marked {next : Nat → List Nat} {s : Nat} {starts : List Nat}
    {seen : Array Bool} (h : seen[s]? ≠ some false) :
    searchAll next (s :: starts) seen = searchAll next starts seen :=
  if_neg h

/-- A search from an unmarked start, and what the searches after it begin with. -/
theorem exists_search {seen : Array Bool} {s : Nat} (next : Nat → List Nat)
    (h : seen[s]? = some false) :
    ∃ order found, Marks seen order found ∧ Sweeps next [s] seen order ∧
      ∀ starts, searchAll next (s :: starts) seen = order ++ searchAll next starts found := by
  have hmark := Marks.single h
  have hsize : (seen.setIfInBounds s true).size = seen.size := hmark.size
  have htakes := breadthFirst_takes next [s] (seen.setIfInBounds s true) (List.nodup_singleton s)
    fun x hx => (List.mem_singleton.mp hx).symm ▸ get_mark_same h
  have hmarks : Marks seen (breadthFirst next [s] (seen.setIfInBounds s true)).1
      (breadthFirst next [s] (seen.setIfInBounds s true)).2 := by
    refine ⟨htakes.marks.size.trans hsize, fun x => ?_⟩
    rw [htakes.marks.marked_iff, hmark.marked_iff, or_assoc]
    refine or_congr_right (or_iff_right_of_imp fun hx => htakes.queued hx)
  refine ⟨_, _, hmarks, ⟨htakes.nodup, ?_, ?_, ?_, ?_⟩, fun starts => if_pos h⟩
  · intro x hx
    rcases htakes.fresh x hx with hx | hx
    · exact List.mem_singleton.mp hx ▸ h
    · exact (hmark.unmarked hx).1
  · exact fun x hx _ => Or.inr (htakes.queued hx)
  · intro x hx y hy hlt
    exact (hmarks.marked_iff y).mp (htakes.closed x hx y hy (hsize ▸ hlt))
  · intro x hx
    obtain ⟨r, hr, hpath⟩ := htakes.owed x hx
    rw [hsize] at hpath
    exact ⟨r, hr, List.mem_singleton.mp hr ▸ lt_size_of_get h, hpath⟩

theorem searchAll_sweeps (next : Nat → List Nat) (starts : List Nat) (seen : Array Bool) :
    Sweeps next starts seen (searchAll next starts seen) := by
  induction starts generalizing seen with
  | nil => exact ⟨List.nodup_nil, by simp [searchAll], by simp, by simp [searchAll],
      by simp [searchAll]⟩
  | cons s starts ih =>
    by_cases h : seen[s]? = some false
    · obtain ⟨order, found, hmarks, hfirst, heq⟩ := exists_search next h
      have hrest := ih found
      have hsize := hmarks.size
      rw [heq starts]
      refine ⟨?_, ?_, ?_, ?_, ?_⟩
      · refine List.nodup_append.mpr ⟨hfirst.nodup, hrest.nodup, ?_⟩
        intro x hx y hy hxy
        exact (hmarks.unmarked (hrest.fresh y hy)).2 (hxy ▸ hx)
      · intro x hx
        rcases List.mem_append.mp hx with hx | hx
        · exact hfirst.fresh x hx
        · exact (hmarks.unmarked (hrest.fresh x hx)).1
      · intro x hx hlt
        rw [List.mem_append, ← or_assoc]
        rcases List.mem_cons.mp hx with rfl | hx
        · exact Or.inl (hfirst.covers x (List.mem_singleton.mpr rfl) hlt)
        · exact (hrest.covers x hx (hsize ▸ hlt)).imp_left (hmarks.marked_iff x).mp
      · intro x hx y hy hlt
        rw [List.mem_append, ← or_assoc]
        rcases List.mem_append.mp hx with hx | hx
        · exact Or.inl (hfirst.closed x hx y hy hlt)
        · exact (hrest.closed x hx y hy (hsize ▸ hlt)).imp_left (hmarks.marked_iff y).mp
      · intro x hx
        rcases List.mem_append.mp hx with hx | hx
        · obtain ⟨r, hr, hpath⟩ := hfirst.owed x hx
          exact ⟨r, List.mem_singleton.mp hr ▸ List.mem_cons_self .., hpath⟩
        · obtain ⟨r, hr, hpath⟩ := hrest.owed x hx
          rw [hsize] at hpath
          exact ⟨r, List.mem_cons_of_mem _ hr, hpath⟩
    · rw [searchAll_of_marked h]
      have hrest := ih seen
      refine ⟨hrest.nodup, hrest.fresh, ?_, hrest.closed, ?_⟩
      · intro x hx hlt
        rcases List.mem_cons.mp hx with rfl | hx
        · by_cases hseen : seen[x]? = some true
          · exact Or.inl hseen
          · exact absurd (get_eq_false_of_not_true hlt hseen) h
        · exact hrest.covers x hx hlt
      · intro x hx
        obtain ⟨r, hr, hpath⟩ := hrest.owed x hx
        exact ⟨r, List.mem_cons_of_mem _ hr, hpath⟩

/-- Searches from more starts go on with the marks of those before. -/
theorem searchAll_append (next : Nat → List Nat) (starts more : List Nat) (seen : Array Bool) :
    ∃ found, Marks seen (searchAll next starts seen) found ∧
      searchAll next (starts ++ more) seen
        = searchAll next starts seen ++ searchAll next more found := by
  induction starts generalizing seen with
  | nil => exact ⟨seen, Marks.refl seen, rfl⟩
  | cons s starts ih =>
    rw [List.cons_append]
    by_cases h : seen[s]? = some false
    · obtain ⟨order, mid, hmarks, _, heq⟩ := exists_search next h
      obtain ⟨found, hfound, hrest⟩ := ih mid
      refine ⟨found, ?_, ?_⟩
      · rw [heq starts]
        exact hmarks.trans hfound
      · rw [heq, heq, hrest, List.append_assoc]
    · rw [searchAll_of_marked h, searchAll_of_marked h]
      exact ih seen

/-- From no marks at all, searches take exactly the nodes that can be reached from their starts. -/
theorem mem_searchAll_iff (n : Nat) (next : Nat → List Nat) (starts : List Nat) (x : Nat) :
    x ∈ searchAll next starts (Array.replicate n false) ↔ x ∈ reachable n next starts := by
  have hsweeps := searchAll_sweeps next starts (Array.replicate n false)
  have hsize : (Array.replicate n false).size = n := by simp
  rw [mem_reachable]
  constructor
  · intro hx
    obtain ⟨r, hr, hlt, hpath⟩ := hsweeps.owed x hx
    rw [hsize] at hlt hpath
    exact ⟨r, hr, hlt, hpath⟩
  · intro hx
    obtain ⟨r, hr, hlt, hpath⟩ := hx
    induction hpath with
    | refl =>
      exact (hsweeps.covers r hr (hsize.symm ▸ hlt)).resolve_left (get_replicate_ne_true n r)
    | tail _ hstep ih =>
      exact (hsweeps.closed _ ih _ hstep.1 (hsize.symm ▸ hstep.2)).resolve_left
        (get_replicate_ne_true n _)

end RegisterWeb
