/-!
Reachability in a finite directed graph. The nodes are the numbers below some `n`, and each node has
a list of successors; successors that are no nodes are passed over.
-/

namespace RegisterWeb

/-- Fewer nodes stay unmarked when an unmarked one is marked. -/
theorem count_mark_lt {seen : Array Bool} {x : Nat} (h : seen[x]? = some false) :
    (seen.setIfInBounds x true).count false < seen.count false := by
  obtain ⟨hx, hv⟩ := Array.getElem?_eq_some_iff.mp h
  have hpos : 0 < seen.count false := Array.count_pos_iff.mpr (hv ▸ Array.getElem_mem hx)
  rw [Array.setIfInBounds, dif_pos hx, Array.count_set, hv]
  show seen.count false - 1 + 0 < seen.count false
  omega

/-- Marks every node that can be reached from `todo` through unmarked nodes. -/
def mark (next : Nat → List Nat) : List Nat → Array Bool → Array Bool
  | [], seen => seen
  | x :: todo, seen =>
    if seen[x]? = some false then mark next (next x ++ todo) (seen.setIfInBounds x true)
    else mark next todo seen
termination_by todo seen => (seen.count false, todo.length)
decreasing_by
  · exact Prod.Lex.left _ _ (count_mark_lt (by assumption))
  · exact Prod.Lex.right _ (by simp)

/-- Marks for the nodes below `n` that can be reached from `roots`. -/
def reach (n : Nat) (next : Nat → List Nat) (roots : List Nat) : Array Bool :=
  mark next roots (Array.replicate n false)

/-- The nodes below `n` that can be reached from `roots`, in ascending order. -/
def reachable (n : Nat) (next : Nat → List Nat) (roots : List Nat) : List Nat :=
  let seen := reach n next roots
  (List.range n).filter fun x => seen.getD x false

end RegisterWeb
