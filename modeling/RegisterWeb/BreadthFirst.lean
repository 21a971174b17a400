import RegisterWeb.Reach

/-!
Breadth-first order of a finite directed graph. A node is marked when it is put in the queue, so
none is put there twice.
-/

namespace RegisterWeb

/-- Puts an unmarked node at the end of the queue and marks it. -/
def enlist (state : List Nat × Array Bool) (x : Nat) : List Nat × Array Bool :=
  if state.2[x]? = some false then (state.1 ++ [x], state.2.setIfInBounds x true) else state

/-- The queue grows only by nodes that were unmarked. -/
theorem enlist_room (xs : List Nat) (state : List Nat × Array Bool) :
    2 * (xs.foldl enlist state).2.count false + (xs.foldl enlist state).1.length
      ≤ 2 * state.2.count false + state.1.length := by
  induction xs generalizing state with
  | nil => simp
  | cons x xs ih =>
    refine Nat.le_trans (ih (enlist state x)) ?_
    unfold enlist
    split
    · have := count_mark_lt (by assumption)
      simp only [List.length_append, List.length_singleton]
      omega
    · exact Nat.le_refl _

/-- Takes nodes from the queue in turn and puts their unmarked successors at its end. Gives the
nodes in the order they were taken, and the marks at the end. -/
def breadthFirst (next : Nat → List Nat) (queue : List Nat) (seen : Array Bool) :
    List Nat × Array Bool :=
  match queue with
  | [] => ([], seen)
  | x :: rest =>
    let after := (next x).foldl enlist (rest, seen)
    let found := breadthFirst next after.1 after.2
    (x :: found.1, found.2)
termination_by 2 * seen.count false + queue.length
decreasing_by
  have := enlist_room (next x) (rest, seen)
  simp only [List.length_cons] at this ⊢
  omega

/-- The order of all nodes that can be reached from the starts. A start that is still unmarked when
its turn comes is searched from. -/
def searchAll (next : Nat → List Nat) : List Nat → Array Bool → List Nat
  | [], _ => []
  | s :: starts, seen =>
    if seen[s]? = some false then
      let found := breadthFirst next [s] (seen.setIfInBounds s true)
      found.1 ++ searchAll next starts found.2
    else searchAll next starts seen

end RegisterWeb
