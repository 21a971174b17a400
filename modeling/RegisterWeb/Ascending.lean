/-!
Finite sets as strictly ascending lists. Insertion and union keep the list ascending, so two sets
with the same members are the same list.
-/

namespace RegisterWeb

/-- Every element is below all that follow it. -/
def Ascending {α : Type} [LT α] (l : List α) : Prop :=
  l.Pairwise (· < ·)

namespace Ascending

variable {α : Type} [LT α] [DecidableLT α]

/-- Puts an element in its place, unless it is there. -/
def insert (a : α) : List α → List α
  | [] => [a]
  | b :: bs => if a < b then a :: b :: bs else if b < a then b :: insert a bs else b :: bs

/-- Merges two ascending lists. -/
def union : List α → List α → List α
  | [], bs => bs
  | as, [] => as
  | a :: as, b :: bs =>
    if a < b then a :: union as (b :: bs)
    else if b < a then b :: union (a :: as) bs
    else a :: union as bs

/-- The members of a list, each once and in ascending order. -/
def ofList (l : List α) : List α :=
  l.foldl (fun s a => insert a s) []

/-- The union of the sets that `f` gives on the members of `l`. -/
def gather {β : Type} (l : List β) (f : β → List α) : List α :=
  l.foldl (fun s b => union s (f b)) []

/-- A union is at least as long as its first part. -/
theorem length_le_union (as bs : List α) : as.length ≤ (union as bs).length := by
  fun_induction union as bs <;> simp_all
  omega

end Ascending

end RegisterWeb
