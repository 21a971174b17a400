/-! Totals: the sum of a measure over a list. -/

namespace RegisterWeb

/-- The sum of `f` over the elements of a list. -/
def total {α : Type} (f : α → Nat) : List α → Nat
  | [] => 0
  | a :: l => f a + total f l

/-- A total changes by as much as the one element that is replaced. -/
theorem total_set {α : Type} (f : α → Nat) {l : List α} {i : Nat} {a : α} (h : l[i]? = some a)
    (b : α) : total f (l.set i b) + f a = total f l + f b := by
  induction l generalizing i with
  | nil => cases h
  | cons c l ih =>
    cases i with
    | zero =>
      cases h
      simp only [List.set_cons_zero, total]
      omega
    | succ i =>
      have hrest := ih h
      simp only [List.set_cons_succ, total]
      omega

/-- A total does not fall when an element gives way to one that measures no less. -/
theorem total_le_set {α : Type} (f : α → Nat) (l : List α) (i : Nat) (b : α)
    (h : ∀ a, l[i]? = some a → f a ≤ f b) : total f l ≤ total f (l.set i b) := by
  induction l generalizing i with
  | nil => exact Nat.le_refl _
  | cons a l ih =>
    cases i with
    | zero => exact Nat.add_le_add_right (h a rfl) _
    | succ i => exact Nat.add_le_add_left (ih i fun c hc => h c hc) _

end RegisterWeb
