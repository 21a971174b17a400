/-!
Binary search for the first index at which a test holds. On a test that never turns false again after
it held, the answer is the number of indices before the first hit; on any other test the answer is
where the halving ends.
-/

namespace RegisterWeb

/-- Halves the interval from `lo` to `hi`, keeping the part that ends in a hit. -/
def bisectFrom (test : Nat → Bool) (lo hi : Nat) : Nat :=
  if lo < hi then
    let mid := (lo + hi) / 2
    if test mid then bisectFrom test lo mid else bisectFrom test (mid + 1) hi
  else lo
termination_by hi - lo

/-- The first of the indices below `n` at which `test` holds, or `n`. -/
def bisect (n : Nat) (test : Nat → Bool) : Nat :=
  bisectFrom test 0 n

/-- A test that, below `n`, never turns false again after it held. -/
def Upward (n : Nat) (test : Nat → Bool) : Prop :=
  ∀ i j, i ≤ j → j < n → test i = true → test j = true

theorem bisectFrom_bounds (test : Nat → Bool) (lo hi : Nat) (h : lo ≤ hi) :
    lo ≤ bisectFrom test lo hi ∧ bisectFrom test lo hi ≤ hi := by
  fun_induction bisectFrom test lo hi with
  | case1 lo hi hlt mid hit ih => have := ih (by omega); omega
  | case2 lo hi hlt mid hit ih => have := ih (by omega); omega
  | case3 lo hi hge => omega

theorem bisect_le (n : Nat) (test : Nat → Bool) : bisect n test ≤ n :=
  (bisectFrom_bounds test 0 n (Nat.zero_le n)).2

/-- On an upward test the search splits the interval: no hit before the answer, only hits from it on. -/
theorem bisectFrom_splits {test : Nat → Bool} {n : Nat} (up : Upward n test) (lo hi : Nat)
    (h : lo ≤ hi) (hn : hi ≤ n) (i : Nat) (above : lo ≤ i) (below : i < hi) :
    test i = true ↔ bisectFrom test lo hi ≤ i := by
  fun_induction bisectFrom test lo hi with
  | case1 lo hi hlt mid hit ih =>
    by_cases him : i < mid
    · exact ih (by omega) (by omega) above him
    · have hm := (bisectFrom_bounds test lo mid (by omega)).2
      exact ⟨fun _ => by omega, fun _ => up mid i (by omega) (by omega) hit⟩
  | case2 lo hi hlt mid miss ih =>
    by_cases him : mid + 1 ≤ i
    · exact ih (by omega) hn him below
    · have hm := (bisectFrom_bounds test (mid + 1) hi (by omega)).1
      exact ⟨fun hi => absurd (up i mid (by omega) (by omega) hi) miss, fun _ => by omega⟩
  | case3 lo hi hge => omega

theorem bisect_splits {test : Nat → Bool} {n : Nat} (up : Upward n test) {i : Nat} (h : i < n) :
    test i = true ↔ bisect n test ≤ i :=
  bisectFrom_splits up 0 n (Nat.zero_le n) (Nat.le_refl n) i (Nat.zero_le i) h

end RegisterWeb
