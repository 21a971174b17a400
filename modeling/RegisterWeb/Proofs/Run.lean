import RegisterWeb.Live.Scope
import RegisterWeb.Proofs.Machine

/-!
Runs as sequences of places. The routine at each frame of the stack was entered by some call, and
the stack has not fallen below the height of the frame since; a run that stays above a height leaves
the stack below it as it is, and from a call on it stays in the scope of the routine called until it
comes back. A place is bypassed by a register if it lies inside such a call of a routine that does
not touch the register.
-/

namespace RegisterWeb

open Relation

namespace Graph

variable {g : Graph}

/-! ### Steps -/

theorem lt_size_of_returns {b : Nat} (h : (g.block b).returns = true) : b < g.size := by
  by_contra hb
  rw [block_of_size_le (Nat.le_of_not_lt hb)] at h
  exact absurd h (by decide)

theorem Step.lt_size {c c' : Config} (h : g.Step c c') : c.block < g.size := by
  rcases Step.iff.mp h with ⟨_, hc, _⟩ | ⟨_, hc, _⟩ | ⟨_, hc, _⟩ | ⟨hreturns, _⟩
  · exact lt_size_of_mem_next ((Block.mem_successors _ _).mp hc)
  · exact lt_size_of_mem_next ((Block.mem_callees _ _).mp hc)
  · exact lt_size_of_mem_next ((Block.mem_callees _ _).mp hc)
  · exact lt_size_of_returns hreturns

/-! ### Runs -/

/-- A run of `n` steps from a root with an empty stack. -/
structure IsRun (g : Graph) (run : Nat → Config) (n : Nat) : Prop where
  root : (g.block (run 0).block).root = true
  empty : (run 0).stack = []
  step : ∀ i < n, g.Step (run i) (run (i + 1))

instance (g : Graph) (run : Nat → Config) (n : Nat) : Decidable (g.IsRun run n) :=
  decidable_of_iff ((g.block (run 0).block).root = true ∧ (run 0).stack = [] ∧
    ∀ i < n, g.Step (run i) (run (i + 1)))
    ⟨fun h => ⟨h.1, h.2.1, h.2.2⟩, fun h => ⟨h.root, h.empty, h.step⟩⟩

/-- The height of the stack at a place of a run. -/
abbrev height (run : Nat → Config) (i : Nat) : Nat :=
  (run i).stack.length

/-- Whether a step of a run enters a routine: its block calls and does not return. -/
def CallsAt (g : Graph) (run : Nat → Config) (i : Nat) : Prop :=
  (g.block (run i).block).calls = true ∧ height run i ≤ height run (i + 1)

/-- A place after the step `i` of a run at which the stack has not fallen below its height since. -/
def Stays (run : Nat → Config) (i m : Nat) : Prop :=
  i < m ∧ ∀ l, i < l → l ≤ m → height run (i + 1) ≤ height run l

/-- A place inside a call of a routine that does not touch the register: the routine has been
entered and the stack has not fallen below its height since. -/
def Bypassed (g : Graph) (touched : Nat → Bool) (run : Nat → Config) (m : Nat) : Prop :=
  ∃ i, g.CallsAt run i ∧ touched (run (i + 1)).block = false ∧ Stays run i m

section Run

variable {run : Nat → Config} {n : Nat}

theorem Stays.restrict {i m m' : Nat} (h : Stays run i m') (him : i < m) (hmm : m ≤ m') :
    Stays run i m :=
  ⟨him, fun l hl hlm => h.2 l hl (Nat.le_trans hlm hmm)⟩

/-- A step that does not enter a routine that leaves the register alone does not start a bypass. -/
theorem not_bypassed_succ {touched : Nat → Bool} {m : Nat} (h : ¬ g.Bypassed touched run m)
    (hstep : g.CallsAt run m → touched (run (m + 1)).block = true) :
    ¬ g.Bypassed touched run (m + 1) := by
  intro ⟨i, hcall, hfree, hstays⟩
  by_cases him : i = m
  · subst him
    rw [hstep hcall] at hfree
    exact absurd hfree (by simp)
  · have hlt : i < m := by
      have := hstays.1
      omega
    exact h ⟨i, hcall, hfree, hstays.restrict hlt (Nat.le_succ m)⟩

/-- While the stack does not fall below a height, what lies below is left alone, and control stays
among the blocks that are reached from where it was. -/
theorem IsRun.scope (hg : g.WellFormed) (h : g.IsRun run n) {i m : Nat} (hm : m ≤ n)
    (hstays : Stays run i m) :
    ∃ top, (run m).stack = top ++ (run (i + 1)).stack ∧
      g.Reaches (run (i + 1)).block (run m).block ∧
      ∀ k ∈ top, g.Reaches (run (i + 1)).block k := by
  obtain ⟨him, hheight⟩ := hstays
  induction m with
  | zero => omega
  | succ m ih =>
    by_cases hstart : i = m
    · subst hstart
      exact ⟨[], rfl, ReflTransGen.refl, fun k hk => absurd hk List.not_mem_nil⟩
    · obtain ⟨top, hstack, hblock, htop⟩ := ih (by omega) (by omega)
        fun l hl hlm => hheight l hl (by omega)
      -- the blocks that one step may go to or push
      have hnext : ∀ c, (∃ isCall, ⟨c, isCall⟩ ∈ (g.block (run m).block).next) →
          g.Reaches (run (i + 1)).block c := by
        intro c ⟨isCall, hc⟩
        refine hblock.tail ⟨List.mem_map.mpr ⟨_, hc, rfl⟩, ?_⟩
        exact hg.next_lt _ _ hc
      rcases Step.iff.mp (h.step m (by omega)) with ⟨_, hc, hsame⟩ | ⟨_, hc, k, hk, hpush⟩ |
        ⟨_, hc, hsame⟩ | ⟨_, _, hpop⟩
      · exact ⟨top, hsame.trans hstack, hnext _ ⟨_, (Block.mem_successors _ _).mp hc⟩, htop⟩
      · refine ⟨k :: top, ?_, hnext _ ⟨_, (Block.mem_callees _ _).mp hc⟩, ?_⟩
        · rw [hpush, hstack]
          rfl
        · intro d hd
          rcases List.mem_cons.mp hd with rfl | hd
          · exact hnext _ ⟨_, (Block.mem_successors _ _).mp hk⟩
          · exact htop d hd
      · exact ⟨top, hsame.trans hstack, hnext _ ⟨_, (Block.mem_callees _ _).mp hc⟩, htop⟩
      · cases top with
        | nil =>
          -- then the stack would fall below the height
          have hlow := hheight (m + 1) (by omega) (Nat.le_refl _)
          have hlength := congrArg List.length hpop
          rw [hstack] at hlength
          simp only [height, List.nil_append, List.length_cons] at hlow hlength
          omega
        | cons k top =>
          rw [hstack, List.cons_append] at hpop
          injection hpop with hk hrest
          refine ⟨top, hrest.symm, ?_, fun d hd => htop d (List.mem_cons_of_mem k hd)⟩
          rw [← hk]
          exact htop k (List.mem_cons_self ..)

/-- A call that does not last comes back to the block on top of the stack, and no call made since it
lasts until then. -/
theorem IsRun.comesBack (hg : g.WellFormed) (h : g.IsRun run n) {m j : Nat} (hmj : m < j)
    (hj : j ≤ n) (hleft : ¬ Stays run m j) :
    ∃ m', m < m' ∧ m' ≤ j ∧ (run (m + 1)).stack = (run m').block :: (run m').stack ∧
      ∀ i, g.CallsAt run i → Stays run i m' → i < m := by
  have hfalls : ∃ l, m < l ∧ l ≤ j ∧ height run l < height run (m + 1) := by
    by_contra hnone
    refine hleft ⟨hmj, ?_⟩
    intro l hml hlj
    by_contra hlow
    exact hnone ⟨l, hml, hlj, Nat.lt_of_not_le hlow⟩
  -- the first place below the height
  obtain ⟨m', ⟨hmm', hm'j, hlow⟩, hfirst⟩ : ∃ m',
      (m < m' ∧ m' ≤ j ∧ height run m' < height run (m + 1)) ∧
        ∀ l < m', ¬ (m < l ∧ l ≤ j ∧ height run l < height run (m + 1)) :=
    ⟨Nat.find hfalls, Nat.find_spec hfalls, fun l hl => Nat.find_min hfalls hl⟩
  have habove : ∀ l, m < l → l < m' → height run (m + 1) ≤ height run l := by
    intro l hml hlm'
    by_contra hl
    exact hfirst l hlm' ⟨hml, by omega, Nat.lt_of_not_le hl⟩
  obtain ⟨p, rfl⟩ : ∃ p, m' = p + 1 := ⟨m' - 1, by omega⟩
  have hmp : m < p := by
    by_contra hmp
    have heq : p = m := by omega
    rw [heq] at hlow
    exact Nat.lt_irrefl _ hlow
  have hstays : Stays run m p := ⟨hmp, fun l hl hlp => habove l hl (by omega)⟩
  obtain ⟨top, hstack, _, _⟩ := h.scope hg (by omega) hstays
  have hheight : height run p = top.length + height run (m + 1) := by
    simp only [height, hstack, List.length_append]
  refine ⟨p + 1, hmm', hm'j, ?_, ?_⟩
  · rcases Step.iff.mp (h.step p (by omega)) with ⟨_, _, hsame⟩ | ⟨_, _, k, _, hpush⟩ |
      ⟨_, _, hsame⟩ | ⟨_, _, hpop⟩
    · simp only [height, hsame] at hlow hheight
      omega
    · simp only [height, hpush, List.length_cons] at hlow hheight
      omega
    · simp only [height, hsame] at hlow hheight
      omega
    · have hlength : height run p = height run (p + 1) + 1 := by
        simp only [height, hpop, List.length_cons]
      have hnil : top = [] := List.length_eq_zero_iff.mp (by omega)
      rw [hnil, List.nil_append] at hstack
      rw [← hstack, hpop]
  · intro i hcall hlasts
    by_contra him
    have hend := hlasts.2 (p + 1) hlasts.1 (Nat.le_refl _)
    by_cases heq : i = m
    · rw [heq] at hend
      omega
    · have hmid := habove i (by omega) hlasts.1
      have hgrow := hcall.2
      omega

/-! ### What the stack promises -/

/-- Each frame belongs to a routine that goes on at the block of the frame, and that was entered by
a call since which the stack has not fallen below the frame. -/
def Placed (g : Graph) (run : Nat → Config) (m : Nat) : Nat → List Nat → Prop
  | _, [] => True
  | b, k :: stack =>
    (∃ q ∈ g.routines, b ∈ q.blocks ∧ k ∈ q.conts ∧
      ∃ i, g.CallsAt run i ∧ (run (i + 1)).block = q.entry ∧
        height run (i + 1) = stack.length + 1 ∧ Stays run i m) ∧
    Placed g run m k stack

theorem Placed.later {m b : Nat} {stack : List Nat} (h : Placed g run m b stack)
    (hheight : stack.length ≤ height run (m + 1)) : Placed g run (m + 1) b stack := by
  induction stack generalizing b with
  | nil => trivial
  | cons k stack ih =>
    rw [List.length_cons] at hheight
    obtain ⟨⟨q, hq, hb, hk, i, hcall, hentry, hlevel, him, hstays⟩, hrest⟩ := h
    refine ⟨⟨q, hq, hb, hk, i, hcall, hentry, hlevel, by omega, ?_⟩, ih hrest (by omega)⟩
    intro l hl hlm
    by_cases heq : l = m + 1
    · rw [heq, hlevel]
      exact hheight
    · exact hstays l hl (by omega)

theorem Placed.move (hg : g.WellFormed) {m b c : Nat} {stack : List Nat}
    (h : Placed g run m b stack) (hc : c ∈ (g.block b).successors) : Placed g run m c stack := by
  cases stack with
  | nil => trivial
  | cons k stack =>
    obtain ⟨⟨q, hq, hb, hk, hentered⟩, hrest⟩ := h
    exact ⟨⟨q, hq, hg.successor_mem_blocks hq hb hc, hk, hentered⟩, hrest⟩

/-- Every block that calls has at most one block where control resumes. -/
def Single (g : Graph) : Prop :=
  ∀ b, (g.block b).calls = true → ∀ k ∈ (g.block b).successors, ∀ k' ∈ (g.block b).successors,
    k = k'

instance (g : Graph) : Decidable g.Single :=
  decidable_of_iff (∀ b < g.size, (g.block b).calls = true → ∀ k ∈ (g.block b).successors,
      ∀ k' ∈ (g.block b).successors, k = k')
    ⟨fun h b hcalls k hk k' hk' =>
      h b (lt_size_of_mem_next ((Block.mem_successors _ _).mp hk)) hcalls k hk k' hk',
     fun h b _ => h b⟩

theorem Single.continuation?_eq (h : g.Single) {b k : Nat} (hcalls : (g.block b).calls = true)
    (hk : k ∈ (g.block b).successors) : (g.block b).continuation? = some k := by
  cases hcont : (g.block b).continuation? with
  | none =>
    have htail : (g.block b).isTailCall = true := by simp [Block.isTailCall, hcalls, hcont]
    rw [((Block.isTailCall_iff _).mp htail).2] at hk
    exact absurd hk List.not_mem_nil
  | some k' => rw [h b hcalls k hk k' (Block.continuation?_mem hcont).2]

/-- The frame of a call that has just been made. -/
theorem Placed.enter {m k : Nat} {stack : List Nat} {q : Routine} (hg : g.WellFormed)
    (hcall : g.CallsAt run m) (hq : q ∈ g.routines) (hentry : q.entry = (run (m + 1)).block)
    (hk : k ∈ q.conts) (hstack : (run (m + 1)).stack = k :: stack)
    (hrest : Placed g run (m + 1) k stack) :
    Placed g run (m + 1) (run (m + 1)).block (k :: stack) := by
  rw [← hentry]
  refine ⟨⟨q, hq, hg.entry_mem_blocks hq, hk, m, hcall, hentry.symm, ?_, by omega, ?_⟩, hrest⟩
  · rw [height, hstack, List.length_cons]
  · intro l hl hlm
    have heq : l = m + 1 := by omega
    rw [heq]

theorem IsRun.placed (hg : g.WellFormed) (hsingle : g.Single) (h : g.IsRun run n) {m : Nat}
    (hm : m ≤ n) : Placed g run m (run m).block (run m).stack := by
  induction m with
  | zero =>
    rw [h.empty]
    trivial
  | succ m ih =>
    have hbefore := ih (by omega)
    rcases Step.iff.mp (h.step m (by omega)) with ⟨_, hc, hsame⟩ | ⟨hcalls, hc, k, hk, hpush⟩ |
      ⟨htail, hc, hsame⟩ | ⟨_, _, hpop⟩
    · rw [hsame]
      exact (hbefore.move hg hc).later (by rw [height, hsame])
    · obtain ⟨q, hq, hentry⟩ := hg.exists_routine hc
      have hcall : g.CallsAt run m := by
        refine ⟨hcalls, ?_⟩
        simp only [height, hpush, List.length_cons]
        omega
      rw [hpush]
      refine Placed.enter hg hcall hq hentry ?_ hpush ((hbefore.move hg hk).later ?_)
      · exact hg.continuation_mem_conts hq (hentry ▸ hc) (hsingle.continuation?_eq hcalls hk)
      · simp only [height, hpush, List.length_cons]
        omega
    · rw [hsame]
      cases hstack : (run m).stack with
      | nil => trivial
      | cons k stack =>
        rw [hstack] at hbefore hsame
        obtain ⟨⟨q, hq, hb, hk, _⟩, hrest⟩ := hbefore
        obtain ⟨q', hq', hentry⟩ := hg.exists_routine hc
        have hcont := Block.continuation?_of_isTailCall htail
        have hcall : g.CallsAt run m := by
          refine ⟨((Block.isTailCall_iff _).mp htail).1, ?_⟩
          simp only [height, hsame, hstack]
          exact Nat.le_refl _
        refine Placed.enter hg hcall hq' hentry ?_ hsame (hrest.later ?_)
        · -- a routine called last resumes where the one that calls it does
          exact hg.conts_subset hq' hq (hentry ▸ hc) hcont hb hk
        · simp only [height, hsame, List.length_cons]
          omega
    · rw [hpop] at hbefore
      exact hbefore.2.later (Nat.le_refl _)

end Run

end Graph

end RegisterWeb
