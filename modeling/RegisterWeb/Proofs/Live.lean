import RegisterWeb.Proofs.LiveFlow
import RegisterWeb.Proofs.Run
import RegisterWeb.Proofs.Walk
import RegisterWeb.Section.Basic

/-!
Liveness along runs. If a run comes to a read without a write in between, the register is live at
the end of every block on the way that is not bypassed: a call of a routine that touches the
register is followed into the routine and back to where it resumes, any other call is passed over.
-/

namespace RegisterWeb

open RegisterWeb.Graph

/-! ### Routines that do not touch a register -/

section Touch

variable {g : Graph} {t : Track} {run : Nat → Config} {n : Nat}

theorem Track.touches_of_reaches (hg : g.WellFormed) {q : Routine} (hq : q ∈ g.routines) {b : Nat}
    (hb : b < g.size) (hreach : g.Reaches q.entry b) (huse : (t.uses.get b).isSome = true) :
    t.touches g g.scopes q.entry = true := by
  have hentry := hg.entry_lt hq
  refine List.any_eq_true.mpr ⟨b, List.mem_range.mpr hb, ?_⟩
  rw [Bool.and_eq_true]
  refine ⟨?_, huse⟩
  simp only [inScope, scopes, Table.get_tabulate, if_pos hentry, hg.routine?_entry hq,
    Option.isSome_some, if_true]
  rw [reach_iff]
  exact ⟨q.entry, List.mem_singleton.mpr rfl, hentry, hreach⟩

theorem Track.touches_of_size_le {c : Nat} (hc : g.size ≤ c) :
    t.touches g g.scopes c = false := by
  have hscope : ∀ b, inScope g.scopes c b = false := by
    intro b
    simp only [inScope, scopes, Table.get_tabulate, if_neg (Nat.not_lt_of_le hc)]
    rfl
  simp [Track.touches, hscope]

theorem Graph.IsRun.callee_of_callsAt (h : g.IsRun run n) {i : Nat} (hi : i < n)
    (hcall : g.CallsAt run i) : (run (i + 1)).block ∈ (g.block (run i).block).callees := by
  obtain ⟨hcalls, hheight⟩ := hcall
  rcases Step.iff.mp (h.step i hi) with ⟨hnot, _⟩ | ⟨_, hc, _⟩ | ⟨_, hc, _⟩ | ⟨_, _, hpop⟩
  · rw [hnot] at hcalls
    exact absurd hcalls (by simp)
  · exact hc
  · exact hc
  · simp only [height, hpop, List.length_cons] at hheight
    omega

/-- A block that uses the register is not inside a call of a routine that does not touch it. -/
theorem Graph.IsRun.not_bypassed (hg : g.WellFormed) (h : g.IsRun run n) {m : Nat} (hm : m ≤ n)
    (hb : (run m).block < g.size) (huse : (t.uses.get (run m).block).isSome = true) :
    ¬ g.Bypassed (t.touches g g.scopes) run m := by
  intro ⟨i, hcall, hfree, hstays⟩
  have him := hstays.1
  obtain ⟨q, hq, hentry⟩ := hg.exists_routine (h.callee_of_callsAt (by omega) hcall)
  obtain ⟨_, _, hreach, _⟩ := h.scope hg hm hstays
  rw [← hentry] at hreach hfree
  rw [Track.touches_of_reaches hg hq hb hreach huse] at hfree
  exact absurd hfree (by simp)

end Touch

/-! ### Liveness along a run -/

section Back

variable {g : Graph} {t : Track} {touched : Table Bool} {l : LiveFlow} {run : Nat → Config}
  {n j : Nat}

/-- Past a call of a routine that leaves the register alone, liveness comes from where it resumes.
-/
theorem Graph.IsRun.follows_past (hg : g.WellFormed) (hsingle : g.Single) (h : g.IsRun run n)
    {m : Nat} (hm : m < n) (hcall : g.CallsAt run m)
    (hfree : touched.get (run (m + 1)).block = false) {k : Nat} {stack : List Nat}
    (hstack : (run (m + 1)).stack = k :: stack) :
    LiveFlow.Follows g touched (run m).block k := by
  have hcallee := h.callee_of_callsAt hm hcall
  refine LiveFlow.Follows.past hcall.1 hcallee hfree ?_
  rcases Step.iff.mp (h.step m hm) with ⟨hnot, _⟩ | ⟨hcalls, _, k', hk', hpush⟩ |
    ⟨htail, hc, hsame⟩ | ⟨_, _, hpop⟩
  · rw [hcall.1] at hnot
    exact absurd hnot (by simp)
  · rw [hpush] at hstack
    injection hstack with hk _
    simp only [LiveFlow.resumptions, hsingle.continuation?_eq hcalls hk']
    exact List.mem_singleton.mpr hk.symm
  · have hcont := Block.continuation?_of_isTailCall htail
    obtain ⟨q', hq', hentry⟩ := hg.exists_routine hc
    have hplaced := h.placed hg hsingle (Nat.le_of_lt hm)
    rw [← hsame, hstack] at hplaced
    obtain ⟨⟨q, hq, hb, hk, _⟩, _⟩ := hplaced
    simp only [LiveFlow.resumptions, hcont, ← hentry, hg.routine?_entry hq']
    exact hg.conts_subset hq' hq (hentry ▸ hc) hcont hb hk
  · have hheight := hcall.2
    simp only [height, hpop, List.length_cons] at hheight
    omega

theorem Graph.IsRun.leaves_of_enters (hg : g.WellFormed) (hsingle : g.Single)
    (h : g.IsRun run n) (hl : l.Closed g t touched) (hj : j ≤ n)
    (hread : l.enters.get (run j).block = true) (hfree : ¬ g.Bypassed touched.get run j) {m : Nat}
    (hm : m < j) (hquiet : ∀ i, m < i → i < j → t.isWritten (run i).block = false)
    (hopen : ¬ g.Bypassed touched.get run m) : l.leaves.get (run m).block = true := by
  induction hd : j - m using Nat.strong_induction_on generalizing m with
  | _ d ih =>
    have hmn : m < n := by omega
    have hstep := h.step m hmn
    have hsize := hstep.lt_size
    -- a later place that is not bypassed starts live
    have hlater : ∀ i, m < i → i ≤ j → ¬ g.Bypassed touched.get run i →
        l.enters.get (run i).block = true := by
      intro i hmi hij hi
      by_cases heq : i = j
      · rw [heq]
        exact hread
      · have hlt : i < j := by omega
        have hout := ih (j - i) (by omega) hlt (fun p hp hpj => hquiet p (by omega) hpj) hi rfl
        exact hl.passes _ (h.step i (by omega)).lt_size hout (hquiet i hmi hlt)
    by_cases hcall : g.CallsAt run m
    · have hcallee := h.callee_of_callsAt hmn hcall
      cases htouch : touched.get (run (m + 1)).block with
      | true =>
        have hnext := hlater (m + 1) (by omega) hm (not_bypassed_succ hopen fun _ => htouch)
        exact hl.leaves _ hsize _
          (LiveFlow.Follows.edge ((Block.mem_callees _ _).mp hcallee) (Or.inl rfl)) hnext
      | false =>
        have hleft : ¬ Stays run m j := fun hstays => hfree ⟨m, hcall, htouch, hstays⟩
        obtain ⟨m', hmm', hm'j, hstack, hsince⟩ := h.comesBack hg hm hj hleft
        have hopen' : ¬ g.Bypassed touched.get run m' := by
          intro ⟨i, hcall', hfree', hstays⟩
          have him := hsince i hcall' hstays
          exact hopen ⟨i, hcall', hfree', hstays.restrict him (by omega)⟩
        exact hl.leaves _ hsize _ (h.follows_past hg hsingle hmn hcall htouch hstack)
          (hlater m' hmm' hm'j hopen')
    · have hnext := hlater (m + 1) (by omega) hm
        (not_bypassed_succ hopen fun hcalls => absurd hcalls hcall)
      rcases Step.iff.mp hstep with ⟨hnot, hc, _⟩ | ⟨hcalls, _, k, _, hpush⟩ | ⟨htail, _, hsame⟩ |
        ⟨hreturns, hstays, hpop⟩
      · exact hl.leaves _ hsize _
          (LiveFlow.Follows.edge ((Block.mem_successors _ _).mp hc) (Or.inr hnot)) hnext
      · refine absurd ⟨hcalls, ?_⟩ hcall
        simp only [height, hpush, List.length_cons]
        omega
      · refine absurd ⟨((Block.isTailCall_iff _).mp htail).1, ?_⟩ hcall
        simp only [height, hsame]
        exact Nat.le_refl _
      · have hplaced := h.placed hg hsingle (Nat.le_of_lt hmn)
        rw [hpop] at hplaced
        obtain ⟨⟨q, hq, hb, hk, i, hcall', hentry, _, hlasts⟩, _⟩ := hplaced
        have hreturn := (hg.mem_returns hq _).mpr ⟨hb, hstays, hreturns⟩
        -- the routine touches the register, or this place would be bypassed
        have htouch : touched.get q.entry = true := by
          by_contra hnot
          refine hopen ⟨i, hcall', ?_, hlasts⟩
          rw [hentry]
          simpa using hnot
        exact hl.leaves _ hsize _ (LiveFlow.Follows.back hq hreturn htouch hk) hnext

end Back

end RegisterWeb
