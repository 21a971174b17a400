import Mathlib
import RegisterWeb.Proofs.CallSet

/-!
Least solutions. The effects of routines lie in every family of sets that the exits of the routines
keep to, and a register is live only where every closed account of its liveness says so. So two
solutions are the same as soon as each of them gives a closed account for the other.
-/

namespace RegisterWeb

namespace Flow

/-! ### Effects of routines -/

/-- One flow is below another, its effects included. -/
structure Beneath (f f' : Flow) : Prop where
  made : f'.made = f.made
  effects : ∀ c, f.effects.get c ⊆ f'.effects.get c
  entering : ∀ b, f.entering.get b ⊆ f'.entering.get b

theorem Beneath.leaving {f f' : Flow} (h : f.Beneath f') (b : Nat) :
    f.leaving b ⊆ f'.leaving b := by
  intro v hv
  rw [mem_leaving] at hv ⊢
  rw [h.made]
  exact hv.imp_right fun hv => ⟨hv.1, h.entering b hv.2⟩

theorem Beneath.passing {f f' : Flow} (h : f.Beneath f') (g : Graph) (b : Nat) :
    f.passing g b ⊆ f'.passing g b := by
  cases hcalls : (g.block b).calls with
  | false =>
    rw [passing_of_not_calls hcalls, passing_of_not_calls hcalls]
    exact h.leaving b
  | true =>
    intro v hv
    obtain ⟨c, hc, hv⟩ := (mem_passing_of_calls hcalls).mp hv
    refine (mem_passing_of_calls hcalls).mpr ⟨c, hc, ?_⟩
    rw [VersionSet.mem_resolve] at hv ⊢
    exact hv.imp (fun hv => ⟨h.effects c hv.1, hv.2⟩)
      fun hv => ⟨h.effects c hv.1, h.leaving b hv.2⟩

variable {g : Graph} {f whole inner : Flow} {r : Routine}

theorem Beneath.receive (h : f.Beneath inner) {c : Nat} {s : VersionSet}
    (hs : s ⊆ inner.entering.get c) : (f.receive c s).Beneath inner := by
  refine ⟨h.made, h.effects, fun b v hv => ?_⟩
  rw [Flow.receive, Table.get_set] at hv
  split at hv
  · rename_i hcb
    rw [← hcb.1]
    rcases (VersionSet.mem_union _ _ v).mp hv with hv | hv
    · exact h.entering c hv
    · exact hs hv
  · exact h.entering b hv

/-- The flow through the body of a routine stays below any flow that is closed there. -/
theorem Summarized.body_beneath (h : Summarized g whole r inner) (hmade : inner.made = f.made)
    (heffects : ∀ c, f.effects.get c ⊆ inner.effects.get c) : (f.body g r).Beneath inner := by
  refine saturate_keeps (fun k : Flow => k.Beneath inner) (fun k hk => ?_) _ ⟨hmade, heffects, ?_⟩
  · refine List.foldlRecOn (motive := fun k : Flow => k.Beneath inner) r.blocks _ hk
      fun k hk b hb => ?_
    refine List.foldlRecOn (motive := fun k : Flow => k.Beneath inner) (g.block b).successors _ hk
      fun k hk c hc => ?_
    exact hk.receive fun v hv => h.closed b hb c hc (hk.passing g b hv)
  · intro b v hv
    rw [Table.get_set] at hv
    split at hv
    · rename_i hentry
      rw [List.mem_singleton.mp hv, ← hentry.1]
      exact h.entry
    · rw [Table.get_blank] at hv
      exact absurd hv List.not_mem_nil

theorem Summarized.exits_subset (h : Summarized g whole r inner) (hmade : inner.made = f.made)
    (heffects : ∀ c, f.effects.get c ⊆ whole.effects.get c) :
    f.exits g r ⊆ whole.effects.get r.entry := by
  have hbeneath : (f.body g r).Beneath inner := h.body_beneath hmade (h.effects ▸ heffects)
  intro v hv
  rcases mem_exits.mp hv with ⟨b, hb, hv⟩ | ⟨b, hb, hv⟩
  · exact h.returns b hb (hbeneath.leaving b hv)
  · exact h.tailCalls b hb (hbeneath.passing g b hv)

/-- Effects lie in every family of sets that the exits of all routines keep to. -/
theorem withEffects_subset (hblank : ∀ c, f.effects.get c = []) (hmade : whole.made = f.made)
    (h : ∀ r ∈ g.routines, ∃ inner, Summarized g whole r inner) (c : Nat) :
    (f.withEffects g).effects.get c ⊆ whole.effects.get c := by
  have hkeeps : (f.withEffects g).made = f.made ∧
      ∀ c, (f.withEffects g).effects.get c ⊆ whole.effects.get c := by
    let P : Flow → Prop := fun k => k.made = f.made ∧ ∀ c, k.effects.get c ⊆ whole.effects.get c
    refine saturate_keeps P (fun k hk => ?_) _ ⟨rfl, fun c v hv => ?_⟩
    · refine List.foldlRecOn (motive := P) g.routines _ hk fun k hk r hr =>
        ⟨hk.1, fun c v hv => ?_⟩
      obtain ⟨inner, hinner⟩ := h r hr
      rw [learn, Table.get_set] at hv
      split at hv
      · rename_i hentry
        rw [← hentry.1]
        rcases (VersionSet.mem_union _ _ v).mp hv with hv | hv
        · exact hk.2 _ hv
        · exact hinner.exits_subset (by rw [hinner.made, hmade, hk.1]) hk.2 hv
      · exact hk.2 c hv
    · rw [hblank] at hv
      exact absurd hv List.not_mem_nil
  exact hkeeps.2 c

end Flow

/-- The effects in the flow of a register are the least that the exits of all routines keep to. -/
theorem Flow.Alike.effects_subset {g : Graph} {a : Analysis} {r : Register} {f whole : Flow}
    (h : ((Track.initial g.size (Analysis.numbering g a r)).withEffects g).Alike f)
    (hmade : whole.made = f.made)
    (hwhole : ∀ q ∈ g.routines, ∃ inner, Flow.Summarized g whole q inner) (c : Nat) :
    f.effects.get c ⊆ whole.effects.get c := by
  obtain ⟨hlearns, _⟩ := (Flow.tidy_initial g.size (Analysis.numbering g a r)).withEffects g
  have hstart : f.made = (Track.initial g.size (Analysis.numbering g a r)).made := by
    rw [h.made, hlearns.frame]
  rw [h.effects]
  exact Flow.withEffects_subset (fun c => Table.get_blank _ c) (hmade.trans hstart) hwhole c

/-- Settling leaves the effects as they were. -/
theorem Analysis.Solved.alike {g : Graph} {a : Analysis} {r : Register} {f : Flow}
    (h : a.Solved g r f) (hfresh : a.Fresh g) :
    ((Track.initial g.size (numbering g a r)).withEffects g).Alike f := by
  obtain ⟨before, hbefore, halike⟩ := h.start
  obtain ⟨hr, hslot⟩ := hfresh.isSlot_of_flow? hbefore
  obtain ⟨f₀, hf₀, _, _, halike₀⟩ := hfresh.exists_flow hr hslot
  cases hf₀.symm.trans hbefore
  exact halike₀.trans halike

theorem Analysis.Solved.effects_subset {g : Graph} {a : Analysis} {r : Register} {f whole : Flow}
    (h : a.Solved g r f) (hfresh : a.Fresh g) (hmade : whole.made = f.made)
    (hwhole : ∀ q ∈ g.routines, ∃ inner, Flow.Summarized g whole q inner) (c : Nat) :
    f.effects.get c ⊆ whole.effects.get c :=
  (h.alike hfresh).effects_subset hmade hwhole c

/-! ### Liveness -/

namespace LiveFlow

variable {g : Graph} {t : Track} {touched : Table Bool} {l m : LiveFlow}

/-- One account of liveness says no more than another. -/
structure Beneath (l m : LiveFlow) : Prop where
  enters : ∀ b, l.enters.get b = true → m.enters.get b = true
  leaves : ∀ b, l.leaves.get b = true → m.leaves.get b = true

theorem Closed.visit (hm : m.Closed g t touched) (hl : l.Beneath m) {b : Nat} (hb : b < g.size) :
    (l.visit g t touched b).Beneath m := by
  have hout : l.isLiveOut g touched b = true → m.leaves.get b = true := by
    intro hout
    obtain ⟨c, hfollows, hc⟩ := isLiveOut_iff.mp hout
    exact hm.leaves b hb c hfollows (hl.enters c hc)
  refine ⟨fun c hc => ?_, fun c hc => ?_⟩
  · rw [LiveFlow.visit, Table.get_set] at hc
    split at hc
    · rename_i hbc
      rw [← hbc.1]
      rcases Bool.or_eq_true_iff.mp hc with hreads | hpass
      · exact hm.reads b hb hreads
      · obtain ⟨hleaves, hquiet⟩ := Bool.and_eq_true_iff.mp hpass
        exact hm.passes b hb (hout hleaves) (by simpa using hquiet)
    · exact hl.enters c hc
  · rw [LiveFlow.visit, Table.get_set] at hc
    split at hc
    · rename_i hbc
      rw [← hbc.1]
      exact hout hc
    · exact hl.leaves c hc

theorem Closed.solve_beneath (hm : m.Closed g t touched) {visits : List Nat}
    (hvisits : ∀ b ∈ visits, b < g.size) : (solve g t touched visits).Beneath m := by
  refine saturate_keeps (fun l : LiveFlow => l.Beneath m) (fun l hl => ?_) _ ⟨?_, ?_⟩
  · exact List.foldlRecOn (motive := fun l : LiveFlow => l.Beneath m) visits _ hl
      fun l hl b hb => hm.visit hl (hvisits b hb)
  · intro b hb
    rw [Table.get_blank] at hb
    exact absurd hb Bool.false_ne_true
  · intro b hb
    rw [Table.get_blank] at hb
    exact absurd hb Bool.false_ne_true

end LiveFlow

end RegisterWeb
