import Mathlib
import RegisterWeb.Proofs.Components
import RegisterWeb.Proofs.Offsets

/-!
Which blocks stay open after the first pass. An edge between components leads forward in the flow
order, and inside a component the order is that of the blocks. So a block stays open exactly if it
is entered from its own component by a block that is not lower. Without cycles nothing stays open:
the first pass has solved the equations, although what a routine leaves behind goes from its returns
to the blocks after the call and follows no edge.
-/

namespace RegisterWeb

open Relation

namespace Graph

variable {g : Graph} {p b : Nat}

theorem WellFormed.inner (hg : g.WellFormed) : g.Inner :=
  fun u _ e he => hg.next_lt u e he

theorem WellFormed.joins_of_mem_preds (hg : g.WellFormed) {e : Edge} (he : e ∈ g.preds.get b) :
    g.Joins e.block b :=
  List.mem_map_of_mem (f := Edge.block) ((hg.mem_preds b e).mp he)

/-- Of two blocks of a component the lower one comes first. -/
theorem Inner.isBefore_iff_lt (hg : g.Inner) (hb : b < g.size) (hbp : ReflTransGen g.Joins b p)
    (hpb : ReflTransGen g.Joins p b) : (FlowOrder.ofGraph g).isBefore p b = true ↔ p < b := by
  have hself := mem_component_self hb
  have hcomp : g.component b ∈ g.components := mem_components.mpr ⟨b, hb, rfl⟩
  have hp : p ∈ g.component b := (hg.mem_component_iff hcomp hself p).mpr ⟨hbp, hpb⟩
  obtain ⟨before, after, hsplit⟩ := List.append_of_mem hcomp
  obtain ⟨lower, higher, hsplit'⟩ := List.append_of_mem hself
  have horder : g.order = (before.flatten ++ lower) ++ b :: (higher ++ after.flatten) := by
    rw [order, hsplit, List.flatten_append, List.flatten_cons, hsplit']
    simp only [List.append_assoc, List.cons_append]
  have hnodup := nodup_order g
  have hasc := ascending_component g b
  rw [horder, List.append_assoc] at hnodup
  rw [hsplit'] at hp hasc
  -- the place of `p` within the component is all that counts
  have hout : p ∉ before.flatten := by
    intro hin
    refine List.disjoint_of_nodup_append hnodup hin ?_
    rw [← List.cons_append, ← List.append_assoc]
    exact List.mem_append_left _ hp
  rw [FlowOrder.isBefore_iff g horder (component_eq_of_mem_components hcomp (hsplit' ▸ hp)).1,
    List.mem_append, or_iff_right hout]
  obtain ⟨_, hrest, hcross⟩ := List.pairwise_append.mp hasc
  constructor
  · intro hlow
    exact hcross p hlow b List.mem_cons_self
  · intro hlt
    rcases List.mem_append.mp hp with hlow | hhigh
    · exact hlow
    · rcases List.mem_cons.mp hhigh with rfl | hhigh
      · exact absurd hlt (Nat.lt_irrefl _)
      · exact absurd (List.rel_of_pairwise_cons hrest hhigh) (Nat.not_lt_of_gt hlt)

/-- The blocks that stay open are those that a block of their own component enters and that are not
higher than it. -/
theorem WellFormed.mem_late (hg : g.WellFormed) (b : Nat) :
    b ∈ (FlowOrder.ofGraph g).late g ↔ ∃ e ∈ g.preds.get b,
      ReflTransGen g.Joins b e.block ∧ ReflTransGen g.Joins e.block b ∧ b ≤ e.block := by
  have hinner := hg.inner
  have hedge : ∀ e ∈ g.preds.get b, (!(FlowOrder.ofGraph g).isBefore e.block b) = true ↔
      ReflTransGen g.Joins b e.block ∧ ReflTransGen g.Joins e.block b ∧ b ≤ e.block := by
    intro e he
    have hjoins := hg.joins_of_mem_preds he
    have hb := hinner.lt_size hjoins
    by_cases hback : ReflTransGen g.Joins b e.block
    · have hiff := hinner.isBefore_iff_lt hb hback (ReflTransGen.single hjoins)
      rw [Bool.not_eq_true', ← Bool.not_eq_true, hiff, Nat.not_lt]
      exact ⟨fun h => ⟨hback, ReflTransGen.single hjoins, h⟩, fun h => h.2.2⟩
    · have hlt := hinner.idxOf_lt hjoins hback
      have hbefore : (FlowOrder.ofGraph g).isBefore e.block b = true := by
        rw [FlowOrder.isBefore, decide_eq_true_eq, FlowOrder.rank_get g hjoins.lt_size,
          FlowOrder.rank_get g hb]
        exact hlt
      rw [hbefore]
      exact iff_of_false (by decide) fun h => hback h.1
  rw [FlowOrder.late, List.mem_filter, List.any_eq_true]
  constructor
  · intro h
    obtain ⟨_, e, he, hlate⟩ := h
    exact ⟨e, he, (hedge e he).mp hlate⟩
  · intro h
    obtain ⟨e, he, hcycle⟩ := h
    have hb := hinner.lt_size (hg.joins_of_mem_preds he)
    exact ⟨(mem_order g b).mpr hb, e, he, (hedge e he).mpr hcycle⟩

theorem WellFormed.late_eq_nil (hg : g.WellFormed) (h : ∀ b, ¬ TransGen g.Joins b b) :
    (FlowOrder.ofGraph g).late g = [] := by
  refine List.eq_nil_iff_forall_not_mem.mpr fun b hb => ?_
  obtain ⟨e, he, hback, _⟩ := (hg.mem_late b).mp hb
  exact h b (TransGen.tail' hback (hg.joins_of_mem_preds he))

end Graph

theorem pairwise_idxOf {α : Type} [DecidableEq α] {l : List α} (h : l.Nodup) :
    l.Pairwise fun x y => l.idxOf x < l.idxOf y := by
  rw [List.pairwise_iff_getElem]
  intro i j hi hj hij
  rw [h.idxOf_getElem, h.idxOf_getElem]
  exact hij

namespace Analysis

variable {g : Graph} {a : Analysis} {r : Register} {b : Nat}

theorem late_trackOf (g : Graph) (summaries : Table Summary) (r : Register) :
    (trackOf g (FlowOrder.ofGraph g) summaries r).late
      = if r.isSlot = true then (FlowOrder.ofGraph g).late g else [] := by
  unfold trackOf Track.ofRegister
  split <;> rfl

/-- The open blocks stand in the order of their registers, and for each register in flow order. -/
theorem Fresh.pairwise_deferred (h : a.Fresh g) :
    a.deferred.Pairwise fun d e => a.registers.idxOf d.1 < a.registers.idxOf e.1 ∨
      d.1 = e.1 ∧ g.order.idxOf d.2 < g.order.idxOf e.2 := by
  have hregisters := pairwise_idxOf h.nodup_registers
  have horder := pairwise_idxOf (Graph.nodup_order g)
  rw [deferred, List.pairwise_flatMap]
  constructor
  · intro t ht
    rw [h.tracks] at ht
    obtain ⟨r, _, rfl⟩ := List.mem_map.mp ht
    rw [List.pairwise_map, late_trackOf]
    split
    · exact (horder.filter _).imp fun hlt => Or.inr ⟨rfl, hlt⟩
    · exact List.Pairwise.nil
  · refine (List.pairwise_map.mp hregisters).imp fun {t t'} hlt => ?_
    intro d hd e he
    obtain ⟨_, _, rfl⟩ := List.mem_map.mp hd
    obtain ⟨_, _, rfl⟩ := List.mem_map.mp he
    exact Or.inl hlt

theorem Fresh.tasks_settle (h : a.Fresh g) (hlate : (FlowOrder.ofGraph g).late g = []) :
    a.settle.tasks = 0 := by
  have hzero : ∀ t ∈ a.tracks, (t.settle a.graph).2 = 0 := by
    intro t ht
    rw [h.tracks] at ht
    obtain ⟨r, _, rfl⟩ := List.mem_map.mp ht
    have hnil := late_trackOf g a.summaries r
    rw [hlate, ite_self] at hnil
    unfold Track.settle
    split
    · rfl
    · rw [hnil]
      simp only [Flow.enqueue, List.foldl_nil, Flow.drain]
  have htasks : a.settle.tasks = total Prod.snd (a.tracks.map (Track.settle a.graph)) := by
    unfold settle
    simp only
    split <;> rfl
  have hle := total_le Prod.snd 0 (a.tracks.map (Track.settle a.graph)) (by
    intro q hq
    obtain ⟨t, ht, rfl⟩ := List.mem_map.mp hq
    exact Nat.le_of_eq (hzero t ht))
  rw [htasks]
  omega

theorem Fresh.entering_eq_incoming (h : a.Fresh g) (hlate : (FlowOrder.ofGraph g).late g = [])
    (hr : r ∈ a.registers) (hslot : r.isSlot = true) :
    ∃ f, a.flow? r = some f ∧ ∀ b < g.size, f.entering.get b = f.incoming g b := by
  obtain ⟨f, hflow, hsound, hcov, _⟩ := h.exists_flow hr hslot
  have hdone : f.Covered g fun _ => False := by
    simpa only [hlate, List.not_mem_nil] using hcov
  exact ⟨f, hflow, fun b hb => hsound.entering_eq_incoming hdone hb⟩

/-- After the first pass a block is open for a register variable that is used exactly if it is
entered from its own component by a block that is not lower. Each open block stands once, in the
order of the registers and then in flow order. Without cycles no block is open, settling looks at
none, and the versions that enter a block are already all that come into it. -/
theorem deferred_iff_cycle {settings : Settings} {code : Code} {n : Offset} {hints : List Hint}
    {usages : List Usage} (hgraph : Graph.build settings code n hints = .ok g)
    (ha : ofUsages g usages = .ok a) :
    (∀ r b, (r, b) ∈ a.deferred ↔ r.isSlot = true ∧ (∃ u ∈ usages, u.acts r = true) ∧
      ∃ e ∈ g.preds.get b, ReflTransGen g.Joins b e.block ∧ ReflTransGen g.Joins e.block b ∧
        b ≤ e.block) ∧
    a.deferred.Nodup ∧
    a.deferred.Pairwise (fun d e => a.registers.idxOf d.1 < a.registers.idxOf e.1 ∨
      d.1 = e.1 ∧ g.order.idxOf d.2 < g.order.idxOf e.2) ∧
    ((∀ b, ¬ TransGen g.Joins b b) → a.deferred = [] ∧ a.settle.tasks = 0 ∧
      ∀ r ∈ a.registers, r.isSlot = true →
        ∃ f, a.flow? r = some f ∧ ∀ b < g.size, f.entering.get b = f.incoming g b) := by
  have hg := Graph.wellFormed_of_build hgraph
  have hfresh := fresh_of_ofUsages ha
  have hpairwise := hfresh.pairwise_deferred
  refine ⟨?_, ?_, hpairwise, ?_⟩
  · intro r b
    rw [hfresh.mem_deferred, mem_registers_iff_acts ha, hg.mem_late]
    exact and_left_comm
  · refine hpairwise.imp fun hlt heq => ?_
    rw [heq] at hlt
    rcases hlt with hlt | hlt
    · exact Nat.lt_irrefl _ hlt
    · exact Nat.lt_irrefl _ hlt.2
  · intro hacyclic
    have hlate := hg.late_eq_nil hacyclic
    refine ⟨List.eq_nil_iff_forall_not_mem.mpr fun d hd => ?_, hfresh.tasks_settle hlate,
      fun r hr hslot => hfresh.entering_eq_incoming hlate hr hslot⟩
    have hopen := ((hfresh.mem_deferred d.1 d.2).mp hd).2.2
    rw [hlate] at hopen
    exact List.not_mem_nil hopen

end Analysis

namespace Branch

/-- With the jump back one block is open, and it is entered from its loop; without the jump nothing
is open. -/
theorem open_in_loop : (∃ g a, Graph.build (Settings.standard 1) #[] 32 looping = .ok g ∧
    Analysis.ofUsages g usages = .ok a ∧ a.deferred = [(x, 1)] ∧
    ∃ e ∈ g.preds.get 1, ReflTransGen g.Joins 1 e.block ∧ 1 ≤ e.block) ∧
    Graph.build (Settings.standard 1) #[] 32 hints = .ok graph ∧
    Analysis.ofUsages graph usages = .ok start ∧ (∀ b, ¬ TransGen graph.Joins b b) ∧
    start.deferred = [] ∧ start.settle.tasks = 0 := by
  have hloop : ∃ g, Graph.build (Settings.standard 1) #[] 32 looping = .ok g ∧
      ∃ a, Analysis.ofUsages g usages = .ok a ∧ a.deferred = [(x, 1)] :=
    ⟨_, by cbv, _, by cbv, by cbv⟩
  obtain ⟨g, hgraph, a, ha, hdeferred⟩ := hloop
  obtain ⟨hgraph', ha', _⟩ := evaluates
  have hup : ∀ u < graph.size, ∀ v ∈ graph.targets u, u < v := by decide
  have hacyclic : ∀ b, ¬ TransGen graph.Joins b b := by
    have hless : ∀ {u v}, TransGen graph.Joins u v → u < v := by
      intro u v h
      induction h with
      | single h => exact hup _ h.lt_size _ h
      | tail _ h ih => exact ih.trans (hup _ h.lt_size _ h)
    exact fun b h => Nat.lt_irrefl b (hless h)
  obtain ⟨hnone, htasks, _⟩ := (Analysis.deferred_iff_cycle hgraph' ha').2.2.2 hacyclic
  have hmem : (x, 1) ∈ a.deferred := by simp [hdeferred]
  obtain ⟨_, _, e, he, hback, _, hle⟩ := ((Analysis.deferred_iff_cycle hgraph ha).1 x 1).mp hmem
  exact ⟨⟨g, a, hgraph, ha, hdeferred, e, he, hback, hle⟩, hgraph', ha', hacyclic, hnone, htasks⟩

end Branch

end RegisterWeb
