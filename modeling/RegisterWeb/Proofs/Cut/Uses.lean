import Mathlib
import RegisterWeb.Proofs.Cut.Live
import RegisterWeb.Proofs.Touches

/-!
The usages of a graph in which a block was cut. The parts of the block hold its usages, those before
the seam and those after it, so the accesses of the parts together are those of the whole block,
with the same versions. So the versions flow and the register is live as before.
-/

namespace RegisterWeb

open RegisterWeb.Seam

/-- A sorted list is cut in two by tests of which the second never passes before the first. -/
theorem filter_eq_append {α : Type} {le : α → α → Prop} {p first second : α → Bool} {l : List α}
    (hl : l.Pairwise le) (hor : ∀ a, p a = (first a || second a))
    (hdisjoint : ∀ a, first a = true → second a = false)
    (hapart : ∀ a b, le a b → second a = true → first b = false) :
    l.filter p = l.filter first ++ l.filter second := by
  induction l with
  | nil => rfl
  | cons a l ih =>
    obtain ⟨ha, hl⟩ := List.pairwise_cons.mp hl
    rw [List.filter_cons, List.filter_cons, List.filter_cons, hor, ih hl]
    cases hfirst : first a with
    | true => simp [hdisjoint a hfirst]
    | false =>
      cases hsecond : second a with
      | false => simp
      | true =>
        have hnil : l.filter first = [] := by
          refine List.filter_eq_nil_iff.mpr fun b hb => ?_
          rw [hapart a b (ha b hb) hsecond]
          exact Bool.false_ne_true
        simp [hnil]

/-- What the parts measure together is what the blocks measure. -/
theorem Seam.total_parts {i : Nat} {f f' : Nat → Nat} (other : ∀ b, b ≠ i → f' (head i b) = f b)
    (self : f i = f' i + f' (i + 1)) (blocks : List Nat) :
    total f' (blocks.flatMap (parts i)) = total f blocks := by
  induction blocks with
  | nil => rfl
  | cons b blocks ih =>
    have hpart : total f' (parts i b) = f b := by
      by_cases hb : b = i
      · rw [hb, self, parts, if_pos rfl]
        rfl
      · rw [parts_of_ne hb, ← other b hb]
        rfl
    rw [List.flatMap_cons, total_append, ih, hpart, total]

namespace Graph.Cut

variable {g g' : Graph} {i b : Nat} {p : Offset} {us : List Usage} {r : Register}

theorem contains_head (h : g.Cut g' i) (hb : b ≠ i) (p : Offset) :
    (g'.block (head i b)).contains p = (g.block b).contains p := by
  rw [Block.contains, Block.contains, h.start]
  rw [← tail_of_ne hb, h.stop]

/-- The seam lies inside of the block. -/
theorem seam (h : g.Cut g' i) (hpart' : Layout.Partition g'.length g'.blocks) :
    (g.block i).start < (g'.block (i + 1)).start ∧
      (g'.block (i + 1)).start < (g.block i).stop := by
  rw [← h.start_first, ← h.stop_second]
  exact ⟨h.meet ▸ hpart'.full i h.first_lt, hpart'.full (i + 1) h.second_lt⟩

theorem contains_first (h : g.Cut g' i) (p : Offset) : (g'.block i).contains p = true ↔
    (g.block i).start ≤ p ∧ p < (g'.block (i + 1)).start := by
  rw [Block.contains, Bool.and_eq_true, decide_eq_true_eq, decide_eq_true_eq, h.start_first, h.meet]

theorem contains_second (h : g.Cut g' i) (p : Offset) : (g'.block (i + 1)).contains p = true ↔
    (g'.block (i + 1)).start ≤ p ∧ p < (g.block i).stop := by
  rw [Block.contains, Bool.and_eq_true, decide_eq_true_eq, decide_eq_true_eq, h.stop_second]

theorem contains_self (h : g.Cut g' i) (hpart' : Layout.Partition g'.length g'.blocks)
    (p : Offset) : (g.block i).contains p
      = ((g'.block i).contains p || (g'.block (i + 1)).contains p) := by
  have hseam := h.seam hpart'
  rw [Bool.eq_iff_iff, Bool.or_eq_true, h.contains_first, h.contains_second, Block.contains,
    Bool.and_eq_true, decide_eq_true_eq, decide_eq_true_eq]
  constructor
  · rintro ⟨hlow, hhigh⟩
    by_cases hp : p < (g'.block (i + 1)).start
    · exact Or.inl ⟨hlow, hp⟩
    · exact Or.inr ⟨Int64.not_lt.mp hp, hhigh⟩
  · rintro (⟨hlow, hhigh⟩ | ⟨hlow, hhigh⟩)
    · exact ⟨hlow, Int64.lt_trans hhigh hseam.2⟩
    · exact ⟨Int64.le_trans (Int64.le_of_lt hseam.1) hlow, hhigh⟩

/-! ### Usages -/

theorem usagesAt_head (h : g.Cut g' i) (hb : b ≠ i) :
    g'.usagesAt us (head i b) = g.usagesAt us b :=
  List.filter_congr fun u _ => h.contains_head hb u.offset

theorem usagesAt_self (h : g.Cut g' i) (hpart' : Layout.Partition g'.length g'.blocks) :
    g.usagesAt us i = g'.usagesAt us i ++ g'.usagesAt us (i + 1) := by
  refine filter_eq_append (Usage.pairwise_sort us) (fun u => h.contains_self hpart' u.offset) ?_ ?_
  · intro u hu
    rw [h.contains_first] at hu
    rw [← Bool.not_eq_true, h.contains_second]
    exact fun hu' => Int64.not_lt.mpr hu'.1 hu.2
  · intro u v huv hu
    rw [h.contains_second] at hu
    rw [← Bool.not_eq_true, h.contains_first]
    intro hv
    rw [← Int64.le_iff_toInt_le] at huv
    exact Int64.not_lt.mpr (Int64.le_trans hu.1 huv) hv.2

theorem instructions_self (h : g.Cut g' i) (hpart' : Layout.Partition g'.length g'.blocks) :
    Summary.instructions (g.usagesAt us i) = Summary.instructions (g'.usagesAt us i)
      ++ Summary.instructions (g'.usagesAt us (i + 1)) := by
  rw [h.usagesAt_self hpart']
  refine Summary.instructions_append fun u hu v hv => ?_
  have hu' := (h.contains_first u.offset).mp (List.mem_filter.mp hu).2
  have hv' := (h.contains_second v.offset).mp (List.mem_filter.mp hv).2
  exact Int64.lt_of_lt_of_le hu'.2 hv'.1

theorem touchesAt_head (h : g.Cut g' i) (hb : b ≠ i) :
    g'.touchesAt us r (head i b) = g.touchesAt us r b := by
  rw [touchesAt, touchesAt, h.usagesAt_head hb]

theorem touchesAt_self (h : g.Cut g' i) (hpart' : Layout.Partition g'.length g'.blocks) :
    g.touchesAt us r i = g'.touchesAt us r i ++ g'.touchesAt us r (i + 1) := by
  rw [touchesAt, Summary.touches, h.instructions_self hpart', List.filterMap_append]
  rfl

theorem touchedAt_parts (h : g.Cut g' i) (hpart' : Layout.Partition g'.length g'.blocks) (b : Nat) :
    (parts i b).flatMap (g'.touchedAt us) = g.touchedAt us b := by
  by_cases hb : b = i
  · subst hb
    rw [touchedAt, h.instructions_self hpart', List.flatMap_append, parts, if_pos rfl]
    simp [touchedAt]
  · rw [parts_of_ne hb, List.flatMap_singleton, touchedAt, h.usagesAt_head hb]
    rfl

theorem writeCount_parts (h : g.Cut g' i) (hpart' : Layout.Partition g'.length g'.blocks)
    (blocks : List Nat) :
    total (fun b => Touch.writeCount (g'.touchesAt us r b)) (blocks.flatMap (parts i))
      = total (fun b => Touch.writeCount (g.touchesAt us r b)) blocks := by
  refine total_parts (fun b hb => ?_) ?_ blocks
  · rw [h.touchesAt_head hb]
  · rw [h.touchesAt_self hpart', Touch.writeCount_append]

end Graph.Cut

namespace Analysis

/-- The analyses of the same usages in a graph and in the graph with a cut. -/
structure Cut (g g' : Graph) (i : Nat) (us : List Usage) (a a' : Analysis) : Prop where
  cut : g.Cut g' i
  graph : g.WellFormed
  graph' : g'.WellFormed
  part : Layout.Partition g.length g.blocks
  part' : Layout.Partition g'.length g'.blocks
  usages : ofUsages g us = .ok a
  usages' : ofUsages g' us = .ok a'

namespace Cut

variable {g g' : Graph} {i b : Nat} {us : List Usage} {a a' : Analysis} {r : Register}

theorem fresh (h : Cut g g' i us a a') : a.Fresh g :=
  fresh_of_ofUsages h.usages

theorem fresh' (h : Cut g g' i us a a') : a'.Fresh g' :=
  fresh_of_ofUsages h.usages'

/-- The same registers are used. -/
theorem registers_eq (h : Cut g g' i us a a') : a'.registers = a.registers := by
  rw [Analysis.registers_eq h.part h.usages, Analysis.registers_eq h.part' h.usages', h.cut.size,
    range_eq h.cut.lt, List.flatMap_assoc]
  simp only [h.cut.touchedAt_parts h.part']

/-- In flow order the parts of a block stand in its place. -/
theorem order_append (h : Cut g g' i us a a') (hb : b < g.size) : ∃ before after,
    g.order = before ++ b :: after ∧
      g'.order = before.flatMap (parts i) ++ (parts i b ++ after.flatMap (parts i)) := by
  obtain ⟨before, after, horder⟩ := List.append_of_mem ((Graph.mem_order g b).mpr hb)
  refine ⟨before, after, horder, ?_⟩
  rw [h.cut.order_eq, horder, List.flatMap_append, List.flatMap_cons]

theorem accesses_head (h : Cut g g' i us a a') (hr : r ∈ a.registers) (hb : b ≠ i) :
    a'.accesses (head i b) r = a.accesses b r := by
  have hr' : r ∈ a'.registers := h.registers_eq ▸ hr
  cases hslot : r.isSlot with
  | false =>
    rw [accesses_physical h.part' h.usages' hr' hslot, accesses_physical h.part h.usages hr hslot,
      h.cut.touchesAt_head hb]
  | true =>
    by_cases hlt : b < g.size
    · obtain ⟨before, after, horder, horder'⟩ := h.order_append hlt
      rw [parts_of_ne hb, List.singleton_append] at horder'
      rw [accesses_slot h.part' h.usages' hr' hslot horder',
        accesses_slot h.part h.usages hr hslot horder, h.cut.writeCount_parts h.part',
        h.cut.touchesAt_head hb]
    · have hlt' : ¬ head i b < g'.size := by
        rw [h.cut.size, head_lt h.cut.lt]
        exact hlt
      rw [accesses, accesses, h.fresh.use?_of_size_le hr (Nat.le_of_not_lt hlt),
        h.fresh'.use?_of_size_le hr' (Nat.le_of_not_lt hlt')]

/-- The accesses of the parts are those of the block. -/
theorem accesses_self (h : Cut g g' i us a a') (hr : r ∈ a.registers) :
    a.accesses i r = a'.accesses i r ++ a'.accesses (i + 1) r := by
  have hr' : r ∈ a'.registers := h.registers_eq ▸ hr
  cases hslot : r.isSlot with
  | false =>
    rw [accesses_physical h.part' h.usages' hr' hslot,
      accesses_physical h.part' h.usages' hr' hslot, accesses_physical h.part h.usages hr hslot,
      h.cut.touchesAt_self h.part', List.map_append]
  | true =>
    obtain ⟨before, after, horder, hfirst⟩ := h.order_append h.cut.lt
    rw [parts, if_pos rfl] at hfirst
    have hsecond : g'.order = (before.flatMap (parts i) ++ [i])
        ++ (i + 1) :: after.flatMap (parts i) := by
      rw [hfirst]
      simp
    rw [accesses_slot h.part' h.usages' hr' hslot hfirst,
      accesses_slot h.part' h.usages' hr' hslot hsecond,
      accesses_slot h.part h.usages hr hslot horder, h.cut.touchesAt_self h.part',
      Touch.number_append, total_append, h.cut.writeCount_parts h.part', total, total,
      Nat.add_zero (Touch.writeCount _)]

theorem versions_eq (h : Cut g g' i us a a') (r : Register) :
    (numbering g' a' r).versions = (numbering g a r).versions := by
  rw [Analysis.versions_eq h.part' h.usages', Analysis.versions_eq h.part h.usages,
    h.cut.order_eq, h.cut.writeCount_parts h.part']

end Cut

/-! ### What accesses say about a block -/

section Accesses

variable {g : Graph} {a : Analysis} {r : Register} {f : Flow} {b : Nat}

theorem lastWrite?_accesses (a : Analysis) (r : Register) (b : Nat) :
    a.lastWrite? r b = ((a.accesses b r).filterMap Access.write).getLast? := by
  unfold lastWrite? accesses
  cases a.use? b r with
  | none => rfl
  | some u => rfl

theorem writes_eq (a : Analysis) (r : Register) : a.writes r
    = total (fun b => ((a.accesses b r).filterMap Access.write).length)
      (List.range a.graph.size) := by
  unfold writes accesses
  congr 1
  funext b
  cases a.use? b r with
  | none => rfl
  | some u => rfl

theorem Fresh.acts (h : a.Fresh g) (hr : r ∈ a.registers) :
    ∀ x ∈ a.accesses b r, x.reads = true ∨ x.write ≠ none := by
  unfold accesses
  cases hu : a.use? b r with
  | none => exact fun x hx => absurd hx List.not_mem_nil
  | some u => exact (h.regular_use? hr hu).acts

theorem Solved.made_eq (h : a.Solved g r f) (hfresh : a.Fresh g) (hr : r ∈ a.registers)
    (hslot : r.isSlot = true) (hwrites : a.writes r < UInt32.size - 2) (b : Nat) :
    f.made.get b = ((a.accesses b r).filterMap Access.write).getLast? := by
  rw [h.made, hfresh.last_eq hr hslot hwrites, lastWrite?_accesses]

theorem Solved.reads_eq (h : a.Solved g r f) (hfresh : a.Fresh g) (hr : r ∈ a.registers) (b : Nat) :
    f.reads.get b = ((a.accesses b r).head?.map Access.reads).getD false := by
  rw [h.reads]
  unfold accesses
  cases hu : a.use? b r with
  | none => rfl
  | some u => exact (hfresh.regular_use? hr hu).readsFirst

end Accesses

namespace Cut

variable {g g' : Graph} {i b : Nat} {us : List Usage} {a a' : Analysis} {r : Register} {f f' : Flow}

theorem writes_eq (h : Cut g g' i us a a') (hr : r ∈ a.registers) : a'.writes r = a.writes r := by
  rw [Analysis.writes_eq, Analysis.writes_eq, h.fresh.graph, h.fresh'.graph, h.cut.size,
    range_eq h.cut.lt]
  refine total_parts (fun b hb => ?_) ?_ _
  · rw [h.accesses_head hr hb]
  · rw [h.accesses_self hr, List.filterMap_append, List.length_append]

/-- What the blocks do to a variable is what their parts do. -/
theorem solvedCut (h : Cut g g' i us a a') (hr : r ∈ a.registers) (hslot : r.isSlot = true)
    (hwrites : a.writes r < UInt32.size - 2) (hf : a.Solved g r f) (hf' : a'.Solved g' r f') :
    SolvedCut g g' i a a' r f f' := by
  have hr' : r ∈ a'.registers := h.registers_eq ▸ hr
  have hmade := hf.made_eq h.fresh hr hslot hwrites
  have hmade' := hf'.made_eq h.fresh' hr' hslot (h.writes_eq hr ▸ hwrites)
  have hreads := hf.reads_eq h.fresh hr
  have hreads' := hf'.reads_eq h.fresh' hr'
  refine ⟨h.cut, h.graph, h.graph', h.fresh, h.fresh', hf, hf', ⟨?_, ?_⟩, ⟨?_, ?_⟩⟩
  · intro b hb
    rw [hmade, hmade', h.accesses_head hr hb]
  · rw [hmade, hmade', hmade', h.accesses_self hr, List.filterMap_append, List.getLast?_append]
  · intro b hb
    rw [hreads, hreads', h.accesses_head hr hb]
  · rw [hreads, hreads', hreads', hmade', h.accesses_self hr]
    have hacts : ∀ x ∈ a'.accesses i r, x.reads = true ∨ x.write ≠ none := h.fresh'.acts hr'
    cases hacc : a'.accesses i r with
    | nil => simp
    | cons x l =>
      -- If the first access does not read, it writes, and the second part reads that.
      cases hx : x.reads with
      | true => simp [hx]
      | false =>
        rw [hacc] at hacts
        obtain ⟨w, hw⟩ := Option.ne_none_iff_exists'.mp
          ((hacts x List.mem_cons_self).resolve_left (hx ▸ Bool.false_ne_true))
        simp [hx, hw]

end Cut

end Analysis

end RegisterWeb
