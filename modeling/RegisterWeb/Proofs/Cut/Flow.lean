import Mathlib
import RegisterWeb.Proofs.Cut.Graph
import RegisterWeb.Proofs.Least

/-!
The flow of versions through a graph in which a block was cut. What enters the second part is what
leaves the first, and everything else is as before: the effects of the routines, the versions that
enter blocks, and the webs.
-/

namespace RegisterWeb

open Relation

namespace Seam

variable {α : Type} [Inhabited α] {i n : Nat}

/-- A table for the graph with the cut, from one for the graph without. -/
def widen (i n : Nat) (t : Table α) (mid : α) : Table α :=
  Table.tabulate (n + 1) fun x => if x = i + 1 then mid else t.get (if x ≤ i then x else x - 1)

/-- A table for the graph without the cut, from one for the graph with it. -/
def narrow (i n : Nat) (t : Table α) : Table α :=
  Table.tabulate n fun b => t.get (head i b)

theorem get_widen_head (hi : i < n) {b : Nat} (hb : b < n) (t : Table α) (mid : α) :
    (widen i n t mid).get (head i b) = t.get b := by
  have hback : (if head i b ≤ i then head i b else head i b - 1) = b := by
    by_cases hbi : b ≤ i
    · rw [head, if_pos hbi, if_pos hbi]
    · rw [head, if_neg hbi, if_neg (by omega), Nat.add_sub_cancel]
  rw [widen, Table.get_tabulate, if_pos ((head_lt hi).mpr hb), if_neg head_ne, hback]

theorem get_widen_succ (hi : i < n) (t : Table α) (mid : α) :
    (widen i n t mid).get (i + 1) = mid := by
  rw [widen, Table.get_tabulate, if_pos (Nat.succ_lt_succ hi), if_pos rfl]

theorem get_narrow {b : Nat} (hb : b < n) (t : Table α) :
    (narrow i n t).get b = t.get (head i b) := by
  rw [narrow, Table.get_tabulate, if_pos hb]

end Seam

namespace Flow

open Seam

/-- The parts of block `i` together make what the whole block does. -/
structure Makes (i : Nat) (f f' : Flow) : Prop where
  other : ∀ b, b ≠ i → f'.made.get (head i b) = f.made.get b
  self : f.made.get i = (f'.made.get (i + 1)).or (f'.made.get i)

/-- The parts of block `i` together read on entry what the whole block does. -/
structure Reads (i : Nat) (f f' : Flow) : Prop where
  other : ∀ b, b ≠ i → f'.reads.get (head i b) = f.reads.get b
  self : f.reads.get i
    = (f'.reads.get i || ((f'.made.get i).isNone && f'.reads.get (i + 1)))

variable {g g' : Graph} {i b : Nat} {f f' : Flow}

theorem Makes.congr (h : f.Makes i f') {k k' : Flow} (hk : k.made = f.made)
    (hk' : k'.made = f'.made) : k.Makes i k' := by
  constructor
  · rw [hk, hk']
    exact h.other
  · rw [hk, hk']
    exact h.self

theorem Makes.leaving_subset (h : f.Makes i f')
    (henters : f.entering.get b ⊆ f'.entering.get (head i b))
    (hinner : b = i → f'.leaving i ⊆ f'.entering.get (i + 1)) :
    f.leaving b ⊆ f'.leaving (tail i b) := by
  intro v hv
  by_cases hb : b = i
  · subst hb
    rw [head_self] at henters
    rw [tail_self, mem_leaving]
    rw [mem_leaving, h.self] at hv
    cases hmade : f'.made.get (b + 1) with
    | some w =>
      rw [hmade, Option.some_or] at hv
      exact Or.inl (hv.resolve_right fun hnone => by cases hnone.1)
    | none =>
      rw [hmade, Option.none_or] at hv
      exact Or.inr ⟨rfl, hinner rfl (mem_leaving.mpr (hv.imp_right fun hv => ⟨hv.1, henters hv.2⟩))⟩
  · rw [tail_of_ne hb, mem_leaving, h.other b hb]
    exact (mem_leaving.mp hv).imp_right fun hv => ⟨hv.1, henters hv.2⟩

theorem Makes.subset_leaving (h : f.Makes i f')
    (henters : f'.entering.get (head i b) ⊆ f.entering.get b)
    (hinner : b = i → f'.entering.get (i + 1) ⊆ f'.leaving i) :
    f'.leaving (tail i b) ⊆ f.leaving b := by
  intro v hv
  by_cases hb : b = i
  · subst hb
    rw [head_self] at henters
    rw [tail_self, mem_leaving] at hv
    rw [mem_leaving, h.self]
    rcases hv with hmade | ⟨hmade, hv⟩
    · rw [hmade, Option.some_or]
      exact Or.inl rfl
    · rw [hmade, Option.none_or]
      exact (mem_leaving.mp (hinner rfl hv)).imp_right fun hv => ⟨hv.1, henters hv.2⟩
  · rw [tail_of_ne hb, mem_leaving, h.other b hb] at hv
    exact mem_leaving.mpr (hv.imp_right fun hv => ⟨hv.1, henters hv.2⟩)

theorem passing_subset_tail (h : g.Cut g' i) (hleaving : f.leaving b ⊆ f'.leaving (tail i b))
    (heffects : ∀ c ∈ (g.block b).callees, f.effects.get c ⊆ f'.effects.get (head i c)) :
    f.passing g b ⊆ f'.passing g' (tail i b) := by
  cases hcalls : (g.block b).calls with
  | false =>
    rw [passing_of_not_calls hcalls, passing_of_not_calls (h.calls b ▸ hcalls)]
    exact hleaving
  | true =>
    intro v hv
    obtain ⟨c, hc, hv⟩ := (mem_passing_of_calls hcalls).mp hv
    refine (mem_passing_of_calls (h.calls b ▸ hcalls)).mpr
      ⟨head i c, h.head_mem_callees.mpr hc, ?_⟩
    rw [VersionSet.mem_resolve] at hv ⊢
    exact hv.imp (fun hv => ⟨heffects c hc hv.1, hv.2⟩)
      fun hv => ⟨heffects c hc hv.1, hleaving hv.2⟩

theorem tail_passing_subset (h : g.Cut g' i) (hleaving : f'.leaving (tail i b) ⊆ f.leaving b)
    (heffects : ∀ c ∈ (g.block b).callees, f'.effects.get (head i c) ⊆ f.effects.get c) :
    f'.passing g' (tail i b) ⊆ f.passing g b := by
  cases hcalls : (g.block b).calls with
  | false =>
    rw [passing_of_not_calls hcalls, passing_of_not_calls (h.calls b ▸ hcalls)]
    exact hleaving
  | true =>
    intro v hv
    obtain ⟨x, hx, hv⟩ := (mem_passing_of_calls (h.calls b ▸ hcalls)).mp hv
    obtain ⟨d, c, hd, rfl, hc⟩ := h.mem_callees.mp hx
    obtain rfl := tail_inj.mp hd
    refine (mem_passing_of_calls hcalls).mpr ⟨c, hc, ?_⟩
    rw [VersionSet.mem_resolve] at hv ⊢
    exact hv.imp (fun hv => ⟨heffects c hc hv.1, hv.2⟩)
      fun hv => ⟨heffects c hc hv.1, hleaving hv.2⟩

theorem along_subset_tail (h : g.Cut g' i) {e : Edge}
    (hleaving : f.leaving e.block ⊆ f'.leaving (tail i e.block))
    (heffects : ∀ c ∈ (g.block e.block).callees, f.effects.get c ⊆ f'.effects.get (head i c)) :
    f.along g e ⊆ f'.along g' ⟨tail i e.block, e.isCall⟩ := by
  unfold along
  split
  · exact hleaving
  · exact passing_subset_tail h hleaving heffects

theorem tail_along_subset (h : g.Cut g' i) {e : Edge}
    (hleaving : f'.leaving (tail i e.block) ⊆ f.leaving e.block)
    (heffects : ∀ c ∈ (g.block e.block).callees, f'.effects.get (head i c) ⊆ f.effects.get c) :
    f'.along g' ⟨tail i e.block, e.isCall⟩ ⊆ f.along g e := by
  unfold along
  split
  · exact hleaving
  · exact tail_passing_subset h hleaving heffects

/-- A flow for the graph with the cut, in which the second part gets what leaves the first. -/
def widened (i n : Nat) (f : Flow) (t : Table VersionSet) : Flow :=
  { f with entering := widen i n t (({ f with entering := t } : Flow).leaving i) }

theorem widened_head {n : Nat} (hi : i < n) (hb : b < n) (f : Flow) (t : Table VersionSet) :
    (widened i n f t).entering.get (head i b) = t.get b :=
  get_widen_head hi hb _ _

theorem widened_succ {n : Nat} (hi : i < n) (f : Flow) (t : Table VersionSet) :
    (widened i n f t).entering.get (i + 1) = (widened i n f t).leaving i := by
  have hself := widened_head hi hi f t
  rw [head_self] at hself
  unfold leaving
  rw [hself]
  exact get_widen_succ hi _ _

theorem passing_first (h : g.Cut g' i) : f'.passing g' i = f'.leaving i :=
  passing_of_not_calls h.still.1

/-! ### Effects -/

section Routine

variable {r r' : Routine} {inner inner' : Flow}

/-- What a routine does in the graph with the cut accounts for what it does without. -/
theorem Summarized.narrow (h : g.Cut g' i) (hg : g.WellFormed) (hmakes : f.Makes i f')
    (heffects : ∀ c < g.size, f.effects.get c = f'.effects.get (head i c)) (hr : r ∈ g.routines)
    (hmates : Graph.Cut.Mates i r r') (hsum : Summarized g' f' r' inner')
    (hmade : inner.made = f.made) (hknown : inner.effects = f.effects)
    (hinner : ∀ b < g.size, inner.entering.get b = inner'.entering.get (head i b)) :
    Summarized g f r inner := by
  have hlt : ∀ b ∈ r.blocks, b < g.size := by
    intro b hb
    exact Leads.lt_of_path (hg.entry_lt hr) ((hg.mem_blocks hr b).mp hb)
  have hentry : f.effects.get r.entry = f'.effects.get r'.entry := by
    rw [hmates.entry]
    exact heffects _ (hg.entry_lt hr)
  have hpart : ∀ {b x : Nat}, b ∈ r.blocks → x ∈ parts i b → x ∈ r'.blocks := by
    intro b x hb hx
    exact (hmates.blocks x).mpr ⟨b, hb, hx⟩
  have hleaving : ∀ b ∈ r.blocks, inner.leaving b ⊆ inner'.leaving (tail i b) := by
    intro b hb
    refine (hmakes.congr hmade hsum.made).leaving_subset
      (hinner b (hlt b hb) ▸ List.Subset.refl _) ?_
    rintro rfl
    rw [← passing_first h]
    refine hsum.closed b (hpart hb (self_mem_parts.mpr rfl)) (b + 1) ?_
    rw [h.waysSuccessors.inner]
    exact List.mem_singleton_self _
  have hpassing : ∀ b ∈ r.blocks, inner.passing g b ⊆ inner'.passing g' (tail i b) := by
    intro b hb
    refine passing_subset_tail h (hleaving b hb) fun c hc => ?_
    rw [hknown, hsum.effects, heffects c (hg.callee_lt hc)]
    exact List.Subset.refl _
  refine ⟨hmade, hknown, ?_, ?_, ?_, ?_⟩
  · rw [hinner _ (hg.entry_lt hr), ← hmates.entry]
    exact hsum.entry
  · intro b hb c hc
    rw [hinner c (hg.successor_lt hc)]
    refine List.Subset.trans (hpassing b hb)
      (hsum.closed _ (hpart hb (tail_mem_parts.mpr rfl)) (head i c) ?_)
    rw [h.waysSuccessors.tail]
    exact List.mem_map_of_mem hc
  · intro b hb
    rw [hentry]
    exact List.Subset.trans (hleaving b ((hg.mem_returns hr b).mp hb).1)
      (hsum.returns _ ((hmates.returns _).mpr ⟨b, hb, rfl⟩))
  · intro b hb
    rw [hentry]
    exact List.Subset.trans (hpassing b ((hg.mem_tailCalls hr b).mp hb).1)
      (hsum.tailCalls _ ((hmates.tailCalls _).mpr ⟨b, hb, rfl⟩))

/-- What a routine does in the graph without the cut accounts for what it does with it. -/
theorem Summarized.widen (h : g.Cut g' i) (hg : g.WellFormed) (hmakes : f.Makes i f')
    (heffects : ∀ c < g.size, f.effects.get c = f'.effects.get (head i c)) (hr : r ∈ g.routines)
    (hmates : Graph.Cut.Mates i r r') (hsum : Summarized g f r inner)
    (hmade : inner'.made = f'.made) (hknown : inner'.effects = f'.effects)
    (hinner : ∀ b < g.size, inner.entering.get b = inner'.entering.get (head i b))
    (hsucc : inner'.entering.get (i + 1) = inner'.leaving i) :
    Summarized g' f' r' inner' := by
  have hlt : ∀ b ∈ r.blocks, b < g.size := by
    intro b hb
    exact Leads.lt_of_path (hg.entry_lt hr) ((hg.mem_blocks hr b).mp hb)
  have hentry : f.effects.get r.entry = f'.effects.get r'.entry := by
    rw [hmates.entry]
    exact heffects _ (hg.entry_lt hr)
  have hleaving : ∀ b ∈ r.blocks, inner'.leaving (tail i b) ⊆ inner.leaving b := by
    intro b hb
    exact (hmakes.congr hsum.made hmade).subset_leaving (hinner b (hlt b hb) ▸ List.Subset.refl _)
      fun _ => hsucc ▸ List.Subset.refl _
  have hpassing : ∀ b ∈ r.blocks, inner'.passing g' (tail i b) ⊆ inner.passing g b := by
    intro b hb
    refine tail_passing_subset h (hleaving b hb) fun c hc => ?_
    rw [hknown, hsum.effects, heffects c (hg.callee_lt hc)]
    exact List.Subset.refl _
  have hblocks : ∀ b, tail i b ∈ r'.blocks → b ∈ r.blocks := by
    intro b hb
    obtain ⟨c, hc, hbc⟩ := (hmates.blocks _).mp hb
    rwa [tail_mem_parts.mp hbc]
  refine ⟨hmade, hknown, ?_, ?_, ?_, ?_⟩
  · rw [hmates.entry, ← hinner _ (hg.entry_lt hr)]
    exact hsum.entry
  · intro x hx y hy
    by_cases hxi : x = i
    · rw [hxi, h.waysSuccessors.inner, List.mem_singleton] at hy
      rw [hxi, hy, passing_first h, hsucc]
      exact List.Subset.refl _
    · obtain ⟨b, rfl⟩ := exists_tail hxi
      rw [h.waysSuccessors.tail] at hy
      obtain ⟨c, hc, rfl⟩ := List.mem_map.mp hy
      rw [← hinner c (hg.successor_lt hc)]
      exact List.Subset.trans (hpassing b (hblocks b hx)) (hsum.closed b (hblocks b hx) c hc)
  · intro x hx
    obtain ⟨b, hb, rfl⟩ := (hmates.returns x).mp hx
    rw [← hentry]
    exact List.Subset.trans (hleaving b ((hg.mem_returns hr b).mp hb).1) (hsum.returns b hb)
  · intro x hx
    obtain ⟨b, hb, rfl⟩ := (hmates.tailCalls x).mp hx
    rw [← hentry]
    exact List.Subset.trans (hpassing b ((hg.mem_tailCalls hr b).mp hb).1) (hsum.tailCalls b hb)

end Routine

end Flow

namespace Analysis

open Seam

variable {g g' : Graph} {i : Nat} {a a' : Analysis} {r : Register} {f f' : Flow}

/-- A register in a graph and in the graph with a cut. -/
structure SolvedCut (g g' : Graph) (i : Nat) (a a' : Analysis) (r : Register) (f f' : Flow) :
    Prop where
  cut : g.Cut g' i
  graph : g.WellFormed
  graph' : g'.WellFormed
  fresh : a.Fresh g
  fresh' : a'.Fresh g'
  solved : a.Solved g r f
  solved' : a'.Solved g' r f'
  makes : f.Makes i f'
  reads : f.Reads i f'

namespace SolvedCut

theorem effects_eq (h : SolvedCut g g' i a a' r f f') {c : Nat} (hc : c < g.size) (v : Version) :
    v ∈ f'.effects.get (head i c) ↔ v ∈ f.effects.get c := by
  let whole : Flow := { f with effects := narrow i g.size f'.effects }
  let whole' : Flow := { f' with effects := widen i g.size f.effects [] }
  have hnarrow : ∀ c < g.size, whole.effects.get c = f'.effects.get (head i c) :=
    fun c hc => get_narrow hc _
  have hwiden : ∀ c < g.size, f.effects.get c = whole'.effects.get (head i c) :=
    fun c hc => (get_widen_head h.cut.lt hc _ _).symm
  have hsub : f.effects.get c ⊆ whole.effects.get c := by
    refine h.solved.effects_subset h.fresh (show whole.made = f.made from rfl) (fun q hq => ?_) c
    obtain ⟨q', hq', hmates⟩ := h.cut.exists_mate h.graph h.graph' hq
    obtain ⟨inner', hinner'⟩ := h.solved'.summarized q' hq'
    exact ⟨{ whole with entering := narrow i g.size inner'.entering },
      Flow.Summarized.narrow h.cut h.graph (h.makes.congr rfl rfl) hnarrow hq hmates hinner' rfl rfl
        fun b hb => get_narrow hb _⟩
  have hsub' : f'.effects.get (head i c) ⊆ whole'.effects.get (head i c) := by
    refine h.solved'.effects_subset h.fresh' (show whole'.made = f'.made from rfl)
      (fun q' hq' => ?_) (head i c)
    obtain ⟨q, hq, hmates⟩ := h.cut.exists_mate' h.graph h.graph' hq'
    obtain ⟨inner, hinner⟩ := h.solved.summarized q hq
    exact ⟨Flow.widened i g.size whole' inner.entering,
      Flow.Summarized.widen h.cut h.graph (h.makes.congr rfl rfl) hwiden hq hmates hinner rfl rfl
        (fun b hb => (Flow.widened_head h.cut.lt hb _ _).symm) (Flow.widened_succ h.cut.lt _ _)⟩
  rw [hnarrow c hc] at hsub
  rw [← hwiden c hc] at hsub'
  exact ⟨fun hv => hsub' hv, fun hv => hsub hv⟩

/-! ### Versions that enter blocks -/

theorem incoming_succ (h : SolvedCut g g' i a a' r f f') (k : Flow) :
    ∀ v, v ∈ k.incoming g' (i + 1) ↔ v ∈ k.leaving i := by
  intro v
  rw [Flow.mem_incoming, h.cut.entered]
  simp only [h.cut.mem_preds_self h.graph', exists_eq_left, Flow.along, Bool.false_eq_true,
    if_false, Flow.passing_first h.cut, false_and, false_or]

theorem subset_entering (h : SolvedCut g g' i a a' r f f') {b : Nat} (hb : b < g.size) :
    f.entering.get b ⊆ f'.entering.get (head i b) := by
  have hcovered : ∀ x < g'.size, f'.incoming g' x ⊆ f'.entering.get x :=
    fun x hx => h.solved'.covered x hx not_false
  have hclosed : f.Closed g (narrow i g.size f'.entering) := by
    intro b hb v hv
    rw [get_narrow hb]
    refine hcovered _ (h.cut.size ▸ (head_lt h.cut.lt).mpr hb) ?_
    rw [Flow.mem_incoming] at hv ⊢
    rw [h.cut.root]
    refine hv.imp_right ?_
    rintro ⟨e, he, hv⟩
    refine ⟨_, (h.cut.mem_preds_head h.graph h.graph' b _).mpr ⟨e, he, rfl⟩, ?_⟩
    have hlt : e.block < g.size := Graph.lt_size_of_mem_next ((h.graph.mem_preds b e).mp he)
    refine Flow.along_subset_tail h.cut ?_ (fun c hc w hw => ?_) hv
    · refine Flow.Makes.leaving_subset (h.makes.congr rfl rfl) ?_ fun _ w hw => ?_
      · rw [get_narrow hlt]
        exact List.Subset.refl _
      · exact hcovered _ h.cut.second_lt ((h.incoming_succ f' w).mpr hw)
    · exact (h.effects_eq (h.graph.callee_lt hc) w).mpr hw
  have hleast := h.solved.sound.least _ hclosed b
  rwa [get_narrow hb] at hleast

theorem entering_subset (h : SolvedCut g g' i a a' r f f') {b : Nat} (hb : b < g.size) :
    f'.entering.get (head i b) ⊆ f.entering.get b := by
  have hcovered : ∀ b < g.size, f.incoming g b ⊆ f.entering.get b :=
    fun b hb => h.solved.covered b hb not_false
  have hclosed : f'.Closed g' (Flow.widened i g.size f' f.entering).entering := by
    intro x hx v hv
    replace hv : v ∈ (Flow.widened i g.size f' f.entering).incoming g' x := hv
    by_cases hxi : x = i + 1
    · rw [hxi] at hv ⊢
      rw [Flow.widened_succ h.cut.lt]
      exact (h.incoming_succ _ v).mp hv
    · obtain ⟨b, rfl⟩ := exists_head hxi
      have hb : b < g.size := (head_lt h.cut.lt).mp (h.cut.size ▸ hx)
      rw [Flow.widened_head h.cut.lt hb]
      refine hcovered b hb ?_
      rw [Flow.mem_incoming, h.cut.root] at hv
      refine Flow.mem_incoming.mpr (hv.imp_right ?_)
      rintro ⟨e', he', hv⟩
      obtain ⟨e, he, rfl⟩ := (h.cut.mem_preds_head h.graph h.graph' b e').mp he'
      have hlt : e.block < g.size := Graph.lt_size_of_mem_next ((h.graph.mem_preds b e).mp he)
      refine ⟨e, he, Flow.tail_along_subset h.cut ?_ (fun c hc w hw => ?_) hv⟩
      · refine Flow.Makes.subset_leaving (h.makes.congr rfl rfl) ?_ fun _ => ?_
        · rw [Flow.widened_head h.cut.lt hlt]
          exact List.Subset.refl _
        · rw [Flow.widened_succ h.cut.lt]
          exact List.Subset.refl _
      · exact (h.effects_eq (h.graph.callee_lt hc) w).mp hw
  have hleast := h.solved'.sound.least _ hclosed (head i b)
  rwa [Flow.widened_head h.cut.lt hb] at hleast

/-- The same versions enter the blocks. -/
theorem entering_head (h : SolvedCut g g' i a a' r f f') (b : Nat) :
    f'.entering.get (head i b) = f.entering.get b := by
  by_cases hb : b < g.size
  · exact Ascending.eq_of_mem_iff (h.solved'.sound.tidy.entering _) (h.solved.sound.tidy.entering _)
      fun v => ⟨fun hv => h.entering_subset hb hv, fun hv => h.subset_entering hb hv⟩
  · have hb' : ¬ head i b < g'.size := by
      rw [h.cut.size, head_lt h.cut.lt]
      exact hb
    rw [Table.get_of_size_le (h.solved'.sound.size ▸ Nat.le_of_not_lt hb'),
      Table.get_of_size_le (h.solved.sound.size ▸ Nat.le_of_not_lt hb)]

/-- What leaves the first part enters the second. -/
theorem entering_succ (h : SolvedCut g g' i a a' r f f') :
    f'.entering.get (i + 1) = f'.leaving i := by
  rw [h.solved'.sound.entering_eq_incoming h.solved'.covered h.cut.second_lt]
  exact Ascending.eq_of_mem_iff (h.solved'.sound.tidy.incoming g' _)
    (h.solved'.sound.tidy.leaving i) (h.incoming_succ f')

/-! ### Webs -/

theorem eqvGen_of_meets (h : SolvedCut g g' i a a' r f f') {x y : Version} (hxy : f.Meets x y) :
    EqvGen f'.Meets x y := by
  obtain ⟨b, hreads, hx, hy⟩ := hxy
  by_cases hb : b = i
  · subst hb
    have hself := h.entering_head b
    rw [head_self] at hself
    rw [h.reads.self, Bool.or_eq_true, Bool.and_eq_true, Option.isNone_iff_eq_none] at hreads
    rcases hreads with hreads | ⟨hmade, hreads⟩
    · exact .rel _ _ ⟨b, hreads, hself ▸ hx, hself ▸ hy⟩
    · have hsucc : f'.entering.get (b + 1) = f.entering.get b := by
        rw [h.entering_succ, Flow.leaving, hmade, hself]
      exact .rel _ _ ⟨b + 1, hreads, hsucc ▸ hx, hsucc ▸ hy⟩
  · refine .rel _ _ ⟨head i b, ?_, ?_, ?_⟩
    · rw [h.reads.other b hb, hreads]
    · rwa [h.entering_head]
    · rwa [h.entering_head]

theorem eqvGen_of_meets' (h : SolvedCut g g' i a a' r f f') {x y : Version} (hxy : f'.Meets x y) :
    EqvGen f.Meets x y := by
  obtain ⟨c, hreads, hx, hy⟩ := hxy
  by_cases hc : c = i + 1
  · rw [hc, h.entering_succ] at hx hy
    cases hmade : f'.made.get i with
    | some v =>
      -- The first part leaves one version only.
      rw [Flow.leaving, hmade] at hx hy
      rw [List.mem_singleton.mp hx, List.mem_singleton.mp hy]
      exact .refl _
    | none =>
      have hself := h.entering_head i
      rw [head_self] at hself
      rw [Flow.leaving, hmade, hself] at hx hy
      refine .rel _ _ ⟨i, ?_, hx, hy⟩
      rw [h.reads.self, hmade, ← hc, hreads, Option.isNone_none, Bool.and_self, Bool.or_true]
  · obtain ⟨b, rfl⟩ := exists_head hc
    rw [h.entering_head] at hx hy
    refine .rel _ _ ⟨b, ?_, hx, hy⟩
    by_cases hb : b = i
    · rw [hb, head_self] at hreads
      rw [hb, h.reads.self, hreads, Bool.true_or]
    · rw [← h.reads.other b hb, hreads]

/-- The same versions are merged. -/
theorem root_eq (h : SolvedCut g g' i a a' r f f') (v : Version) :
    f'.webs.root v = f.webs.root v := by
  refine Webs.Exact.root_eq (r := f.Meets) (h.solved'.sound.webs.congr ?_ ?_) h.solved.sound.webs v
  · exact fun x y hxy => h.eqvGen_of_meets' hxy
  · exact fun x y hxy => h.eqvGen_of_meets hxy

end SolvedCut

end Analysis

end RegisterWeb
