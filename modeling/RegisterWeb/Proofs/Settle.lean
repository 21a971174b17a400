import Mathlib
import RegisterWeb.Proofs.Numbering

/-!
Settling in any order. Tasks, each a block to look at again for one register, may be taken from the
waiting ones as one pleases. Every order comes to an end, and all ends agree with each other and
with the settled analysis: the versions that enter the blocks are the least family that is closed
under what comes into them, and two versions are merged exactly if a chain of versions that meet at
reads joins them, under the lowest of them.
-/

namespace RegisterWeb

open Relation

namespace Flow

variable {g : Graph} {f : Flow} {b : Nat}

/-- Whether a look at a block must be followed by looks at the blocks after it: it merged webs, or
the set that enters grew and the block hands it on. -/
def bringsNews (g : Graph) (f : Flow) (b : Nat) : Bool :=
  (f.process g b).1 ||
    ((f.made.get b).isNone &&
      (f.entering.get b).length != ((f.process g b).2.entering.get b).length)

theorem Tidy.hasNews_eq (h : f.Tidy) (hb : b < f.entering.size) :
    hasNews f (f.process g b).2 (f.process g b).1 b = f.bringsNews g b := by
  have hlength : (f.entering.get b).length ≠ ((f.process g b).2.entering.get b).length ↔
      ¬ f.incoming g b ⊆ f.entering.get b := by
    rw [process_entering, Table.get_set, if_pos ⟨rfl, hb⟩, ne_comm]
    exact not_congr (Ascending.length_union_eq_iff (h.entering b) (h.incoming g b))
  rw [Bool.eq_iff_iff, h.hasNews_iff hb]
  simp only [bringsNews, Bool.or_eq_true, Bool.and_eq_true, bne_iff_ne, hlength,
    Option.isNone_iff_eq_none]

theorem process_of_size_le (g : Graph) (hb : f.entering.size ≤ b) : f.process g b = (false, f) := by
  have hset : f.receive b (f.incoming g b) = f := by
    have hcells : ∀ s, f.entering.set b s = f.entering := by
      intro s
      rw [Table.set, Array.setIfInBounds_eq_of_size_le hb]
    rw [receive, hcells]
  rw [process, hset, merge, Table.get_of_size_le hb]
  split <;> rfl

/-- A look outside of the graph brings no news either. -/
theorem Tidy.hasNews_eq_bringsNews (h : f.Tidy) (g : Graph) (b : Nat) :
    hasNews f (f.process g b).2 (f.process g b).1 b = f.bringsNews g b := by
  by_cases hb : b < f.entering.size
  · exact h.hasNews_eq hb
  · simp [hasNews, bringsNews, process_of_size_le g (Nat.le_of_not_lt hb)]

/-! ### Settling one flow, the blocks in turn -/

theorem mem_foldl_addNew {α : Type} [BEq α] [LawfulBEq α] (l queue : List α) (c : α) :
    c ∈ l.foldl (fun q b => if q.contains b then q else q ++ [b]) queue ↔ c ∈ queue ∨ c ∈ l := by
  induction l generalizing queue with
  | nil => simp
  | cons d l ih =>
    rw [List.foldl_cons, ih, List.mem_cons]
    split
    · rename_i hd
      have hmem : d ∈ queue := List.contains_iff_mem.mp hd
      constructor
      · exact Or.imp id Or.inr
      · intro h
        rcases h with h | rfl | h
        · exact Or.inl h
        · exact Or.inl hmem
        · exact Or.inr h
    · rw [List.mem_append, List.mem_singleton, or_assoc]

theorem mem_enqueue (queue blocks : List Nat) (c : Nat) :
    c ∈ enqueue queue blocks ↔ c ∈ queue ∨ c ∈ blocks :=
  mem_foldl_addNew blocks queue c

theorem Sound.drain (hg : g.WellFormed) (h : f.Sound g) (queue : List Nat) (tasks : Nat)
    (hqueue : ∀ c ∈ queue, c < g.size) (hcov : f.Covered g fun c => c ∈ queue) :
    f.Alike (f.drain g queue tasks).1 ∧ (f.drain g queue tasks).1.Sound g ∧
      (f.drain g queue tasks).1.Covered g fun _ => False := by
  fun_induction Flow.drain g f queue tasks with
  | case1 f tasks => exact ⟨Alike.refl f, h, fun c hc _ => hcov c hc List.not_mem_nil⟩
  | case2 f tasks b rest look hnews ih =>
    have hb : b < g.size := hqueue b (List.mem_cons_self ..)
    have halike : f.Alike look.2 := alike_grow f b _
    have hrest : ∀ c ∈ enqueue rest (g.targets b), c < g.size := by
      intro c hc
      rcases (mem_enqueue _ _ c).mp hc with hc | hc
      · exact hqueue c (List.mem_cons_of_mem b hc)
      · obtain ⟨e, he, rfl⟩ := List.mem_map.mp hc
        exact hg.next_lt b e he
    have hwait : look.2.Covered g fun c => c ∈ enqueue rest (g.targets b) := by
      refine Covered.process hg h hcov ?_ fun _ c hc => (mem_enqueue _ _ c).mpr (Or.inr hc)
      intro c hc hcb
      exact (mem_enqueue _ _ c).mpr (Or.inl ((List.mem_cons.mp hc).resolve_left hcb))
    obtain ⟨halike', hdone⟩ := ih (h.process hb) hrest hwait
    exact ⟨halike.trans halike', hdone⟩
  | case3 f tasks b rest look hnews ih =>
    have hb : b < g.size := hqueue b (List.mem_cons_self ..)
    have halike : f.Alike look.2 := alike_grow f b _
    have hwait : look.2.Covered g fun c => c ∈ rest := by
      refine Covered.process hg h hcov ?_ fun hn => absurd hn hnews
      exact fun c hc hcb => (List.mem_cons.mp hc).resolve_left hcb
    obtain ⟨halike', hdone⟩ :=
      ih (h.process hb) (fun c hc => hqueue c (List.mem_cons_of_mem b hc)) hwait
    exact ⟨halike.trans halike', hdone⟩

end Flow

theorem Analysis.Fresh.settle_flow {g : Graph} {a : Analysis} (h : a.Fresh g) (hg : g.WellFormed)
    {r : Register} {f : Flow} (hf : a.flow? r = some f) :
    ∃ f', a.settle.analysis.flow? r = some f' ∧ f.Alike f' ∧ f'.Sound g ∧
      f'.Covered g fun _ => False := by
  obtain ⟨hr, hslot⟩ := h.isSlot_of_flow? hf
  obtain ⟨f₀, hf₀, hsound, hcov, _⟩ := h.exists_flow hr hslot
  cases hf.symm.trans hf₀
  have htrack := h.track?_of_mem hr
  have hflow : (trackOf g (FlowOrder.ofGraph g) a.summaries r).flow = some f := by
    rw [flow?, htrack, Option.bind_some] at hf
    exact hf
  have hlate : (trackOf g (FlowOrder.ofGraph g) a.summaries r).late
      = (FlowOrder.ofGraph g).late g := by
    simp only [trackOf, Track.ofRegister, hslot, if_true]
    rfl
  have hqueue : ∀ c ∈ Flow.enqueue [] ((FlowOrder.ofGraph g).late g), c < g.size := by
    intro c hc
    rw [Flow.mem_enqueue] at hc
    have hmem := hc.resolve_left List.not_mem_nil
    exact (Graph.mem_order g c).mp (List.mem_filter.mp hmem).1
  have hwait : f.Covered g fun c => c ∈ Flow.enqueue [] ((FlowOrder.ofGraph g).late g) := by
    intro c hc hfree
    refine hcov c hc fun hmem => hfree ?_
    exact (Flow.mem_enqueue _ _ c).mpr (Or.inr hmem)
  refine ⟨_, ?_, hsound.drain hg _ 0 hqueue hwait⟩
  rw [settle_flow?, htrack, Option.bind_some, h.graph]
  simp only [Track.settle, hflow, hlate]

/-! ### Settling all registers, the tasks in any order -/

/-- Where settling stands: the flows of the register variables, and the blocks to look at again,
each with its register. -/
structure Agenda where
  flows : Register → Option Flow
  waiting : List (Register × Nat)

namespace Agenda

/-- Adds a task unless it is waiting. -/
def push (waiting : List (Register × Nat)) (task : Register × Nat) : List (Register × Nat) :=
  if waiting.contains task then waiting else waiting ++ [task]

/-- The state before settling. -/
def start (a : Analysis) : Agenda :=
  ⟨a.flow?, a.deferred.foldl push []⟩

/-- Takes one task off the agenda: looks at its block, and adds the blocks after it if that brought
news. -/
def perform (g : Graph) (s : Agenda) (task : Register × Nat) : Agenda :=
  let rest := s.waiting.erase task
  match s.flows task.1 with
  | none => { s with waiting := rest }
  | some f =>
    { flows := Function.update s.flows task.1 (some (f.process g task.2).2)
      waiting :=
        if f.bringsNews g task.2 then ((g.targets task.2).map (Prod.mk task.1)).foldl push rest
        else rest }

/-- One step of settling takes any of the waiting tasks. -/
inductive Step (g : Graph) : Agenda → Agenda → Prop
  | take {s : Agenda} {task : Register × Nat} (h : task ∈ s.waiting) : Step g s (s.perform g task)

theorem mem_foldl_push (tasks waiting : List (Register × Nat)) (t : Register × Nat) :
    t ∈ tasks.foldl push waiting ↔ t ∈ waiting ∨ t ∈ tasks :=
  Flow.mem_foldl_addNew tasks waiting t

/-- What every step keeps: each flow obeys the equations that it started with, holds nothing that
the least solution lacks, and every block that lacks a version has a task. -/
structure Valid (g : Graph) (a : Analysis) (s : Agenda) : Prop where
  inside : ∀ t ∈ s.waiting, t.2 < g.size
  present : ∀ r f₀, a.flow? r = some f₀ → ∃ f, s.flows r = some f
  flow : ∀ r f, s.flows r = some f → ∃ f₀, a.flow? r = some f₀ ∧ f₀.Alike f ∧ f.Sound g ∧
    f.Covered g fun b => (r, b) ∈ s.waiting

section Valid

variable {g : Graph} {a : Analysis} {s : Agenda} {task : Register × Nat}

theorem valid_start (h : a.Fresh g) : Valid g a (start a) := by
  refine ⟨?_, fun r f₀ hf₀ => ⟨f₀, hf₀⟩, ?_⟩
  · intro (r, b) ht
    have hmem := ((mem_foldl_push _ _ _).mp ht).resolve_left List.not_mem_nil
    have hlate := ((h.mem_deferred r b).mp hmem).2.2
    exact (Graph.mem_order g b).mp (List.mem_filter.mp hlate).1
  · intro r f hf
    obtain ⟨hr, hslot⟩ := h.isSlot_of_flow? hf
    obtain ⟨f₀, hf₀, hsound, hcov, _⟩ := h.exists_flow hr hslot
    cases (show some f = some f₀ from hf.symm.trans hf₀)
    refine ⟨f, hf, Flow.Alike.refl f, hsound, ?_⟩
    intro b hb hfree
    refine hcov b hb fun hlate => hfree ?_
    exact (mem_foldl_push _ _ _).mpr (Or.inr ((h.mem_deferred r b).mpr ⟨hr, hslot, hlate⟩))

theorem mem_waiting_perform {f : Flow} (hf : s.flows task.1 = some f) (t : Register × Nat) :
    t ∈ (s.perform g task).waiting ↔
      t ∈ s.waiting.erase task ∨
        (f.bringsNews g task.2 = true ∧ t.1 = task.1 ∧ t.2 ∈ g.targets task.2) := by
  obtain ⟨r, b⟩ := task
  obtain ⟨r', c⟩ := t
  simp only [perform, hf]
  split
  · rename_i hnews
    rw [mem_foldl_push]
    simp [hnews, eq_comm, and_comm]
  · rename_i hnews
    simp [hnews]

theorem flows_perform {f : Flow} (hf : s.flows task.1 = some f) (r : Register) :
    (s.perform g task).flows r =
      if r = task.1 then some (f.process g task.2).2 else s.flows r := by
  simp only [perform, hf]
  exact Function.update_apply ..

theorem Valid.perform (hg : g.WellFormed) (h : Valid g a s) (ht : task ∈ s.waiting) :
    Valid g a (s.perform g task) := by
  cases hf : s.flows task.1 with
  | none =>
    -- a task without a flow changes nothing but the agenda
    have hperform : s.perform g task = { s with waiting := s.waiting.erase task } := by
      simp only [Agenda.perform, hf]
    rw [hperform]
    refine ⟨fun t ht => h.inside t (List.mem_of_mem_erase ht), h.present, ?_⟩
    intro r f hr
    obtain ⟨f₀, hf₀, halike, hsound, hcov⟩ := h.flow r f hr
    refine ⟨f₀, hf₀, halike, hsound, ?_⟩
    intro b hb hfree
    refine hcov b hb fun hmem => hfree ?_
    have hne : (r, b) ≠ task := by
      intro heq
      rw [← heq] at hf
      exact absurd (hr.symm.trans hf) (by simp)
    exact (List.mem_erase_of_ne hne).mpr hmem
  | some f =>
    obtain ⟨f₀, hf₀, halike, hsound, hcov⟩ := h.flow task.1 f hf
    have hb : task.2 < g.size := h.inside task ht
    refine ⟨?_, ?_, ?_⟩
    · intro t hmem
      rcases (mem_waiting_perform hf t).mp hmem with hmem | ⟨_, _, hmem⟩
      · exact h.inside t (List.mem_of_mem_erase hmem)
      · obtain ⟨e, he, heq⟩ := List.mem_map.mp hmem
        rw [← heq]
        exact hg.next_lt task.2 e he
    · intro r f₁ hf₁
      rw [flows_perform hf]
      split
      · exact ⟨_, rfl⟩
      · exact h.present r f₁ hf₁
    · intro r f' hr
      rw [flows_perform hf] at hr
      split at hr
      · rename_i heq
        cases hr
        rw [heq]
        refine ⟨f₀, hf₀, halike.trans (Flow.alike_grow f _ _), hsound.process hb, ?_⟩
        refine Flow.Covered.process hg hsound hcov ?_ ?_
        · intro c hc hcb
          have hne : (task.1, c) ≠ task := fun h => hcb (congrArg Prod.snd h)
          exact (mem_waiting_perform hf _).mpr (Or.inl ((List.mem_erase_of_ne hne).mpr hc))
        · intro hnews c hc
          rw [hsound.tidy.hasNews_eq (hsound.size.symm ▸ hb)] at hnews
          exact (mem_waiting_perform hf _).mpr (Or.inr ⟨hnews, rfl, hc⟩)
      · rename_i hne
        obtain ⟨f₁, hf₁, halike₁, hsound₁, hcov₁⟩ := h.flow r f' hr
        refine ⟨f₁, hf₁, halike₁, hsound₁, ?_⟩
        intro c hc hfree
        refine hcov₁ c hc fun hmem => hfree ?_
        have hne' : (r, c) ≠ task := fun h => hne (congrArg Prod.fst h)
        exact (mem_waiting_perform hf _).mpr (Or.inl ((List.mem_erase_of_ne hne').mpr hmem))

theorem Valid.reaches (hg : g.WellFormed) (h : Valid g a s) {s' : Agenda}
    (hs : ReflTransGen (Step g) s s') : Valid g a s' := by
  induction hs with
  | refl => exact h
  | tail _ hstep ih =>
    cases hstep with
    | take ht => exact ih.perform hg ht

/-! ### Every order comes to an end -/

/-- The room that the flow of a register has left. -/
def room (s : Agenda) (r : Register) : Nat :=
  match s.flows r with
  | some f => f.room
  | none => 0

/-- How much there is left to do: the room of all registers, and then the number of tasks. -/
def size (a : Analysis) (s : Agenda) : Nat × Nat :=
  (total s.room a.registers, s.waiting.length)

theorem room_perform_le (g : Graph) (s : Agenda) (task : Register × Nat) (r : Register) :
    (s.perform g task).room r ≤ s.room r := by
  cases hf : s.flows task.1 with
  | none =>
    simp only [room, perform, hf]
    exact Nat.le_refl _
  | some f =>
    simp only [room, flows_perform hf]
    by_cases hr : r = task.1
    · simp only [hr, hf, if_true]
      exact Flow.room_process_le g f task.2
    · simp only [hr, if_false]
      exact Nat.le_refl _

/-- What even a graph that is not well formed keeps: only registers of the analysis have flows, and
all flows are tidy. -/
def Kept (a : Analysis) (s : Agenda) : Prop :=
  ∀ r f, s.flows r = some f → r ∈ a.registers ∧ f.Tidy

theorem Valid.kept (h : Valid g a s) : Kept a s := by
  intro r f hf
  obtain ⟨f₀, hf₀, _, hsound, _⟩ := h.flow r f hf
  refine ⟨?_, hsound.tidy⟩
  by_contra hmem
  rw [Analysis.flow?, Analysis.track?_eq_none hmem] at hf₀
  exact absurd hf₀ (by simp)

theorem Kept.size_perform (h : Kept a s) (g : Graph) (ht : task ∈ s.waiting) :
    Prod.Lex (· < ·) (· < ·) ((s.perform g task).size a) (s.size a) := by
  have hmono : total (s.perform g task).room a.registers ≤ total s.room a.registers :=
    total_mono fun r _ => room_perform_le g s task r
  have hshorter : (s.waiting.erase task).length < s.waiting.length := by
    rw [List.length_erase_of_mem ht]
    exact Nat.sub_one_lt (Nat.ne_of_gt (List.length_pos_of_mem ht))
  -- without news the agenda gets shorter
  have hquiet : (s.perform g task).waiting = s.waiting.erase task →
      Prod.Lex (· < ·) (· < ·) ((s.perform g task).size a) (s.size a) := by
    intro hwaiting
    rw [← hwaiting] at hshorter
    exact Prod.lex_iff.mpr ((Nat.lt_or_eq_of_le hmono).imp id fun heq => ⟨heq, hshorter⟩)
  cases hf : s.flows task.1 with
  | none =>
    apply hquiet
    simp only [Agenda.perform, hf]
  | some f =>
    cases hnews : f.bringsNews g task.2 with
    | false =>
      apply hquiet
      simp only [Agenda.perform, hf, hnews, Bool.false_eq_true, if_false]
    | true =>
      -- news uses up room
      obtain ⟨hmem, htidy⟩ := h task.1 f hf
      have hroom : (f.process g task.2).2.room < f.room := by
        rw [← htidy.hasNews_eq_bringsNews] at hnews
        simp only [Flow.hasNews, Bool.and_eq_true, decide_eq_true_eq] at hnews
        exact hnews.1
      refine Prod.Lex.left _ _ (total_lt (fun r _ => room_perform_le g s task r) hmem ?_)
      simp only [room, flows_perform hf, hf, if_true]
      exact hroom

theorem Valid.acc (hg : g.WellFormed) (h : Valid g a s) : Acc (fun s' s => Step g s s') s := by
  induction hsize : s.size a using (Prod.lex Nat.lt_wfRel Nat.lt_wfRel).wf.induction
    generalizing s with
  | _ n ih =>
    refine Acc.intro s ?_
    intro s' hstep
    cases hstep with
    | take ht =>
      exact ih _ (hsize ▸ h.kept.size_perform g ht) (h.perform hg ht) rfl

end Valid

end Agenda

/-! ### All ends agree -/

/-- Settling comes to an end in every order of tasks. For each register variable all ends have the
same sets and webs as the settled analysis: each set is what comes into its block, and the sets are
the least family that is closed in this way. -/
theorem Analysis.settle_any_order {settings : Settings} {code : Code} {n : Offset}
    {hints : List Hint} {g : Graph} {usages : List Usage} {a : Analysis}
    (hgraph : Graph.build settings code n hints = .ok g) (ha : Analysis.ofUsages g usages = .ok a) :
    Acc (fun s' s => Agenda.Step g s s') (Agenda.start a) ∧
    ∀ r ∈ a.registers, r.isSlot = true → ∃ before after : Flow,
      a.flow? r = some before ∧ a.settle.analysis.flow? r = some after ∧
      before.Alike after ∧
      (∀ b < g.size, after.entering.get b = after.incoming g b) ∧
      (∀ sets, before.Closed g sets → ∀ b, after.entering.get b ⊆ sets.get b) ∧
      ∀ s, ReflTransGen (Agenda.Step g) (Agenda.start a) s → s.waiting = [] →
        ∃ f, s.flows r = some f ∧ before.Alike f ∧ f.entering = after.entering ∧
          ∀ v, f.webs.root v = after.webs.root v := by
  have hg := Graph.wellFormed_of_build hgraph
  have hfresh := Analysis.fresh_of_ofUsages ha
  have hvalid := Agenda.valid_start hfresh
  refine ⟨hvalid.acc hg, ?_⟩
  intro r hr hslot
  obtain ⟨before, hbefore, _⟩ := hfresh.exists_flow hr hslot
  obtain ⟨after, hafter, halike, hsound, hcov⟩ := hfresh.settle_flow hg hbefore
  refine ⟨before, after, hbefore, hafter, halike, ?_, ?_, ?_⟩
  · exact fun b hb => hsound.entering_eq_incoming hcov hb
  · intro sets hsets b
    exact hsound.least sets (Flow.closed_congr halike.made.symm halike.effects.symm hsets) b
  · intro s hs hdone
    have hend := hvalid.reaches hg hs
    obtain ⟨f, hf⟩ := hend.present r before hbefore
    obtain ⟨f₀, hf₀, halike', hsound', hcov'⟩ := hend.flow r f hf
    cases hbefore.symm.trans hf₀
    simp only [hdone, List.not_mem_nil] at hcov'
    refine ⟨f, hf, halike', ?_⟩
    exact hsound.unique hcov hsound' hcov' (halike.symm.trans halike')

/-! ### A call that may write -/

namespace Branch

def x : Register := Register.slot ⟨0, "x", Bank.vector⟩ 0

/-- A variable is written before a call of a routine that writes it on one of its ways, and read and
written after the call. -/
def hints : List Hint :=
  [⟨4, .call, [20], 0⟩, ⟨16, .halt, [], 0⟩, ⟨20, .condJump, [28], 0⟩, ⟨28, .ret, [], 0⟩]

def usages : List Usage :=
  [⟨0, x, 1, 0, false, true⟩, ⟨8, x, 1, 0, true, false⟩, ⟨16, x, 1, 0, false, true⟩,
    ⟨24, x, 1, 0, false, true⟩]

def graph : Graph where
  length := 32
  blocks := #[⟨0, 0, 8, [⟨1, false⟩, ⟨2, true⟩], true, true, false, false⟩,
    ⟨1, 8, 20, [], false, false, false, true⟩,
    ⟨2, 20, 24, [⟨3, false⟩, ⟨4, false⟩], false, false, false, false⟩,
    ⟨3, 24, 28, [⟨4, false⟩], false, false, false, false⟩,
    ⟨4, 28, 32, [], false, false, true, false⟩]
  preds := ⟨#[[], [⟨0, false⟩], [⟨0, true⟩], [⟨2, false⟩], [⟨2, false⟩, ⟨3, false⟩]]⟩
  routines := [⟨2, [2, 3, 4], [4], [], [0], [1]⟩]
  boundaries := []

def start : Analysis := (Analysis.ofUsages graph usages).toOption.getD default

def settled : Analysis := start.settle.outcome.toOption.getD default

/-- The same with a jump from the end back to the call. -/
def looping : List Hint :=
  ⟨12, .condJump, [4], 0⟩ :: hints

/-- The loop has an open block, and all orders of tasks agree there. -/
theorem looping_settles : ∃ g a, Graph.build (Settings.standard 1) #[] 32 looping = .ok g ∧
    Analysis.ofUsages g usages = .ok a ∧ a.deferred = [(x, 1)] ∧
    Acc (fun s' s => Agenda.Step g s s') (Agenda.start a) ∧
    ∃ after, a.settle.analysis.flow? x = some after ∧
      ∀ s, ReflTransGen (Agenda.Step g) (Agenda.start a) s → s.waiting = [] →
        ∃ f, s.flows x = some f ∧ f.entering = after.entering := by
  have hloop : ∃ g, Graph.build (Settings.standard 1) #[] 32 looping = .ok g ∧
      ∃ a, Analysis.ofUsages g usages = .ok a ∧ a.deferred = [(x, 1)] :=
    ⟨_, by cbv, _, by cbv, by cbv⟩
  obtain ⟨g, hgraph, a, ha, hdeferred⟩ := hloop
  have hx : x ∈ a.registers := by
    have hmem : (x, 1) ∈ a.deferred := by simp [hdeferred]
    exact (((Analysis.fresh_of_ofUsages ha).mem_deferred x 1).mp hmem).1
  obtain ⟨hacc, hends⟩ := Analysis.settle_any_order hgraph ha
  obtain ⟨before, after, _, hafter, _, _, _, hsame⟩ := hends x hx rfl
  refine ⟨g, a, hgraph, ha, hdeferred, hacc, after, hafter, ?_⟩
  intro s hs hdone
  obtain ⟨f, hf, _, hentering, _⟩ := hsame s hs hdone
  exact ⟨f, hf, hentering⟩

end Branch

/-! ### The settled tracks -/

/-- The flow of a register variable at the end of settling, whether or not all reads are defined: it
is the least solution for what the blocks and routines do. -/
structure Analysis.Solved (g : Graph) (a : Analysis) (r : Register) (f : Flow) : Prop where
  start : ∃ before, a.flow? r = some before ∧ before.Alike f
  sound : f.Sound g
  covered : f.Covered g fun _ => False
  reads : ∀ b, f.reads.get b = (a.use? b r).any fun u => u.info.readsFirst
  made : ∀ b, f.made.get b =
    (a.use? b r).bind fun u => u.info.last.filter fun v => v != Version.unknown
  summarized : ∀ q ∈ g.routines, ∃ inner, Flow.Summarized g f q inner

/-- The track of a register variable at the end of settling, with what it says about the uses
before: the flow is the least solution, and the uses are renamed by its webs. -/
structure Analysis.Settled (g : Graph) (a : Analysis) (r : Register) (t : Track) (f : Flow) : Prop
    extends Analysis.Solved g a r f where
  flow : t.flow = some f
  uses : ∀ b, t.uses.get b =
    (a.use? b r).map (Track.renameUse f.webs (f.webs.canonical (f.entering.get b)))
  defined : ∀ b, f.reads.get b = true → f.entering.get b ≠ []

theorem Analysis.Fresh.solved {g : Graph} {a : Analysis} (h : a.Fresh g) (hg : g.WellFormed)
    {r : Register} (hr : r ∈ a.registers) (hslot : r.isSlot = true) :
    ∃ f, ((trackOf g (FlowOrder.ofGraph g) a.summaries r).settle g).1.flow = some f ∧
      a.Solved g r f := by
  obtain ⟨before, hbefore, _, _, hstart⟩ := h.exists_flow hr hslot
  obtain ⟨f, hf, halike, hsound, hcov⟩ := h.settle_flow hg hbefore
  have hall := hstart.trans halike
  have htidy := Flow.tidy_initial g.size (numbering g a r)
  rw [settle_flow?, h.track?_of_mem hr, Option.bind_some, h.graph] at hf
  refine ⟨f, hf, ⟨before, hbefore, halike⟩, hsound, hcov, ?_, ?_, ?_⟩
  · exact fun b => (h.flow_rules hr hslot hall b).1
  · exact fun b => (h.flow_rules hr hslot hall b).2
  · exact fun q hq =>
      ⟨_, (htidy.summarized hg (Table.size_blank _) (Table.size_blank _) hq).congr hall⟩

theorem Analysis.Solved.lt_of_reads {g : Graph} {a : Analysis} {r : Register} {f : Flow}
    (hsolved : a.Solved g r f) (h : a.Fresh g) (hr : r ∈ a.registers) {b : Nat}
    (hread : f.reads.get b = true) : b < f.entering.size := by
  rw [hsolved.sound.size]
  by_contra hb
  rw [hsolved.reads, h.use?_of_size_le hr (Nat.le_of_not_lt hb)] at hread
  exact absurd hread (by simp)

theorem Analysis.Fresh.uses_settle {g : Graph} {a : Analysis} (h : a.Fresh g) {r : Register}
    (hr : r ∈ a.registers) (b : Nat) :
    ((trackOf g (FlowOrder.ofGraph g) a.summaries r).settle g).1.uses.get b = a.use? b r := by
  rw [Track.uses_settle, use?, h.track?_of_mem hr, Option.bind_some]

theorem Analysis.Fresh.settled {g : Graph} {a s : Analysis} (h : a.Fresh g) (hg : g.WellFormed)
    (hs : a.settle.outcome = .ok s) {r : Register} (hr : r ∈ a.registers)
    (hslot : r.isSlot = true) : ∃ t f, s.track? r = some t ∧ a.Settled g r t f := by
  obtain ⟨f, hflow, hsolved⟩ := h.solved hg hr hslot
  refine ⟨_, f, h.track?_outcome hs hr, hsolved, ?_, ?_, ?_⟩
  · exact (Track.flow_rename _).trans hflow
  · intro b
    rw [Track.uses_rename hflow, h.uses_settle hr]
  · intro b hread hempty
    have hmem : trackOf g (FlowOrder.ofGraph g) a.summaries r ∈ a.tracks :=
      List.mem_of_find?_eq_some (h.track?_of_mem hr)
    have hreached := (outcome_settle hs).2 _ hmem
    rw [h.graph, Track.unreached?, hflow, Option.bind_some, List.find?_eq_none] at hreached
    refine hreached b (List.mem_range.mpr (hsolved.lt_of_reads h hr hread)) ?_
    rw [hsolved.reads] at hread
    simp only [Track.readsFirst, h.uses_settle hr, hread, hempty, List.isEmpty_nil, Bool.and_self]

/-! ### Merged versions -/

namespace Analysis

/-- The version that a version of a register has been merged into. -/
def canonical (a : Analysis) (r : Register) (v : Version) : Version :=
  match a.track? r with
  | some t => t.canonical v
  | none => v

/-- Whether a block reads the value of a register on entry. -/
def readsFirst (a : Analysis) (b : Nat) (r : Register) : Bool :=
  (a.use? b r).any fun u => u.info.readsFirst

/-- Two versions of a register meet if both enter a block that reads the version on entry. -/
def Meets (a : Analysis) (r : Register) (x y : Version) : Prop :=
  ∃ f b, a.flow? r = some f ∧ a.readsFirst b r = true ∧
    x ∈ f.entering.get b ∧ y ∈ f.entering.get b

theorem Settled.canonical_eq {g : Graph} {a s : Analysis} {r : Register} {t : Track} {f : Flow}
    (h : a.Settled g r t f) (ht : s.track? r = some t) (v : Version) :
    s.canonical r v = f.webs.root v := by
  simp only [canonical, ht, Track.canonical, h.flow]

theorem Settled.readsFirst_eq {g : Graph} {a s : Analysis} {r : Register} {t : Track} {f : Flow}
    (h : a.Settled g r t f) (ht : s.track? r = some t) (b : Nat) :
    s.readsFirst b r = f.reads.get b := by
  rw [h.reads, readsFirst, use?, ht, Option.bind_some, h.uses]
  cases a.use? b r <;> rfl

theorem Settled.meets_iff {g : Graph} {a s : Analysis} {r : Register} {t : Track} {f : Flow}
    (h : a.Settled g r t f) (ht : s.track? r = some t) (x y : Version) :
    s.Meets r x y ↔ f.Meets x y := by
  have hflow : s.flow? r = some f := by
    rw [flow?, ht]
    exact h.flow
  unfold Meets Flow.Meets
  simp only [h.readsFirst_eq ht]
  constructor
  · intro hmeets
    obtain ⟨f', b, hf', hmeet⟩ := hmeets
    cases hflow.symm.trans hf'
    exact ⟨b, hmeet⟩
  · intro hmeets
    obtain ⟨b, hmeet⟩ := hmeets
    exact ⟨f, b, hflow, hmeet⟩

theorem track?_outcome_eq_none {a s : Analysis} (hs : a.settle.outcome = .ok s) {r : Register}
    (hr : r ∉ a.registers) : s.track? r = none := by
  apply track?_eq_none
  rw [(outcome_settle hs).1, registers, List.map_map]
  intro hmem
  obtain ⟨t, ht, hreg⟩ := List.mem_map.mp hmem
  refine hr (List.mem_map.mpr ⟨t, ht, ?_⟩)
  rw [← hreg]
  exact ((Track.register_rename _).trans (Track.register_settle _ t)).symm

/-- The webs of a settled register variable are the classes of the versions that meet, and their
representatives are those that `canonical` gives. -/
theorem Fresh.exists_webs {g : Graph} {a s : Analysis} (h : a.Fresh g) (hg : g.WellFormed)
    (hs : a.settle.outcome = .ok s) {r : Register} (hslot : r.isSlot = true) :
    ∃ w : Webs, w.Exact (s.Meets r) ∧ ∀ v, s.canonical r v = w.root v := by
  by_cases hr : r ∈ a.registers
  · obtain ⟨t, f, ht, hsettled⟩ := h.settled hg hs hr hslot
    refine ⟨f.webs, ?_, hsettled.canonical_eq ht⟩
    refine hsettled.sound.webs.congr ?_ ?_
    · exact fun x y hxy => EqvGen.rel x y ((hsettled.meets_iff ht x y).mpr hxy)
    · exact fun x y hxy => EqvGen.rel x y ((hsettled.meets_iff ht x y).mp hxy)
  · have hnone := track?_outcome_eq_none hs hr
    refine ⟨Webs.empty, Webs.exact_empty ?_, ?_⟩
    · intro x y ⟨f, b, hf, _⟩
      rw [flow?, hnone] at hf
      exact absurd hf (by simp)
    · intro v
      rw [canonical, hnone, Webs.root_of_none rfl]

/-- Two versions of a register variable are merged exactly if a chain of versions that meet joins
them, and each is merged into the lowest version of its class. -/
theorem canonical_eq_iff_meets {settings : Settings} {code : Code} {n : Offset}
    {hints : List Hint} {g : Graph} {usages : List Usage} {a s : Analysis}
    (hgraph : Graph.build settings code n hints = .ok g) (ha : ofUsages g usages = .ok a)
    (hs : a.settle.outcome = .ok s) {r : Register} (hslot : r.isSlot = true) :
    (∀ x y, s.canonical r x = s.canonical r y ↔ EqvGen (s.Meets r) x y) ∧
      ∀ x, EqvGen (s.Meets r) x (s.canonical r x) ∧
        ∀ y, EqvGen (s.Meets r) x y → s.canonical r x ≤ y := by
  have hg := Graph.wellFormed_of_build hgraph
  obtain ⟨w, hexact, hroot⟩ := (fresh_of_ofUsages ha).exists_webs hg hs hslot
  simp only [hroot]
  refine ⟨hexact.same_iff, ?_⟩
  intro x
  refine ⟨(hexact.same_iff _ _).mp (hexact.downward.root_root x).symm, ?_⟩
  intro y hxy
  exact Webs.root_le_of_root_eq ((hexact.same_iff x y).mpr hxy)

end Analysis

namespace Branch

theorem evaluates : Graph.build (Settings.standard 1) #[] 32 hints = .ok graph ∧
    Analysis.ofUsages graph usages = .ok start ∧ start.settle.outcome = .ok settled ∧
    settled.canonical x 1 = 1 ∧ settled.canonical x 2 = 2 ∧ settled.canonical x 3 = ⟨1#32⟩ := by
  cbv

/-- The write before the call meets the one inside it, but not the one at the end. -/
theorem meets_inside : EqvGen (settled.Meets x) 1 3 ∧ ¬ EqvGen (settled.Meets x) 1 2 := by
  obtain ⟨hgraph, ha, hs, hone, htwo, hthree⟩ := evaluates
  have hiff := (Analysis.canonical_eq_iff_meets hgraph ha hs (r := x) rfl).1
  rw [← hiff, ← hiff, hone, htwo, hthree]
  exact ⟨rfl, by decide⟩

end Branch

end RegisterWeb
