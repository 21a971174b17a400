import Mathlib
import RegisterWeb.Proofs.Settle
import RegisterWeb.Proofs.Instructions

/-!
One queue for all registers. The tasks of all registers wait in one line, and the one that has waited
longest is next. Seen from one register, the tasks of the others do nothing: its flow and its own
part of the line change as if it were settled alone. So the line comes to an end, and each register
then has the flow that it gets on its own.
-/

namespace RegisterWeb

open Relation

theorem Flow.drain_tasks (g : Graph) (f : Flow) (queue : List Nat) (m n : Nat) :
    (f.drain g queue m).1 = (f.drain g queue n).1 := by
  fun_induction Flow.drain g f queue m generalizing n with
  | case1 f m => rw [Flow.drain]
  | case2 f m b rest look hnews ih =>
    rw [Flow.drain.eq_def g f (b :: rest) n]
    simp only
    rw [if_pos hnews]
    exact ih (n + 1)
  | case3 f m b rest look hnews ih =>
    rw [Flow.drain.eq_def g f (b :: rest) n]
    simp only
    rw [if_neg hnews]
    exact ih (n + 1)

namespace Agenda

/-- One turn takes the task that has waited longest. -/
inductive Turn (g : Graph) : Agenda → Agenda → Prop
  | take {s : Agenda} {task : Register × Nat} {rest : List (Register × Nat)}
      (h : s.waiting = task :: rest) : Turn g s (s.perform g task)

/-- The state in which the line of an analysis ends. -/
def Ends (g : Graph) (a : Analysis) (e : Agenda) : Prop :=
  ReflTransGen (Turn g) (start a) e ∧ e.waiting = []

/-! ### The part of a line that belongs to one register -/

/-- The blocks that wait for a register. -/
def queue (waiting : List (Register × Nat)) (r : Register) : List Nat :=
  (waiting.filter fun t => t.1 == r).map Prod.snd

theorem mem_queue {waiting : List (Register × Nat)} {r : Register} {b : Nat} :
    b ∈ queue waiting r ↔ (r, b) ∈ waiting := by
  simp [queue]

theorem queue_cons (task : Register × Nat) (waiting : List (Register × Nat)) (r : Register) :
    queue (task :: waiting) r
      = if task.1 = r then task.2 :: queue waiting r else queue waiting r := by
  by_cases h : task.1 = r <;> simp [queue, h]

theorem queue_append (xs ys : List (Register × Nat)) (r : Register) :
    queue (xs ++ ys) r = queue xs r ++ queue ys r := by
  simp [queue]

theorem queue_push (waiting : List (Register × Nat)) (task : Register × Nat) (r : Register) :
    queue (push waiting task) r
      = if task.1 = r then Flow.enqueue (queue waiting r) [task.2] else queue waiting r := by
  obtain ⟨q, b⟩ := task
  by_cases h : q = r
  · subst h
    have hmem : waiting.contains (q, b) = (queue waiting q).contains b := by
      rw [Bool.eq_iff_iff, List.contains_iff_mem, List.contains_iff_mem, mem_queue]
    simp only [push, Flow.enqueue, List.foldl_cons, List.foldl_nil, hmem, if_true]
    split
    · rfl
    · rw [queue_append]
      simp [queue]
  · simp only [push, h, if_false]
    split
    · rfl
    · rw [queue_append]
      simp [queue, h]

/-- New tasks join the part of their own register. -/
theorem queue_foldl_push (tasks waiting : List (Register × Nat)) (r : Register) :
    queue (tasks.foldl push waiting) r = Flow.enqueue (queue waiting r) (queue tasks r) := by
  induction tasks generalizing waiting with
  | nil => rfl
  | cons task tasks ih =>
    rw [List.foldl_cons, ih, queue_push, queue_cons]
    split
    · rfl
    · rfl

theorem queue_map_mk (q r : Register) (blocks : List Nat) :
    queue (blocks.map (Prod.mk q)) r = if q = r then blocks else [] := by
  induction blocks with
  | nil => simp [queue]
  | cons b blocks ih =>
    rw [List.map_cons, queue_cons, ih]
    split
    · rfl
    · rfl

/-! ### What a turn leaves alone -/

/-- The flow that a register gets if its own part of the line is done in turn. -/
def outlook (g : Graph) (s : Agenda) (r : Register) : Option Flow :=
  (s.flows r).map fun f => (f.drain g (queue s.waiting r) 0).1

variable {g : Graph} {a : Analysis} {s e : Agenda} {task : Register × Nat}
  {rest : List (Register × Nat)}

theorem waiting_perform (h : s.waiting = task :: rest) {f : Flow} (hf : s.flows task.1 = some f) :
    (s.perform g task).waiting
      = if f.bringsNews g task.2 then ((g.targets task.2).map (Prod.mk task.1)).foldl push rest
        else rest := by
  simp only [perform, hf, h, List.erase_cons_head]

/-- A task of another register changes neither the flow of a register nor its part of the line. -/
theorem perform_other {r : Register} (h : s.waiting = task :: rest) (hr : task.1 ≠ r) :
    (s.perform g task).flows r = s.flows r ∧
      queue (s.perform g task).waiting r = queue s.waiting r := by
  cases hf : s.flows task.1 with
  | none =>
    simp only [perform, hf, h, List.erase_cons_head, queue_cons, hr, if_false]
    exact ⟨trivial, trivial⟩
  | some f =>
    refine ⟨by rw [flows_perform hf, if_neg (Ne.symm hr)], ?_⟩
    rw [waiting_perform h hf, h, queue_cons, if_neg hr]
    split
    · rw [queue_foldl_push, queue_map_mk, if_neg hr]
      rfl
    · rfl

/-- A turn does not change what any register will get. -/
theorem Kept.outlook_perform (hkept : Kept a s) (h : s.waiting = task :: rest) (r : Register) :
    (s.perform g task).outlook g r = s.outlook g r := by
  by_cases hr : task.1 = r
  · subst hr
    cases hf : s.flows task.1 with
    | none =>
      have hflows : (s.perform g task).flows task.1 = none := by simp only [perform, hf]
      rw [outlook, outlook, hflows, hf]
      rfl
    | some f =>
      have htidy := (hkept task.1 f hf).2
      rw [outlook, outlook, flows_perform hf, if_pos rfl, waiting_perform h hf, hf, h, queue_cons,
        if_pos rfl, Option.map_some, Option.map_some, Flow.drain.eq_def g f]
      simp only [htidy.hasNews_eq_bringsNews]
      -- its own task: one step of settling the register alone
      split
      · rw [queue_foldl_push, queue_map_mk, if_pos rfl]
        exact congrArg some (Flow.drain_tasks ..)
      · exact congrArg some (Flow.drain_tasks ..)
  · obtain ⟨hflows, hqueue⟩ := perform_other (g := g) h hr
    rw [outlook, outlook, hflows, hqueue]

theorem Kept.perform (h : Kept a s) (g : Graph) (task : Register × Nat) :
    Kept a (s.perform g task) := by
  intro r f hr
  cases hf : s.flows task.1 with
  | none =>
    simp only [Agenda.perform, hf] at hr
    exact h r f hr
  | some f₀ =>
    rw [flows_perform hf] at hr
    split at hr
    · rename_i heq
      cases hr
      obtain ⟨hmem, htidy⟩ := h task.1 f₀ hf
      exact ⟨heq ▸ hmem, htidy.process g task.2⟩
    · exact h r f hr

/-! ### A whole run of the line -/

theorem Kept.reaches (h : Kept a s) (hs : ReflTransGen (Turn g) s e) (r : Register) :
    Kept a e ∧ e.outlook g r = s.outlook g r := by
  induction hs with
  | refl => exact ⟨h, rfl⟩
  | tail _ hturn ih =>
    cases hturn with
    | take hw => exact ⟨ih.1.perform g _, (ih.1.outlook_perform hw r).trans ih.2⟩

theorem Kept.exists_end (h : Kept a s) (g : Graph) :
    ∃ e, ReflTransGen (Turn g) s e ∧ e.waiting = [] := by
  induction hsize : s.size a using (Prod.lex Nat.lt_wfRel Nat.lt_wfRel).wf.induction
    generalizing s with
  | _ n ih =>
    cases hw : s.waiting with
    | nil => exact ⟨s, ReflTransGen.refl, hw⟩
    | cons task rest =>
      have hmem : task ∈ s.waiting := hw ▸ List.mem_cons_self
      obtain ⟨e, he, hdone⟩ := ih _ (hsize ▸ h.size_perform g hmem) (h.perform g task) rfl
      exact ⟨e, ReflTransGen.head (Turn.take hw) he, hdone⟩

theorem outlook_of_done (h : e.waiting = []) (r : Register) : e.outlook g r = e.flows r := by
  rw [outlook, h]
  cases e.flows r with
  | none => rfl
  | some f =>
    rw [Option.map_some, queue, List.filter_nil, List.map_nil, Flow.drain]

end Agenda

/-! ### From the start of settling -/

namespace Analysis

variable {g : Graph} {a : Analysis} {r : Register} {e : Agenda}

theorem Fresh.nodup_registers (h : a.Fresh g) : a.registers.Nodup := by
  rw [h.registers_eq]
  exact (List.mergeSort_perm _ _).nodup_iff.mpr (nodup_eraseDups _)

theorem Fresh.queue_deferred (h : a.Fresh g) (hr : r ∈ a.registers) :
    Agenda.queue a.deferred r = (trackOf g (FlowOrder.ofGraph g) a.summaries r).late := by
  have hnodup := h.nodup_registers
  rw [h.registers_eq] at hr hnodup
  have hone : ∀ q, Agenda.queue ((trackOf g (FlowOrder.ofGraph g) a.summaries q).late.map
      fun b => (q, b)) r
      = if q = r then (trackOf g (FlowOrder.ofGraph g) a.summaries r).late else [] := by
    intro q
    refine (Agenda.queue_map_mk q r _).trans ?_
    by_cases hq : q = r
    · rw [if_pos hq, if_pos hq, hq]
    · rw [if_neg hq, if_neg hq]
  rw [deferred, h.tracks, Agenda.queue, List.flatMap_map, List.filter_flatMap, List.map_flatMap]
  simp only [register_trackOf]
  exact (List.flatMap_congr fun q _ => hone q).trans ((flatMap_ite hnodup r _).trans (if_pos hr))

theorem Fresh.kept_start (h : a.Fresh g) : Agenda.Kept a (Agenda.start a) :=
  (Agenda.valid_start h).kept

/-- Before the first turn each register looks forward to the flow that it gets on its own. -/
theorem Fresh.outlook_start (h : a.Fresh g) (r : Register) :
    (Agenda.start a).outlook g r = a.settle.analysis.flow? r := by
  have hqueue : Agenda.queue (Agenda.start a).waiting r
      = Flow.enqueue [] (Agenda.queue a.deferred r) := Agenda.queue_foldl_push _ _ r
  have hflows : (Agenda.start a).flows r = (a.track? r).bind Track.flow := rfl
  rw [settle_flow?, Agenda.outlook, hqueue, hflows]
  by_cases hr : r ∈ a.registers
  · rw [h.queue_deferred hr, h.track?_of_mem hr, h.graph, Option.bind_some, Option.bind_some,
      Track.settle]
    cases hf : (trackOf g (FlowOrder.ofGraph g) a.summaries r).flow with
    | none => exact hf.symm
    | some f => rfl
  · rw [track?_eq_none hr]
    rfl

/-- The line comes to an end, and then every register has the flow that it gets on its own. -/
theorem Fresh.line_ends (h : a.Fresh g) :
    (∃ e, Agenda.Ends g a e) ∧
      ∀ e, Agenda.Ends g a e → ∀ r, e.flows r = a.settle.analysis.flow? r := by
  refine ⟨h.kept_start.exists_end g, ?_⟩
  intro e hends r
  obtain ⟨hreach, hdone⟩ := hends
  rw [← Agenda.outlook_of_done hdone, (h.kept_start.reaches hreach r).2, h.outlook_start]

end Analysis

end RegisterWeb
