import Mathlib
import RegisterWeb.Proofs.Settle
import RegisterWeb.Proofs.Strict.Graph

/-!
The flow of versions by strict evaluation. All tables of a flow have one cell for each block of the
graph, every step keeps them so, and every edge leads to a block; so the effects of routines, the
pass in flow order and the work on waiting blocks read and write inside of the tables.
-/

namespace RegisterWeb

namespace Flow

/-- A flow with one cell for each of `n` blocks. -/
structure Sized (n : Nat) (f : Flow) : Prop where
  reads : f.reads.size = n
  made : f.made.size = n
  effects : f.effects.size = n
  entering : f.entering.size = n

variable {n : Nat} {f : Flow}

theorem Sized.receive (h : f.Sized n) (b : Nat) (s : VersionSet) : (f.receive b s).Sized n :=
  ⟨h.reads, h.made, h.effects, by rw [Flow.receive, Table.size_set, h.entering]⟩

theorem Sized.merge (h : f.Sized n) (b : Nat) : (f.merge b).2.Sized n := by
  unfold Flow.merge
  split
  · split
    · exact h
    · exact ⟨h.reads, h.made, h.effects, h.entering⟩
  · exact h

theorem Sized.process (h : f.Sized n) (g : Graph) (b : Nat) : (f.process g b).2.Sized n :=
  (h.receive b _).merge b

theorem Sized.drain (h : f.Sized n) (g : Graph) (queue : List Nat) (tasks : Nat) :
    (f.drain g queue tasks).1.Sized n := by
  fun_induction Flow.drain g f queue tasks with
  | case1 f tasks => exact h
  | case2 f tasks b rest look hnews ih => exact ih (h.process g b)
  | case3 f tasks b rest look hnews ih => exact ih (h.process g b)

theorem sized_initial (n : Nat) (numbering : Track.Numbering) :
    (Track.initial n numbering).Sized n :=
  ⟨Table.size_tabulate .., Table.size_tabulate .., Table.size_blank n, Table.size_blank n⟩

end Flow

namespace Strict

/-! ### Versions along edges -/

def leaving (f : Flow) (b : Nat) : Except Trap VersionSet := do
  match ← fetch f.made.cells b with
  | some v => return [v]
  | none => fetch f.entering.cells b

def passing (g : Graph) (f : Flow) (b : Nat) : Except Trap VersionSet := do
  let block ← fetch g.blocks b
  let out ← leaving f b
  if block.calls then
    gather [] block.callees fun c => do return VersionSet.resolve (← fetch f.effects.cells c) out
  else return out

def along (g : Graph) (f : Flow) (e : Edge) : Except Trap VersionSet :=
  if e.isCall then leaving f e.block else passing g f e.block

def arriving (g : Graph) (f : Flow) (b : Nat) (edges : List Edge) : Except Trap VersionSet := do
  let block ← fetch g.blocks b
  gather (if block.root then [Version.entry] else []) edges (along g f)

def incoming (g : Graph) (f : Flow) (b : Nat) : Except Trap VersionSet := do
  arriving g f b (← fetch g.preds.cells b)

def merge (f : Flow) (b : Nat) : Except Trap (Bool × Flow) := do
  let reads ← fetch f.reads.cells b
  let versions ← fetch f.entering.cells b
  if reads && !versions.isEmpty then
    let merged := f.webs.unionAll (← first versions) versions.tail
    return (merged.1, { f with webs := merged.2 })
  else return (false, f)

def receive (f : Flow) (b : Nat) (s : VersionSet) : Except Trap Flow := do
  let known ← fetch f.entering.cells b
  return { f with entering := ← store f.entering b (VersionSet.union known s) }

def process (g : Graph) (f : Flow) (b : Nat) : Except Trap (Bool × Flow) := do
  let f ← receive f b (← incoming g f b)
  merge f b

section Edges

variable {g : Graph} {f : Flow} {b : Nat}

theorem leaving_eq (h : f.Sized g.size) (hb : b < g.size) : leaving f b = .ok (f.leaving b) := by
  rw [leaving, fetch_cells (h.made.symm ▸ hb), ok_bind, Flow.leaving]
  cases f.made.get b with
  | some v => rfl
  | none => exact fetch_cells (h.entering.symm ▸ hb)

theorem passing_eq (hg : g.Whole) (h : f.Sized g.size) (hb : b < g.size) :
    passing g f b = .ok (f.passing g b) := by
  rw [passing, fetch_block hb, ok_bind, leaving_eq h hb, ok_bind, Flow.passing]
  split
  · refine gather_eq (fun c hc => ?_) []
    rw [fetch_cells (h.effects.symm ▸ hg.wellFormed.callee_lt hc)]
    rfl
  · rfl

theorem along_eq (hg : g.Whole) (h : f.Sized g.size) {e : Edge} (he : e.block < g.size) :
    along g f e = .ok (f.along g e) := by
  unfold along Flow.along
  split
  · exact leaving_eq h he
  · exact passing_eq hg h he

theorem arriving_eq (hg : g.Whole) (h : f.Sized g.size) (hb : b < g.size) {edges : List Edge}
    (hedges : ∀ e ∈ edges, e.block < g.size) :
    arriving g f b edges = .ok (f.arriving g b edges) := by
  rw [arriving, fetch_block hb, ok_bind]
  exact gather_eq (fun e he => along_eq hg h (hedges e he)) _

theorem incoming_eq (hg : g.Whole) (h : f.Sized g.size) (hb : b < g.size) :
    incoming g f b = .ok (f.incoming g b) := by
  rw [incoming, fetch_cells (hg.preds_size.symm ▸ hb), ok_bind]
  exact arriving_eq hg h hb fun e he => hg.pred_lt he

theorem merge_eq (h : f.Sized g.size) (hb : b < g.size) : merge f b = .ok (f.merge b) := by
  rw [merge, fetch_cells (h.reads.symm ▸ hb), ok_bind, fetch_cells (h.entering.symm ▸ hb), ok_bind,
    Flow.merge]
  cases f.reads.get b with
  | false => rfl
  | true =>
    cases f.entering.get b with
    | nil => rfl
    | cons v vs => rfl

theorem receive_eq (h : f.Sized g.size) (hb : b < g.size) (s : VersionSet) :
    receive f b s = .ok (f.receive b s) := by
  have hb' : b < f.entering.size := h.entering.symm ▸ hb
  rw [receive, fetch_cells hb', ok_bind, store_eq hb']
  rfl

theorem process_eq (hg : g.Whole) (h : f.Sized g.size) (hb : b < g.size) :
    process g f b = .ok (f.process g b) := by
  rw [process, incoming_eq hg h hb, ok_bind, receive_eq h hb, ok_bind, merge_eq (h.receive b _) hb]
  rfl

/-- A look that does not trap uses up room or leaves it alone, whatever the tables are. -/
theorem room_le_of_process {look : Bool × Flow} (hlook : process g f b = .ok look) :
    look.2.room ≤ f.room := by
  obtain ⟨s, _, hlook⟩ := bind_eq_ok.mp hlook
  obtain ⟨f', hreceive, hmerge⟩ := bind_eq_ok.mp hlook
  have hreceived : f' = f.receive b s := by
    obtain ⟨known, hknown, hreceive⟩ := bind_eq_ok.mp hreceive
    obtain ⟨entering, hstore, hreceive⟩ := bind_eq_ok.mp hreceive
    cases hreceive
    rw [eq_of_store hstore, eq_of_fetch hknown]
    rfl
  have hmerged : look = f'.merge b := by
    obtain ⟨reads, hreads, hmerge⟩ := bind_eq_ok.mp hmerge
    obtain ⟨versions, hversions, hmerge⟩ := bind_eq_ok.mp hmerge
    have hreads : f'.reads.get b = reads := (eq_of_fetch hreads).symm
    have hversions : f'.entering.get b = versions := (eq_of_fetch hversions).symm
    rw [Flow.merge, hreads, hversions]
    cases reads with
    | false =>
      cases hmerge
      rfl
    | true =>
      cases versions with
      | nil =>
        cases hmerge
        rfl
      | cons v vs =>
        cases hmerge
        rfl
  rw [hmerged, hreceived]
  exact (Flow.room_merge_le _ b).trans (Flow.room_receive_le f b s)

end Edges

/-! ### Effects -/

def spread (g : Graph) (f : Flow) (b : Nat) : Except Trap Flow := do
  let block ← fetch g.blocks b
  block.successors.foldlM (fun f c => do receive f c (← passing g f b)) f

def body (g : Graph) (f : Flow) (r : Routine) : Except Trap Flow := do
  let entering ← store (Table.blank f.entering.size) r.entry [Version.inherited]
  saturate Flow.room (fun f => r.blocks.foldlM (spread g) f) { f with entering }

def exits (g : Graph) (f : Flow) (r : Routine) : Except Trap VersionSet := do
  let inner ← body g f r
  let returned ← gather [] r.returns (leaving inner)
  let passed ← gather [] r.tailCalls (passing g inner)
  return VersionSet.union returned passed

def learn (g : Graph) (f : Flow) (r : Routine) : Except Trap Flow := do
  let known ← fetch f.effects.cells r.entry
  let found ← exits g f r
  return { f with effects := ← store f.effects r.entry (VersionSet.union known found) }

def withEffects (g : Graph) (f : Flow) : Except Trap Flow :=
  saturate Flow.effectRoom (fun f => g.routines.foldlM (learn g) f) f

section Effects

variable {g : Graph} {f : Flow}

theorem spread_eq (hg : g.Whole) (h : f.Sized g.size) {b : Nat} (hb : b < g.size) :
    spread g f b = .ok (f.spread g b) ∧ (f.spread g b).Sized g.size := by
  rw [spread, fetch_block hb, ok_bind]
  refine foldlM_eq (Flow.Sized g.size) (fun f h c hc => ?_) h
  rw [passing_eq hg h hb, ok_bind, receive_eq h (hg.wellFormed.successor_lt hc)]
  exact ⟨rfl, h.receive c _⟩

theorem body_eq (hg : g.Whole) (h : f.Sized g.size) {r : Routine} (hr : r ∈ g.routines) :
    body g f r = .ok (f.body g r) ∧ (f.body g r).Sized g.size := by
  have hstep : ∀ f : Flow, f.Sized g.size →
      r.blocks.foldlM (spread g) f = .ok (r.blocks.foldl (fun f b => f.spread g b) f)
        ∧ (r.blocks.foldl (fun f b => f.spread g b) f).Sized g.size := by
    intro f h
    exact foldlM_eq (Flow.Sized g.size) (fun f h b hb => spread_eq hg h (hg.block_lt hr hb)) h
  have hentry : r.entry < (Table.blank f.entering.size : Table VersionSet).size := by
    rw [Table.size_blank, h.entering]
    exact hg.wellFormed.entry_lt hr
  have hopen : (f.opening r).Sized g.size :=
    ⟨h.reads, h.made, h.effects, by rw [Flow.opening, Table.size_set, Table.size_blank, h.entering]⟩
  rw [body, store_eq hentry, ok_bind]
  exact ⟨saturate_eq (Flow.Sized g.size) hstep hopen,
    saturate_keeps (Flow.Sized g.size) (fun f h => (hstep f h).2) _ hopen⟩

theorem exits_eq (hg : g.Whole) (h : f.Sized g.size) {r : Routine} (hr : r ∈ g.routines) :
    exits g f r = .ok (f.exits g r) := by
  obtain ⟨hbody, hsized⟩ := body_eq hg h hr
  have hreturns : ∀ b ∈ r.returns, leaving (f.body g r) b = .ok ((f.body g r).leaving b) :=
    fun b hb => leaving_eq hsized (hg.block_lt hr ((hg.wellFormed.mem_returns hr b).mp hb).1)
  have htails : ∀ b ∈ r.tailCalls, passing g (f.body g r) b = .ok ((f.body g r).passing g b) :=
    fun b hb => passing_eq hg hsized
      (hg.block_lt hr ((hg.wellFormed.mem_tailCalls hr b).mp hb).1)
  rw [exits, hbody, ok_bind, gather_eq hreturns, ok_bind, gather_eq htails]
  rfl

theorem learn_eq (hg : g.Whole) (h : f.Sized g.size) {r : Routine} (hr : r ∈ g.routines) :
    learn g f r = .ok (f.learn g r) ∧ (f.learn g r).Sized g.size := by
  have hentry : r.entry < f.effects.size := h.effects.symm ▸ hg.wellFormed.entry_lt hr
  rw [learn, fetch_cells hentry, ok_bind, exits_eq hg h hr, ok_bind, store_eq hentry]
  exact ⟨rfl, h.reads, h.made, by rw [Flow.learn, Table.size_set, h.effects], h.entering⟩

theorem withEffects_eq (hg : g.Whole) (h : f.Sized g.size) :
    withEffects g f = .ok (f.withEffects g) ∧ (f.withEffects g).Sized g.size := by
  have hstep : ∀ f : Flow, f.Sized g.size →
      g.routines.foldlM (learn g) f = .ok (g.routines.foldl (fun f r => f.learn g r) f)
        ∧ (g.routines.foldl (fun f r => f.learn g r) f).Sized g.size := by
    intro f h
    exact foldlM_eq (Flow.Sized g.size) (fun f h r hr => learn_eq hg h hr) h
  exact ⟨saturate_eq (Flow.Sized g.size) hstep h,
    saturate_keeps (Flow.Sized g.size) (fun f h => (hstep f h).2) _ h⟩

end Effects

/-! ### The work on waiting blocks -/

/-- The flow after a look at a block, with the blocks for which the look brought news. -/
def look (g : Graph) (f : Flow) (b : Nat) : Except Trap (Flow × List Nat) := do
  let seen ← process g f b
  let made ← fetch f.made.cells b
  if decide (seen.2.room < f.room) && (seen.1 || made.isNone) then
    let block ← fetch g.blocks b
    return (seen.2, block.next.map Edge.block)
  else return (seen.2, [])

theorem cases_of_look {g : Graph} {f after : Flow} {b : Nat} {news : List Nat}
    (h : look g f b = .ok (after, news)) :
    after.room < f.room ∨ after.room = f.room ∧ news = [] := by
  obtain ⟨seen, hseen, h⟩ := bind_eq_ok.mp h
  obtain ⟨made, _, h⟩ := bind_eq_ok.mp h
  have hle := room_le_of_process hseen
  split at h
  · rename_i hnews
    rw [Bool.and_eq_true, decide_eq_true_eq] at hnews
    obtain ⟨block, _, h⟩ := bind_eq_ok.mp h
    cases h
    exact Or.inl hnews.1
  · cases h
    rcases Nat.lt_or_eq_of_le hle with hlt | heq
    · exact Or.inl hlt
    · exact Or.inr ⟨heq, rfl⟩

def drain (g : Graph) (f : Flow) (queue : List Nat) (tasks : Nat) : Except Trap (Flow × Nat) :=
  match queue with
  | [] => .ok (f, tasks)
  | b :: rest =>
    match _seen : look g f b with
    | .error e => .error e
    | .ok (after, news) => drain g after (Flow.enqueue rest news) (tasks + 1)
termination_by (f.room, queue.length)
decreasing_by
  rcases cases_of_look _seen with hlt | ⟨heq, hnone⟩
  · exact Prod.Lex.left _ _ hlt
  · rw [heq, hnone]
    exact Prod.Lex.right _ (by simp [Flow.enqueue])

theorem look_eq {g : Graph} {f : Flow} {b : Nat} (hg : g.Whole) (h : f.Sized g.size)
    (hb : b < g.size) : look g f b = .ok ((f.process g b).2,
      if Flow.hasNews f (f.process g b).2 (f.process g b).1 b
        then (g.block b).next.map Edge.block else []) := by
  rw [look, process_eq hg h hb, ok_bind, fetch_cells (h.made.symm ▸ hb), ok_bind, Flow.hasNews]
  split
  · rw [fetch_block hb]
    rfl
  · rfl

theorem drain_cons {g : Graph} {f after : Flow} {b : Nat} {rest news : List Nat} {tasks : Nat}
    (h : look g f b = .ok (after, news)) : drain g f (b :: rest) tasks
      = drain g after (Flow.enqueue rest news) (tasks + 1) := by
  rw [drain]
  split
  · rename_i e herr
    rw [h] at herr
    cases herr
  · rename_i seen found hok
    rw [h] at hok
    cases hok
    rfl

theorem drain_eq {g : Graph} {f : Flow} {queue : List Nat} {tasks : Nat} (hg : g.Whole)
    (h : f.Sized g.size) (hqueue : ∀ b ∈ queue, b < g.size) :
    drain g f queue tasks = .ok (f.drain g queue tasks) := by
  fun_induction Flow.drain g f queue tasks with
  | case1 f tasks => rw [drain]
  | case2 f tasks b rest seen hnews ih =>
    obtain ⟨hb, hrest⟩ := List.forall_mem_cons.mp hqueue
    have hlook := look_eq hg h hb
    rw [if_pos hnews] at hlook
    rw [drain_cons hlook]
    refine ih (h.process g b) fun c hc => ?_
    rcases (Flow.mem_enqueue _ _ c).mp hc with hc | hc
    · exact hrest c hc
    · obtain ⟨e, he, rfl⟩ := List.mem_map.mp hc
      exact hg.wellFormed.next_lt b e he
  | case3 f tasks b rest seen hnews ih =>
    obtain ⟨hb, hrest⟩ := List.forall_mem_cons.mp hqueue
    have hlook := look_eq hg h hb
    rw [if_neg hnews] at hlook
    rw [drain_cons hlook]
    exact ih (h.process g b) hrest

end Strict

end RegisterWeb
