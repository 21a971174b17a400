import Mathlib
import RegisterWeb.Live.Basic
import RegisterWeb.Proofs.Strict.Track

/-!
Liveness by strict evaluation. Every routine that is called exists, control resumes in blocks, and
the numbers of a group's instances are as many as its slots; so scopes, live flows, links and live
sets are read where they have a value.
-/

namespace RegisterWeb

namespace Graph

variable {g : Graph}

theorem WellFormed.continuation_lt (h : g.WellFormed) {b k : Nat}
    (hk : (g.block b).continuation? = some k) : k < g.size :=
  h.successor_lt (Block.continuation?_mem hk).2

theorem WellFormed.cont_lt (h : g.WellFormed) {r : Routine} (hr : r ∈ g.routines) {k : Nat}
    (hk : k ∈ r.conts) : k < g.size := by
  obtain ⟨i, hi, heq⟩ := h.exists_body hr
  obtain ⟨hlt, _⟩ := List.getElem?_eq_some_iff.mp hi
  rw [heq] at hk
  obtain ⟨j, _, hk⟩ := (mem_continuations g hlt k).mp hk
  obtain ⟨s, _, hk⟩ := List.mem_filterMap.mp hk
  exact h.continuation_lt hk

end Graph

namespace Strict

/-! ### Scopes -/

def scopes (g : Graph) : Except Trap (Table (Option (Array Bool))) :=
  tabulate g.size fun b =>
    if (g.routine? b).isSome then
      (reach g.size (fun i => do return (← fetch g.blocks i).next.map Edge.block) [b]).map some
    else .ok none

def inScope (scopes : Table (Option (Array Bool))) (entry b : Nat) : Except Trap Bool := do
  match ← fetch scopes.cells entry with
  | some seen => fetch seen b
  | none => return false

def touches (g : Graph) (scopes : Table (Option (Array Bool))) (t : Track) (entry : Nat) :
    Except Trap Bool :=
  any (fun b => do return (← inScope scopes entry b) && (← fetch t.uses.cells b).isSome)
    (List.range g.size)

section Scopes

variable {g : Graph} {t : Track}

theorem scopes_eq (hg : g.Whole) : scopes g = .ok g.scopes := by
  refine tabulate_eq fun b hb => ?_
  split
  · have hreach : reach g.size (fun i => do return (← fetch g.blocks i).next.map Edge.block) [b]
        = .ok (RegisterWeb.reach g.size g.targets [b]) := by
      refine reach_eq (fun i hi => ?_) (fun x hx => List.mem_singleton.mp hx ▸ hb)
      refine ⟨by rw [fetch_block hi]; rfl, fun c hc => ?_⟩
      obtain ⟨e, he, rfl⟩ := List.mem_map.mp hc
      exact hg.wellFormed.next_lt i e he
    rw [hreach]
    rfl
  · rfl

theorem size_scope {entry : Nat} {seen : Array Bool} (h : g.scopes.get entry = some seen) :
    seen.size = g.size := by
  rw [Graph.scopes, Table.get_tabulate] at h
  split at h
  · split at h
    · cases h
      exact (size_mark ..).trans Array.size_replicate
    · cases h
  · cases h

theorem inScope_eq {entry b : Nat} (hentry : entry < g.size) (hb : b < g.size) :
    inScope g.scopes entry b = .ok (Graph.inScope g.scopes entry b) := by
  have hsize : g.scopes.size = g.size := Table.size_tabulate ..
  rw [inScope, fetch_cells (hsize.symm ▸ hentry), ok_bind, Graph.inScope]
  cases hseen : g.scopes.get entry with
  | none => rfl
  | some seen => exact fetch_eq ((size_scope hseen).symm ▸ hb)

theorem touches_eq (h : t.Fits g) {entry : Nat} (hentry : entry < g.size) :
    touches g g.scopes t entry = .ok (t.touches g g.scopes entry) := by
  refine any_eq fun b hb => ?_
  have hlt := List.mem_range.mp hb
  rw [inScope_eq hentry hlt, ok_bind, fetch_cells (h.uses.symm ▸ hlt)]
  rfl

end Scopes

/-! ### The live flow -/

def resumptionsOf (g : Graph) (b callee : Nat) : Except Trap (List Nat) := do
  match (← fetch g.blocks b).continuation? with
  | some k => return [k]
  | none =>
    match g.routine? callee with
    | some r => return r.conts
    | none => .error (.noRoutine callee)

def isLiveOut (g : Graph) (touched : Table Bool) (l : LiveFlow) (b : Nat) : Except Trap Bool := do
  let block ← fetch g.blocks b
  let direct ← any (fetch l.enters.cells)
    ((block.next.filter fun e => e.isCall || !block.calls).map Edge.block)
  let untouched ← filter (fun c => do return !(← fetch touched.cells c)) block.callees
  let past ← any (fun c => do any (fetch l.enters.cells) (← resumptionsOf g b c))
    (if block.calls then untouched else [])
  let back ← any (fun r => do
      return (← fetch touched.cells r.entry) && (← any (fetch l.enters.cells) r.conts))
    (g.routines.filter fun r => r.returns.contains b)
  return direct || past || back

def visitBlock (g : Graph) (t : Track) (touched : Table Bool) (l : LiveFlow) (b : Nat) :
    Except Trap LiveFlow := do
  let out ← isLiveOut g touched l b
  let use ← fetch t.uses.cells b
  let enters ← store l.enters b ((use.any fun u => u.info.readsFirst) ||
    (out && !use.any fun u => u.info.isWritten))
  let leaves ← store l.leaves b out
  return ⟨enters, leaves⟩

def solve (g : Graph) (t : Track) (touched : Table Bool) (visits : List Nat) :
    Except Trap LiveFlow :=
  saturate LiveFlow.room (fun l => visits.foldlM (visitBlock g t touched) l)
    ⟨Table.blank g.size, Table.blank g.size⟩

section Flow

variable {g : Graph} {t : Track} {touched : Table Bool} {l : LiveFlow} {b : Nat}

theorem resumptionsOf_eq (hg : g.Whole) (hb : b < g.size) {c : Nat}
    (hc : c ∈ (g.block b).callees) : resumptionsOf g b c = .ok (LiveFlow.resumptions g b c)
      ∧ ∀ k ∈ LiveFlow.resumptions g b c, k < g.size := by
  obtain ⟨r, hr, rfl⟩ := hg.wellFormed.exists_routine hc
  rw [resumptionsOf, fetch_block hb, ok_bind, LiveFlow.resumptions,
    hg.wellFormed.routine?_entry hr]
  cases hk : (g.block b).continuation? with
  | some k =>
    refine ⟨rfl, fun j hj => ?_⟩
    rw [List.mem_singleton.mp hj]
    exact hg.wellFormed.continuation_lt hk
  | none => exact ⟨rfl, fun k hk => hg.wellFormed.cont_lt hr hk⟩

-- a call in a last act whose routine is missing stops the evaluation
example : resumptionsOf ⟨4, #[{ (default : Block) with calls := true }], default, [], []⟩ 0 7
    = .error (.noRoutine 7) := rfl

theorem anyEnters_eq (hl : l.enters.size = g.size) {blocks : List Nat}
    (h : ∀ c ∈ blocks, c < g.size) :
    any (fetch l.enters.cells) blocks = .ok (l.anyEnters blocks) :=
  any_eq fun c hc => fetch_cells (hl.symm ▸ h c hc)

theorem isLiveOut_eq (hg : g.Whole) (htouched : touched.size = g.size)
    (hl : l.enters.size = g.size) (hb : b < g.size) :
    isLiveOut g touched l b = .ok (l.isLiveOut g touched b) := by
  have hdirect : any (fetch l.enters.cells)
      (((g.block b).next.filter fun e => e.isCall || !(g.block b).calls).map Edge.block)
      = .ok (l.anyEnters
        (((g.block b).next.filter fun e => e.isCall || !(g.block b).calls).map Edge.block)) := by
    refine anyEnters_eq hl fun c hc => ?_
    obtain ⟨e, he, rfl⟩ := List.mem_map.mp hc
    exact hg.wellFormed.next_lt b e (List.mem_filter.mp he).1
  have huntouched : filter (fun c => do return !(← fetch touched.cells c)) (g.block b).callees
      = .ok ((g.block b).callees.filter fun c => !touched.get c) := by
    refine filter_eq fun c hc => ?_
    rw [fetch_cells (htouched.symm ▸ hg.wellFormed.callee_lt hc)]
    rfl
  have hpast : ∀ cs ⊆ (g.block b).callees,
      any (fun c => do any (fetch l.enters.cells) (← resumptionsOf g b c)) cs
        = .ok (cs.any fun c => l.anyEnters (LiveFlow.resumptions g b c)) := by
    intro cs hcs
    refine any_eq fun c hc => ?_
    obtain ⟨hres, hlt⟩ := resumptionsOf_eq hg hb (hcs hc)
    rw [hres, ok_bind, anyEnters_eq hl hlt]
  have hback : any (fun r => do
        return (← fetch touched.cells r.entry) && (← any (fetch l.enters.cells) r.conts))
      (g.routines.filter fun r => r.returns.contains b)
      = .ok ((g.routines.filter fun r => r.returns.contains b).any fun r =>
        touched.get r.entry && l.anyEnters r.conts) := by
    refine any_eq fun r hr => ?_
    have hmem := (List.mem_filter.mp hr).1
    rw [fetch_cells (htouched.symm ▸ hg.wellFormed.entry_lt hmem), ok_bind,
      anyEnters_eq hl fun k hk => hg.wellFormed.cont_lt hmem hk]
    rfl
  rw [isLiveOut, fetch_block hb, ok_bind, hdirect, ok_bind, huntouched, ok_bind, LiveFlow.isLiveOut]
  cases (g.block b).calls with
  | false =>
    rw [if_neg Bool.false_ne_true, hpast [] (List.nil_subset _), ok_bind, hback]
    rfl
  | true =>
    rw [if_pos rfl, hpast _ fun c hc => (List.mem_filter.mp hc).1, ok_bind, hback]
    rfl

theorem visitBlock_eq (hg : g.Whole) (h : t.Fits g) (htouched : touched.size = g.size)
    (hl : l.enters.size = g.size ∧ l.leaves.size = g.size) (hb : b < g.size) :
    visitBlock g t touched l b = .ok (l.visit g t touched b)
      ∧ (l.visit g t touched b).enters.size = g.size
      ∧ (l.visit g t touched b).leaves.size = g.size := by
  have henters : b < l.enters.size := hl.1.symm ▸ hb
  have hleaves : b < l.leaves.size := hl.2.symm ▸ hb
  rw [visitBlock, isLiveOut_eq hg htouched hl.1 hb, ok_bind, fetch_cells (h.uses.symm ▸ hb),
    ok_bind, store_eq henters, ok_bind, store_eq hleaves]
  refine ⟨rfl, ?_, ?_⟩
  · rw [LiveFlow.visit, Table.size_set, hl.1]
  · rw [LiveFlow.visit, Table.size_set, hl.2]

theorem solve_eq (hg : g.Whole) (h : t.Fits g) (htouched : touched.size = g.size)
    {visits : List Nat} (hvisits : ∀ b ∈ visits, b < g.size) :
    solve g t touched visits = .ok (LiveFlow.solve g t touched visits)
      ∧ (LiveFlow.solve g t touched visits).enters.size = g.size
      ∧ (LiveFlow.solve g t touched visits).leaves.size = g.size := by
  have hround : ∀ l : LiveFlow, l.enters.size = g.size ∧ l.leaves.size = g.size →
      visits.foldlM (visitBlock g t touched) l
          = .ok (visits.foldl (LiveFlow.visit g t touched) l)
        ∧ (visits.foldl (LiveFlow.visit g t touched) l).enters.size = g.size
        ∧ (visits.foldl (LiveFlow.visit g t touched) l).leaves.size = g.size := by
    intro l hl
    exact foldlM_eq (fun l : LiveFlow => l.enters.size = g.size ∧ l.leaves.size = g.size)
      (fun l hl b hb => visitBlock_eq hg h htouched hl (hvisits b hb)) hl
  have hblank : (⟨Table.blank g.size, Table.blank g.size⟩ : LiveFlow).enters.size = g.size ∧
      (⟨Table.blank g.size, Table.blank g.size⟩ : LiveFlow).leaves.size = g.size :=
    ⟨Table.size_blank _, Table.size_blank _⟩
  refine ⟨saturate_eq _ hround hblank, ?_⟩
  exact saturate_keeps (fun l : LiveFlow => l.enters.size = g.size ∧ l.leaves.size = g.size)
    (fun l hl => (hround l hl).2) _ hblank

end Flow

/-! ### Live instances -/

def enteringOf (t : Track) (b : Nat) : Except Trap VersionSet :=
  match t.flow with
  | none => .ok [Version.entry]
  | some f => do return f.webs.canonical (← fetch f.entering.cells b)

def accessesOf (t : Track) (b : Nat) : Except Trap (List Access) := do
  match ← fetch t.uses.cells b with
  | some u => return u.accesses
  | none => return []

def walkThrough (g : Graph) (t : Track) (l : LiveFlow) (found : VersionRanges) (b : Nat) :
    Except Trap VersionRanges := do
  let block ← fetch g.blocks b
  let enters ← fetch l.enters.cells b
  let versions ← enteringOf t b
  let accesses ← accessesOf t b
  let walked := accesses.foldl Walk.step ⟨if enters then versions else [], block.start, found⟩
  let leaves ← fetch l.leaves.cells b
  return if leaves then walked.found.insertAll walked.current walked.since block.stop
    else walked.found

def rangesOf (g : Graph) (order : List Nat) (scopes : Table (Option (Array Bool))) (t : Track) :
    Except Trap VersionRanges := do
  let touched ← tabulate g.size (touches g scopes t)
  let l ← solve g t touched order.reverse
  (List.range g.size).foldlM (walkThrough g t l) []

def instances (a : Analysis) : Except Trap (List LiveInstance) := do
  let scopes ← scopes a.graph
  let found ← a.tracks.mapM fun t => do
    let ranges ← rangesOf a.graph a.order.blocks scopes t
    return ranges.map fun p => ((⟨t.register, p.1⟩ : Instance), p.2)
  return LiveInstance.number [] found.flatten

section Instances

variable {g : Graph} {t : Track} {b : Nat}

theorem enteringOf_eq (h : t.Fits g) (hb : b < g.size) :
    enteringOf t b = .ok (t.entering b) := by
  unfold enteringOf Track.entering
  cases hf : t.flow with
  | none => rfl
  | some f =>
    show (fetch f.entering.cells b >>= _) = _
    rw [fetch_cells ((h.flow f hf).entering.symm ▸ hb)]
    rfl

theorem accessesOf_eq (h : t.Fits g) (hb : b < g.size) :
    accessesOf t b = .ok (t.accesses b) := by
  rw [accessesOf, fetch_cells (h.uses.symm ▸ hb), ok_bind, Track.accesses]
  cases t.uses.get b with
  | none => rfl
  | some u => rfl

theorem walkThrough_eq (h : t.Fits g) {l : LiveFlow}
    (hl : l.enters.size = g.size ∧ l.leaves.size = g.size) (found : VersionRanges)
    (hb : b < g.size) : walkThrough g t l found b = .ok (Walk.through g t l found b) := by
  rw [walkThrough, fetch_block hb, ok_bind, fetch_cells (hl.1.symm ▸ hb), ok_bind,
    enteringOf_eq h hb, ok_bind, accessesOf_eq h hb, ok_bind, fetch_cells (hl.2.symm ▸ hb)]
  rfl

theorem rangesOf_eq (hg : g.Whole) (h : t.Fits g) {order : List Nat}
    (horder : ∀ b ∈ order, b < g.size) :
    rangesOf g order g.scopes t = .ok (LiveInstance.rangesOf g order g.scopes t) := by
  have htouched : tabulate g.size (touches g g.scopes t)
      = .ok (Table.tabulate g.size (t.touches g g.scopes)) :=
    tabulate_eq fun b hb => touches_eq h hb
  obtain ⟨hsolve, hsize⟩ := solve_eq hg h
    (Table.size_tabulate g.size (t.touches g g.scopes))
    fun b (hb : b ∈ order.reverse) => horder b (List.mem_reverse.mp hb)
  rw [rangesOf, htouched, ok_bind, hsolve, ok_bind]
  refine (foldlM_eq (fun _ => True) (fun found _ b hb => ?_) trivial).1
  exact ⟨walkThrough_eq h hsize found (List.mem_range.mp hb), trivial⟩

theorem instances_eq {a : Analysis} (hg : a.graph.Whole) (h : ∀ t ∈ a.tracks, t.Fits a.graph)
    (horder : ∀ b ∈ a.order.blocks, b < a.graph.size) :
    instances a = .ok (LiveInstance.ofAnalysis a) := by
  have hfound := mapM_eq (l := a.tracks)
    (f := fun t => do
      let ranges ← rangesOf a.graph a.order.blocks a.graph.scopes t
      return ranges.map fun p => ((⟨t.register, p.1⟩ : Instance), p.2))
    (F := fun t => (LiveInstance.rangesOf a.graph a.order.blocks a.graph.scopes t).map
      fun p => ((⟨t.register, p.1⟩ : Instance), p.2))
    fun t ht => by rw [rangesOf_eq hg (h t ht) horder]; rfl
  rw [instances, scopes_eq hg, ok_bind, hfound, ok_bind, ← List.flatMap_def]
  rfl

end Instances

/-! ### Links -/

def accessesAt (a : Analysis) (b : Nat) (r : Register) : Except Trap (List Access) :=
  match a.track? r with
  | some t => accessesOf t b
  | none => .ok []

def enteringAt (a : Analysis) (b : Nat) (r : Register) : Except Trap VersionSet :=
  match a.track? r with
  | some t => enteringOf t b
  | none => .ok [Version.entry]

def first? {α : Type} (l : List α) : Except Trap (Option α) :=
  if l.isEmpty then .ok none else (first l).map some

def versionAt? (a : Analysis) (b : Nat) (r : Register) (p : Offset) :
    Except Trap (Option Version) := do
  let accesses ← accessesAt a b r
  let before ← first? (← enteringAt a b r)
  let upTo := accesses.takeWhile fun x => decide (x.offset ≤ p)
  return if upTo.any fun x => x.offset == p then
      match (upTo.filterMap Access.write).getLast? with
      | some v => some v
      | none => before
    else none

def indices? (a : Analysis) (is : List LiveInstance) (b : Nat) (p : Offset) (head : Register) :
    List Register → Except Trap (Option (List Nat))
  | [] => .ok (some [])
  | r :: rest =>
    if !r.isSlot then .ok none
    else if r.bank ≠ head.bank then .error (.failed (.structural p (.groupMixes head r)))
    else do
      match (← versionAt? a b r p).bind fun v => LiveInstance.index? is ⟨r, v⟩ with
      | none => .error (.failed (.structural p (.groupUnused r)))
      | some i => do
        let found ← indices? a is b p head rest
        return found.map fun is => i :: is

/-- Neighbours are read by their places in the group. -/
def bindAll (ls : Links) (bank : Bank) (n : Offset) (indices : List Nat) : Except Trap Links := do
  let head ← first indices
  (List.range (indices.length - 1)).foldlM (fun ls i => do
    return ls.join bank (← fetch indices.toArray i) (← fetch indices.toArray (i + 1)))
    (ls.align bank head n)

def linkGroup (a : Analysis) (is : List LiveInstance) (ls : Links) (d : SlotGroup) :
    Except Trap Links :=
  if d.slots.isEmpty then .ok ls
  else do
    match ← blockAt a.graph.length a.graph.blocks d.offset with
    | none => .error (.failed (.structural d.offset .groupOutside))
    | some b => do
      let head ← first d.slots
      match ← indices? a is b d.offset head d.slots with
      | none => return ls
      | some found => bindAll ls head.bank d.align found

section Links

variable {a : Analysis} {is : List LiveInstance} {b : Nat}

theorem accessesAt_eq (h : ∀ t ∈ a.tracks, t.Fits a.graph) (hb : b < a.graph.size)
    (r : Register) : accessesAt a b r = .ok (((a.use? b r).map Use.accesses).getD []) := by
  rw [accessesAt, Analysis.use?]
  cases ht : a.track? r with
  | none => rfl
  | some t =>
    show accessesOf t b = _
    rw [accessesOf_eq (h t (List.mem_of_find?_eq_some ht)) hb, Track.accesses, Option.bind_some]
    cases t.uses.get b with
    | none => rfl
    | some u => rfl

theorem enteringAt_eq (h : ∀ t ∈ a.tracks, t.Fits a.graph) (hb : b < a.graph.size)
    (r : Register) : enteringAt a b r = .ok (a.entering b r) := by
  rw [enteringAt, Analysis.entering]
  cases ht : a.track? r with
  | none => rfl
  | some t => exact enteringOf_eq (h t (List.mem_of_find?_eq_some ht)) hb

theorem first?_eq {α : Type} (l : List α) : first? l = .ok l.head? := by
  cases l with
  | nil => rfl
  | cons a l => rfl

theorem versionAt?_eq (h : ∀ t ∈ a.tracks, t.Fits a.graph) (hb : b < a.graph.size) (r : Register)
    (p : Offset) : versionAt? a b r p = .ok (SlotGroup.versionAt? a b r p) := by
  rw [versionAt?, accessesAt_eq h hb, ok_bind, enteringAt_eq h hb, ok_bind, first?_eq]
  rfl

theorem indices?_eq (h : ∀ t ∈ a.tracks, t.Fits a.graph) (hb : b < a.graph.size) (p : Offset)
    (head : Register) (slots : List Register) :
    indices? a is b p head slots = lift (SlotGroup.indices? a is b p head slots) := by
  induction slots with
  | nil => rfl
  | cons r rest ih =>
    unfold indices? SlotGroup.indices?
    split
    · rfl
    · split
      · rfl
      · rw [versionAt?_eq h hb, ok_bind, SlotGroup.indexAt?]
        cases (SlotGroup.versionAt? a b r p).bind fun v => LiveInstance.index? is ⟨r, v⟩ with
        | none => rfl
        | some i =>
          show (indices? a is b p head rest >>= _) = lift (_ >>= _)
          rw [lift_bind, ih]
          rfl

theorem length_of_indices? {p : Offset} {head : Register} {slots : List Register}
    {found : List Nat} (h : SlotGroup.indices? a is b p head slots = .ok (some found)) :
    found.length = slots.length := by
  induction slots generalizing found with
  | nil =>
    cases h
    rfl
  | cons r rest ih =>
    unfold SlotGroup.indices? at h
    split at h
    · cases h
    · split at h
      · cases h
      · split at h
        · cases h
        · rename_i i _
          obtain ⟨tail, htail, h⟩ := bind_eq_ok.mp h
          cases tail with
          | none => cases h
          | some tail =>
            cases h
            rw [List.length_cons, List.length_cons, ih htail]

theorem foldl_join_eq (bank : Bank) (indices : List Nat) (ls : Links) :
    (List.range (indices.length - 1)).foldl
      (fun ls i => ls.join bank (indices.toArray.getD i default)
        (indices.toArray.getD (i + 1) default)) ls = ls.chain bank indices := by
  induction indices generalizing ls with
  | nil => rfl
  | cons i rest ih =>
    cases rest with
    | nil => rfl
    | cons j rest =>
      rw [Links.chain, ← ih, List.length_cons, Nat.add_sub_cancel, List.length_cons,
        List.range_succ_eq_map, List.foldl_cons, List.foldl_map, Nat.add_sub_cancel]
      simp

theorem bindAll_eq (ls : Links) (bank : Bank) (n : Offset) {indices : List Nat}
    (h : indices ≠ []) : bindAll ls bank n indices = .ok (ls.bind bank n indices) := by
  cases indices with
  | nil => exact absurd rfl h
  | cons i rest =>
    show (List.range ((i :: rest).length - 1)).foldlM _ (ls.align bank i n) = _
    rw [Links.bind, ← foldl_join_eq]
    refine (foldlM_eq (fun _ => True) (fun ls _ j hj => ?_) trivial).1
    have hlt := List.mem_range.mp hj
    have hnext : j + 1 < (i :: rest).toArray.size := by
      rw [List.size_toArray]
      omega
    rw [fetch_eq (Nat.lt_of_succ_lt hnext), ok_bind, fetch_eq hnext]
    exact ⟨rfl, trivial⟩

theorem linkGroup_eq (h : ∀ t ∈ a.tracks, t.Fits a.graph) (ls : Links) (d : SlotGroup) :
    linkGroup a is ls d = lift (SlotGroup.link a is ls d) := by
  unfold linkGroup SlotGroup.link Graph.blockAt
  cases hslots : d.slots with
  | nil => rfl
  | cons head rest =>
    rw [List.isEmpty_cons, if_neg Bool.false_ne_true, blockAt_eq]
    cases hblock : RegisterWeb.blockAt a.graph.length a.graph.blocks d.offset with
    | error e => rfl
    | ok place =>
      cases place with
      | none => rfl
      | some b =>
        have hb : b < a.graph.size := Graph.lt_size_of_blockAt hblock
        show (indices? a is b d.offset head (head :: rest) >>= _) = lift (_ >>= _)
        rw [lift_bind, indices?_eq h hb]
        cases hfound : SlotGroup.indices? a is b d.offset head (head :: rest) with
        | error e => rfl
        | ok found =>
          cases found with
          | none => rfl
          | some found =>
            have hne : found ≠ [] := by
              intro hnil
              have hlength := length_of_indices? hfound
              rw [hnil] at hlength
              cases hlength
            exact bindAll_eq ls head.bank d.align hne

end Links

/-! ### Live sets -/

def blocksOfRange (g : Graph) (r : Range) : Except Trap (List Nat) := do
  match ← blockAt g.length g.blocks r.start with
  | none => return []
  | some b =>
    takeWhile (fun c => do return decide ((← fetch g.blocks c).start < r.stop))
      ((List.range g.size).drop b)

def blocksOf (g : Graph) (i : LiveInstance) : Except Trap (LiveInstance × List Nat) := do
  let blocks ← i.ranges.mapM (blocksOfRange g)
  return (i, blocks.flatten)

def routineSet (scopes : Table (Option (Array Bool))) (placed : List (LiveInstance × List Nat))
    (entry : Nat) : Except Trap LiveSet := do
  let live ← filter (fun p => any (inScope scopes entry) p.2) placed
  return live.map fun p => (p.1.bank, p.1.index)

def callSet (g : Graph) (routineSets : List (Nat × LiveSet))
    (placed : List (LiveInstance × List Nat)) (b : Nat) : Except Trap LiveSet := do
  let block ← fetch g.blocks b
  let inside := block.callees.map fun c => (routineSets.lookup c).getD []
  return Live.select placed fun i _ =>
    i.ranges.contains (block.stop - 1) && !inside.any fun s => s.contains (i.bank, i.index)

def ofInstances (a : Analysis) (is : List LiveInstance) (groups : List SlotGroup) :
    Except Trap Live := do
  let links ← groups.foldlM (linkGroup a is) []
  let placed ← is.mapM (blocksOf a.graph)
  let scopes ← scopes a.graph
  let routineSets ← a.graph.routines.mapM fun r => do
    return (r.entry, ← routineSet scopes placed r.entry)
  let calls ← filter (fun b => do return (← fetch a.graph.blocks b).continuation?.isSome)
    (List.range a.graph.size)
  let callSets ← calls.mapM fun b => do
    return (b, ← callSet a.graph routineSets placed b)
  return ⟨is, links, callSets, routineSets⟩

section Sets

variable {g : Graph}

theorem blocksOfRange_eq (g : Graph) (r : Range) :
    blocksOfRange g r = lift (Live.blocksOfRange g r) := by
  unfold blocksOfRange Live.blocksOfRange Graph.blockAt
  rw [blockAt_eq]
  cases RegisterWeb.blockAt g.length g.blocks r.start with
  | error e => rfl
  | ok found =>
    cases found with
    | none => rfl
    | some b =>
      refine takeWhile_eq fun c hc => ?_
      rw [fetch_block (List.mem_range.mp (List.mem_of_mem_drop hc))]
      rfl

theorem blocksOf_eq (g : Graph) (i : LiveInstance) :
    blocksOf g i = lift (Live.blocksOf g i) := by
  rw [blocksOf, Live.blocksOf, lift_bind, mapM_lift fun r _ => blocksOfRange_eq g r]
  rfl

theorem lt_of_blocksOf {i : LiveInstance} {p : LiveInstance × List Nat}
    (h : Live.blocksOf g i = .ok p) : ∀ b ∈ p.2, b < g.size := by
  obtain ⟨blocks, hblocks, h⟩ := bind_eq_ok.mp h
  cases h
  intro b hb
  obtain ⟨bs, hbs, hb⟩ := List.mem_flatten.mp hb
  obtain ⟨r, _, hr⟩ := exists_of_mem_mapM hblocks hbs
  unfold Live.blocksOfRange at hr
  split at hr
  · cases hr
  · cases hr
    exact absurd hb List.not_mem_nil
  · cases hr
    exact List.mem_range.mp (List.mem_of_mem_drop ((List.takeWhile_sublist _).subset hb))

theorem routineSet_eq {placed : List (LiveInstance × List Nat)}
    (h : ∀ p ∈ placed, ∀ b ∈ p.2, b < g.size) {entry : Nat} (hentry : entry < g.size) :
    routineSet g.scopes placed entry = .ok (Live.routineSet g.scopes placed entry) := by
  have hlive : filter (fun p => any (inScope g.scopes entry) p.2) placed
      = .ok (placed.filter fun p => p.2.any (Graph.inScope g.scopes entry)) :=
    filter_eq fun p hp => any_eq fun b hb => inScope_eq hentry (h p hp b hb)
  rw [routineSet, hlive]
  rfl

theorem ofInstances_eq {a : Analysis} (hg : a.graph.Whole) (h : ∀ t ∈ a.tracks, t.Fits a.graph)
    (is : List LiveInstance) (groups : List SlotGroup) :
    ofInstances a is groups = lift (Live.ofInstances a is groups) := by
  rw [ofInstances, Live.ofInstances, lift_bind, SlotGroup.linkAll,
    foldlM_lift fun ls d _ => linkGroup_eq h ls d]
  congr 1
  funext links
  rw [lift_bind, mapM_lift fun i _ => blocksOf_eq a.graph i]
  cases hplaced : is.mapM (Live.blocksOf a.graph) with
  | error e => rfl
  | ok placed =>
    have hin : ∀ p ∈ placed, ∀ b ∈ p.2, b < a.graph.size := by
      intro p hp
      obtain ⟨i, _, hi⟩ := exists_of_mem_mapM hplaced hp
      exact lt_of_blocksOf hi
    have hroutines := mapM_eq (l := a.graph.routines)
      (f := fun r => do return (r.entry, ← routineSet a.graph.scopes placed r.entry))
      (F := fun r => (r.entry, Live.routineSet a.graph.scopes placed r.entry))
      fun r hr => by rw [routineSet_eq hin (hg.wellFormed.entry_lt hr)]; rfl
    have hcalls : filter (fun b => do return (← fetch a.graph.blocks b).continuation?.isSome)
        (List.range a.graph.size) = .ok ((List.range a.graph.size).filter fun b =>
          (a.graph.block b).continuation?.isSome) :=
      filter_fetch (fun b : Block => b.continuation?.isSome) fun b hb => List.mem_range.mp hb
    have hsets : ∀ sets : List (Nat × LiveSet),
        ((List.range a.graph.size).filter fun b => (a.graph.block b).continuation?.isSome).mapM
          (fun b => do return (b, ← callSet a.graph sets placed b))
        = .ok (((List.range a.graph.size).filter fun b =>
          (a.graph.block b).continuation?.isSome).map
            fun b => (b, Live.callSet a.graph sets placed b)) := by
      intro sets
      refine mapM_eq fun b hb => ?_
      rw [callSet, fetch_block (List.mem_range.mp (List.mem_filter.mp hb).1)]
      rfl
    rw [lift_ok, ok_bind, ok_bind, scopes_eq hg, ok_bind, hroutines, ok_bind, hcalls, ok_bind]
    exact congrArg (· >>= _) (hsets _)

end Sets

end Strict

end RegisterWeb
