import Mathlib
import RegisterWeb.Proofs.Layout
import RegisterWeb.Proofs.Order
import RegisterWeb.Proofs.Routine
import RegisterWeb.Proofs.Strict.Read

/-!
The graph of a section by strict evaluation: branch targets are divided by the alignment, hints and
targets are located among the blocks, edges are turned around, and routines are searched through.
All of it reads inside of its tables, whatever the hints are.
-/

namespace RegisterWeb

namespace Graph

/-- A graph that can be read at each of its blocks and edges. -/
structure Whole (g : Graph) : Prop where
  wellFormed : g.WellFormed
  preds_size : g.preds.size = g.size

theorem whole_of_build {s : Settings} {code : Code} {n : Offset} {hints : List Hint} {g : Graph}
    (h : build s code n hints = .ok g) : g.Whole := by
  refine ⟨wellFormed_of_build h, ?_⟩
  by_cases hn : n = 0
  · subst hn
    rw [(build_zero h).2]
    rfl
  · obtain ⟨starts, transfers, hstages⟩ := exists_stages h hn
    rw [hstages.graph]
    simp [ofBlocks, predecessors, size]

theorem Whole.pred_lt {g : Graph} (h : g.Whole) {b : Nat} {e : Edge} (he : e ∈ g.preds.get b) :
    e.block < g.size :=
  lt_size_of_mem_next ((h.wellFormed.mem_preds b e).mp he)

theorem Whole.block_lt {g : Graph} (h : g.Whole) {r : Routine} (hr : r ∈ g.routines) {b : Nat}
    (hb : b ∈ r.blocks) : b < g.size := by
  obtain ⟨i, _, heq⟩ := h.wellFormed.exists_body hr
  rw [heq] at hb
  exact List.mem_range.mp (List.mem_filter.mp hb).1

end Graph

namespace Strict

theorem fetch_block {g : Graph} {b : Nat} (hb : b < g.size) : fetch g.blocks b = .ok (g.block b) :=
  fetch_eq hb

/-! ### Where blocks start -/

def isAligned (s : Settings) (p : Offset) : Except Trap Bool :=
  if s.instrAlign ≤ 1 then .ok true
  else if s.instrAlign = 0 then .error .zeroDivisor
  else .ok (p % s.instrAlign == 0)

def targetFlaw? (s : Settings) (n : Offset) (known : List Instr) (t : Offset) :
    Except Trap (Option TargetFlaw) :=
  if t < 0 ∨ n ≤ t then .ok (some .outside)
  else do
    if !(← isAligned s t) then return some .misaligned
    else
      match Instr.lastAt? known t with
      | some i => return if i.offset < t ∧ t < i.next then some .insideInstruction else none
      | none => return none

def checkTargets (s : Settings) (n : Offset) (known : List Instr) (h : Hint) : Except Trap Unit :=
  h.targets.forM fun t => do
    match ← targetFlaw? s n known t with
    | some flaw => .error (.failed (.structural h.offset (.badTarget t flaw)))
    | none => .ok ()

def entriesOf (s : Settings) (n : Offset) (known : List Instr) (h : Hint) :
    Except Trap (List Offset) :=
  match h.kind with
  | .label | .boundary => .ok [h.offset]
  | .ret | .halt => .ok [Instr.after known h]
  | _ => do
    checkTargets s n known h
    return h.targets ++ [Instr.after known h]

def starts (s : Settings) (code : Code) (n : Offset) (hints : List Hint) :
    Except Trap (List Offset) := do
  let known ← lift (Instr.ofHints s code n hints)
  let marked ← hints.mapM (entriesOf s n known)
  return (Ascending.ofList (0 :: marked.flatten)).filter fun p => p != n

section Starts

variable (s : Settings) (code : Code) (n : Offset) (known : List Instr)

theorem isAligned_eq (p : Offset) : isAligned s p = .ok (s.isAligned p) := by
  unfold isAligned Settings.isAligned
  by_cases hone : s.instrAlign ≤ 1
  · simp [hone]
  · have hzero : s.instrAlign ≠ 0 := by
      intro hzero
      rw [hzero] at hone
      exact hone (by decide)
    simp [hone, hzero]

theorem targetFlaw?_eq (t : Offset) :
    targetFlaw? s n known t = .ok (Instr.targetFlaw? s n known t) := by
  unfold targetFlaw? Instr.targetFlaw?
  split
  · rfl
  · rw [isAligned_eq, ok_bind]
    split
    · rfl
    · cases Instr.lastAt? known t <;> rfl

theorem checkTargets_eq (h : Hint) :
    checkTargets s n known h = lift (Instr.checkTargets s n known h) := by
  refine forM_lift fun t _ => ?_
  rw [targetFlaw?_eq, ok_bind]
  cases Instr.targetFlaw? s n known t <;> rfl

theorem entriesOf_eq (h : Hint) :
    entriesOf s n known h = lift (Instr.entriesOf s n known h) := by
  have hbranch : (do checkTargets s n known h; return h.targets ++ [Instr.after known h])
      = lift (do Instr.checkTargets s n known h; return h.targets ++ [Instr.after known h]) := by
    rw [checkTargets_eq, lift_bind]
    rfl
  unfold entriesOf Instr.entriesOf
  cases h.kind with
  | label => rfl
  | boundary => rfl
  | ret => rfl
  | halt => rfl
  | jump => exact hbranch
  | condJump => exact hbranch
  | indirectJump => exact hbranch
  | call => exact hbranch
  | indirectCall => exact hbranch
  | other code => exact hbranch

theorem starts_eq (hints : List Hint) :
    starts s code n hints = lift (Layout.starts s code n hints) := by
  rw [starts, Layout.starts, lift_bind]
  congr 1
  funext known
  rw [lift_bind, mapM_lift fun h _ => entriesOf_eq s n known h]
  rfl

end Starts

/-! ### Offsets among blocks -/

def blockAt (n : Offset) (blocks : Array Block) (p : Offset) : Except Trap (Option Nat) :=
  if p < 0 ∨ n ≤ p then .ok none
  else do
    match ← bisectFrom (fun i => do return decide (p < (← fetch blocks i).start)) 0 blocks.size with
    | 0 => .error (.failed (.fault (.noBlock p)))
    | i + 1 => .ok (some i)

/-- The block that holds an offset is looked at. -/
def locate (n : Offset) (blocks : Array Block) (p : Offset) : Except Trap Nat := do
  match ← blockAt n blocks p with
  | some b => do
    let _ ← fetch blocks b
    return b
  | none => .error (.failed (.fault (.noBlock p)))

def transfer (n : Offset) (blocks : Array Block) (exits : List Offset) (h : Hint) :
    Except Trap Transfer := do
  let source ← locate n blocks h.offset
  let targets ← (if h.kind.isExit then [] else h.targets).mapM (locate n blocks)
  return ⟨source, h.kind, targets, exits.contains h.offset⟩

def transfers (n : Offset) (blocks : Array Block) (hints : List Hint) :
    Except Trap (List Transfer) :=
  let exits := (hints.filter fun h => h.kind.isExit).map Hint.offset
  (hints.filter fun h => h.kind.terminates).mapM (transfer n blocks exits)

section Locate

variable (n : Offset) (blocks : Array Block)

theorem blockAt_eq (p : Offset) :
    blockAt n blocks p = lift ((RegisterWeb.blockAt n blocks p).mapError Failure.fault) := by
  unfold blockAt RegisterWeb.blockAt
  split
  · rfl
  · have hsearch : bisectFrom (fun i => do return decide (p < (← fetch blocks i).start)) 0
          blocks.size
        = .ok (bisect blocks.size fun i => decide (p < (blocks.getD i default).start)) := by
      refine bisectFrom_eq fun i hi => ?_
      rw [fetch_eq hi]
      rfl
    rw [hsearch, ok_bind]
    cases bisect blocks.size fun i => decide (p < (blocks.getD i default).start) <;> rfl

-- without blocks the search for an offset of the section stops
example : blockAt 4 #[] 1 = .error (.failed (.fault (.noBlock 1))) := by
  cbv

theorem locate_eq (p : Offset) : locate n blocks p = lift (Transfer.locate n blocks p) := by
  unfold locate Transfer.locate
  rw [blockAt_eq]
  cases hb : RegisterWeb.blockAt n blocks p with
  | error e => rfl
  | ok found =>
    cases found with
    | none => rfl
    | some b =>
      show (fetch blocks b >>= fun _ => .ok b) = .ok b
      rw [fetch_eq (Graph.lt_size_of_blockAt hb)]
      rfl

theorem transfer_eq (exits : List Offset) (h : Hint) :
    transfer n blocks exits h = lift (Transfer.ofHint n blocks exits h) := by
  rw [transfer, Transfer.ofHint, lift_bind, locate_eq]
  congr 1
  funext source
  rw [lift_bind, mapM_lift fun p _ => locate_eq n blocks p]
  rfl

theorem transfers_eq (hints : List Hint) :
    transfers n blocks hints = lift (Transfer.ofHints n blocks hints) :=
  mapM_lift fun h _ => transfer_eq n blocks _ h

end Locate

/-! ### Edges -/

/-- The next block is looked at unless this one is the last. -/
def through (blocks : Array Block) (boundaries : List Offset) (b : Nat) :
    Except Trap (List Edge) :=
  if b + 1 = blocks.size then .ok []
  else do
    let after ← fetch blocks (b + 1)
    return if boundaries.contains after.start then [] else [⟨b + 1, false⟩]

def linkBlock (blocks : Array Block) (boundaries : List Offset) (transfers : List Transfer)
    (b : Block) : Except Trap Block := do
  let mine := transfers.filter fun t => t.source == b.id
  let through ← through blocks boundaries b.id
  let next := if mine.isEmpty then through else mine.flatMap (Transfer.edges through)
  return { b with
    next := Ascending.ofList next
    calls := mine.any Transfer.calls
    returns := mine.any fun t => t.kind == .ret
    ends := mine.any Transfer.ends }

/-- One cell after the other. -/
def mapCells {α β : Type} (f : α → Except Trap β) (cells : Array α) : Except Trap (Array β) := do
  let mapped ← cells.toList.mapM f
  return mapped.toArray

/-- The edges of all blocks, each with the block that it comes from. -/
def edgesOf (blocks : Array Block) : List (Nat × Edge) :=
  blocks.toList.flatMap fun b => b.next.map fun e => (b.id, e)

def turn (preds : Table (List Edge)) (p : Nat × Edge) : Except Trap (Table (List Edge)) := do
  let into ← fetch preds.cells p.2.block
  store preds p.2.block (into ++ [⟨p.1, p.2.isCall⟩])

def predecessors (blocks : Array Block) : Except Trap (Table (List Edge)) :=
  (edgesOf blocks).foldlM turn (Table.blank blocks.size)

section Edges

variable {blocks : Array Block}

theorem mapCells_eq {α β : Type} {f : α → Except Trap β} {F : α → β} {cells : Array α}
    (h : ∀ x ∈ cells, f x = .ok (F x)) : mapCells f cells = .ok (cells.map F) := by
  have hlist : cells.toList.mapM f = .ok (cells.toList.map F) :=
    mapM_eq fun x hx => h x (Array.mem_toList_iff.mp hx)
  rw [mapCells, hlist, ok_bind, ← Array.toList_map]
  rfl

theorem through_eq (boundaries : List Offset) {b : Nat} (hb : b < blocks.size) :
    through blocks boundaries b = .ok (Layout.through blocks boundaries b) := by
  unfold through Layout.through
  split
  · rename_i hlast
    rw [Array.getElem?_eq_none (Nat.le_of_eq hlast.symm)]
  · rename_i hlast
    have hlt : b + 1 < blocks.size := by omega
    rw [Array.getElem?_eq_getElem hlt, fetch_eq hlt, ok_bind, Array.getD_eq_getD_getElem?,
      Array.getElem?_eq_getElem hlt]
    rfl

theorem id_lt_of_mem (hid : Graph.Numbered blocks) {b : Block} (hb : b ∈ blocks) :
    b.id < blocks.size := by
  obtain ⟨i, hi, rfl⟩ := Array.getElem_of_mem hb
  exact (hid i hi).symm ▸ hi

theorem link_eq (hid : Graph.Numbered blocks) (boundaries : List Offset)
    (transfers : List Transfer) : mapCells (linkBlock blocks boundaries transfers) blocks
      = .ok (Layout.link blocks boundaries transfers) := by
  refine mapCells_eq fun b hb => ?_
  rw [linkBlock, through_eq boundaries (id_lt_of_mem hid hb)]
  rfl

/-- The table after some edges have been turned around. -/
theorem turned (edges : List (Nat × Edge)) (t : Table (List Edge))
    (hlt : ∀ p ∈ edges, p.2.block < t.size) : ∃ t', edges.foldlM turn t = .ok t' ∧
      t'.size = t.size ∧ ∀ c, t'.get c = t.get c ++
        (edges.filter fun p => p.2.block == c).map fun p => ⟨p.1, p.2.isCall⟩ := by
  induction edges generalizing t with
  | nil => exact ⟨t, rfl, rfl, fun c => (List.append_nil _).symm⟩
  | cons p edges ih =>
    obtain ⟨hp, hrest⟩ := List.forall_mem_cons.mp hlt
    have hturn : turn t p
        = .ok (t.set p.2.block (t.get p.2.block ++ [⟨p.1, p.2.isCall⟩])) := by
      rw [turn, fetch_cells hp, ok_bind, store_eq hp]
    obtain ⟨t', hfold, hsize, hget⟩ := ih (t.set p.2.block (t.get p.2.block ++ [⟨p.1, p.2.isCall⟩]))
      (by simpa only [Table.size_set] using hrest)
    refine ⟨t', by rw [List.foldlM_cons, hturn, ok_bind, hfold], by rw [hsize, Table.size_set], ?_⟩
    intro c
    rw [hget, Table.get_set, List.filter_cons]
    by_cases hc : p.2.block = c
    · simp [hc, hc ▸ hp]
    · simp [hc]

theorem predecessors_eq (hlt : ∀ b ∈ blocks, ∀ e ∈ b.next, e.block < blocks.size) :
    predecessors blocks = .ok (Graph.predecessors blocks) := by
  have hedges : ∀ p ∈ edgesOf blocks,
      p.2.block < (Table.blank blocks.size : Table (List Edge)).size := by
    intro p hp
    obtain ⟨b, hb, hp⟩ := List.mem_flatMap.mp hp
    obtain ⟨e, he, rfl⟩ := List.mem_map.mp hp
    rw [Table.size_blank]
    exact hlt b (Array.mem_toList_iff.mp hb) e he
  obtain ⟨t, hfold, hsize, hget⟩ := turned (edgesOf blocks) (Table.blank blocks.size) hedges
  rw [predecessors, hfold]
  congr 1
  rw [Table.size_blank] at hsize
  refine Table.ext_get (by rw [hsize, Graph.predecessors, Table.size_tabulate]) fun c hc => ?_
  rw [hget, Table.get_blank, Graph.predecessors, Table.get_tabulate, if_pos (hsize ▸ hc), edgesOf,
    List.filter_flatMap, List.map_flatMap, Graph.edgesInto]
  simp only [List.filter_map, List.map_map]
  rfl

end Edges

/-! ### Routines -/

def isCalled (preds : Table (List Edge)) (b : Nat) : Except Trap Bool := do
  let into ← fetch preds.cells b
  return into.any Edge.isCall

def enteredAt (blocks : Array Block) (entry : Nat) : Except Trap Routine := do
  let body ← reachable blocks.size (fun b => do return (← fetch blocks b).successors) [entry]
  let returns ← filter (fun i => do
    let b ← fetch blocks i
    return !b.isTailCall && b.returns) body
  let tailCalls ← filter (fun b => do return (← fetch blocks b).isTailCall) body
  let sites ← filter (fun b => do return (← fetch blocks b).callees.contains entry)
    (List.range blocks.size)
  return ⟨entry, body, returns, tailCalls, sites, []⟩

def heirs (blocks : Array Block) (routines : List Routine) (r : Routine) :
    Except Trap (List Nat) := do
  let tails ← filter (fun s => do return (← fetch blocks s).continuation?.isNone) r.sites
  filter (fun i => do
    let owner ← fetch routines.toArray i
    return tails.any owner.contains) (List.range routines.length)

def resumptions (blocks : Array Block) (r : Routine) : Except Trap (List Nat) := do
  let found ← r.sites.mapM fun s => do return (← fetch blocks s).continuation?
  return found.reduceOption

def continuations (blocks : Array Block) (routines : List Routine) (i : Nat) :
    Except Trap (List Nat) := do
  let closed ← reachable routines.length
    (fun j => do heirs blocks routines (← fetch routines.toArray j)) [i]
  let found ← closed.mapM fun j => do resumptions blocks (← fetch routines.toArray j)
  return Ascending.ofList found.flatten

def routines (blocks : Array Block) (preds : Table (List Edge)) : Except Trap (List Routine) := do
  let entries ← filter (isCalled preds) (List.range blocks.size)
  let bodies ← entries.mapM (enteredAt blocks)
  bodies.zipIdx.mapM fun p => do return { p.1 with conts := ← continuations blocks bodies p.2 }

section Routines

variable {blocks : Array Block}

theorem isCalled_eq {preds : Table (List Edge)} {b : Nat} (hb : b < preds.size) :
    isCalled preds b = .ok (Graph.isCalled preds b) := by
  rw [isCalled, fetch_cells hb]
  rfl

theorem enteredAt_eq (hlt : ∀ b, ∀ e ∈ (blocks.getD b default).next, e.block < blocks.size)
    {entry : Nat} (hentry : entry < blocks.size) :
    enteredAt blocks entry = .ok (Routine.enteredAt blocks entry) := by
  have hbody : reachable blocks.size (fun b => do return (← fetch blocks b).successors) [entry]
      = .ok (Routine.enteredAt blocks entry).blocks := by
    refine reachable_eq (F := fun b => (blocks.getD b default).successors) ?_ ?_
    · intro b hb
      refine ⟨by rw [fetch_eq hb]; rfl, fun c hc => ?_⟩
      exact hlt b _ ((Block.mem_successors _ c).mp hc)
    · intro x hx
      rwa [List.mem_singleton.mp hx]
  have hin : ∀ b ∈ (Routine.enteredAt blocks entry).blocks, b < blocks.size := by
    intro b hb
    exact List.mem_range.mp (List.mem_filter.mp hb).1
  have hreturns := filter_fetch (fun b : Block => !b.isTailCall && b.returns) hin
  have htails := filter_fetch Block.isTailCall hin
  have hsites := filter_fetch (fun b : Block => b.callees.contains entry)
    fun b (hb : b ∈ List.range blocks.size) => List.mem_range.mp hb
  rw [enteredAt, hbody, ok_bind, hreturns, ok_bind, htails, ok_bind, hsites]
  rfl

variable {bodies : List Routine}

theorem fetch_routine {i : Nat} (hi : i < bodies.length) :
    fetch bodies.toArray i = .ok (bodies[i]?.getD default) := by
  rw [fetch_eq (by simpa using hi)]
  simp

theorem heirs_eq {r : Routine} (hsites : ∀ s ∈ r.sites, s < blocks.size) :
    heirs blocks bodies r = .ok (Routine.heirs blocks bodies r) := by
  rw [heirs, filter_fetch (fun b : Block => b.continuation?.isNone) hsites, ok_bind]
  refine filter_eq fun i hi => ?_
  have hlt := List.mem_range.mp hi
  rw [fetch_routine hlt, ok_bind, List.getElem?_eq_getElem hlt]
  rfl

theorem resumptions_eq {r : Routine} (hsites : ∀ s ∈ r.sites, s < blocks.size) :
    resumptions blocks r = .ok (Routine.resumptions blocks r) := by
  have hfound := mapM_eq (l := r.sites) (f := fun s => do return (← fetch blocks s).continuation?)
    (F := fun s => (blocks.getD s default).continuation?)
    fun s hs => by rw [fetch_eq (hsites s hs)]; rfl
  rw [resumptions, hfound, ok_bind, List.reduceOption, List.filterMap_map]
  rfl

theorem continuations_eq (hsites : ∀ r ∈ bodies, ∀ s ∈ r.sites, s < blocks.size) {i : Nat}
    (hi : i < bodies.length) :
    continuations blocks bodies i = .ok (Routine.continuations blocks bodies i) := by
  have hat : ∀ j < bodies.length, ∀ s ∈ (bodies[j]?.getD default).sites, s < blocks.size := by
    intro j hj
    rw [List.getElem?_eq_getElem hj, Option.getD_some]
    exact hsites _ (List.getElem_mem hj)
  have hclosed : reachable bodies.length
      (fun j => do heirs blocks bodies (← fetch bodies.toArray j)) [i]
      = .ok (RegisterWeb.reachable bodies.length
        (fun j => Routine.heirs blocks bodies (bodies[j]?.getD default)) [i]) := by
    refine reachable_eq ?_ ?_
    · intro j hj
      refine ⟨by rw [fetch_routine hj, ok_bind, heirs_eq (hat j hj)], fun c hc => ?_⟩
      exact List.mem_range.mp (List.mem_filter.mp hc).1
    · intro x hx
      rwa [List.mem_singleton.mp hx]
  have hfound := mapM_eq
    (l := RegisterWeb.reachable bodies.length
      (fun j => Routine.heirs blocks bodies (bodies[j]?.getD default)) [i])
    (f := fun j => do resumptions blocks (← fetch bodies.toArray j))
    (F := fun j => Routine.resumptions blocks (bodies[j]?.getD default))
    fun j hj => by
      have hlt := List.mem_range.mp (List.mem_filter.mp hj).1
      rw [fetch_routine hlt, ok_bind, resumptions_eq (hat j hlt)]
  rw [continuations, hclosed, ok_bind, hfound, ok_bind, ← List.flatMap_def]
  rfl

theorem routines_eq {preds : Table (List Edge)} (hsize : preds.size = blocks.size)
    (hlt : ∀ b, ∀ e ∈ (blocks.getD b default).next, e.block < blocks.size) :
    routines blocks preds = .ok (Routine.all blocks preds) := by
  have hentries : filter (isCalled preds) (List.range blocks.size)
      = .ok ((List.range blocks.size).filter (Graph.isCalled preds)) :=
    filter_eq fun b hb => isCalled_eq (hsize ▸ List.mem_range.mp hb)
  have hbodies := mapM_eq (l := (List.range blocks.size).filter (Graph.isCalled preds))
    (f := enteredAt blocks) (F := Routine.enteredAt blocks)
    fun b hb => enteredAt_eq hlt (List.mem_range.mp (List.mem_filter.mp hb).1)
  rw [routines, hentries, ok_bind, hbodies, ok_bind]
  refine mapM_eq fun p hp => ?_
  have hsites : ∀ r ∈ ((List.range blocks.size).filter (Graph.isCalled preds)).map
      (Routine.enteredAt blocks), ∀ s ∈ r.sites, s < blocks.size := by
    intro r hr s hs
    obtain ⟨b, _, rfl⟩ := List.mem_map.mp hr
    exact List.mem_range.mp (List.mem_filter.mp hs).1
  have hi := List.snd_lt_of_mem_zipIdx hp
  rw [continuations_eq hsites (by simpa using hi)]
  rfl

end Routines

/-! ### Graphs -/

def isRoot (preds : Table (List Edge)) (boundaries : List Offset) (b : Block) :
    Except Trap Bool := do
  let into ← fetch preds.cells b.id
  let called ← isCalled preds b.id
  return b.id == 0 || into.isEmpty || (boundaries.contains b.start && !called)

def ofBlocks (n : Offset) (boundaries : List Offset) (blocks : Array Block) :
    Except Trap Graph := do
  let preds ← predecessors blocks
  let blocks ← mapCells (fun b => do return { b with root := ← isRoot preds boundaries b }) blocks
  return { length := n, blocks, preds, routines := ← routines blocks preds, boundaries }

def ofHints (s : Settings) (code : Code) (n : Offset) (hints : List Hint) : Except Trap Graph := do
  let starts ← starts s code n hints
  let blocks := Layout.blocks n starts
  let transfers ← transfers n blocks hints
  let boundaries := Ascending.ofList ((hints.filter fun h => h.kind == .boundary).map Hint.offset)
  ofBlocks n boundaries (← mapCells (linkBlock blocks boundaries transfers) blocks)

def build (s : Settings) (code : Code) (n : Offset) (hints : List Hint) : Except Trap Graph :=
  let hints := Hint.sort hints
  if n = 0 then
    match hints with
    | [] => .ok ⟨0, #[], default, [], []⟩
    | h :: _ => .error (.failed (.structural h.offset .hintInEmptySection))
  else ofHints s code n hints

theorem ofBlocks_eq {blocks : Array Block} (hid : Graph.Numbered blocks)
    (hlt : ∀ b, ∀ e ∈ (blocks.getD b default).next, e.block < blocks.size) (n : Offset)
    (boundaries : List Offset) :
    ofBlocks n boundaries blocks = .ok (Graph.ofBlocks n boundaries blocks) := by
  have hmem : ∀ b ∈ blocks, ∀ e ∈ b.next, e.block < blocks.size := by
    intro b hb e he
    obtain ⟨i, hi, rfl⟩ := Array.getElem_of_mem hb
    exact hlt i e (by simpa [hi] using he)
  have hsize : (Graph.predecessors blocks).size = blocks.size := Table.size_tabulate ..
  have hroots : mapCells (fun b => do
        return { b with root := ← isRoot (Graph.predecessors blocks) boundaries b }) blocks
      = .ok (Graph.ofBlocks n boundaries blocks).blocks := by
    refine mapCells_eq fun b hb => ?_
    have hlt := hsize.symm ▸ id_lt_of_mem hid hb
    rw [isRoot, fetch_cells hlt, ok_bind, isCalled_eq hlt]
    rfl
  -- marking the roots leaves the edges alone
  have hwf : (Graph.ofBlocks n boundaries blocks).WellFormed := Graph.wellFormed_ofBlocks hid hlt
  have hmarked : (Graph.ofBlocks n boundaries blocks).blocks.size = blocks.size := Array.size_map ..
  rw [ofBlocks, predecessors_eq hmem, ok_bind, hroots, ok_bind,
    routines_eq (hsize.trans hmarked.symm) hwf.next_lt]
  rfl

/-- The strict graph is the graph. -/
theorem build_eq (s : Settings) (code : Code) (n : Offset) (hints : List Hint) :
    build s code n hints = lift (Graph.build s code n hints) := by
  unfold build Graph.build
  split
  · cases Hint.sort hints <;> rfl
  · rename_i hn
    rw [ofHints, Graph.ofHints, starts_eq, lift_bind]
    congr 1
    funext starts
    simp only [transfers_eq, lift_bind]
    cases htransfers : Transfer.ofHints n (Layout.blocks n starts) (Hint.sort hints) with
    | error e => rfl
    | ok transfers =>
      have hid := Graph.numbered_layout n starts
      rw [lift_ok, ok_bind, ok_bind, link_eq hid, ok_bind,
        ofBlocks_eq (Graph.numbered_link hid _ _)
          (Graph.link_next_lt (Graph.target_lt_of_ofHints htransfers))]
      rfl

/-! ### The flow order -/

def numbers (n : Nat) (parts : List (List Nat)) : Except Trap (Table (Option Nat)) :=
  parts.zipIdx.foldlM (fun t p => p.1.foldlM (fun t b => store t b (some p.2)) t) (Table.blank n)

def crossings (g : Graph) (numbers : Table (Option Nat)) : Except Trap (List (Nat × Nat)) := do
  let found ← (List.range g.size).mapM fun b => do
    ((← fetch g.blocks b).next.map Edge.block).mapM fun t => do
      return Graph.crossing (← fetch numbers.cells b) (← fetch numbers.cells t)
  return found.flatMap fun l => l.filterMap id

def degrees (n : Nat) (pairs : List (Nat × Nat)) : Except Trap (Table Int) :=
  pairs.foldlM (fun t p => do store t p.2 ((← fetch t.cells p.2) + 1)) (Table.blank n)

def outs (n : Nat) (pairs : List (Nat × Nat)) : Except Trap (Table (List Nat)) :=
  pairs.foldlM (fun t p => do store t p.1 ((← fetch t.cells p.1) ++ [p.2])) (Table.blank n)

def release (f : Frontier) (c : Nat) : Except Trap Frontier := do
  let d ← fetch f.degrees.cells c
  let degrees ← store f.degrees c (d - 1)
  return ⟨degrees, if d - 1 = 0 then f.ready ++ [c] else f.ready⟩

/-- Takes off the edges that leave the lowest component that is ready. -/
def advance (outs : Table (List Nat)) (f : Frontier) : Except Trap Frontier := do
  let c ← first f.ready.mergeSort
  (← fetch outs.cells c).foldlM release f.rest

theorem eq_of_release {f f' : Frontier} {c : Nat} (h : release f c = .ok f') : f' = f.release c := by
  obtain ⟨d, hd, h⟩ := bind_eq_ok.mp h
  obtain ⟨t, ht, h⟩ := bind_eq_ok.mp h
  cases h
  rw [eq_of_store ht, eq_of_fetch hd]
  rfl

theorem room_advance_lt {outs : Table (List Nat)} {f f' : Frontier} (hsome : f.ready ≠ [])
    (h : advance outs f = .ok f') : f'.room < f.room := by
  obtain ⟨c, _, h⟩ := bind_eq_ok.mp h
  obtain ⟨edges, _, h⟩ := bind_eq_ok.mp h
  rw [eq_of_foldlM (fun _ _ _ => eq_of_release) h]
  exact Nat.lt_of_le_of_lt (Frontier.room_foldl_release ..) (Frontier.room_rest_lt hsome)

def list (outs : Table (List Nat)) (f : Frontier) : Except Trap (List Nat) :=
  if _none : f.ready = [] then .ok []
  else
    match _next : advance outs f with
    | .error e => .error e
    | .ok next => do return f.first :: (← list outs next)
termination_by f.room
decreasing_by
  exact room_advance_lt _none _next

def frontier (n : Nat) (pairs : List (Nat × Nat)) : Except Trap Frontier := do
  let degrees ← degrees n pairs
  let ready ← filter (fun i => do return decide ((← fetch degrees.cells i) = 0)) (List.range n)
  return ⟨degrees, ready⟩

def listing (g : Graph) (parts : List (List Nat)) : Except Trap (List (List Nat)) := do
  let pairs ← crossings g (← numbers g.size parts)
  let out ← outs parts.length pairs
  let start ← frontier parts.length pairs
  let listed ← list out start
  listed.mapM (fetch parts.toArray)

/-- Each component is known by its lowest block. -/
def components (g : Graph) : Except Trap (List (List Nat)) := do
  g.unordered.forM fun c => do
    let _ ← first c
  listing g (Graph.ranked g.unordered)

def flowOrder (g : Graph) : Except Trap FlowOrder := do
  let blocks := (← components g).flatten
  let rank ← blocks.zipIdx.foldlM (fun t p => store t p.1 p.2) (Table.blank g.size)
  return ⟨blocks, rank⟩

section Order

variable {g : Graph} {n : Nat} {pairs : List (Nat × Nat)}

theorem numbers_eq {parts : List (List Nat)} (h : ∀ c ∈ parts, ∀ b ∈ c, b < n) :
    numbers n parts = .ok (Graph.numbers n parts) ∧ (Graph.numbers n parts).size = n := by
  refine foldlM_eq (fun t : Table (Option Nat) => t.size = n) (fun t ht p hp => ?_)
    (Table.size_blank n)
  refine foldlM_eq (fun t : Table (Option Nat) => t.size = n) (fun t ht b hb => ?_) ht
  have hlt := h p.1 (List.fst_mem_of_mem_zipIdx hp) b hb
  exact ⟨store_eq (ht.symm ▸ hlt) _, (Table.size_set ..).trans ht⟩

theorem crossings_eq (hg : g.Whole) {numbers : Table (Option Nat)} (h : numbers.size = g.size) :
    crossings g numbers = .ok (g.crossings numbers) := by
  have hfound : ((List.range g.size).mapM fun b => do
        ((← fetch g.blocks b).next.map Edge.block).mapM fun t => do
          return Graph.crossing (← fetch numbers.cells b) (← fetch numbers.cells t))
      = .ok ((List.range g.size).map fun b =>
        (g.targets b).map fun t => Graph.crossing (numbers.get b) (numbers.get t)) := by
    refine mapM_eq fun b hb => ?_
    have hb := List.mem_range.mp hb
    rw [fetch_block hb, ok_bind]
    refine mapM_eq fun t ht => ?_
    obtain ⟨e, he, rfl⟩ := List.mem_map.mp ht
    have hlt := hg.wellFormed.next_lt b e he
    rw [fetch_cells (h.symm ▸ hb), ok_bind, fetch_cells (h.symm ▸ hlt)]
    rfl
  rw [crossings, hfound, ok_bind, List.flatMap_map, Graph.crossings]
  simp only [List.filterMap_map, Function.id_comp]
  rfl

theorem degrees_eq (h : Frontier.Apart n pairs) :
    degrees n pairs = .ok (Graph.degrees n pairs) ∧ (Graph.degrees n pairs).size = n := by
  refine foldlM_eq (fun t : Table Int => t.size = n) (fun t ht p hp => ?_) (Table.size_blank n)
  have hlt : p.2 < t.size := ht.symm ▸ (h p hp).2.1
  rw [fetch_cells hlt, ok_bind, store_eq hlt]
  exact ⟨rfl, (Table.size_set ..).trans ht⟩

/-- The degrees are those of `n` components, and the ready ones are among them. -/
def Bounded (n : Nat) (f : Frontier) : Prop :=
  f.degrees.size = n ∧ ∀ c ∈ f.ready, c < n

theorem frontier_eq (h : Frontier.Apart n pairs) :
    frontier n pairs = .ok (Graph.frontier n pairs) ∧ Bounded n (Graph.frontier n pairs) := by
  obtain ⟨hdegrees, hsize⟩ := degrees_eq h
  have hrange : ∀ i ∈ List.range n, i < (Graph.degrees n pairs).cells.size := fun i hi =>
    (List.mem_range.mp hi).trans_eq hsize.symm
  have hready := filter_fetch (fun d => decide (d = 0)) hrange
  rw [frontier, hdegrees, ok_bind, hready]
  exact ⟨rfl, hsize, fun c hc => List.mem_range.mp (List.mem_filter.mp hc).1⟩

theorem outs_eq (h : Frontier.Apart n pairs) :
    outs n pairs = .ok (Graph.outs n pairs) ∧ (Graph.outs n pairs).size = n := by
  refine foldlM_eq (fun t : Table (List Nat) => t.size = n) (fun t ht p hp => ?_)
    (Table.size_blank n)
  have hlt : p.1 < t.size := ht.symm ▸ (h p hp).1
  rw [fetch_cells hlt, ok_bind, store_eq hlt]
  exact ⟨rfl, (Table.size_set ..).trans ht⟩

theorem advance_eq {out : Table (List Nat)} {f : Frontier} (hf : Bounded n f)
    (hout : out.size = n ∧ ∀ i, ∀ c ∈ out.get i, c < n) (hsome : f.ready ≠ []) :
    f.first < n ∧ advance out f = .ok ((out.get f.first).foldl Frontier.release f.rest) ∧
      Bounded n ((out.get f.first).foldl Frontier.release f.rest) := by
  obtain ⟨hperm, _⟩ := Frontier.first_rest hsome
  have hready : ∀ c ∈ f.first :: f.rest.ready, c < n := fun c hc => hf.2 c (hperm.mem_iff.mpr hc)
  obtain ⟨hfirst, hrest⟩ := List.forall_mem_cons.mp hready
  have hhead : first f.ready.mergeSort = .ok f.first := by
    cases hlist : f.ready.mergeSort with
    | nil =>
      have hlength : f.ready.mergeSort.length = f.ready.length := List.length_mergeSort _
      rw [hlist] at hlength
      exact absurd (List.length_eq_zero_iff.mp hlength.symm) hsome
    | cons c ready => rw [first, Frontier.first, hlist, List.headD_cons]
  have hsteps := foldlM_eq (f := release) (F := Frontier.release) (Bounded n)
    (l := out.get f.first) (fun f hf c hc => by
      have hc := hout.2 _ c hc
      have hlt : c < f.degrees.size := hf.1.symm ▸ hc
      rw [release, fetch_cells hlt, ok_bind, store_eq hlt]
      refine ⟨rfl, (Table.size_set ..).trans hf.1, fun d hd => ?_⟩
      simp only [Frontier.release] at hd
      split at hd
      · rcases List.mem_append.mp hd with hd | hd
        · exact hf.2 d hd
        · exact List.mem_singleton.mp hd ▸ hc
      · exact hf.2 d hd) (s := f.rest) ⟨hf.1, hrest⟩
  rw [advance, hhead, ok_bind, fetch_cells (hout.1.symm ▸ hfirst), ok_bind]
  exact ⟨hfirst, hsteps⟩

theorem list_eq {out : Table (List Nat)} {f : Frontier} (hf : Bounded n f)
    (hout : out.size = n ∧ ∀ i, ∀ c ∈ out.get i, c < n) :
    list out f = .ok (Frontier.list out f) ∧ ∀ c ∈ Frontier.list out f, c < n := by
  fun_induction Frontier.list out f with
  | case1 f hnone =>
    rw [list, dif_pos hnone]
    exact ⟨rfl, fun c hc => absurd hc List.not_mem_nil⟩
  | case2 f hsome ih =>
    obtain ⟨hfirst, hnext, hbounded⟩ := advance_eq hf hout hsome
    obtain ⟨hrest, hlt⟩ := ih hbounded
    refine ⟨?_, List.forall_mem_cons.mpr ⟨hfirst, hlt⟩⟩
    rw [list, dif_neg hsome]
    split
    · rename_i e herr
      rw [hnext] at herr
      cases herr
    · rename_i next hok
      rw [hnext] at hok
      cases hok
      rw [hrest]
      rfl

theorem listing_eq (hg : g.Whole) {parts : List (List Nat)} (h : Graph.Parts g.size parts)
    (hranked : Graph.ranked parts = parts) : listing g parts = .ok (g.listing parts) := by
  have hapart := h.apart_crossings
  obtain ⟨hnumbers, hsize⟩ := numbers_eq fun c hc b hb =>
    h.mem_iff.mp (List.mem_flatten.mpr ⟨c, hc, hb⟩)
  obtain ⟨houts, hosize⟩ := outs_eq hapart
  obtain ⟨hfrontier, hbounded⟩ := frontier_eq hapart
  obtain ⟨hlist, hlisted⟩ := list_eq hbounded ⟨hosize, fun i c hc => by
    rw [Graph.get_outs fun p hp => (hapart p hp).1] at hc
    exact (hapart _ (Frontier.mem_leaving.mp hc)).2.1⟩
  rw [listing, hnumbers, ok_bind, crossings_eq hg hsize, ok_bind, houts, ok_bind, hfrontier,
    ok_bind, hlist, ok_bind, Graph.listing, hranked]
  refine mapM_eq fun i hi => ?_
  have hcell : parts.toArray.getD i [] = parts.getD i [] := by simp [List.getD_eq_getElem?_getD]
  exact (fetch_eq (hlisted i hi)).trans (congrArg _ hcell)

theorem components_eq (hg : g.Whole) : components g = .ok g.components := by
  have hheads : (g.unordered.forM fun c => do
      let _ ← first c : Except Trap Unit) = .ok () := by
    refine forM_eq fun c hc => ?_
    obtain ⟨b, _, hhead, rfl⟩ := (Graph.mem_unordered g c).mp hc
    cases hcomp : g.component b with
    | nil => rw [hcomp] at hhead; cases hhead
    | cons x rest => rfl
  have hranked := Graph.ranked_unordered g
  rw [components, hheads, ok_bind, hranked, listing_eq hg (Graph.parts_unordered g) hranked]
  rfl

theorem flowOrder_eq (hg : g.Whole) : flowOrder g = .ok (FlowOrder.ofGraph g) := by
  have hrank := (foldlM_eq (f := fun t p => store t p.1 p.2) (F := fun t p => t.set p.1 p.2)
    (fun t : Table Nat => t.size = g.size) (l := g.order.zipIdx) (s := Table.blank g.size)
    (fun t ht p hp => by
      have hlt := (Graph.mem_order g p.1).mp (List.fst_mem_of_mem_zipIdx hp)
      exact ⟨store_eq (ht.symm ▸ hlt) p.2, by rw [Table.size_set, ht]⟩) (Table.size_blank _)).1
  rw [flowOrder, components_eq hg, ok_bind]
  change (g.order.zipIdx.foldlM (fun t p => store t p.1 p.2) (Table.blank g.size) >>= _) = _
  rw [hrank]
  rfl

end Order

end Strict

end RegisterWeb
