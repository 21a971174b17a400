import Mathlib.Data.List.Forall2
import RegisterWeb.Graph.Build
import RegisterWeb.Proofs.Ascending

/-!
The shape of built graphs. Edges lead to blocks, the lists of predecessors are the edges turned
around, and the routines are those of the called blocks. Every graph that comes out of a list of
hints has this shape, also where sizes wrap around.
-/

namespace RegisterWeb

/-! ### Stages that may fail -/

theorem bind_eq_ok {ε α β : Type} {x : Except ε α} {f : α → Except ε β} {b : β} :
    (x >>= f) = .ok b ↔ ∃ a, x = .ok a ∧ f a = .ok b := by
  cases x with
  | error e => simp [bind, Except.bind]
  | ok a => simp [bind, Except.bind]

theorem forall₂_of_mapM {ε α β : Type} {f : α → Except ε β} {l : List α} {l' : List β}
    (h : l.mapM f = .ok l') : List.Forall₂ (fun a b => f a = .ok b) l l' := by
  induction l generalizing l' with
  | nil =>
    cases h
    exact List.Forall₂.nil
  | cons a l ih =>
    rw [List.mapM_cons] at h
    obtain ⟨b, hb, h⟩ := bind_eq_ok.mp h
    obtain ⟨bs, hbs, h⟩ := bind_eq_ok.mp h
    cases h
    exact List.Forall₂.cons hb (ih hbs)

theorem exists_of_mem_mapM {ε α β : Type} {f : α → Except ε β} {l : List α} {l' : List β}
    (h : l.mapM f = .ok l') {b : β} (hb : b ∈ l') : ∃ a ∈ l, f a = .ok b := by
  have hall := forall₂_of_mapM h
  clear h
  induction hall with
  | nil => exact absurd hb List.not_mem_nil
  | cons hab _ ih =>
    rcases List.mem_cons.mp hb with rfl | hb
    · exact ⟨_, List.mem_cons_self .., hab⟩
    · obtain ⟨a, ha, hfa⟩ := ih hb
      exact ⟨a, List.mem_cons_of_mem _ ha, hfa⟩

theorem exists_mem_of_mapM {ε α β : Type} {f : α → Except ε β} {l : List α} {l' : List β}
    (h : l.mapM f = .ok l') {a : α} (ha : a ∈ l) : ∃ b ∈ l', f a = .ok b := by
  have hall := forall₂_of_mapM h
  clear h
  induction hall with
  | nil => exact absurd ha List.not_mem_nil
  | cons hab _ ih =>
    rcases List.mem_cons.mp ha with rfl | ha
    · exact ⟨_, List.mem_cons_self .., hab⟩
    · obtain ⟨b, hb, hfa⟩ := ih ha
      exact ⟨b, List.mem_cons_of_mem _ hb, hfa⟩

/-! ### Edges -/

namespace Block

theorem mem_callees (b : Block) (c : Nat) : c ∈ b.callees ↔ ⟨c, true⟩ ∈ b.next := by
  simp only [callees, List.mem_map, List.mem_filter]
  refine ⟨?_, fun h => ⟨_, ⟨h, rfl⟩, rfl⟩⟩
  intro ⟨⟨d, isCall⟩, ⟨hmem, hcall⟩, heq⟩
  simp only at hcall heq
  rwa [← heq, ← hcall]

theorem mem_successors (b : Block) (c : Nat) : c ∈ b.successors ↔ ⟨c, false⟩ ∈ b.next := by
  simp only [successors, List.mem_map, List.mem_filter]
  refine ⟨?_, fun h => ⟨_, ⟨h, rfl⟩, rfl⟩⟩
  intro ⟨⟨d, isCall⟩, ⟨hmem, hcall⟩, heq⟩
  simp only [Bool.not_eq_true'] at hcall heq
  rwa [← heq, ← hcall]

theorem continuation?_mem {b : Block} {k : Nat} (h : b.continuation? = some k) :
    b.calls = true ∧ k ∈ b.successors := by
  simp only [continuation?] at h
  split at h
  · rename_i hcalls
    rw [Option.map_eq_some_iff] at h
    obtain ⟨e, he, rfl⟩ := h
    refine ⟨hcalls, ?_⟩
    have hcall := List.find?_some he
    rw [Bool.not_eq_true'] at hcall
    rw [mem_successors, ← hcall]
    exact List.mem_of_find?_eq_some he
  · simp at h

theorem isTailCall_iff (b : Block) :
    b.isTailCall = true ↔ b.calls = true ∧ b.successors = [] := by
  simp only [isTailCall, continuation?, successors, Bool.and_eq_true]
  refine and_congr_right fun hcalls => ?_
  rw [if_pos hcalls, Option.isNone_iff_eq_none, Option.map_eq_none_iff, List.map_eq_nil_iff,
    List.find?_eq_none, List.filter_eq_nil_iff]

theorem continuation?_of_isTailCall {b : Block} (h : b.isTailCall = true) :
    b.continuation? = none := by
  simp only [isTailCall, Bool.and_eq_true, Option.isNone_iff_eq_none] at h
  exact h.2

end Block

namespace Graph

/-- Edges lead to blocks, predecessors are edges turned around, and every called block enters a
routine. -/
structure WellFormed (g : Graph) : Prop where
  next_lt : ∀ b, ∀ e ∈ (g.block b).next, e.block < g.size
  mem_preds : ∀ b e, e ∈ g.preds.get b ↔ ⟨b, e.isCall⟩ ∈ (g.block e.block).next
  routines_eq : g.routines = Routine.all g.blocks g.preds

theorem block_of_size_le {g : Graph} {b : Nat} (h : g.size ≤ b) : g.block b = default := by
  rw [block, Array.getD_eq_getD_getElem?, Array.getElem?_eq_none h, Option.getD_none]

theorem lt_size_of_mem_next {g : Graph} {b : Nat} {e : Edge} (h : e ∈ (g.block b).next) :
    b < g.size := by
  by_contra hb
  rw [block_of_size_le (Nat.le_of_not_lt hb)] at h
  exact absurd h List.not_mem_nil

theorem WellFormed.callee_lt {g : Graph} (h : g.WellFormed) {b c : Nat}
    (hc : c ∈ (g.block b).callees) : c < g.size :=
  h.next_lt b _ ((Block.mem_callees _ c).mp hc)

theorem WellFormed.successor_lt {g : Graph} (h : g.WellFormed) {b c : Nat}
    (hc : c ∈ (g.block b).successors) : c < g.size :=
  h.next_lt b _ ((Block.mem_successors _ c).mp hc)

/-! ### Graphs of linked blocks -/

/-- Blocks stand at the places that their numbers say. -/
def Numbered (blocks : Array Block) : Prop :=
  ∀ i (h : i < blocks.size), blocks[i].id = i

theorem mem_edgesInto {blocks : Array Block} (hid : Numbered blocks) (b : Nat) (e : Edge) :
    e ∈ edgesInto blocks b ↔ ⟨b, e.isCall⟩ ∈ (blocks.getD e.block default).next := by
  simp only [edgesInto, List.mem_flatMap, List.mem_map, List.mem_filter, Array.mem_toList_iff]
  constructor
  · intro ⟨source, hsource, edge, ⟨hedge, hblock⟩, heq⟩
    obtain ⟨i, hi, rfl⟩ := Array.mem_iff_getElem.mp hsource
    rw [← heq, hid i hi, Array.getD_eq_getD_getElem?, Array.getElem?_eq_getElem hi,
      Option.getD_some]
    have hb : edge.block = b := by simpa using hblock
    rw [← hb]
    exact hedge
  · intro h
    have hlt : e.block < blocks.size := by
      by_contra hge
      rw [Array.getD_eq_getD_getElem?, Array.getElem?_eq_none (Nat.le_of_not_lt hge),
        Option.getD_none] at h
      exact absurd h List.not_mem_nil
    rw [Array.getD_eq_getD_getElem?, Array.getElem?_eq_getElem hlt, Option.getD_some] at h
    refine ⟨blocks[e.block], Array.getElem_mem hlt, _, ⟨h, by simp⟩, ?_⟩
    rw [hid e.block hlt]

theorem get_predecessors {blocks : Array Block} (hid : Numbered blocks)
    (hlt : ∀ b, ∀ e ∈ (blocks.getD b default).next, e.block < blocks.size) (b : Nat) (e : Edge) :
    e ∈ (predecessors blocks).get b ↔ ⟨b, e.isCall⟩ ∈ (blocks.getD e.block default).next := by
  rw [predecessors, Table.get_tabulate]
  split
  · exact mem_edgesInto hid b e
  · rename_i hb
    refine ⟨fun h => absurd h List.not_mem_nil, fun h => ?_⟩
    exact absurd (hlt _ _ h) hb

/- Marking the roots leaves the edges alone. -/
theorem wellFormed_ofBlocks {n : Offset} {boundaries : List Offset} {blocks : Array Block}
    (hid : Numbered blocks)
    (hlt : ∀ b, ∀ e ∈ (blocks.getD b default).next, e.block < blocks.size) :
    (ofBlocks n boundaries blocks).WellFormed := by
  have hsize : (ofBlocks n boundaries blocks).size = blocks.size := by
    simp [ofBlocks, size]
  have hnext : ∀ b, ((ofBlocks n boundaries blocks).block b).next
      = (blocks.getD b default).next := by
    intro b
    simp only [ofBlocks, block, Array.getD_eq_getD_getElem?, Array.getElem?_map]
    cases blocks[b]? with
    | none => rfl
    | some c => rfl
  refine ⟨?_, ?_, rfl⟩
  · intro b e he
    rw [hnext] at he
    rw [hsize]
    exact hlt b e he
  · intro b e
    rw [hnext]
    exact get_predecessors hid hlt b e

/-! ### Graphs of hints -/

theorem lt_size_of_blockAt {n : Offset} {blocks : Array Block} {p : Offset} {b : Nat}
    (h : RegisterWeb.blockAt n blocks p = .ok (some b)) : b < blocks.size := by
  simp only [RegisterWeb.blockAt] at h
  split at h
  · simp at h
  · have hle := bisect_le blocks.size fun i => decide (p < (blocks.getD i default).start)
    split at h
    · simp at h
    · rename_i i hi
      have hb : i = b := by simpa using h
      omega

theorem lt_size_of_locate {n : Offset} {blocks : Array Block} {p : Offset} {b : Nat}
    (h : Transfer.locate n blocks p = .ok b) : b < blocks.size := by
  simp only [Transfer.locate] at h
  split at h
  · rename_i c hc
    have hb : c = b := by simpa using h
    exact hb ▸ lt_size_of_blockAt hc
  · simp at h
  · simp at h

theorem target_lt_of_ofHints {n : Offset} {blocks : Array Block} {hints : List Hint}
    {transfers : List Transfer} (h : Transfer.ofHints n blocks hints = .ok transfers) :
    ∀ t ∈ transfers, ∀ b ∈ t.targets, b < blocks.size := by
  intro t ht b hb
  obtain ⟨hint, _, hhint⟩ := exists_of_mem_mapM h ht
  obtain ⟨source, _, hrest⟩ := bind_eq_ok.mp hhint
  obtain ⟨targets, htargets, hrest⟩ := bind_eq_ok.mp hrest
  cases hrest
  obtain ⟨p, _, hp⟩ := exists_of_mem_mapM htargets hb
  exact lt_size_of_locate hp

theorem through_lt {blocks : Array Block} {boundaries : List Offset} {b : Nat} {e : Edge}
    (h : e ∈ Layout.through blocks boundaries b) : e.block < blocks.size := by
  simp only [Layout.through] at h
  split at h
  · rename_i after hafter
    obtain ⟨hlt, _⟩ := Array.getElem?_eq_some_iff.mp hafter
    split at h
    · exact absurd h List.not_mem_nil
    · rw [List.mem_singleton.mp h]
      exact hlt
  · exact absurd h List.not_mem_nil

theorem edges_lt {m : Nat} {through : List Edge} {t : Transfer}
    (hthrough : ∀ e ∈ through, e.block < m) (htargets : ∀ b ∈ t.targets, b < m) :
    ∀ e ∈ t.edges through, e.block < m := by
  have hmap : ∀ isCall : Bool, ∀ e ∈ t.targets.map (fun b => (⟨b, isCall⟩ : Edge)),
      e.block < m := by
    intro isCall e he
    obtain ⟨b, hb, rfl⟩ := List.mem_map.mp he
    exact htargets b hb
  have hcall : ∀ e ∈ (if t.targets.isEmpty then ([] : List Edge)
      else t.targets.map (fun b => ⟨b, true⟩) ++ (if t.final then [] else through)),
      e.block < m := by
    intro e he
    split at he
    · exact absurd he List.not_mem_nil
    · rcases List.mem_append.mp he with he | he
      · exact hmap true e he
      · split at he
        · exact absurd he List.not_mem_nil
        · exact hthrough e he
  intro e he
  simp only [Transfer.edges] at he
  split at he
  · exact hmap false e he
  · exact hmap false e he
  · rcases List.mem_append.mp he with he | he
    · exact hmap false e he
    · exact hthrough e he
  · exact hcall e he
  · exact hcall e he
  · exact absurd he List.not_mem_nil

theorem numbered_layout (n : Offset) (starts : List Offset) :
    Numbered (Layout.blocks n starts) := by
  intro i h
  simp [Layout.blocks]

theorem numbered_link {blocks : Array Block} (hid : Numbered blocks) (boundaries : List Offset)
    (transfers : List Transfer) : Numbered (Layout.link blocks boundaries transfers) := by
  intro i h
  have hi : i < blocks.size := by simpa [Layout.link] using h
  simp only [Layout.link, Array.getElem_map, Layout.linkBlock]
  exact hid i hi

theorem link_next_lt {blocks : Array Block} {boundaries : List Offset} {transfers : List Transfer}
    (htargets : ∀ t ∈ transfers, ∀ b ∈ t.targets, b < blocks.size) (b : Nat) :
    ∀ e ∈ ((Layout.link blocks boundaries transfers).getD b default).next,
      e.block < (Layout.link blocks boundaries transfers).size := by
  intro e he
  have hsize : (Layout.link blocks boundaries transfers).size = blocks.size := by
    simp [Layout.link]
  rw [hsize]
  simp only [Layout.link, Array.getD_eq_getD_getElem?, Array.getElem?_map] at he
  cases hb : blocks[b]? with
  | none =>
    rw [hb] at he
    exact absurd he List.not_mem_nil
  | some block =>
    rw [hb, Option.map_some, Option.getD_some] at he
    simp only [Layout.linkBlock, Ascending.mem_ofList] at he
    split at he
    · exact through_lt he
    · obtain ⟨t, ht, he⟩ := List.mem_flatMap.mp he
      have ht' := (List.mem_filter.mp ht).1
      exact edges_lt (fun e he => through_lt he) (htargets t ht') e he

theorem wellFormed_empty : (⟨0, #[], default, [], []⟩ : Graph).WellFormed := by
  have hblock : ∀ b, ((⟨0, #[], default, [], []⟩ : Graph).block b).next = [] := fun b => rfl
  refine ⟨?_, ?_, rfl⟩
  · intro b e he
    rw [hblock] at he
    exact absurd he List.not_mem_nil
  · intro b e
    have hpreds : (default : Table (List Edge)).get b = [] := rfl
    rw [hblock, hpreds]
    exact ⟨fun h => absurd h List.not_mem_nil, fun h => absurd h List.not_mem_nil⟩

theorem wellFormed_of_build {s : Settings} {code : Code} {n : Offset} {hints : List Hint}
    {g : Graph} (h : build s code n hints = .ok g) : g.WellFormed := by
  simp only [build] at h
  split at h
  · split at h
    · cases h
      exact wellFormed_empty
    · cases h
  · simp only [ofHints] at h
    obtain ⟨starts, _, h⟩ := bind_eq_ok.mp h
    obtain ⟨transfers, htransfers, h⟩ := bind_eq_ok.mp h
    cases h
    exact wellFormed_ofBlocks (numbered_link (numbered_layout n starts) _ _)
      (link_next_lt (target_lt_of_ofHints htransfers))

end Graph

end RegisterWeb
