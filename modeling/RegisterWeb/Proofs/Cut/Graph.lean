import Mathlib
import RegisterWeb.Proofs.CallSet

/-!
Graphs in which one block is cut in two. The first part only falls through to the second, and the
second goes on where the whole block did. Blocks after the cut are numbered one higher. Every way
through the graph has its counterpart, so the same blocks reach each other, and the routines are the
same but for the numbers.
-/

namespace RegisterWeb

open Relation

namespace Seam

/-- The number that the start of block `b` has when block `i` is cut. -/
def head (i b : Nat) : Nat :=
  if b ≤ i then b else b + 1

/-- The number that the end of block `b` has when block `i` is cut. -/
def tail (i b : Nat) : Nat :=
  if b < i then b else b + 1

/-- The blocks that block `b` becomes when block `i` is cut. -/
def parts (i b : Nat) : List Nat :=
  if b = i then [i, i + 1] else [head i b]

variable {i b c n : Nat}

@[simp] theorem head_self : head i i = i := by
  simp [head]

@[simp] theorem tail_self : tail i i = i + 1 := by
  simp [tail]

theorem tail_of_ne (h : b ≠ i) : tail i b = head i b := by
  unfold tail head
  split <;> split <;> omega

theorem head_inj : head i b = head i c ↔ b = c := by
  unfold head
  split <;> split <;> omega

theorem tail_inj : tail i b = tail i c ↔ b = c := by
  unfold tail
  split <;> split <;> omega

theorem head_lt_head : head i b < head i c ↔ b < c := by
  unfold head
  split <;> split <;> omega

theorem head_ne : head i b ≠ i + 1 := by
  unfold head
  split <;> omega

theorem tail_ne : tail i b ≠ i := by
  unfold tail
  split <;> omega

theorem head_lt (hi : i < n) : head i b < n + 1 ↔ b < n := by
  unfold head
  split <;> omega

theorem tail_lt (hi : i < n) : tail i b < n + 1 ↔ b < n := by
  unfold tail
  split <;> omega

theorem exists_head (h : c ≠ i + 1) : ∃ b, c = head i b := by
  by_cases hc : c ≤ i
  · exact ⟨c, by simp [head, hc]⟩
  · exact ⟨c - 1, by unfold head; split <;> omega⟩

theorem exists_tail (h : c ≠ i) : ∃ b, c = tail i b := by
  by_cases hc : c < i
  · exact ⟨c, by simp [tail, hc]⟩
  · exact ⟨c - 1, by unfold tail; split <;> omega⟩

theorem mem_parts : c ∈ parts i b ↔ c = head i b ∨ c = tail i b := by
  unfold parts
  split
  · rename_i h
    simp [h]
  · rename_i h
    simp [tail_of_ne h]

theorem parts_of_ne (h : b ≠ i) : parts i b = [head i b] :=
  if_neg h

theorem head_mem_parts : head i b ∈ parts i c ↔ b = c := by
  rw [mem_parts, head_inj]
  constructor
  · rintro (h | h)
    · exact h
    · by_cases hc : c = i
      · rw [hc, tail_self] at h
        exact absurd h head_ne
      · rwa [tail_of_ne hc, head_inj] at h
  · exact Or.inl

theorem tail_mem_parts : tail i b ∈ parts i c ↔ b = c := by
  rw [mem_parts, tail_inj]
  constructor
  · rintro (h | h)
    · by_cases hb : b = i
      · rw [hb, tail_self] at h
        exact absurd h.symm head_ne
      · rwa [tail_of_ne hb, head_inj] at h
    · exact h
  · exact Or.inr

theorem self_mem_parts : i ∈ parts i c ↔ i = c := by
  simpa using head_mem_parts (i := i) (b := i) (c := c)

theorem succ_mem_parts : i + 1 ∈ parts i c ↔ i = c := by
  simpa using tail_mem_parts (i := i) (b := i) (c := c)

theorem flatMap_ite_nil {β : Type} (p : Nat → Prop) [DecidablePred p] (f : Nat → List β)
    (l : List Nat) :
    (l.flatMap fun b => if p b then f b else []) = (l.filter fun b => p b).flatMap f := by
  induction l with
  | nil => rfl
  | cons b l ih =>
    rw [List.flatMap_cons, ih, List.filter_cons]
    by_cases hb : p b <;> simp [hb]

theorem flatMap_range_of_le (hn : n ≤ i) : (List.range n).flatMap (parts i) = List.range n := by
  rw [List.flatMap_def, List.map_congr_left (g := fun b => [b]), ← List.flatMap_def,
    List.flatMap_singleton']
  intro b hb
  have hbi : b < i := Nat.lt_of_lt_of_le (List.mem_range.mp hb) hn
  rw [parts_of_ne (Nat.ne_of_lt hbi), head, if_pos (Nat.le_of_lt hbi)]

/-- The parts of all blocks, in order, are all blocks. -/
theorem range_eq (hi : i < n) : List.range (n + 1) = (List.range n).flatMap (parts i) := by
  induction n with
  | zero => omega
  | succ n ih =>
    rw [List.range_succ (n := n), List.flatMap_append, List.flatMap_singleton]
    by_cases hn : i = n
    · subst hn
      rw [flatMap_range_of_le (Nat.le_refl i), List.range_succ, List.range_succ, parts, if_pos rfl,
        List.append_assoc]
      rfl
    · rw [← ih (by omega), List.range_succ (n := n + 1), parts_of_ne (Ne.symm hn), head,
        if_neg (by omega)]

/-! ### Ways -/

/-- How the successors of blocks change when block `i` of `n` is cut. -/
structure Ways (i n : Nat) (next next' : Nat → List Nat) : Prop where
  lt : i < n
  tail : ∀ b, next' (tail i b) = (next b).map (head i)
  inner : next' i = [i + 1]

variable {next next' : Nat → List Nat}

theorem Ways.to_tail (h : Ways i n next next') (b : Nat) :
    ReflTransGen (Leads (n + 1) next') (head i b) (Seam.tail i b) := by
  by_cases hb : b = i
  · rw [hb, head_self, tail_self]
    refine .single ⟨?_, Nat.succ_lt_succ h.lt⟩
    rw [h.inner]
    exact List.mem_singleton_self _
  · rw [tail_of_ne hb]

theorem Ways.leads (h : Ways i n next next') (hbc : Leads n next b c) :
    Leads (n + 1) next' (Seam.tail i b) (head i c) := by
  refine ⟨?_, (head_lt h.lt).mpr hbc.2⟩
  rw [h.tail]
  exact List.mem_map_of_mem hbc.1

/-- A step leads from the end of a block to the start of one that follows it, or from the first part
of the block that was cut to the second. -/
theorem Ways.leads_cases (h : Ways i n next next') {x y : Nat} (hxy : Leads (n + 1) next' x y) :
    (x = i ∧ y = i + 1) ∨ ∃ b c, x = Seam.tail i b ∧ y = head i c ∧ Leads n next b c := by
  obtain ⟨hmem, hlt⟩ := hxy
  by_cases hx : x = i
  · rw [hx, h.inner, List.mem_singleton] at hmem
    exact Or.inl ⟨hx, hmem⟩
  · obtain ⟨b, rfl⟩ := exists_tail hx
    rw [h.tail] at hmem
    obtain ⟨c, hc, rfl⟩ := List.mem_map.mp hmem
    exact Or.inr ⟨b, c, rfl, rfl, hc, (head_lt h.lt).mp hlt⟩

theorem Ways.head_path (h : Ways i n next next') (hpath : ReflTransGen (Leads n next) b c) :
    ReflTransGen (Leads (n + 1) next') (head i b) (head i c) := by
  induction hpath with
  | refl => exact .refl
  | tail _ hstep ih => exact (ih.trans (h.to_tail _)).tail (h.leads hstep)

/-- What the start of a block reaches are the parts of the blocks that the whole block reached. -/
theorem Ways.reaches_iff (h : Ways i n next next') (x : Nat) :
    ReflTransGen (Leads (n + 1) next') (head i b) x ↔
      ∃ c, ReflTransGen (Leads n next) b c ∧ x ∈ parts i c := by
  constructor
  · intro hpath
    induction hpath with
    | refl => exact ⟨b, .refl, mem_parts.mpr (Or.inl rfl)⟩
    | tail _ hstep ih =>
      obtain ⟨c, hc, hmem⟩ := ih
      -- A step stays inside of the block that was cut, or is one between whole blocks.
      rcases h.leads_cases hstep with ⟨hx, hy⟩ | ⟨d, e, rfl, rfl, hde⟩
      · rw [hx, self_mem_parts] at hmem
        rw [hy]
        exact ⟨c, hc, succ_mem_parts.mpr hmem⟩
      · obtain rfl := tail_mem_parts.mp hmem
        exact ⟨e, hc.tail hde, mem_parts.mpr (Or.inl rfl)⟩
  · intro hex
    obtain ⟨c, hpath, hmem⟩ := hex
    rcases mem_parts.mp hmem with rfl | rfl
    · exact h.head_path hpath
    · exact (h.head_path hpath).trans (h.to_tail c)

theorem Ways.reaches_head (h : Ways i n next next') :
    ReflTransGen (Leads (n + 1) next') (head i b) (head i c) ↔ ReflTransGen (Leads n next) b c := by
  rw [h.reaches_iff]
  simp only [head_mem_parts, eq_comm (a := c), exists_eq_right]

theorem Ways.reaches_tail (h : Ways i n next next') :
    ReflTransGen (Leads (n + 1) next') (head i b) (Seam.tail i c) ↔
      ReflTransGen (Leads n next) b c := by
  rw [h.reaches_iff]
  simp only [tail_mem_parts, eq_comm (a := c), exists_eq_right]

end Seam

namespace Graph

open Seam

/-! ### Edges into blocks -/

/-- The edges of `g'` are those of `g`, with block `i` in two parts, one after the other. -/
structure Relinked (g g' : Graph) (i : Nat) : Prop where
  next : ∀ b, (g'.block (tail i b)).next
    = (g.block b).next.map fun e => ⟨head i e.block, e.isCall⟩
  inner : (g'.block i).next = [⟨i + 1, false⟩]

namespace Relinked

variable {g g' : Graph} {i b c : Nat}

theorem mem_preds_head (h : g.Relinked g' i) (hg : g.WellFormed) (hg' : g'.WellFormed) (b : Nat)
    (e : Edge) :
    e ∈ g'.preds.get (head i b) ↔ ∃ p ∈ g.preds.get b, e = ⟨tail i p.block, p.isCall⟩ := by
  rw [hg'.mem_preds]
  constructor
  · intro hmem
    have hne : e.block ≠ i := by
      intro heq
      rw [heq, h.inner, List.mem_singleton, Edge.mk.injEq] at hmem
      exact head_ne hmem.1
    obtain ⟨p, hp⟩ := exists_tail hne
    rw [hp, h.next] at hmem
    obtain ⟨e', he', heq⟩ := List.mem_map.mp hmem
    rw [Edge.mk.injEq, head_inj] at heq
    refine ⟨⟨p, e.isCall⟩, (hg.mem_preds b _).mpr ?_, ?_⟩
    · rw [← heq.1, ← heq.2]
      exact he'
    · rw [← hp]
  · intro hex
    obtain ⟨p, hp, rfl⟩ := hex
    rw [h.next]
    exact List.mem_map_of_mem ((hg.mem_preds b p).mp hp)

theorem mem_preds_self (h : g.Relinked g' i) (hg' : g'.WellFormed) (e : Edge) :
    e ∈ g'.preds.get (i + 1) ↔ e = ⟨i, false⟩ := by
  rw [hg'.mem_preds]
  constructor
  · intro hmem
    by_cases heq : e.block = i
    · rw [heq, h.inner, List.mem_singleton, Edge.mk.injEq] at hmem
      rw [← heq, ← hmem.2]
    · obtain ⟨p, hp⟩ := exists_tail heq
      rw [hp, h.next] at hmem
      obtain ⟨e', _, heq⟩ := List.mem_map.mp hmem
      rw [Edge.mk.injEq] at heq
      exact absurd heq.1 head_ne
  · intro he
    rw [he, h.inner]
    exact List.mem_singleton_self _

theorem isCalled_head (h : g.Relinked g' i) (hg : g.WellFormed) (hg' : g'.WellFormed) (b : Nat) :
    isCalled g'.preds (head i b) = isCalled g.preds b := by
  rw [Bool.eq_iff_iff, isCalled, isCalled, List.any_eq_true, List.any_eq_true]
  constructor
  · intro hex
    obtain ⟨e, he, hcall⟩ := hex
    obtain ⟨p, hp, rfl⟩ := (h.mem_preds_head hg hg' b e).mp he
    exact ⟨p, hp, hcall⟩
  · intro hex
    obtain ⟨p, hp, hcall⟩ := hex
    exact ⟨_, (h.mem_preds_head hg hg' b _).mpr ⟨p, hp, rfl⟩, hcall⟩

theorem isCalled_self (h : g.Relinked g' i) (hg' : g'.WellFormed) :
    isCalled g'.preds (i + 1) = false := by
  rw [isCalled, List.any_eq_false]
  intro e he
  rw [(h.mem_preds_self hg' e).mp he]
  exact Bool.false_ne_true

end Relinked

/-! ### Cuts -/

/-- The graph `g'` is the graph `g` with block `i` cut in two. -/
structure Cut (g g' : Graph) (i : Nat) : Prop extends Relinked g g' i where
  lt : i < g.size
  size : g'.size = g.size + 1
  calls : ∀ b, (g'.block (tail i b)).calls = (g.block b).calls
  returns : ∀ b, (g'.block (tail i b)).returns = (g.block b).returns
  still : (g'.block i).calls = false ∧ (g'.block i).returns = false
  root : ∀ b, (g'.block (head i b)).root = (g.block b).root
  entered : (g'.block (i + 1)).root = false
  start : ∀ b, (g'.block (head i b)).start = (g.block b).start
  stop : ∀ b, (g'.block (tail i b)).stop = (g.block b).stop
  meet : (g'.block i).stop = (g'.block (i + 1)).start

namespace Cut

variable {g g' : Graph} {i b c : Nat}

theorem first_lt (h : g.Cut g' i) : i < g'.size :=
  h.size ▸ Nat.lt_succ_of_lt h.lt

theorem second_lt (h : g.Cut g' i) : i + 1 < g'.size :=
  h.size ▸ Nat.succ_lt_succ h.lt

theorem start_first (h : g.Cut g' i) : (g'.block i).start = (g.block i).start := by
  simpa using h.start i

theorem stop_second (h : g.Cut g' i) : (g'.block (i + 1)).stop = (g.block i).stop := by
  simpa using h.stop i

theorem callees_tail (h : g.Cut g' i) (b : Nat) :
    (g'.block (tail i b)).callees = (g.block b).callees.map (head i) := by
  rw [Block.callees, h.next, Block.callees, List.filter_map, List.map_map, List.map_map]
  rfl

theorem successors_tail (h : g.Cut g' i) (b : Nat) :
    (g'.block (tail i b)).successors = (g.block b).successors.map (head i) := by
  rw [Block.successors, h.next, Block.successors, List.filter_map, List.map_map, List.map_map]
  rfl

theorem targets_tail (h : g.Cut g' i) (b : Nat) :
    g'.targets (tail i b) = (g.targets b).map (head i) := by
  rw [targets, h.next, targets, List.map_map, List.map_map]
  rfl

theorem continuation?_tail (h : g.Cut g' i) (b : Nat) :
    (g'.block (tail i b)).continuation? = (g.block b).continuation?.map (head i) := by
  rw [Block.continuation?, h.calls, h.next, Block.continuation?, List.find?_map]
  split
  · rw [Option.map_map, Option.map_map]
    rfl
  · rfl

theorem isTailCall_tail (h : g.Cut g' i) (b : Nat) :
    (g'.block (tail i b)).isTailCall = (g.block b).isTailCall := by
  rw [Block.isTailCall, h.calls, h.continuation?_tail, Option.isNone_map, Block.isTailCall]

theorem callees_self (h : g.Cut g' i) : (g'.block i).callees = [] := by
  rw [Block.callees, h.inner]
  rfl

theorem waysTargets (h : g.Cut g' i) : Ways i g.size g.targets g'.targets where
  lt := h.lt
  tail := h.targets_tail
  inner := by rw [targets, h.inner]; rfl

theorem waysSuccessors (h : g.Cut g' i) : Ways i g.size (fun b => (g.block b).successors)
    fun b => (g'.block b).successors where
  lt := h.lt
  tail := h.successors_tail
  inner := by rw [Block.successors, h.inner]; rfl

theorem reaches_iff (h : g.Cut g' i) (x : Nat) :
    g'.Reaches (head i b) x ↔ ∃ c, g.Reaches b c ∧ x ∈ parts i c := by
  unfold Reaches
  rw [h.size]
  exact h.waysTargets.reaches_iff x

theorem reaches_head (h : g.Cut g' i) : g'.Reaches (head i b) (head i c) ↔ g.Reaches b c := by
  unfold Reaches
  rw [h.size]
  exact h.waysTargets.reaches_head

theorem reaches_tail (h : g.Cut g' i) : g'.Reaches (head i b) (tail i c) ↔ g.Reaches b c := by
  unfold Reaches
  rw [h.size]
  exact h.waysTargets.reaches_tail

theorem reaches_self (h : g.Cut g' i) : g'.Reaches (head i b) i ↔ g.Reaches b i := by
  simpa using h.reaches_head (b := b) (c := i)

theorem reaches_succ (h : g.Cut g' i) : g'.Reaches (head i b) (i + 1) ↔ g.Reaches b i := by
  simpa using h.reaches_tail (b := b) (c := i)

theorem self_reaches (h : g.Cut g' i) : g'.Reaches i (head i c) ↔ g.Reaches i c := by
  simpa using h.reaches_head (b := i) (c := c)

theorem inside_iff (h : g.Cut g' i) (x : Nat) :
    g'.Inside (head i b) x ↔ ∃ c, g.Inside b c ∧ x ∈ parts i c := by
  unfold Inside
  rw [h.size]
  exact h.waysSuccessors.reaches_iff x

/-! ### Routines -/

theorem mem_callees (h : g.Cut g' i) {x y : Nat} :
    x ∈ (g'.block y).callees ↔
      ∃ b c, y = tail i b ∧ x = head i c ∧ c ∈ (g.block b).callees := by
  constructor
  · intro hx
    by_cases hy : y = i
    · rw [hy, h.callees_self] at hx
      exact absurd hx List.not_mem_nil
    · obtain ⟨b, rfl⟩ := exists_tail hy
      rw [h.callees_tail] at hx
      obtain ⟨c, hc, rfl⟩ := List.mem_map.mp hx
      exact ⟨b, c, rfl, rfl, hc⟩
  · intro hex
    obtain ⟨b, c, rfl, rfl, hc⟩ := hex
    rw [h.callees_tail]
    exact List.mem_map_of_mem hc

theorem head_mem_callees (h : g.Cut g' i) :
    head i c ∈ (g'.block (tail i b)).callees ↔ c ∈ (g.block b).callees := by
  rw [h.callees_tail, List.mem_map]
  simp only [head_inj, exists_eq_right]

/-- The blocks that enter routines are the same. -/
theorem entries_eq (h : g.Cut g' i) (hg : g.WellFormed) (hg' : g'.WellFormed) :
    g'.routines.map Routine.entry = (g.routines.map Routine.entry).map (head i) := by
  have hpart : ∀ b, (parts i b).filter (isCalled g'.preds)
      = if isCalled g.preds b then [head i b] else [] := by
    intro b
    by_cases hb : b = i
    · have hself := h.isCalled_head hg hg' i
      rw [head_self] at hself
      rw [hb, parts, if_pos rfl, List.filter_cons, List.filter_cons, h.isCalled_self hg', hself,
        head_self]
      rfl
    · rw [parts_of_ne hb, List.filter_cons, h.isCalled_head hg hg']
      rfl
  rw [hg.entries_eq, hg'.entries_eq, h.size, range_eq h.lt, List.filter_flatMap]
  simp only [hpart]
  rw [flatMap_ite_nil, List.map_eq_flatMap]
  simp only [Bool.decide_eq_true]

/-- A routine and its counterpart. -/
structure Mates (i : Nat) (r r' : Routine) : Prop where
  entry : r'.entry = head i r.entry
  blocks : ∀ x, x ∈ r'.blocks ↔ ∃ b ∈ r.blocks, x ∈ parts i b
  returns : ∀ x, x ∈ r'.returns ↔ ∃ b ∈ r.returns, x = tail i b
  tailCalls : ∀ x, x ∈ r'.tailCalls ↔ ∃ b ∈ r.tailCalls, x = tail i b
  conts : ∀ x, x ∈ r'.conts ↔ ∃ k ∈ r.conts, x = head i k

theorem handsBack_iff (h : g.Cut g' i) {q x : Nat} :
    g'.HandsBack (head i q) x ↔ ∃ p, g.HandsBack q p ∧ x = head i p := by
  constructor
  · intro hex
    obtain ⟨⟨y, hy⟩, s, hin, hs, htail⟩ := hex
    obtain ⟨b, p, rfl, rfl, hp⟩ := h.mem_callees.mp hy
    obtain ⟨t, c, rfl, hc, hq⟩ := h.mem_callees.mp hs
    obtain rfl := head_inj.mp hc
    obtain ⟨t', hin, ht⟩ := (h.inside_iff _).mp hin
    obtain rfl := tail_mem_parts.mp ht
    rw [h.continuation?_tail, Option.map_eq_none_iff] at htail
    exact ⟨p, ⟨⟨b, hp⟩, t, hin, hq, htail⟩, rfl⟩
  · intro hex
    obtain ⟨p, ⟨⟨b, hp⟩, s, hin, hs, htail⟩, rfl⟩ := hex
    refine ⟨⟨tail i b, h.head_mem_callees.mpr hp⟩, tail i s, ?_, h.head_mem_callees.mpr hs, ?_⟩
    · exact (h.inside_iff _).mpr ⟨s, hin, tail_mem_parts.mpr rfl⟩
    · rw [h.continuation?_tail, htail]
      rfl

theorem handsBack_path (h : g.Cut g' i) {q x : Nat} :
    ReflTransGen g'.HandsBack (head i q) x ↔
      ∃ p, ReflTransGen g.HandsBack q p ∧ x = head i p := by
  constructor
  · intro hpath
    induction hpath with
    | refl => exact ⟨q, .refl, rfl⟩
    | tail _ hstep ih =>
      obtain ⟨p, hp, rfl⟩ := ih
      obtain ⟨p', hp', rfl⟩ := h.handsBack_iff.mp hstep
      exact ⟨p', hp.tail hp', rfl⟩
  · intro hex
    obtain ⟨p, hpath, rfl⟩ := hex
    induction hpath with
    | refl => exact .refl
    | tail _ hstep ih => exact ih.tail (h.handsBack_iff.mpr ⟨_, hstep, rfl⟩)

variable {r r' : Routine}

theorem mem_blocks (h : g.Cut g' i) (hg : g.WellFormed) (hg' : g'.WellFormed)
    (hr : r ∈ g.routines) (hr' : r' ∈ g'.routines) (hentry : r'.entry = head i r.entry) (x : Nat) :
    x ∈ r'.blocks ↔ ∃ b ∈ r.blocks, x ∈ parts i b := by
  rw [hg'.mem_blocks hr', hentry, h.inside_iff]
  simp only [hg.mem_blocks hr]

/-- The blocks of a routine that end it in some way correspond, if the first part of the block that
was cut does not. -/
theorem mem_filtered (h : g.Cut g' i) (hg : g.WellFormed) (hg' : g'.WellFormed)
    (hr : r ∈ g.routines) (hr' : r' ∈ g'.routines) (hentry : r'.entry = head i r.entry)
    (P : Block → Prop) (hP : ∀ b, P (g'.block (tail i b)) ↔ P (g.block b))
    (hfirst : ¬ P (g'.block i)) (x : Nat) :
    x ∈ r'.blocks ∧ P (g'.block x) ↔ ∃ b, (b ∈ r.blocks ∧ P (g.block b)) ∧ x = tail i b := by
  have htail : ∀ b, tail i b ∈ r'.blocks ↔ b ∈ r.blocks := by
    intro b
    rw [h.mem_blocks hg hg' hr hr' hentry]
    simp only [tail_mem_parts, eq_comm (a := b), exists_eq_right]
  constructor
  · rintro ⟨hx, hends⟩
    have hne : x ≠ i := by
      rintro rfl
      exact hfirst hends
    obtain ⟨b, rfl⟩ := exists_tail hne
    exact ⟨b, ⟨(htail b).mp hx, (hP b).mp hends⟩, rfl⟩
  · rintro ⟨b, ⟨hb, hends⟩, rfl⟩
    exact ⟨(htail b).mpr hb, (hP b).mpr hends⟩

theorem mem_conts (h : g.Cut g' i) (hg : g.WellFormed) (hg' : g'.WellFormed)
    (hr : r ∈ g.routines) (hr' : r' ∈ g'.routines) (hentry : r'.entry = head i r.entry) (x : Nat) :
    x ∈ r'.conts ↔ ∃ k ∈ r.conts, x = head i k := by
  rw [hg'.mem_conts hr', hentry]
  constructor
  · rintro ⟨q, hpath, s, hs, hcont⟩
    obtain ⟨p, hpath', rfl⟩ := h.handsBack_path.mp hpath
    obtain ⟨b, c, rfl, hc, hmem⟩ := h.mem_callees.mp hs
    obtain rfl := head_inj.mp hc
    rw [h.continuation?_tail] at hcont
    obtain ⟨k, hk, rfl⟩ := Option.map_eq_some_iff.mp hcont
    exact ⟨k, (hg.mem_conts hr k).mpr ⟨p, hpath', b, hmem, hk⟩, rfl⟩
  · rintro ⟨k, hk, rfl⟩
    obtain ⟨q, hpath, s, hs, hcont⟩ := (hg.mem_conts hr k).mp hk
    refine ⟨head i q, h.handsBack_path.mpr ⟨q, hpath, rfl⟩, tail i s,
      h.head_mem_callees.mpr hs, ?_⟩
    rw [h.continuation?_tail, hcont]
    rfl

theorem mates (h : g.Cut g' i) (hg : g.WellFormed) (hg' : g'.WellFormed) (hr : r ∈ g.routines)
    (hr' : r' ∈ g'.routines) (hentry : r'.entry = head i r.entry) : Mates i r r' := by
  have hstill : (g'.block i).isTailCall = false := by
    rw [Block.isTailCall, h.still.1]
    rfl
  refine ⟨hentry, h.mem_blocks hg hg' hr hr' hentry, fun x => ?_, fun x => ?_,
    h.mem_conts hg hg' hr hr' hentry⟩
  · simp only [hg'.mem_returns hr', hg.mem_returns hr]
    refine h.mem_filtered hg hg' hr hr' hentry
      (fun k => k.isTailCall = false ∧ k.returns = true) (fun b => ?_) (fun hends => ?_) x
    · rw [h.isTailCall_tail, h.returns]
    · rw [h.still.2] at hends
      exact Bool.false_ne_true hends.2
  · simp only [hg'.mem_tailCalls hr', hg.mem_tailCalls hr]
    refine h.mem_filtered hg hg' hr hr' hentry (fun k => k.isTailCall = true) (fun b => ?_)
      (fun hends => ?_) x
    · rw [h.isTailCall_tail]
    · rw [hstill] at hends
      exact Bool.false_ne_true hends

theorem exists_mate (h : g.Cut g' i) (hg : g.WellFormed) (hg' : g'.WellFormed)
    (hr : r ∈ g.routines) : ∃ r' ∈ g'.routines, Mates i r r' := by
  have hmem : head i r.entry ∈ g'.routines.map Routine.entry := by
    rw [h.entries_eq hg hg']
    exact List.mem_map_of_mem (List.mem_map_of_mem hr)
  obtain ⟨r', hr', hentry⟩ := List.mem_map.mp hmem
  exact ⟨r', hr', h.mates hg hg' hr hr' hentry⟩

theorem exists_mate' (h : g.Cut g' i) (hg : g.WellFormed) (hg' : g'.WellFormed)
    (hr' : r' ∈ g'.routines) : ∃ r ∈ g.routines, Mates i r r' := by
  have hmem : r'.entry ∈ (g.routines.map Routine.entry).map (head i) := by
    rw [← h.entries_eq hg hg']
    exact List.mem_map_of_mem hr'
  obtain ⟨e, he, hentry⟩ := List.mem_map.mp hmem
  obtain ⟨r, hr, rfl⟩ := List.mem_map.mp he
  exact ⟨r, hr, h.mates hg hg' hr hr' hentry.symm⟩

end Cut

end Graph

end RegisterWeb
