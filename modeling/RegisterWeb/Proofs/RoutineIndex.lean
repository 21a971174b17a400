import Mathlib
import RegisterWeb.Proofs.Routine
import RegisterWeb.Proofs.Saturate
import RegisterWeb.Proofs.Search

/-!
Routines as they are found. The call edges, block after block, name the routines in some order;
sorted by entry they are the routines of the graph. After that a routine has a number, by which its
entry and its blocks lead to it. Where routines resume is found in rounds: each adds to each routine
the continuations of its call sites, and what the owners of the other sites have by then, until a
round adds nothing.
-/

namespace RegisterWeb

/-! ### Finding routines -/

namespace Routine

/-- Searches the blocks of a routine by halving. -/
def holds (r : Routine) (b : Nat) : Bool :=
  r.blocks[Ascending.position r.blocks b]? == some b

/-- A routine of which nothing but the entry is known. -/
def bare (entry : Nat) : Routine :=
  ⟨entry, [], [], [], [], []⟩

def addSite (site : Nat) (r : Routine) : Routine :=
  { r with sites := (Ascending.enter r.sites site false).1 }

/-- The routine with its blocks, once its entry and its sites are known. -/
def complete (blocks : Array Block) (r : Routine) : Routine :=
  { enteredAt blocks r.entry with sites := r.sites }

/-- Routines in the order in which they are first called, with their numbers by entry. -/
structure Roster where
  index : Nat → Option Nat
  routines : List Routine

namespace Roster

def empty : Roster :=
  ⟨fun _ => none, []⟩

/-- Adds a call from a site to an entry. -/
def call (t : Roster) (c : Nat × Nat) : Roster :=
  match t.index c.2 with
  | some i => { t with routines := t.routines.modify i (addSite c.1) }
  | none =>
    ⟨Function.update t.index c.2 (some t.routines.length),
      t.routines ++ [addSite c.1 (bare c.2)]⟩

def sorted (t : Roster) : List Routine :=
  t.routines.mergeSort fun q r => decide (q.entry ≤ r.entry)

/-- The roster after the given calls: each entry that is called has one routine, with its sites. -/
structure Lists (calls : List (Nat × Nat)) (t : Roster) : Prop where
  index : ∀ c i, t.index c = some i ↔ ∃ r, t.routines[i]? = some r ∧ r.entry = c
  sites : ∀ r ∈ t.routines, Ascending r.sites ∧ ∀ s, s ∈ r.sites ↔ (s, r.entry) ∈ calls
  called : ∀ c, (∃ i, t.index c = some i) ↔ ∃ s, (s, c) ∈ calls

theorem lists_empty : Lists [] empty :=
  ⟨fun c i => by simp [empty], fun r hr => absurd hr List.not_mem_nil, fun c => by simp [empty]⟩

variable {calls : List (Nat × Nat)} {t : Roster} {site c i : Nat}

theorem mem_sites_addSite {r : Routine} (h : Ascending r.sites) (site : Nat) :
    Ascending (addSite site r).sites ∧
      ∀ s, s ∈ (addSite site r).sites ↔ s = site ∨ s ∈ r.sites := by
  rw [addSite, Ascending.enter_eq h]
  exact ⟨Ascending.ascending_insert site h, fun s => Ascending.mem_insert site s r.sites⟩

theorem mem_append_call {s e : Nat} :
    (s, e) ∈ calls ++ [(site, c)] ↔ (s, e) ∈ calls ∨ (s = site ∧ e = c) := by
  rw [List.mem_append, List.mem_singleton, Prod.mk.injEq]

/-- A site is added to a routine that has been found before. -/
theorem Lists.modify (h : Lists calls t) (hi : t.index c = some i) :
    Lists (calls ++ [(site, c)]) { t with routines := t.routines.modify i (addSite site) } where
  index d j := by
    rw [h.index, List.getElem?_modify]
    cases t.routines[j]? with
    | none => simp
    | some r => by_cases hij : i = j <;> simp [hij, addSite]
  sites r hr := by
    obtain ⟨j, hj⟩ := List.getElem?_of_mem hr
    rw [List.getElem?_modify] at hj
    obtain ⟨q, hq, rfl⟩ := Option.map_eq_some_iff.mp hj
    obtain ⟨hasc, hsites⟩ := h.sites q (List.mem_of_getElem? hq)
    by_cases hij : i = j
    · subst hij
      obtain ⟨q', hq', rfl⟩ := (h.index c i).mp hi
      cases hq.symm.trans hq'
      obtain ⟨hasc', hsites'⟩ := mem_sites_addSite hasc site
      rw [if_pos rfl]
      refine ⟨hasc', fun s => ?_⟩
      rw [hsites', hsites, mem_append_call, or_comm]
      exact or_congr_right (and_iff_left rfl).symm
    · have hne : q.entry ≠ c := by
        intro heq
        have hj := (h.index c j).mpr ⟨q, hq, heq⟩
        exact hij (Option.some.inj (hi.symm.trans hj))
      rw [if_neg hij]
      refine ⟨hasc, fun s => ?_⟩
      rw [hsites, mem_append_call, or_iff_left fun hnew => hne hnew.2]
  called d := by
    rw [h.called]
    simp only [mem_append_call]
    constructor
    · exact fun hd => hd.imp fun _ => Or.inl
    · intro hd
      obtain ⟨s, hold | ⟨_, rfl⟩⟩ := hd
      · exact ⟨s, hold⟩
      · exact (h.called d).mp ⟨i, hi⟩

theorem getElem?_append_singleton {l : List Routine} {q r : Routine} {j : Nat} :
    (l ++ [q])[j]? = some r ↔ l[j]? = some r ∨ (j = l.length ∧ r = q) := by
  rw [List.getElem?_append]
  split
  · rename_i hj
    exact (or_iff_left fun hlast => Nat.ne_of_lt hj hlast.1).symm
  · rename_i hj
    rw [List.getElem?_eq_none (Nat.le_of_not_lt hj), List.getElem?_singleton]
    have hsub : j - l.length = 0 ↔ j = l.length := by omega
    simp [hsub, eq_comm]

theorem Lists.entry_ne (h : Lists calls t) (hnew : t.index c = none) {j : Nat} {r : Routine}
    (hr : t.routines[j]? = some r) : r.entry ≠ c := by
  intro heq
  rw [(h.index c j).mpr ⟨r, hr, heq⟩] at hnew
  cases hnew

theorem Lists.not_mem_calls (h : Lists calls t) (hnew : t.index c = none) (s : Nat) :
    (s, c) ∉ calls := by
  intro hs
  obtain ⟨j, hj⟩ := (h.called c).mpr ⟨s, hs⟩
  rw [hj] at hnew
  cases hnew

/-- A routine is found by its first call. -/
theorem Lists.append (h : Lists calls t) (hnew : t.index c = none) :
    Lists (calls ++ [(site, c)])
      ⟨Function.update t.index c (some t.routines.length),
        t.routines ++ [addSite site (bare c)]⟩ where
  index d j := by
    simp only [getElem?_append_singleton]
    by_cases hd : d = c
    · subst hd
      rw [Function.update_self, Option.some.injEq]
      constructor
      · rintro rfl
        exact ⟨_, Or.inr ⟨rfl, rfl⟩, rfl⟩
      · rintro ⟨r, hold | ⟨hlast, _⟩, hentry⟩
        · exact absurd hentry (h.entry_ne hnew hold)
        · exact hlast.symm
    · rw [Function.update_of_ne hd, h.index]
      refine exists_congr fun r => and_congr_left fun hentry => (or_iff_left ?_).symm
      rintro ⟨_, rfl⟩
      exact hd hentry.symm
  sites r hr := by
    rcases List.mem_append.mp hr with hr | hr
    · obtain ⟨hasc, hsites⟩ := h.sites r hr
      obtain ⟨j, hj⟩ := List.getElem?_of_mem hr
      refine ⟨hasc, fun s => ?_⟩
      rw [hsites, mem_append_call, or_iff_left fun hcall => h.entry_ne hnew hj hcall.2]
    · rw [List.mem_singleton.mp hr]
      have hnil : Ascending (bare c).sites := List.Pairwise.nil
      have hnone : ∀ s, s ∉ (bare c).sites := fun _ => List.not_mem_nil
      obtain ⟨hasc, hsites⟩ := mem_sites_addSite hnil site
      refine ⟨hasc, fun s => ?_⟩
      rw [hsites, mem_append_call]
      exact ⟨fun hs => Or.inr ⟨hs.resolve_right (hnone s), rfl⟩,
        fun hs => Or.inl (hs.resolve_left (h.not_mem_calls hnew s)).1⟩
  called d := by
    simp only [mem_append_call]
    by_cases hd : d = c
    · subst hd
      rw [Function.update_self]
      exact ⟨fun _ => ⟨site, Or.inr ⟨rfl, rfl⟩⟩, fun _ => ⟨_, rfl⟩⟩
    · rw [Function.update_of_ne hd, h.called]
      exact exists_congr fun s => (or_iff_left fun hcall => hd hcall.2).symm

theorem Lists.call (h : Lists calls t) (site c : Nat) :
    Lists (calls ++ [(site, c)]) (t.call (site, c)) := by
  rw [Roster.call]
  split
  · rename_i i hi
    exact h.modify hi
  · rename_i hnew
    exact h.append hnew

theorem lists_foldl (h : Lists calls t) (more : List (Nat × Nat)) :
    Lists (calls ++ more) (more.foldl Roster.call t) := by
  induction more generalizing calls t with
  | nil => rwa [List.append_nil]
  | cons d more ih =>
    rw [List.append_cons]
    exact ih (h.call d.1 d.2)

theorem Lists.nodup_entries (h : Lists calls t) : (t.routines.map entry).Nodup := by
  refine List.pairwise_iff_getElem.mpr fun i j hi hj hij heq => Nat.ne_of_lt hij ?_
  rw [List.length_map] at hi hj
  rw [List.getElem_map, List.getElem_map] at heq
  have hfound := (h.index _ i).mpr ⟨_, List.getElem?_eq_getElem hi, rfl⟩
  have hfound' := (h.index _ j).mpr ⟨_, List.getElem?_eq_getElem hj, rfl⟩
  rw [heq, hfound'] at hfound
  exact (Option.some.inj hfound).symm

theorem Lists.mem_entries (h : Lists calls t) (c : Nat) :
    c ∈ t.routines.map entry ↔ ∃ s, (s, c) ∈ calls := by
  rw [← h.called, List.mem_map]
  simp only [h.index, List.mem_iff_getElem?]
  constructor
  · rintro ⟨r, ⟨i, hi⟩, hentry⟩
    exact ⟨i, r, hi, hentry⟩
  · rintro ⟨i, r, hi, hentry⟩
    exact ⟨r, ⟨i, hi⟩, hentry⟩

theorem Lists.ascending_sorted (h : Lists calls t) : Ascending (t.sorted.map entry) := by
  have hperm : t.sorted.Perm t.routines := List.mergeSort_perm _ _
  have hnodup : (t.sorted.map entry).Nodup := (hperm.map entry).nodup_iff.mpr h.nodup_entries
  have hsorted : (t.sorted.map entry).Pairwise (· ≤ ·) :=
    List.pairwise_map.mpr (pairwise_mergeSort_key t.routines)
  exact (hsorted.and hnodup).imp fun hab => lt_of_le_of_ne hab.1 hab.2

end Roster

end Routine

namespace Graph

open Routine

variable {g : Graph}

/-- The calls of a graph, each from a site to an entry, block after block. -/
def calls (g : Graph) : List (Nat × Nat) :=
  (List.range g.size).flatMap fun b => (g.block b).callees.map fun c => (b, c)

def roster (g : Graph) : Roster :=
  g.calls.foldl Roster.call Roster.empty

theorem mem_calls {s c : Nat} : (s, c) ∈ g.calls ↔ c ∈ (g.block s).callees := by
  simp only [calls, List.mem_flatMap, List.mem_range, List.mem_map, Prod.mk.injEq]
  constructor
  · rintro ⟨b, _, d, hd, rfl, rfl⟩
    exact hd
  · intro hc
    exact ⟨s, lt_size_of_mem_next ((Block.mem_callees _ _).mp hc), c, hc, rfl, rfl⟩

theorem lists_roster (g : Graph) : Roster.Lists g.calls g.roster :=
  Roster.lists_foldl Roster.lists_empty g.calls

theorem WellFormed.entries_sorted (h : g.WellFormed) :
    g.roster.sorted.map entry = (List.range g.size).filter (isCalled g.preds) := by
  rw [← h.entries_eq]
  refine Ascending.eq_of_mem_iff g.lists_roster.ascending_sorted h.ascending_entries fun c => ?_
  have hperm := (List.mergeSort_perm g.roster.routines fun q r => decide (q.entry ≤ r.entry)).map
    entry
  rw [Roster.sorted, hperm.mem_iff, g.lists_roster.mem_entries, h.mem_entries]
  simp only [mem_calls, Block.mem_callees]

/-- Sorted and completed, the routines that the calls name are those of the graph. -/
theorem WellFormed.bodies_eq (h : g.WellFormed) :
    g.roster.sorted.map (complete g.blocks) = g.bodies := by
  have hcomplete : ∀ r ∈ g.roster.sorted, complete g.blocks r = enteredAt g.blocks r.entry := by
    intro r hr
    obtain ⟨hasc, hsites⟩ := g.lists_roster.sites r ((List.mergeSort_perm _ _).mem_iff.mp hr)
    have heq : r.sites = (enteredAt g.blocks r.entry).sites := by
      refine Ascending.eq_of_mem_iff hasc (List.pairwise_lt_range.filter _) fun s => ?_
      rw [hsites, mem_calls, enteredAt, List.mem_filter, List.mem_range, List.contains_iff_mem]
      exact (and_iff_right_of_imp fun hs =>
        lt_size_of_mem_next ((Block.mem_callees _ _).mp hs)).symm
    rw [complete, heq]
  rw [List.map_congr_left hcomplete, bodies, ← h.entries_sorted, List.map_map]
  rfl

theorem WellFormed.map_clear (h : g.WellFormed) :
    (g.routines.map fun r => { r with conts := [] }) = g.bodies := by
  rw [h.routines_eq_map, List.map_map]
  have hfst : g.bodies = g.bodies.zipIdx.map Prod.fst := (List.zipIdx_map_fst ..).symm
  conv_rhs => rw [hfst]
  refine List.map_congr_left fun p hp => ?_
  obtain ⟨b, _, _, hbody⟩ := (mem_bodies g p.1).mp
    (List.mem_of_getElem? (List.mem_zipIdx_iff_getElem?.mp hp))
  show ({ p.1 with conts := [] } : Routine) = p.1
  rw [← hbody]
  rfl

/-! ### Numbers of routines -/

def setNumber (f : Nat → Option Nat) (p : Routine × Nat) : Nat → Option Nat :=
  Function.update f p.1.entry (some p.2)

def addNumber (i : Nat) (f : Nat → List Nat) (b : Nat) : Nat → List Nat :=
  Function.update f b (f b ++ [i])

/-- The numbers of the sorted routines by entry, written over the numbers that they had before. -/
def index (g : Graph) : Nat → Option Nat :=
  g.routines.zipIdx.foldl setNumber g.roster.index

/-- The numbers of the routines that a block belongs to, each added behind the others. -/
def owners (g : Graph) : Nat → List Nat :=
  g.routines.zipIdx.foldl (fun f p => p.1.blocks.foldl (addNumber p.2) f) fun _ => []

theorem foldl_index_of_ne {f : Nat → Option Nat} {l : List (Routine × Nat)} {c : Nat}
    (h : ∀ p ∈ l, p.1.entry ≠ c) :
    l.foldl setNumber f c = f c := by
  induction l generalizing f with
  | nil => rfl
  | cons p l ih =>
    obtain ⟨hp, hl⟩ := List.forall_mem_cons.mp h
    rw [List.foldl_cons, ih hl, setNumber, Function.update_of_ne hp.symm]

theorem foldl_index_of_mem {f : Nat → Option Nat} {l : List (Routine × Nat)}
    (h : (l.map (entry ∘ Prod.fst)).Nodup) {p : Routine × Nat} (hp : p ∈ l) :
    l.foldl setNumber f p.1.entry = some p.2 := by
  induction l generalizing f with
  | nil => exact absurd hp List.not_mem_nil
  | cons q l ih =>
    rw [List.map_cons, List.nodup_cons] at h
    rw [List.foldl_cons]
    rcases List.mem_cons.mp hp with rfl | hp
    · have hlater : ∀ q ∈ l, q.1.entry ≠ p.1.entry := fun q hq heq =>
        h.1 (List.mem_map.mpr ⟨q, hq, heq⟩)
      rw [foldl_index_of_ne hlater, setNumber, Function.update_self]
    · exact ih h.2 hp

theorem WellFormed.index_entry (h : g.WellFormed) {r : Routine} {i : Nat}
    (hi : g.routines[i]? = some r) : g.index r.entry = some i := by
  have hnodup : (g.routines.zipIdx.map (entry ∘ Prod.fst)).Nodup := by
    rw [← List.map_map, List.zipIdx_map_fst]
    exact h.nodup_entries
  have hmem : (r, i) ∈ g.routines.zipIdx := List.mem_zipIdx_iff_getElem?.mpr hi
  exact foldl_index_of_mem hnodup hmem

/-- A routine is found by the number of its entry. -/
theorem WellFormed.index_bind (h : g.WellFormed) (c : Nat) :
    ((g.index c).bind fun i => g.routines[i]?) = g.routine? c := by
  by_cases hc : c ∈ g.routines.map entry
  · obtain ⟨r, hr, rfl⟩ := List.mem_map.mp hc
    obtain ⟨i, hi⟩ := List.getElem?_of_mem hr
    rw [h.index_entry hi, h.routine?_entry hr, Option.bind_some, hi]
  · have hindex : g.index c = none := by
      rw [index, foldl_index_of_ne fun p hp heq => hc ?_]
      · refine Option.eq_none_iff_forall_ne_some.mpr fun i hi => hc ?_
        rw [h.mem_entries]
        obtain ⟨s, hs⟩ := (g.lists_roster.called c).mp ⟨i, hi⟩
        exact ⟨s, (Block.mem_callees _ _).mp (mem_calls.mp hs)⟩
      · exact heq ▸ List.mem_map_of_mem (List.mem_of_getElem? (List.mem_zipIdx_iff_getElem?.mp hp))
    have hnone : g.routine? c = none := by
      refine List.find?_eq_none.mpr fun r hr heq => hc ?_
      exact beq_iff_eq.mp heq ▸ List.mem_map_of_mem hr
    rw [hindex, hnone, Option.bind_none]

theorem foldl_append_number {f : Nat → List Nat} {l : List Nat} (h : l.Nodup) (i b : Nat) :
    l.foldl (addNumber i) f b = f b ++ if b ∈ l then [i] else [] := by
  induction l generalizing f with
  | nil => simp
  | cons a l ih =>
    obtain ⟨ha, hl⟩ := List.nodup_cons.mp h
    rw [List.foldl_cons, ih hl, addNumber]
    by_cases hab : b = a
    · subst hab
      simp [ha]
    · simp [hab]

theorem foldl_owners {f : Nat → List Nat} {l : List (Routine × Nat)}
    (h : ∀ p ∈ l, p.1.blocks.Nodup) (b : Nat) :
    l.foldl (fun f p => p.1.blocks.foldl (addNumber p.2) f) f b =
      f b ++ (l.filter fun p => p.1.contains b).map Prod.snd := by
  induction l generalizing f with
  | nil => simp
  | cons p l ih =>
    obtain ⟨hp, hl⟩ := List.forall_mem_cons.mp h
    rw [List.foldl_cons, ih hl, foldl_append_number hp, List.filter_cons]
    by_cases hb : b ∈ p.1.blocks <;> simp [hb, contains]

theorem WellFormed.owners_eq (h : g.WellFormed) (b : Nat) :
    g.owners b = (g.routines.zipIdx.filter fun p => p.1.contains b).map Prod.snd := by
  refine (foldl_owners (fun p hp => ?_) b).trans (List.nil_append _)
  have hr := List.mem_of_getElem? (List.mem_zipIdx_iff_getElem?.mp hp)
  exact (h.ascending_lists hr).1.nodup

theorem WellFormed.mem_owners (h : g.WellFormed) {b j : Nat} :
    j ∈ g.owners b ↔ ∃ r, g.routines[j]? = some r ∧ b ∈ r.blocks := by
  rw [h.owners_eq, List.mem_map]
  simp only [List.mem_filter, List.mem_zipIdx_iff_getElem?, contains, List.contains_iff_mem]
  constructor
  · rintro ⟨⟨r, i⟩, hr, rfl⟩
    exact ⟨r, hr⟩
  · rintro ⟨r, hr⟩
    exact ⟨(r, j), hr, rfl⟩

/-- The routines of a block are found by their numbers. -/
theorem WellFormed.owners_filterMap (h : g.WellFormed) (b : Nat) :
    ((g.owners b).filterMap fun i => g.routines[i]?) = g.routinesOf b := by
  have hnumber : ∀ p ∈ g.routines.zipIdx.filter fun p => p.1.contains b,
      g.routines[p.2]? = some p.1 := fun p hp =>
    List.mem_zipIdx_iff_getElem?.mp (List.mem_filter.mp hp).1
  have hfst : g.routines = g.routines.zipIdx.map Prod.fst := (List.zipIdx_map_fst ..).symm
  rw [h.owners_eq, List.filterMap_map, routinesOf]
  conv_rhs => rw [hfst, List.filter_map]
  rw [← List.filterMap_eq_map]
  exact List.filterMap_congr hnumber

theorem WellFormed.holds_eq (h : g.WellFormed) {r : Routine} (hr : r ∈ g.routines) (b : Nat) :
    r.holds b = r.contains b := by
  rw [Bool.eq_iff_iff, holds, beq_iff_eq, contains, List.contains_iff_mem]
  exact Ascending.getElem?_position_iff (h.ascending_lists hr).1 b

/-! ### Rounds -/

/-- Adds a block to those at which routine `i` resumes. -/
def grant (i : Nat) (t : Table (List Nat) × Bool) (k : Nat) : Table (List Nat) × Bool :=
  let entered := Ascending.enter (t.1.get i) k t.2
  (t.1.set i entered.1, entered.2)

/-- Adds what a call site gives to routine `i`: the block at which it goes on, or else whatever the
routines that the site belongs to have by now. -/
def serve (g : Graph) (i : Nat) (t : Table (List Nat) × Bool) (s : Nat) :
    Table (List Nat) × Bool :=
  match (g.block s).continuation? with
  | some k => grant i t k
  | none => (g.owners s).foldl (fun t j => (t.1.get j).foldl (grant i) t) t

/-- One round over the sites of all routines. -/
def resumeRound (g : Graph) (t : Table (List Nat) × Bool) : Table (List Nat) × Bool :=
  g.routines.zipIdx.foldl (fun t p => p.1.sites.foldl (g.serve p.2) t) t

/-- Where the routines of the graph resume, by number. -/
def conts (g : Graph) : Table (List Nat) :=
  ⟨(g.routines.map Routine.conts).toArray⟩

/-- Of each routine some of the blocks are known at which it resumes. -/
structure Partly (g : Graph) (t : Table (List Nat)) : Prop where
  size : t.size = g.routines.length
  ascending : ∀ i, Ascending (t.get i)
  known : ∀ i, ∀ k ∈ t.get i, ∃ r, g.routines[i]? = some r ∧ k ∈ r.conts

/-- The number of blocks that are known. -/
def known (g : Graph) (t : Table (List Nat)) : Nat :=
  ∑ i ∈ Finset.range g.routines.length, (t.get i).length

theorem get_conts {i : Nat} {r : Routine} (hi : g.routines[i]? = some r) :
    g.conts.get i = r.conts := by
  rw [conts, Table.get, Array.getD_eq_getD_getElem?, List.getElem?_toArray, List.getElem?_map, hi]
  rfl

theorem partly_blank (g : Graph) : g.Partly (Table.blank g.routines.length) where
  size := Table.size_blank _
  ascending i := by
    rw [Table.get_blank]
    exact List.Pairwise.nil
  known i k hk := by
    rw [Table.get_blank] at hk
    exact absurd hk List.not_mem_nil

theorem Partly.known_le {t : Table (List Nat)} (h : g.Partly t) : g.known t ≤ g.known g.conts := by
  refine Finset.sum_le_sum fun i _ => ?_
  refine (List.subperm_of_subset (h.ascending i).nodup fun k hk => ?_).length_le
  obtain ⟨r, hr, hk⟩ := h.known i k hk
  rwa [get_conts hr]

section Rounds

variable {i : Nat} {r : Routine} {t : Table (List Nat) × Bool}

theorem grant_eq (h : g.Partly t.1) (i k : Nat) : grant i t k =
    (t.1.set i (Ascending.insert k (t.1.get i)), t.2 || decide (k ∉ t.1.get i)) := by
  rw [grant, Ascending.enter_eq (h.ascending i)]

theorem grant_of_mem (h : g.Partly t.1) {k : Nat} (hk : k ∈ t.1.get i) : grant i t k = t := by
  rw [grant_eq h, Ascending.insert_of_mem (h.ascending i) hk, Table.set_get]
  simp [hk]

/-- A block that is new to a routine is known afterwards. -/
theorem Partly.known_lt (h : g.Partly t.1) (hi : i < g.routines.length) {k : Nat}
    (hk : k ∉ t.1.get i) : g.known t.1 < g.known (grant i t k).1 := by
  have hget : ∀ j, (grant i t k).1.get j =
      if i = j then Ascending.insert k (t.1.get i) else t.1.get j := by
    intro j
    rw [grant_eq h, Table.get_set, h.size]
    simp only [hi, and_true]
  have hlength := Ascending.length_insert hk
  refine Finset.sum_lt_sum (fun j _ => ?_) ⟨i, Finset.mem_range.mpr hi, ?_⟩
  · rw [hget]
    split
    · rename_i hij
      subst hij
      omega
    · exact le_refl _
  · rw [hget, if_pos rfl]
    omega

theorem flags_grant (hi : g.routines[i]? = some r) {k : Nat} (hk : k ∈ r.conts) :
    Flags g.Partly g.known fun t => grant i t k := by
  refine ⟨fun t ht => ?_, fun t ht => ?_⟩
  · rw [grant_eq ht]
    refine ⟨(Table.size_set ..).trans ht.size, fun j => ?_, fun j x hx => ?_⟩
    · rw [Table.get_set]
      split
      · exact Ascending.ascending_insert k (ht.ascending i)
      · exact ht.ascending j
    · rw [Table.get_set] at hx
      split at hx
      · rename_i hij
        obtain ⟨rfl, _⟩ := hij
        rcases (Ascending.mem_insert k x _).mp hx with rfl | hx
        · exact ⟨r, hi, hk⟩
        · exact ht.known i x hx
      · exact ht.known j x hx
  · by_cases hold : k ∈ t.1.get i
    · exact Or.inl (grant_of_mem ht hold)
    · have hlt := (List.getElem?_eq_some_iff.mp hi).1
      refine Or.inr ⟨ht.known_lt hlt hold, ?_⟩
      rw [grant_eq ht]
      simp [hold]

/-- Where a block has been granted for nothing, it was there. -/
theorem mem_of_grant (h : g.Partly t.1) (hi : i < g.routines.length) {k : Nat}
    (hsame : grant i t k = t) : k ∈ t.1.get i := by
  by_contra hk
  have hlt := h.known_lt hi hk
  rw [hsame] at hlt
  exact Nat.lt_irrefl _ hlt

/-- What an owner of the last site of a routine has so far, the routine has to get. -/
theorem WellFormed.flags_owned (h : g.WellFormed) (hi : g.routines[i]? = some r) {s j : Nat}
    (hs : s ∈ r.sites) (hlast : (g.block s).continuation? = none) (hj : j ∈ g.owners s)
    (ht : g.Partly t.1) : ∀ k ∈ t.1.get j, Flags g.Partly g.known fun t => grant i t k := by
  intro k hk
  obtain ⟨q, hq, hblock⟩ := h.mem_owners.mp hj
  obtain ⟨q', hq', hk⟩ := ht.known j k hk
  cases hq.symm.trans hq'
  exact flags_grant hi (h.resumes_conts.last r (List.mem_of_getElem? hi) s hs hlast q
    (List.mem_of_getElem? hq) hblock k hk)

theorem WellFormed.flags_inherit (h : g.WellFormed) (hi : g.routines[i]? = some r) {s j : Nat}
    (hs : s ∈ r.sites) (hlast : (g.block s).continuation? = none) (hj : j ∈ g.owners s) :
    Flags g.Partly g.known fun t => (t.1.get j).foldl (grant i) t :=
  ⟨fun t ht => (Flags.foldl (h.flags_owned hi hs hlast hj ht)).keeps t ht,
    fun t ht => (Flags.foldl (h.flags_owned hi hs hlast hj ht)).moves t ht⟩

theorem WellFormed.flags_serve (h : g.WellFormed) (hi : g.routines[i]? = some r) {s : Nat}
    (hs : s ∈ r.sites) : Flags g.Partly g.known fun t => g.serve i t s := by
  cases hcont : (g.block s).continuation? with
  | some k =>
    simp only [serve, hcont]
    exact flags_grant hi (h.resumes_conts.site r (List.mem_of_getElem? hi) s hs k hcont)
  | none =>
    simp only [serve, hcont]
    exact Flags.foldl fun j hj => h.flags_inherit hi hs hcont hj

theorem WellFormed.flags_sites (h : g.WellFormed) :
    ∀ p ∈ g.routines.zipIdx, Flags g.Partly g.known fun t => p.1.sites.foldl (g.serve p.2) t :=
  fun _ hp => Flags.foldl fun _ hs => h.flags_serve (List.mem_zipIdx_iff_getElem?.mp hp) hs

section Still

variable {known : Table (List Nat)}

/-- Where a round does nothing, no site gives anything. -/
theorem WellFormed.serve_of_still (h : g.WellFormed) (ht : g.Partly known)
    (hstill : g.resumeRound (known, false) = (known, false)) (hi : g.routines[i]? = some r)
    {s : Nat} (hs : s ∈ r.sites) : g.serve i (known, false) s = (known, false) := by
  have hp : (r, i) ∈ g.routines.zipIdx := List.mem_zipIdx_iff_getElem?.mpr hi
  have hround : ((known, false) : Table (List Nat) × Bool).2 = false := rfl
  rw [← hstill] at hround
  have hsites := Flags.still h.flags_sites ht hround _ hp
  refine Flags.still (fun s hs => h.flags_serve hi hs) ht ?_ s hs
  rw [hsites]

theorem WellFormed.mem_of_still (h : g.WellFormed) (ht : g.Partly known)
    (hstill : g.resumeRound (known, false) = (known, false)) (hi : g.routines[i]? = some r)
    {s j k : Nat} (hs : s ∈ r.sites) (hlast : (g.block s).continuation? = none)
    (hj : j ∈ g.owners s) (hk : k ∈ known.get j) : k ∈ known.get i := by
  have hsame := h.serve_of_still ht hstill hi hs
  simp only [serve, hlast] at hsame
  have howned : (known.get j).foldl (grant i) (known, false) = (known, false) := by
    refine Flags.still (fun j hj => h.flags_inherit hi hs hlast hj) ht ?_ j hj
    rw [hsame]
  have hgrant : grant i (known, false) k = (known, false) := by
    refine Flags.still (h.flags_owned (t := (known, false)) hi hs hlast hj ht) ht ?_ k hk
    rw [howned]
  exact mem_of_grant ht (List.getElem?_eq_some_iff.mp hi).1 hgrant

/-- Where a round does nothing, the known blocks are closed under all that call sites give. -/
theorem WellFormed.resumes_of_still (h : g.WellFormed) (ht : g.Partly known)
    (hstill : g.resumeRound (known, false) = (known, false)) :
    g.Resumes fun r k => ∃ i, g.routines[i]? = some r ∧ k ∈ known.get i := by
  refine ⟨?_, ?_⟩
  · intro r hr s hs k hk
    obtain ⟨i, hi⟩ := List.getElem?_of_mem hr
    have hsame := h.serve_of_still ht hstill hi hs
    simp only [serve, hk] at hsame
    exact ⟨i, hi, mem_of_grant ht (List.getElem?_eq_some_iff.mp hi).1 hsame⟩
  · intro r hr s hs hlast q hq howner k hk
    obtain ⟨j, hj, hk⟩ := hk
    obtain ⟨i, hi⟩ := List.getElem?_of_mem hr
    exact ⟨i, hi, h.mem_of_still ht hstill hi hs hlast (h.mem_owners.mpr ⟨q, hj, howner⟩) hk⟩

theorem WellFormed.conts_of_still (h : g.WellFormed) (ht : g.Partly known)
    (hstill : g.resumeRound (known, false) = (known, false)) : known = g.conts := by
  have hsize : g.conts.size = g.routines.length := by simp [conts, Table.size]
  refine Table.ext_get (ht.size.trans hsize.symm) fun i hi => ?_
  rw [ht.size] at hi
  have hr := List.getElem?_eq_getElem hi
  have hmem := List.getElem_mem hi
  rw [get_conts hr]
  refine Ascending.eq_of_mem_iff (ht.ascending i) (h.ascending_lists hmem).2.2 fun k => ?_
  constructor
  · intro hk
    obtain ⟨q, hq, hk⟩ := ht.known i k hk
    cases hr.symm.trans hq
    exact hk
  · intro hk
    obtain ⟨j, hj, hk⟩ := h.conts_least (h.resumes_of_still ht hstill) hmem hk
    -- two routines with one entry have one number
    have hij := (h.index_entry hr).symm.trans (h.index_entry hj)
    cases hij
    exact hk

end Still

/-- The rounds come to an end, and then it is known where the routines resume. -/
theorem WellFormed.repeats_iff (h : g.WellFormed) (known : Table (List Nat)) :
    Repeats g.resumeRound (Table.blank g.routines.length) known ↔ known = g.conts := by
  obtain ⟨final, hrepeats, hpartly, hstill⟩ :=
    (Flags.foldl h.flags_sites).exists_repeats (fun _ ht => Partly.known_le ht) (partly_blank g)
  rw [← h.conts_of_still hpartly hstill]
  exact ⟨fun hknown => hknown.unique hrepeats, fun hknown => hknown ▸ hrepeats⟩

end Rounds

/-- The routines of a graph are those that the calls name, and what is kept to look them up or to
find out where they resume gives the same answers as the routines themselves. -/
structure Indexed (g : Graph) : Prop where
  named : g.roster.sorted.map (complete g.blocks) = g.routines.map fun r => { r with conts := [] }
  index : ∀ c, ((g.index c).bind fun i => g.routines[i]?) = g.routine? c
  owners : ∀ b, ((g.owners b).filterMap fun i => g.routines[i]?) = g.routinesOf b
  holds : ∀ r ∈ g.routines, ∀ b, r.holds b = r.contains b
  rounds : ∀ known,
    Repeats g.resumeRound (Table.blank g.routines.length) known ↔ known = g.conts

theorem WellFormed.indexed (h : g.WellFormed) : g.Indexed where
  named := h.bodies_eq.trans h.map_clear.symm
  index := h.index_bind
  owners := h.owners_filterMap
  holds _ := h.holds_eq
  rounds := h.repeats_iff

end Graph

end RegisterWeb
