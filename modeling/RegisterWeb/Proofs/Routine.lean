import Mathlib.Data.List.Nodup
import RegisterWeb.Proofs.Graph
import RegisterWeb.Proofs.Reach

/-!
The routines of a well-formed graph. Every called block enters one; its blocks are those that
ordinary edges lead to from the entry. Control resumes where the call sites go on, and behind a call
in a last act wherever the routines resume that the site belongs to.
-/

namespace RegisterWeb

open Relation

namespace Graph

/-- One block leads to another by ordinary edges. -/
def Inside (g : Graph) (a b : Nat) : Prop :=
  ReflTransGen (Leads g.size fun b => (g.block b).successors) a b

/-- The routines before it is known where they resume. -/
def bodies (g : Graph) : List Routine :=
  ((List.range g.size).filter (isCalled g.preds)).map (Routine.enteredAt g.blocks)

theorem mem_bodies (g : Graph) (r : Routine) :
    r ∈ g.bodies ↔ ∃ b, b < g.size ∧ isCalled g.preds b = true ∧
      Routine.enteredAt g.blocks b = r := by
  simp only [bodies, List.mem_map, List.mem_filter, List.mem_range, and_assoc]

theorem WellFormed.isCalled_iff {g : Graph} (h : g.WellFormed) (c : Nat) :
    isCalled g.preds c = true ↔ ∃ b, c ∈ (g.block b).callees := by
  simp only [isCalled, List.any_eq_true]
  constructor
  · intro ⟨e, he, hcall⟩
    refine ⟨e.block, (Block.mem_callees _ c).mpr ?_⟩
    rw [← hcall]
    exact (h.mem_preds c e).mp he
  · intro ⟨b, hb⟩
    exact ⟨⟨b, true⟩, (h.mem_preds c ⟨b, true⟩).mpr ((Block.mem_callees _ c).mp hb), rfl⟩

theorem WellFormed.routines_eq_map {g : Graph} (h : g.WellFormed) :
    g.routines = g.bodies.zipIdx.map fun (r, i) =>
      { r with conts := Routine.continuations g.blocks g.bodies i } :=
  h.routines_eq

theorem WellFormed.exists_body {g : Graph} (h : g.WellFormed) {r : Routine}
    (hr : r ∈ g.routines) : ∃ i, g.bodies[i]? = some (Routine.enteredAt g.blocks r.entry) ∧
      r = { Routine.enteredAt g.blocks r.entry with
            conts := Routine.continuations g.blocks g.bodies i } := by
  rw [h.routines_eq_map] at hr
  obtain ⟨⟨body, i⟩, hmem, rfl⟩ := List.mem_map.mp hr
  have hbody := List.mem_zipIdx_iff_getElem?.mp hmem
  obtain ⟨b, _, _, rfl⟩ := (mem_bodies g body).mp (List.mem_of_getElem? hbody)
  exact ⟨i, hbody, rfl⟩

theorem WellFormed.entry_lt {g : Graph} (h : g.WellFormed) {r : Routine} (hr : r ∈ g.routines) :
    r.entry < g.size := by
  obtain ⟨i, hi, _⟩ := h.exists_body hr
  obtain ⟨b, hb, _, heq⟩ := (mem_bodies g _).mp (List.mem_of_getElem? hi)
  have hentry : b = r.entry := congrArg Routine.entry heq
  exact hentry ▸ hb

theorem WellFormed.exists_routine {g : Graph} (h : g.WellFormed) {b c : Nat}
    (hc : c ∈ (g.block b).callees) : ∃ r ∈ g.routines, r.entry = c := by
  have hbody : Routine.enteredAt g.blocks c ∈ g.bodies :=
    (mem_bodies g _).mpr ⟨c, h.callee_lt hc, (h.isCalled_iff c).mpr ⟨b, hc⟩, rfl⟩
  obtain ⟨i, hi⟩ := List.getElem?_of_mem hbody
  have hmem : (Routine.enteredAt g.blocks c, i) ∈ g.bodies.zipIdx :=
    List.mem_zipIdx_iff_getElem?.mpr hi
  refine ⟨{ Routine.enteredAt g.blocks c with
    conts := Routine.continuations g.blocks g.bodies i }, ?_, rfl⟩
  rw [h.routines_eq_map]
  exact List.mem_map_of_mem hmem

/-- The blocks that enter routines are those that are called. -/
theorem WellFormed.entries_eq {g : Graph} (h : g.WellFormed) :
    g.routines.map Routine.entry = (List.range g.size).filter (isCalled g.preds) := by
  rw [h.routines_eq_map, List.map_map]
  show g.bodies.zipIdx.map (Routine.entry ∘ Prod.fst) = _
  rw [← List.map_map, List.zipIdx_map_fst, bodies, List.map_map]
  exact List.map_id _

theorem WellFormed.nodup_entries {g : Graph} (h : g.WellFormed) :
    (g.routines.map Routine.entry).Nodup := by
  rw [h.entries_eq]
  exact List.nodup_range.filter _

theorem WellFormed.ascending_entries {g : Graph} (h : g.WellFormed) :
    Ascending (g.routines.map Routine.entry) := by
  rw [h.entries_eq]
  exact List.pairwise_lt_range.filter _

theorem WellFormed.mem_entries {g : Graph} (h : g.WellFormed) (c : Nat) :
    c ∈ g.routines.map Routine.entry ↔ ∃ b, ⟨c, true⟩ ∈ (g.block b).next := by
  rw [h.entries_eq, List.mem_filter, List.mem_range, h.isCalled_iff]
  simp only [Block.mem_callees]
  refine ⟨fun hc => hc.2, fun hc => ⟨?_, hc⟩⟩
  obtain ⟨b, hb⟩ := hc
  exact h.next_lt b _ hb

/-- A routine is found by its entry. -/
theorem WellFormed.routine?_entry {g : Graph} (h : g.WellFormed) {r : Routine}
    (hr : r ∈ g.routines) : g.routine? r.entry = some r := by
  have hnodup := h.nodup_entries
  rw [routine?]
  generalize g.routines = rs at hr hnodup
  induction rs with
  | nil => exact absurd hr List.not_mem_nil
  | cons s rs ih =>
    rw [List.map_cons, List.nodup_cons] at hnodup
    rcases List.mem_cons.mp hr with rfl | hr
    · simp
    · have hne : s.entry ≠ r.entry := by
        intro heq
        exact hnodup.1 (heq ▸ List.mem_map_of_mem hr)
      rw [List.find?_cons_of_neg (by simpa using hne)]
      exact ih hr hnodup.2

/-! ### Blocks and exits -/

theorem WellFormed.mem_blocks {g : Graph} (h : g.WellFormed) {r : Routine} (hr : r ∈ g.routines)
    (b : Nat) : b ∈ r.blocks ↔ g.Inside r.entry b := by
  obtain ⟨i, _, heq⟩ := h.exists_body hr
  rw [heq]
  simp only [Routine.enteredAt, mem_reachable, List.mem_singleton]
  constructor
  · intro ⟨a, ha, _, hpath⟩
    rw [ha] at hpath
    exact hpath
  · exact fun hpath => ⟨_, rfl, h.entry_lt hr, hpath⟩

theorem WellFormed.entry_mem_blocks {g : Graph} (h : g.WellFormed) {r : Routine}
    (hr : r ∈ g.routines) : r.entry ∈ r.blocks :=
  (h.mem_blocks hr _).mpr ReflTransGen.refl

theorem WellFormed.successor_mem_blocks {g : Graph} (h : g.WellFormed) {r : Routine}
    (hr : r ∈ g.routines) {b c : Nat} (hb : b ∈ r.blocks) (hc : c ∈ (g.block b).successors) :
    c ∈ r.blocks := by
  rw [h.mem_blocks hr] at hb ⊢
  exact hb.tail ⟨hc, h.successor_lt hc⟩

/-- The lists of blocks of a routine are ascending. -/
theorem WellFormed.ascending_lists {g : Graph} (h : g.WellFormed) {r : Routine} (hr : r ∈ g.routines) :
    Ascending r.blocks ∧ Ascending r.sites ∧ Ascending r.conts := by
  obtain ⟨i, _, heq⟩ := h.exists_body hr
  rw [heq]
  exact ⟨ascending_reachable _ _ _, List.pairwise_lt_range.filter _,
    Ascending.ascending_ofList _⟩

theorem WellFormed.mem_returns {g : Graph} (h : g.WellFormed) {r : Routine} (hr : r ∈ g.routines)
    (b : Nat) : b ∈ r.returns ↔
      b ∈ r.blocks ∧ (g.block b).isTailCall = false ∧ (g.block b).returns = true := by
  obtain ⟨i, _, heq⟩ := h.exists_body hr
  rw [heq]
  simp only [Routine.enteredAt, List.mem_filter, Bool.and_eq_true, Bool.not_eq_true']
  exact Iff.rfl

theorem WellFormed.mem_tailCalls {g : Graph} (h : g.WellFormed) {r : Routine}
    (hr : r ∈ g.routines) (b : Nat) :
    b ∈ r.tailCalls ↔ b ∈ r.blocks ∧ (g.block b).isTailCall = true := by
  obtain ⟨i, _, heq⟩ := h.exists_body hr
  rw [heq]
  simp only [Routine.enteredAt, List.mem_filter]
  exact Iff.rfl

theorem WellFormed.mem_sites {g : Graph} (h : g.WellFormed) {r : Routine} (hr : r ∈ g.routines)
    (b : Nat) : b ∈ r.sites ↔ r.entry ∈ (g.block b).callees := by
  obtain ⟨i, _, heq⟩ := h.exists_body hr
  rw [heq]
  simp only [Routine.enteredAt, List.mem_filter, List.mem_range, List.contains_iff_mem]
  refine ⟨fun hb => hb.2, fun hb => ⟨?_, hb⟩⟩
  exact lt_size_of_mem_next ((Block.mem_callees _ _).mp hb)

/-! ### Continuations -/

theorem mem_continuations (g : Graph) {i : Nat} (hi : i < g.bodies.length) (k : Nat) :
    k ∈ Routine.continuations g.blocks g.bodies i ↔
      ∃ j, ReflTransGen (Leads g.bodies.length fun j =>
          Routine.heirs g.blocks g.bodies (g.bodies[j]?.getD default)) i j ∧
        k ∈ Routine.resumptions g.blocks (g.bodies[j]?.getD default) := by
  simp only [Routine.continuations, Ascending.mem_ofList, List.mem_flatMap, mem_reachable,
    List.mem_singleton]
  constructor
  · intro h
    obtain ⟨j, ⟨r, hr, _, hpath⟩, hk⟩ := h
    rw [hr] at hpath
    exact ⟨j, hpath, hk⟩
  · intro h
    obtain ⟨j, hpath, hk⟩ := h
    exact ⟨j, ⟨i, rfl, hi, hpath⟩, hk⟩

/-- Control resumes where a call site goes on. -/
theorem WellFormed.continuation_mem_conts {g : Graph} (h : g.WellFormed) {r : Routine}
    (hr : r ∈ g.routines) {s k : Nat} (hs : r.entry ∈ (g.block s).callees)
    (hk : (g.block s).continuation? = some k) : k ∈ r.conts := by
  have hsite := (h.mem_sites hr s).mpr hs
  obtain ⟨i, hi, heq⟩ := h.exists_body hr
  obtain ⟨hlt, _⟩ := List.getElem?_eq_some_iff.mp hi
  rw [heq]
  refine (mem_continuations g hlt k).mpr ⟨i, ReflTransGen.refl, ?_⟩
  rw [hi, Option.getD_some]
  rw [heq] at hsite
  exact List.mem_filterMap.mpr ⟨s, hsite, hk⟩

/-- Behind a call in a last act control resumes wherever the caller's routines resume. -/
theorem WellFormed.conts_subset {g : Graph} (h : g.WellFormed) {r r' : Routine}
    (hr : r ∈ g.routines) (hr' : r' ∈ g.routines) {s k : Nat}
    (hs : r.entry ∈ (g.block s).callees) (htail : (g.block s).continuation? = none)
    (howner : s ∈ r'.blocks) (hk : k ∈ r'.conts) : k ∈ r.conts := by
  have hsite := (h.mem_sites hr s).mpr hs
  obtain ⟨i, hi, heq⟩ := h.exists_body hr
  obtain ⟨j, hj, heq'⟩ := h.exists_body hr'
  obtain ⟨hilt, _⟩ := List.getElem?_eq_some_iff.mp hi
  obtain ⟨hjlt, _⟩ := List.getElem?_eq_some_iff.mp hj
  rw [heq'] at hk howner
  rw [heq] at hsite ⊢
  obtain ⟨l, hpath, hres⟩ := (mem_continuations g hjlt k).mp hk
  refine (mem_continuations g hilt k).mpr ⟨l, ReflTransGen.head ⟨?_, hjlt⟩ hpath, hres⟩
  simp only [hi, Option.getD_some, Routine.heirs, List.mem_filter, List.mem_range, hj]
  refine ⟨hjlt, List.any_eq_true.mpr ⟨s, List.mem_filter.mpr ⟨hsite, ?_⟩, ?_⟩⟩
  · have hnone : ((g.blocks.getD s default).continuation?).isNone = true := by
      rw [Option.isNone_iff_eq_none]
      exact htail
    exact hnone
  · exact List.contains_iff_mem.mpr howner

/-- The routine entered at `q` is called for good in the routine entered at `p`, so it goes back to
where that one goes back to. -/
def HandsBack (g : Graph) (q p : Nat) : Prop :=
  (∃ b, p ∈ (g.block b).callees) ∧
    ∃ s, g.Inside p s ∧ q ∈ (g.block s).callees ∧ (g.block s).continuation? = none

theorem mem_heirs {g : Graph} {i j : Nat} {q p : Nat}
    (hi : g.bodies[i]? = some (Routine.enteredAt g.blocks q))
    (hj : g.bodies[j]? = some (Routine.enteredAt g.blocks p))
    (h : j ∈ Routine.heirs g.blocks g.bodies (g.bodies[i]?.getD default)) :
    ∃ s, g.Inside p s ∧ q ∈ (g.block s).callees ∧ (g.block s).continuation? = none := by
  simp only [hi, Option.getD_some, Routine.heirs, List.mem_filter, List.mem_range, hj,
    List.any_eq_true] at h
  obtain ⟨_, s, ⟨hsite, htail⟩, howner⟩ := h
  have hin : s ∈ reachable g.blocks.size (fun b => (g.block b).successors) [p] :=
    List.contains_iff_mem.mp howner
  obtain ⟨x, hx, _, hpath⟩ := (mem_reachable _ _ _ s).mp hin
  rw [List.mem_singleton.mp hx] at hpath
  refine ⟨s, hpath, ?_, Option.isNone_iff_eq_none.mp htail⟩
  exact List.contains_iff_mem.mp (List.mem_filter.mp hsite).2

/-- A routine resumes where its callers go on, and where the routines it hands back to resume. -/
theorem WellFormed.mem_conts {g : Graph} (h : g.WellFormed) {r : Routine} (hr : r ∈ g.routines)
    (k : Nat) : k ∈ r.conts ↔ ∃ q, ReflTransGen g.HandsBack r.entry q ∧
      ∃ s, q ∈ (g.block s).callees ∧ (g.block s).continuation? = some k := by
  constructor
  · intro hk
    obtain ⟨i, hi, heq⟩ := h.exists_body hr
    rw [heq] at hk
    obtain ⟨j, hpath, hres⟩ :=
      (mem_continuations g (List.getElem?_eq_some_iff.mp hi).1 k).mp hk
    have hentry : ∃ q, g.bodies[j]? = some (Routine.enteredAt g.blocks q) ∧
        ReflTransGen g.HandsBack r.entry q := by
      clear hres
      induction hpath with
      | refl => exact ⟨r.entry, hi, .refl⟩
      | @tail j l _ hstep ih =>
        obtain ⟨q, hq, hpath⟩ := ih
        have hl := List.getElem?_eq_getElem hstep.2
        obtain ⟨p, _, hcalled, hbody⟩ := (mem_bodies g _).mp (List.mem_of_getElem? hl)
        rw [← hbody] at hl
        refine ⟨p, hl, hpath.tail ⟨(h.isCalled_iff p).mp hcalled, mem_heirs hq hl hstep.1⟩⟩
    obtain ⟨q, hq, hpath⟩ := hentry
    rw [hq, Option.getD_some] at hres
    obtain ⟨s, hsite, hcont⟩ := List.mem_filterMap.mp hres
    exact ⟨q, hpath, s, List.contains_iff_mem.mp (List.mem_filter.mp hsite).2, hcont⟩
  · intro hex
    obtain ⟨q, hpath, s, hs, hk⟩ := hex
    have hall : ∀ r ∈ g.routines, ReflTransGen g.HandsBack r.entry q → k ∈ r.conts := by
      intro r hr hpath
      generalize hentry : r.entry = e at hpath
      induction hpath using ReflTransGen.head_induction_on generalizing r with
      | refl => exact h.continuation_mem_conts hr (hentry ▸ hs) hk
      | @head e p hstep _ ih =>
        obtain ⟨⟨b, hb⟩, s', hin, hs', htail⟩ := hstep
        obtain ⟨r', hr', rfl⟩ := h.exists_routine hb
        exact h.conts_subset hr hr' (hentry ▸ hs') htail ((h.mem_blocks hr' s').mpr hin)
          (ih r' hr' rfl)
    exact hall r hr hpath

/-- A family of blocks, some for each routine, that has the blocks at which call sites go on. A
routine called from a site that does not go on has all that the site's own routines have. -/
structure Resumes (g : Graph) (family : Routine → Nat → Prop) : Prop where
  site : ∀ r ∈ g.routines, ∀ s ∈ r.sites, ∀ k, (g.block s).continuation? = some k → family r k
  last : ∀ r ∈ g.routines, ∀ s ∈ r.sites, (g.block s).continuation? = none →
    ∀ r' ∈ g.routines, s ∈ r'.blocks → ∀ k, family r' k → family r k

theorem WellFormed.resumes_conts {g : Graph} (h : g.WellFormed) :
    g.Resumes fun r k => k ∈ r.conts := by
  refine ⟨?_, ?_⟩
  · intro r hr s hs k hk
    exact h.continuation_mem_conts hr ((h.mem_sites hr s).mp hs) hk
  · intro r hr s hs hlast r' hr' howner k hk
    exact h.conts_subset hr hr' ((h.mem_sites hr s).mp hs) hlast howner hk

/-- What a routine has comes from some call site, through routines that call each other for good. -/
theorem WellFormed.conts_least {g : Graph} (h : g.WellFormed) {family : Routine → Nat → Prop}
    (hfamily : g.Resumes family) {r : Routine} (hr : r ∈ g.routines) {k : Nat}
    (hk : k ∈ r.conts) : family r k := by
  obtain ⟨q, hpath, s, hs, hcont⟩ := (h.mem_conts hr k).mp hk
  clear hk
  generalize hentry : r.entry = e at hpath
  induction hpath using ReflTransGen.head_induction_on generalizing r with
  | refl =>
    have hsite : s ∈ r.sites := (h.mem_sites hr s).mpr (hentry ▸ hs)
    exact hfamily.site r hr s hsite k hcont
  | head hstep _ ih =>
    obtain ⟨⟨b, hb⟩, s', hinside, hs', hlast⟩ := hstep
    obtain ⟨r', hr', rfl⟩ := h.exists_routine hb
    have hsite : s' ∈ r.sites := (h.mem_sites hr s').mpr (hentry ▸ hs')
    have howner : s' ∈ r'.blocks := (h.mem_blocks hr' s').mpr hinside
    exact hfamily.last r hr s' hsite hlast r' hr' howner k (ih hr' rfl)

end Graph

end RegisterWeb
