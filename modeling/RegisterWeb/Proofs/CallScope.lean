import Mathlib
import RegisterWeb.Proofs.CallSet

/-!
The call graph. The scope of a routine is made of its own blocks and of those of the routines that it
calls, directly or not, and these are the blocks that its entry reaches. Rounds that pass on along
all calls what is known so far come to an end, since each of them adds something, and then what is
known of a routine is what is in its scope.
-/

namespace RegisterWeb

open Relation
open RegisterWeb.Graph

/-! ### Scopes -/

namespace Graph

/-- Some block of the routine entered at `e` calls the routine entered at `c`. -/
def Invokes (g : Graph) (e c : Nat) : Prop :=
  ∃ q ∈ g.routines, q.entry = e ∧ ∃ b ∈ q.blocks, c ∈ (g.block b).callees

/-- A block belongs to the routine entered at `e` or to one that this routine calls, directly or
not. -/
def Scope (g : Graph) (e b : Nat) : Prop :=
  ∃ q ∈ g.routines, ReflTransGen g.Invokes e q.entry ∧ b ∈ q.blocks

namespace WellFormed

variable {g : Graph} {q : Routine} {b c : Nat}

theorem reaches_of_invokes (h : g.WellFormed) {e : Nat} (hcalls : g.Invokes e c) :
    g.Reaches e c := by
  obtain ⟨q, hq, rfl, b, hb, hc⟩ := hcalls
  have hpath := ((h.mem_blocks hq b).mp hb).reaches
  refine hpath.tail ⟨?_, h.callee_lt hc⟩
  exact List.mem_map.mpr ⟨⟨c, true⟩, (Block.mem_callees _ c).mp hc, rfl⟩

/-- An ordinary edge stays in the routine. -/
theorem scope_of_successor (h : g.WellFormed) {e : Nat} (hb : g.Scope e b)
    (hc : c ∈ (g.block b).successors) : g.Scope e c := by
  obtain ⟨q, hq, hpath, hb⟩ := hb
  exact ⟨q, hq, hpath, h.successor_mem_blocks hq hb hc⟩

/-- A call edge enters a routine that the routine calls. -/
theorem scope_of_callee (h : g.WellFormed) {e : Nat} (hb : g.Scope e b)
    (hc : c ∈ (g.block b).callees) : g.Scope e c := by
  obtain ⟨q, hq, hpath, hb⟩ := hb
  obtain ⟨r, hr, rfl⟩ := h.exists_routine hc
  exact ⟨r, hr, hpath.tail ⟨q, hq, rfl, b, hb, hc⟩, h.entry_mem_blocks hr⟩

theorem scope_of_leads (h : g.WellFormed) {e : Nat} (hb : g.Scope e b)
    (hedge : Leads g.size g.targets b c) : g.Scope e c := by
  obtain ⟨⟨d, isCall⟩, hnext, rfl⟩ := List.mem_map.mp hedge.1
  cases isCall with
  | true => exact h.scope_of_callee hb ((Block.mem_callees _ d).mpr hnext)
  | false => exact h.scope_of_successor hb ((Block.mem_successors _ d).mpr hnext)

/-- The scope of a routine is what its entry reaches by edges of both kinds. -/
theorem scope_iff (h : g.WellFormed) (hq : q ∈ g.routines) (b : Nat) :
    g.Scope q.entry b ↔ g.Reaches q.entry b := by
  constructor
  · intro hb
    obtain ⟨r, hr, hpath, hb⟩ := hb
    have hentry : g.Reaches q.entry r.entry := by
      generalize r.entry = c at hpath
      induction hpath with
      | refl => exact ReflTransGen.refl
      | tail _ hcalls ih => exact ih.trans (h.reaches_of_invokes hcalls)
    exact hentry.trans ((h.mem_blocks hr b).mp hb).reaches
  · intro hpath
    induction hpath with
    | refl => exact ⟨q, hq, ReflTransGen.refl, h.entry_mem_blocks hq⟩
    | tail _ hedge ih => exact h.scope_of_leads ih hedge

theorem lt_of_scope (h : g.WellFormed) {e : Nat} (hb : g.Scope e b) : b < g.size := by
  obtain ⟨q, hq, _, hb⟩ := hb
  cases (h.mem_blocks hq b).mp hb with
  | refl => exact h.entry_lt hq
  | tail _ hedge => exact hedge.2

end WellFormed

end Graph

/-! ### Rounds that only add -/

section Rounds

variable {α ι : Type} {op : α → ι → α}

theorem le_foldl [Preorder α] (grow : ∀ s x, s ≤ op s x) (l : List ι) (s : α) :
    s ≤ l.foldl op s := by
  induction l generalizing s with
  | nil => exact le_refl s
  | cons x l ih => exact (grow s x).trans (ih (op s x))

theorem eq_of_foldl_eq [PartialOrder α] (grow : ∀ s x, s ≤ op s x) {l : List ι} {s : α}
    (h : l.foldl op s = s) : ∀ x ∈ l, op s x = s := by
  induction l with
  | nil => exact fun x hx => absurd hx List.not_mem_nil
  | cons x l ih =>
    rw [List.foldl_cons] at h
    have hx : op s x = s := le_antisymm ((le_foldl grow l (op s x)).trans_eq h) (grow s x)
    rw [hx] at h
    exact List.forall_mem_cons.mpr ⟨hx, ih h⟩

/-- Rounds that only add members of a finite set come to an end. -/
theorem exists_still {step : Finset α → Finset α} {all : Finset α} (grow : ∀ s, s ⊆ step s)
    (keep : ∀ s, s ⊆ all → step s ⊆ all) {s : Finset α} (hs : s ⊆ all) :
    ∃ k ≤ all.card, step (step^[k] s) = step^[k] s ∧ ∀ j < k, step^[j + 1] s ≠ step^[j] s := by
  obtain ⟨k, hk, heq, hrooms⟩ := saturate_eq_iterate (fun t => all.card - t.card) step s
  refine ⟨k, hk.trans (Nat.sub_le _ _), ?_, fun j hj hsame => ?_⟩
  · have hstop := saturate_stops (fun t => all.card - t.card) step s
    have hend : step^[k] s ⊆ all := Function.Iterate.rec (fun t => t ⊆ all) hs keep k
    have hcard := Finset.card_le_card (keep _ hend)
    rw [heq] at hstop
    exact (Finset.eq_of_subset_of_card_le (grow _) (by omega)).symm
  · have hless := hrooms j hj
    rw [hsame] at hless
    exact Nat.lt_irrefl _ hless

end Rounds

/-! ### Passing on along calls -/

/-- The calls between routines, in the order in which a round looks at them. -/
def Graph.invocations (g : Graph) : List (Nat × Nat) :=
  g.routines.flatMap fun q => q.blocks.flatMap fun b =>
    (g.block b).callees.map fun c => (q.entry, c)

theorem Graph.mem_invocations {g : Graph} {e c : Nat} :
    (e, c) ∈ g.invocations ↔ g.Invokes e c := by
  simp only [invocations, Invokes, List.mem_flatMap, List.mem_map, Prod.mk.injEq]
  constructor
  · intro h
    obtain ⟨q, hq, b, hb, d, hd, rfl, rfl⟩ := h
    exact ⟨q, hq, rfl, b, hb, hd⟩
  · intro h
    obtain ⟨q, hq, rfl, b, hb, hc⟩ := h
    exact ⟨q, hq, b, hb, c, hc, rfl, rfl⟩

/-- Routines, given by the blocks that enter them, with what is known to be touched there: registers,
or instances that are live. -/
abbrev Touched (α : Type) := Finset (Nat × α)

namespace Touched

variable {α : Type} [DecidableEq α]

/-- What is in the blocks of the routines themselves, if `content` says what is in a block. -/
def own (g : Graph) (content : Nat → List α) : Touched α :=
  (g.routines.flatMap fun q => q.blocks.flatMap fun b =>
    (content b).map fun x => (q.entry, x)).toFinset

/-- Passes what the callee is known to touch on to the caller. -/
def pass (t : Touched α) (call : Nat × Nat) : Touched α :=
  t ∪ (t.filter fun p => p.1 = call.2).image fun p => (call.1, p.2)

/-- One round over all calls. -/
def round (g : Graph) (t : Touched α) : Touched α :=
  g.invocations.foldl pass t

variable {g : Graph} {content : Nat → List α} {t : Touched α} {e c : Nat} {x : α}

theorem mem_own : (e, x) ∈ own g content ↔
    ∃ q ∈ g.routines, q.entry = e ∧ ∃ b ∈ q.blocks, x ∈ content b := by
  simp only [own, List.mem_toFinset, List.mem_flatMap, List.mem_map, Prod.mk.injEq]
  constructor
  · intro h
    obtain ⟨q, hq, b, hb, x', hx, rfl, rfl⟩ := h
    exact ⟨q, hq, rfl, b, hb, hx⟩
  · intro h
    obtain ⟨q, hq, rfl, b, hb, hx⟩ := h
    exact ⟨q, hq, b, hb, x, hx, rfl, rfl⟩

theorem mem_pass {d : Nat} :
    (d, x) ∈ t.pass (e, c) ↔ (d, x) ∈ t ∨ (d = e ∧ (c, x) ∈ t) := by
  simp only [pass, Finset.mem_union, Finset.mem_image, Finset.mem_filter, Prod.mk.injEq]
  refine or_congr_right ⟨fun h => ?_, fun h => ?_⟩
  · obtain ⟨⟨c', x'⟩, ⟨hp, rfl⟩, rfl, rfl⟩ := h
    exact ⟨rfl, hp⟩
  · obtain ⟨rfl, hc⟩ := h
    exact ⟨(c, x), ⟨hc, rfl⟩, rfl, rfl⟩

theorem subset_pass (t : Touched α) (call : Nat × Nat) : t ⊆ t.pass call :=
  Finset.subset_union_left

theorem subset_round (g : Graph) (t : Touched α) : t ⊆ t.round g :=
  le_foldl subset_pass g.invocations t

/-- What is known includes what the routines touch themselves, and is owed to calls. -/
structure Owed (g : Graph) (start t : Touched α) : Prop where
  holds : start ⊆ t
  owed : ∀ e x, (e, x) ∈ t → ∃ d, ReflTransGen g.Invokes e d ∧ (d, x) ∈ start

variable {start : Touched α}

theorem Owed.pass (h : Owed g start t) (hcall : g.Invokes e c) :
    Owed g start (t.pass (e, c)) := by
  refine ⟨h.holds.trans (subset_pass t _), fun d x hd => ?_⟩
  rcases mem_pass.mp hd with hd | ⟨rfl, hc⟩
  · exact h.owed d x hd
  · obtain ⟨d', hpath, hown⟩ := h.owed c x hc
    exact ⟨d', hpath.head hcall, hown⟩

theorem Owed.round (h : Owed g start t) : Owed g start (t.round g) :=
  List.foldlRecOn (motive := Owed g start) g.invocations _ h
    fun _ ht _ hcall => ht.pass (mem_invocations.mp hcall)

theorem Owed.iterate (g : Graph) (start : Touched α) (k : Nat) :
    Owed g start ((Touched.round g)^[k] start) := by
  have hstart : Owed g start start :=
    ⟨subset_rfl, fun e x hown => ⟨e, ReflTransGen.refl, hown⟩⟩
  exact Function.Iterate.rec (Owed g start) hstart (fun _ ht => ht.round) k

/-- Where a round adds nothing, what is known is the closure of the call graph. -/
theorem Owed.mem_iff (h : Owed g start t) (hstill : t.round g = t) :
    (e, x) ∈ t ↔ ∃ d, ReflTransGen g.Invokes e d ∧ (d, x) ∈ start := by
  refine ⟨h.owed e x, fun hfound => ?_⟩
  obtain ⟨d, hpath, hown⟩ := hfound
  induction hpath using ReflTransGen.head_induction_on with
  | refl => exact h.holds hown
  | head hcall _ ih =>
    have hsame := eq_of_foldl_eq subset_pass hstill _ (mem_invocations.mpr hcall)
    rw [← hsame]
    exact mem_pass.mpr (Or.inr ⟨rfl, ih⟩)

/-- All routines with all of the given registers or instances. -/
def all (g : Graph) (given : List α) : Touched α :=
  (g.routines.map Routine.entry).toFinset ×ˢ given.toFinset

variable {given : List α}

theorem mem_all :
    (e, x) ∈ all g given ↔ (∃ q ∈ g.routines, q.entry = e) ∧ x ∈ given := by
  simp only [all, Finset.mem_product, List.mem_toFinset, List.mem_map]

theorem card_all_le (g : Graph) (given : List α) :
    (all g given).card ≤ g.routines.length * given.length := by
  rw [all, Finset.card_product]
  refine Nat.mul_le_mul ((List.toFinset_card_le _).trans_eq ?_) (List.toFinset_card_le _)
  exact List.length_map ..

theorem round_subset_all (h : t ⊆ all g given) : t.round g ⊆ all g given := by
  refine List.foldlRecOn (motive := fun t => t ⊆ all g given) g.invocations _ h ?_
  intro t ht call hcall p hp
  obtain ⟨q, hq, hentry, _⟩ := mem_invocations.mp hcall
  rcases mem_pass.mp hp with hp | ⟨he, hp⟩
  · exact ht hp
  · exact mem_all.mpr ⟨⟨q, hq, hentry.trans he.symm⟩, (mem_all.mp (ht hp)).2⟩

/-- The rounds end with all that is in the scopes of the routines. -/
theorem exists_rounds (hgiven : ∀ q ∈ g.routines, ∀ b ∈ q.blocks, ∀ x ∈ content b, x ∈ given) :
    ∃ k ≤ g.routines.length * given.length,
      Touched.round g ((Touched.round g)^[k] (own g content))
        = (Touched.round g)^[k] (own g content) ∧
      (∀ j < k, (Touched.round g)^[j + 1] (own g content)
        ≠ (Touched.round g)^[j] (own g content)) ∧
      ∀ e x, (e, x) ∈ (Touched.round g)^[k] (own g content) ↔ ∃ b, g.Scope e b ∧ x ∈ content b := by
  have hown : own g content ⊆ all g given := by
    intro p hp
    obtain ⟨q, hq, hentry, b, hb, hx⟩ := mem_own.mp hp
    exact mem_all.mpr ⟨⟨q, hq, hentry⟩, hgiven q hq b hb p.2 hx⟩
  obtain ⟨k, hk, hstill, hmoves⟩ := exists_still (subset_round g)
    (fun _ => round_subset_all) hown
  refine ⟨k, hk.trans (card_all_le g _), hstill, hmoves, fun e x => ?_⟩
  rw [(Owed.iterate g _ k).mem_iff hstill]
  constructor
  · intro h
    obtain ⟨d, hpath, hd⟩ := h
    obtain ⟨q, hq, rfl, b, hb, hx⟩ := mem_own.mp hd
    exact ⟨b, ⟨q, hq, hpath, hb⟩, hx⟩
  · intro h
    obtain ⟨b, ⟨q, hq, hpath, hb⟩, hx⟩ := h
    exact ⟨q.entry, hpath, mem_own.mpr ⟨q, hq, rfl, b, hb, hx⟩⟩

end Touched

end RegisterWeb
