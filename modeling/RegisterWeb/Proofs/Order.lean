import RegisterWeb.Proofs.Listing
import RegisterWeb.Proofs.Reach
import RegisterWeb.Track.Basic

/-!
The flow order lists every block once. Blocks that reach each other form components, and the
components are disjoint and cover the graph. As long as some component is pending, one of those that
reach the most is ready: whatever leads into it from outside reaches more than it does. So listing
the ready components comes to an end only when all have been listed.
-/

namespace RegisterWeb

open Relation

namespace Graph

/-- One block leads to another by edges of either kind. -/
def Reaches (g : Graph) (a b : Nat) : Prop :=
  ReflTransGen (Leads g.size g.targets) a b

/-- The blocks that a block reaches and that reach it. -/
def component (g : Graph) (b : Nat) : List Nat :=
  componentOf g.size g.reaches b

theorem getD_reaches {g : Graph} {b : Nat} (hb : b < g.size) (c : Nat) :
    (g.reaches.get b).getD c false = true ↔ g.Reaches b c := by
  simp only [reaches, Table.get_tabulate, if_pos hb, reach_iff, List.mem_singleton]
  constructor
  · rintro ⟨r, rfl, _, h⟩
    exact h
  · exact fun h => ⟨b, rfl, hb, h⟩

theorem mem_component {g : Graph} {b : Nat} (hb : b < g.size) (c : Nat) :
    c ∈ g.component b ↔ c < g.size ∧ g.Reaches b c ∧ g.Reaches c b := by
  simp only [component, componentOf, List.mem_filter, List.mem_range, Bool.and_eq_true]
  constructor
  · rintro ⟨hc, hbc, hcb⟩
    exact ⟨hc, (getD_reaches hb c).mp hbc, (getD_reaches hc b).mp hcb⟩
  · rintro ⟨hc, hbc, hcb⟩
    exact ⟨hc, (getD_reaches hb c).mpr hbc, (getD_reaches hc b).mpr hcb⟩

theorem mem_component_self {g : Graph} {b : Nat} (hb : b < g.size) : b ∈ g.component b :=
  (mem_component hb b).mpr ⟨hb, ReflTransGen.refl, ReflTransGen.refl⟩

theorem nodup_component (g : Graph) (b : Nat) : (g.component b).Nodup :=
  List.nodup_range.filter _

theorem ascending_component (g : Graph) (b : Nat) : Ascending (g.component b) :=
  List.pairwise_lt_range.filter _

theorem component_eq_of_mem {g : Graph} {b c : Nat} (hb : b < g.size) (h : c ∈ g.component b) :
    g.component c = g.component b := by
  obtain ⟨hc, hbc, hcb⟩ := (mem_component hb c).mp h
  simp only [component, componentOf]
  apply List.filter_congr
  intro x hx
  have hx' : x < g.size := List.mem_range.mp hx
  rw [Bool.eq_iff_iff, Bool.and_eq_true, Bool.and_eq_true, getD_reaches hc, getD_reaches hx',
    getD_reaches hb, getD_reaches hx']
  exact ⟨fun ⟨hcx, hxc⟩ => ⟨hbc.trans hcx, hxc.trans hcb⟩,
    fun ⟨hbx, hxb⟩ => ⟨hcb.trans hbx, hxb.trans hbc⟩⟩

/-- The components are those of the blocks that are lowest in their own. -/
theorem unordered_eq (g : Graph) :
    g.unordered = ((List.range g.size).filter fun b => (g.component b).head? = some b).map
      g.component := by
  have hzip : ∀ n, (List.range n).zipIdx = (List.range n).map fun b => (b, b) := by
    intro n
    apply List.ext_getElem?
    intro i
    by_cases hi : i < n
    · simp [hi]
    · simp [hi]
  simp only [unordered, List.zipIdx_map, hzip, List.map_map, List.filterMap_map]
  rw [← List.filterMap_eq_map, ← List.filterMap_eq_filter, List.filterMap_filterMap]
  apply List.filterMap_congr
  intro b _
  by_cases h : (g.component b).head? = some b
  · simp only [component] at h
    simp [component, Option.guard, h]
  · simp only [component] at h
    simp [component, Option.guard, h]

theorem mem_unordered (g : Graph) (c : List Nat) :
    c ∈ g.unordered ↔ ∃ b, b < g.size ∧ (g.component b).head? = some b ∧ g.component b = c := by
  simp only [unordered_eq, List.mem_map, List.mem_filter, List.mem_range, decide_eq_true_eq,
    and_assoc]

theorem component_mem_unordered {g : Graph} {b : Nat} (hb : b < g.size) :
    g.component b ∈ g.unordered := by
  cases hhead : (g.component b).head? with
  | none =>
    rw [List.head?_eq_none_iff] at hhead
    have hself := mem_component_self hb
    rw [hhead] at hself
    exact absurd hself List.not_mem_nil
  | some h =>
    have hmem : h ∈ g.component b := List.mem_of_head? hhead
    have heq := component_eq_of_mem hb hmem
    have hlt := ((mem_component hb h).mp hmem).1
    exact (mem_unordered g _).mpr ⟨h, hlt, heq ▸ hhead, heq⟩

theorem nodup_unordered (g : Graph) : g.unordered.Nodup := by
  rw [unordered_eq]
  refine (List.nodup_range.filter _).map_on ?_
  intro a ha b hb hab
  have ha' := (List.mem_filter.mp ha).2
  have hb' := (List.mem_filter.mp hb).2
  rw [decide_eq_true_eq] at ha' hb'
  rw [hab, hb'] at ha'
  exact (Option.some.inj ha').symm

/-- Together the components hold every block once. -/
theorem flatten_unordered_perm (g : Graph) : g.unordered.flatten.Perm (List.range g.size) := by
  have hnodup : g.unordered.flatten.Nodup := by
    rw [List.nodup_flatten]
    refine ⟨?_, ?_⟩
    · intro c hc
      obtain ⟨b, _, _, rfl⟩ := (mem_unordered g c).mp hc
      exact nodup_component g b
    · refine List.Pairwise.imp_of_mem ?_ (nodup_unordered g)
      intro c d hc hd hne x hxc hxd
      obtain ⟨a, ha, _, rfl⟩ := (mem_unordered g c).mp hc
      obtain ⟨b, hb, _, rfl⟩ := (mem_unordered g d).mp hd
      exact hne ((component_eq_of_mem ha hxc).symm.trans (component_eq_of_mem hb hxd))
  rw [List.perm_ext_iff_of_nodup hnodup List.nodup_range]
  intro x
  rw [List.mem_flatten, List.mem_range]
  constructor
  · rintro ⟨c, hc, hx⟩
    obtain ⟨b, hb, _, rfl⟩ := (mem_unordered g c).mp hc
    exact ((mem_component hb x).mp hx).1
  · intro hx
    exact ⟨g.component x, component_mem_unordered hx, mem_component_self hx⟩

theorem parts_unordered (g : Graph) : Parts g.size g.unordered := by
  refine ⟨flatten_unordered_perm g, fun hnil => ?_⟩
  obtain ⟨b, hb, _, hempty⟩ := (mem_unordered g []).mp hnil
  exact List.not_mem_nil (hempty ▸ mem_component_self hb)

/-! ### Listing the components -/

theorem lowest_of_ascending {b : Nat} {c : List Nat} (h : Ascending (b :: c)) :
    lowest (b :: c) = b := by
  have hmin : (b :: c).min? = some b := by
    refine List.min?_eq_some_iff.mpr ⟨List.mem_cons_self, fun x hx => ?_⟩
    rcases List.mem_cons.mp hx with rfl | hx
    · exact Nat.le_refl _
    · exact Nat.le_of_lt (List.rel_of_pairwise_cons h hx)
  rw [lowest, hmin]
  rfl

theorem pairwise_lowest_unordered (g : Graph) :
    g.unordered.Pairwise fun c d => lowest c < lowest d := by
  have hlowest : ∀ b, (g.component b).head? = some b → lowest (g.component b) = b := by
    intro b hhead
    obtain ⟨rest, hrest⟩ := List.head?_eq_some_iff.mp hhead
    have hasc := ascending_component g b
    rw [hrest] at hasc ⊢
    exact lowest_of_ascending hasc
  rw [unordered_eq, List.pairwise_map]
  refine (List.pairwise_lt_range.filter _).imp_of_mem fun {a b} ha hb hab => ?_
  rwa [hlowest a (of_decide_eq_true (List.mem_filter.mp ha).2),
    hlowest b (of_decide_eq_true (List.mem_filter.mp hb).2)]

theorem ranked_unordered (g : Graph) : ranked g.unordered = g.unordered := by
  have hlow := (pairwise_lowest_unordered g).imp fun h => decide_eq_true (Nat.le_of_lt h)
  rw [ranked, List.mergeSort_of_pairwise hlow]
  refine (List.map_congr_left fun c hc => ?_).trans (List.map_id _)
  obtain ⟨b, _, _, rfl⟩ := (mem_unordered g c).mp hc
  exact mergeSort_of_ascending (ascending_component g b)

/-- The components are listed as a search for the first ready one lists them. -/
theorem components_eq_arrange (g : Graph) :
    g.components = arrange g.sources (Table.blank g.size) g.unordered :=
  listing_eq (parts_unordered g) (ranked_unordered g)

theorem mem_reachable_singleton {g : Graph} {a : Nat} (ha : a < g.size) (x : Nat) :
    x ∈ reachable g.size g.targets [a] ↔ g.Reaches a x := by
  rw [mem_reachable]
  refine ⟨?_, fun h => ⟨a, List.mem_singleton_self a, ha, h⟩⟩
  intro ⟨r, hr, _, h⟩
  rw [List.mem_singleton.mp hr] at h
  exact h

/-- A block that leads into a component from outside reaches more blocks than it. -/
theorem length_reachable_lt {g : Graph} {b p : Nat} (hb : b < g.size) (hp : p < g.size)
    (hpb : g.Reaches p b) (hout : p ∉ g.component b) :
    (reachable g.size g.targets [b]).length < (reachable g.size g.targets [p]).length := by
  have hnot : p ∉ reachable g.size g.targets [b] := by
    intro h
    exact hout ((mem_component hb p).mpr ⟨hp, (mem_reachable_singleton hb p).mp h, hpb⟩)
  have hnodup : (p :: reachable g.size g.targets [b]).Nodup :=
    List.nodup_cons.mpr ⟨hnot, (ascending_reachable _ _ _).nodup⟩
  have hsub : p :: reachable g.size g.targets [b] ⊆ reachable g.size g.targets [p] := by
    intro x hx
    rw [mem_reachable_singleton hp]
    rcases List.mem_cons.mp hx with rfl | hx
    · exact ReflTransGen.refl
    · exact hpb.trans ((mem_reachable_singleton hb x).mp hx)
  exact (List.subperm_of_subset hnodup hsub).length_le

theorem length_reachable_le (g : Graph) (b : Nat) :
    (reachable g.size g.targets [b]).length ≤ g.size := by
  have h := List.length_filter_le (fun x => (reach g.size g.targets [b]).getD x false)
    (List.range g.size)
  rwa [List.length_range] at h

/-- How far the listing has come: the pending components are some of all, each once, and every
block is listed or its component is pending. -/
structure Listing (g : Graph) (listed : Table Bool) (pending : List (List Nat)) : Prop where
  size : listed.size = g.size
  nodup : pending.Nodup
  component : ∀ c ∈ pending, c ∈ g.unordered
  rest : ∀ b, b < g.size → listed.get b = true ∨ g.component b ∈ pending

theorem Listing.exists_ready {g : Graph} {listed : Table Bool} {pending : List (List Nat)}
    (h : g.Listing listed pending) {c : List Nat} (hc : c ∈ pending) :
    ∃ d ∈ pending, isReady g.sources listed d = true := by
  obtain ⟨b, hb, -, rfl⟩ := (mem_unordered g c).mp (h.component c hc)
  -- from a component that is not ready, go back to one that leads into it and so reaches more
  induction hn : g.size - (reachable g.size g.targets [b]).length using Nat.strong_induction_on
    generalizing b with
  | _ n ih =>
    by_cases hready : isReady g.sources listed (g.component b) = true
    · exact ⟨_, hc, hready⟩
    · simp only [isReady, List.all_eq_true, not_forall, Bool.or_eq_true, List.contains_iff_mem,
        not_or] at hready
      obtain ⟨x, hx, p, hp, hout, hunlisted⟩ := hready
      obtain ⟨hxlt, _, hxb⟩ := (mem_component hb x).mp hx
      obtain ⟨hplt, hpx⟩ := (mem_sources hxlt p).mp hp
      have hpend : g.component p ∈ pending := (h.rest p hplt).resolve_left hunlisted
      have hmore := length_reachable_lt hb hplt (ReflTransGen.head ⟨hpx, hxlt⟩ hxb) hout
      have hle := length_reachable_le g p
      exact ih _ (by omega) p hplt hpend rfl

theorem Listing.next {g : Graph} {listed : Table Bool} {pending : List (List Nat)}
    (h : g.Listing listed pending) (c : List Nat) :
    g.Listing (c.foldl (fun t b => t.set b true) listed) (pending.erase c) := by
  refine ⟨?_, h.nodup.erase c, fun d hd => h.component d (List.mem_of_mem_erase hd), ?_⟩
  · rw [(get_foldl_set c listed 0).1, h.size]
  · intro b hb
    rw [(get_foldl_set c listed b).2]
    rcases h.rest b hb with hlisted | hpend
    · exact Or.inl (Or.inl hlisted)
    · by_cases hbc : g.component b = c
      · exact Or.inl (Or.inr ⟨hbc ▸ mem_component_self hb, h.size.symm ▸ hb⟩)
      · exact Or.inr ((List.mem_erase_of_ne hbc).mpr hpend)

theorem Listing.arrange_perm {g : Graph} {listed : Table Bool} {pending : List (List Nat)}
    (h : g.Listing listed pending) : (arrange g.sources listed pending).Perm pending := by
  fun_induction arrange g.sources listed pending with
  | case1 listed pending hnone =>
    cases pending with
    | nil => exact List.Perm.refl _
    | cons c rest =>
      obtain ⟨d, hd, hready⟩ := h.exists_ready (List.mem_cons_self ..)
      exact absurd hready (List.find?_eq_none.mp hnone d hd)
  | case2 listed pending c hfound ih =>
    have hc := List.mem_of_find?_eq_some hfound
    exact ((ih (h.next c)).cons c).trans (List.perm_cons_erase hc).symm

theorem components_perm (g : Graph) : g.components.Perm g.unordered := by
  rw [components_eq_arrange]
  apply Listing.arrange_perm
  refine ⟨Table.size_blank g.size, nodup_unordered g, fun c hc => hc, ?_⟩
  exact fun b hb => Or.inr (component_mem_unordered hb)

/-- The flow order lists every block once. -/
theorem order_perm (g : Graph) : g.order.Perm (List.range g.size) :=
  (components_perm g).flatten.trans (flatten_unordered_perm g)

theorem nodup_order (g : Graph) : g.order.Nodup :=
  (order_perm g).nodup_iff.mpr List.nodup_range

theorem mem_order (g : Graph) (b : Nat) : b ∈ g.order ↔ b < g.size := by
  rw [(order_perm g).mem_iff, List.mem_range]

end Graph

namespace FlowOrder

/- Ranks are written block by block; no block occurs twice, so the rank of a block is its place. -/
theorem get_foldl_rank (l : List Nat) (k : Nat) (t : Table Nat) (hnodup : l.Nodup)
    (hlt : ∀ b ∈ l, b < t.size) (x : Nat) :
    ((l.zipIdx k).foldl (fun t (b, i) => t.set b i) t).get x =
      if x ∈ l then k + l.idxOf x else t.get x := by
  induction l generalizing k t with
  | nil => simp
  | cons b l ih =>
    obtain ⟨hb, hl⟩ := List.nodup_cons.mp hnodup
    have hsize : ∀ c ∈ l, c < (t.set b k).size := by
      intro c hc
      rw [Table.size_set]
      exact hlt c (List.mem_cons_of_mem _ hc)
    rw [List.zipIdx_cons, List.foldl_cons, ih (k + 1) (t.set b k) hl hsize, Table.get_set]
    by_cases hxb : b = x
    · subst hxb
      simp [hb, hlt b (List.mem_cons_self ..)]
    · simp only [hxb, false_and, if_false, List.mem_cons, Ne.symm hxb, false_or,
        List.idxOf_cons_ne _ hxb]
      split
      · omega
      · rfl

theorem rank_get (g : Graph) {b : Nat} (hb : b < g.size) :
    (ofGraph g).rank.get b = g.order.idxOf b := by
  have hlt : ∀ c ∈ g.order, c < (Table.blank g.size : Table Nat).size := by
    intro c hc
    rw [Table.size_blank]
    exact (Graph.mem_order g c).mp hc
  have h := get_foldl_rank g.order 0 (Table.blank g.size) (Graph.nodup_order g) hlt b
  rw [if_pos ((Graph.mem_order g b).mpr hb), Nat.zero_add] at h
  exact h

/-- A block comes before another exactly if it stands in front of it. -/
theorem isBefore_iff (g : Graph) {before after : List Nat} {p b : Nat}
    (h : (ofGraph g).blocks = before ++ b :: after) (hp : p < g.size) :
    (ofGraph g).isBefore p b = true ↔ p ∈ before := by
  have horder : g.order = before ++ b :: after := h
  have hnodup := Graph.nodup_order g
  have hpmem := (Graph.mem_order g p).mpr hp
  rw [horder] at hnodup hpmem
  have hbnot : b ∉ before := by
    intro hb
    exact List.disjoint_of_nodup_append hnodup hb (List.mem_cons_self ..)
  have hb : b < g.size := by
    rw [← Graph.mem_order, horder]
    exact List.mem_append_right _ (List.mem_cons_self ..)
  have hidx : (before ++ b :: after).idxOf b = before.length := by
    rw [List.idxOf_append_of_notMem hbnot, List.idxOf_cons_self, Nat.add_zero]
  rw [isBefore, decide_eq_true_eq, rank_get g hp, rank_get g hb, horder, hidx]
  by_cases hin : p ∈ before
  · rw [List.idxOf_append_of_mem hin]
    exact ⟨fun _ => hin, fun _ => List.idxOf_lt_length_of_mem hin⟩
  · rw [List.idxOf_append_of_notMem hin]
    refine ⟨fun hlt => absurd hlt (by omega), fun h => absurd h hin⟩

end FlowOrder

end RegisterWeb
