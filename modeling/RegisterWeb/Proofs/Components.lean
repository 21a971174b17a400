import Mathlib
import RegisterWeb.Proofs.Graph
import RegisterWeb.Proofs.Order

/-!
What the flow order looks like. The components that are listed are the classes of blocks that reach
each other. A component is listed once everything that leads into it has been listed, and of those
that could be listed it is the one with the lowest block. The components with a cycle are those that
hold a block on a way back to itself.
-/

namespace RegisterWeb

open Relation

namespace Graph

/-- An edge of either kind leads from one block to another. -/
def Joins (g : Graph) (u v : Nat) : Prop :=
  v ∈ g.targets u

/-- Every edge ends in the graph. -/
def Inner (g : Graph) : Prop :=
  ∀ u < g.size, ∀ e ∈ (g.block u).next, e.block < g.size

instance (g : Graph) : Decidable g.Inner :=
  inferInstanceAs (Decidable (∀ u < g.size, ∀ e ∈ (g.block u).next, e.block < g.size))

section Components

variable {g : Graph} {u v b : Nat} {c d : List Nat}

theorem Joins.lt_size (h : g.Joins u v) : u < g.size := by
  obtain ⟨e, he, _⟩ := List.mem_map.mp h
  exact lt_size_of_mem_next he

theorem Inner.lt_size (hg : g.Inner) (h : g.Joins u v) : v < g.size := by
  have hu := h.lt_size
  obtain ⟨e, he, rfl⟩ := List.mem_map.mp h
  exact hg u hu e he

theorem Inner.reaches_eq (hg : g.Inner) : g.Reaches = ReflTransGen g.Joins := by
  have hleads : Leads g.size g.targets = g.Joins := by
    funext u v
    exact propext ⟨fun h => h.1, fun h => ⟨h, hg.lt_size h⟩⟩
  funext u v
  rw [Reaches, hleads]

theorem mem_components : c ∈ g.components ↔ ∃ b < g.size, g.component b = c := by
  rw [(components_perm g).mem_iff]
  constructor
  · intro h
    obtain ⟨b, hb, _, heq⟩ := (mem_unordered g c).mp h
    exact ⟨b, hb, heq⟩
  · intro h
    obtain ⟨b, hb, rfl⟩ := h
    exact component_mem_unordered hb

/-- A listed component is the component of each of its blocks. -/
theorem component_eq_of_mem_components (hc : c ∈ g.components) (hb : b ∈ c) :
    b < g.size ∧ g.component b = c := by
  obtain ⟨a, ha, rfl⟩ := mem_components.mp hc
  exact ⟨((mem_component ha b).mp hb).1, component_eq_of_mem ha hb⟩

theorem exists_mem_of_mem_components (hc : c ∈ g.components) : ∃ b, b ∈ c := by
  obtain ⟨b, hb, rfl⟩ := mem_components.mp hc
  exact ⟨b, mem_component_self hb⟩

/-- A component is the class of each of its blocks. -/
theorem Inner.mem_component_iff (hg : g.Inner) (hc : c ∈ g.components) (hb : b ∈ c) (x : Nat) :
    x ∈ c ↔ ReflTransGen g.Joins b x ∧ ReflTransGen g.Joins x b := by
  obtain ⟨hlt, rfl⟩ := component_eq_of_mem_components hc hb
  rw [mem_component hlt, hg.reaches_eq]
  refine ⟨fun h => h.2, fun h => ⟨?_, h⟩⟩
  rcases ReflTransGen.cases_tail h.1 with rfl | h'
  · exact hlt
  · obtain ⟨y, _, hyx⟩ := h'
    exact hg.lt_size hyx

/-! ### Components become free -/

/-- One component starts below another. -/
def Lower (c d : List Nat) : Prop :=
  ∃ l ∈ c, ∀ x ∈ d, l < x

/-- Every component that leads into this one is this one or is among those given. -/
def Free (g : Graph) (done : List (List Nat)) (c : List Nat) : Prop :=
  ∀ d ∈ g.components, (∃ u ∈ d, ∃ v ∈ c, g.Joins u v) → d = c ∨ d ∈ done

theorem pairwise_unordered (g : Graph) : g.unordered.Pairwise Lower := by
  rw [unordered_eq, List.pairwise_map]
  refine (List.pairwise_lt_range.filter _).imp_of_mem ?_
  intro a b ha hb hab
  have ha' := (List.mem_filter.mp ha).2
  have hb' := (List.mem_filter.mp hb).2
  rw [decide_eq_true_eq] at ha' hb'
  refine ⟨a, List.mem_of_head? ha', ?_⟩
  intro x hx
  obtain ⟨rest, hrest⟩ := List.head?_eq_some_iff.mp hb'
  have hasc := ascending_component g b
  rw [hrest] at hasc hx
  rcases List.mem_cons.mp hx with rfl | hx
  · exact hab
  · exact hab.trans (List.rel_of_pairwise_cons hasc hx)

/-- With the blocks of some components marked, the components that are ready are those that are
free. -/
theorem isReady_iff_free {listed : Table Bool} {done : List (List Nat)}
    (hdone : done ⊆ g.components)
    (hlisted : ∀ b < g.size, listed.get b = true ↔ b ∈ done.flatten) (hc : c ∈ g.components) :
    isReady g.sources listed c = true ↔ g.Free done c := by
  rw [isReady_iff]
  constructor
  · intro h d hd hlead
    obtain ⟨u, hud, v, hvc, huv⟩ := hlead
    obtain ⟨hu, hcomp⟩ := component_eq_of_mem_components hd hud
    have hv := (component_eq_of_mem_components hc hvc).1
    rcases h v hvc u ((mem_sources hv u).mpr ⟨hu, huv⟩) with huc | hmark
    · exact Or.inl (hcomp.symm.trans (component_eq_of_mem_components hc huc).2)
    · obtain ⟨d', hd', hud'⟩ := List.mem_flatten.mp ((hlisted u hu).mp hmark)
      have hsame := (component_eq_of_mem_components (hdone hd') hud').2
      exact Or.inr (hcomp ▸ hsame.symm ▸ hd')
  · intro h v hvc u hsource
    have hv := (component_eq_of_mem_components hc hvc).1
    obtain ⟨hu, huv⟩ := (mem_sources hv u).mp hsource
    have hself := mem_component_self hu
    rcases h (g.component u) (mem_components.mpr ⟨u, hu, rfl⟩) ⟨u, hself, v, hvc, huv⟩ with
      heq | hmem
    · exact Or.inl (heq ▸ hself)
    · exact Or.inr ((hlisted u hu).mpr (List.mem_flatten.mpr ⟨_, hmem, hself⟩))

/-- Listing marks the blocks of one more component. -/
theorem get_next_listed {listed : Table Bool} {done : List (List Nat)} (hsize : listed.size = g.size)
    (hlisted : ∀ b < g.size, listed.get b = true ↔ b ∈ done.flatten) (c : List Nat) :
    ∀ b < g.size, (c.foldl (fun t b => t.set b true) listed).get b = true ↔
      b ∈ (done ++ [c]).flatten := by
  intro b hb
  rw [(get_foldl_set c listed b).2, hlisted b hb, hsize, List.flatten_append, List.mem_append,
    List.flatten_singleton]
  simp only [hb, and_true]

/-- Whatever comes next is free by then, and lower than all that are free as well and come later. -/
theorem Listing.arrange_split {listed : Table Bool} {pending : List (List Nat)}
    (h : g.Listing listed pending) {done : List (List Nat)} (hdone : done ⊆ g.components)
    (hlisted : ∀ b < g.size, listed.get b = true ↔ b ∈ done.flatten)
    (hlower : pending.Pairwise Lower) {before after : List (List Nat)}
    (hsplit : arrange g.sources listed pending = before ++ c :: after) :
    g.Free (done ++ before) c ∧ ∀ d ∈ after, g.Free (done ++ before) d → Lower c d := by
  have hcomp : ∀ d ∈ pending, d ∈ g.components := fun d hd =>
    (components_perm g).mem_iff.mpr (h.component d hd)
  fun_induction arrange g.sources listed pending generalizing done before with
  | case1 listed pending hnone => simp at hsplit
  | case2 listed pending first hfound ih =>
    obtain ⟨hready, front, back, rfl, hfront⟩ := List.find?_eq_some_iff_append.mp hfound
    have hfirst := hcomp first (by simp)
    cases before with
    | nil =>
      obtain ⟨rfl, hafter⟩ := List.cons.inj hsplit
      rw [List.append_nil]
      refine ⟨(isReady_iff_free hdone hlisted hfirst).mp hready, ?_⟩
      intro d hd hfree
      have hmem := (h.next first).arrange_perm.mem_iff.mp (hafter ▸ hd)
      obtain ⟨hne, hmem⟩ := (h.nodup.mem_erase_iff).mp hmem
      have hdready := (isReady_iff_free hdone hlisted (hcomp d hmem)).mpr hfree
      -- those in front of the first ready component are not ready
      rcases List.mem_append.mp hmem with hin | hin
      · have hnot := hfront d hin
        rw [hdready] at hnot
        exact absurd hnot (by decide)
      · have hback : d ∈ back := (List.mem_cons.mp hin).resolve_left hne
        exact List.rel_of_pairwise_cons (List.pairwise_append.mp hlower).2.1 hback
    | cons head before =>
      obtain ⟨rfl, hrest⟩ := List.cons.inj hsplit
      have hmore : done ++ [first] ⊆ g.components :=
        List.append_subset.mpr ⟨hdone, List.cons_subset.mpr ⟨hfirst, List.nil_subset _⟩⟩
      have hnext := ih (h.next first) hmore
        (get_next_listed h.size hlisted first) (hlower.sublist (List.erase_sublist ..)) hrest
        (fun d hd => hcomp d (List.mem_of_mem_erase hd))
      rwa [List.append_assoc, List.singleton_append] at hnext

/-- Every component is free when it is listed, and lower than all that are free as well and come
later. -/
theorem components_split {before after : List (List Nat)}
    (hsplit : g.components = before ++ c :: after) :
    g.Free before c ∧ ∀ d ∈ after, g.Free before d → Lower c d := by
  have hlisting : g.Listing (Table.blank g.size) g.unordered :=
    ⟨Table.size_blank g.size, nodup_unordered g, fun c hc => hc,
      fun b hb => Or.inr (component_mem_unordered hb)⟩
  have hblank : ∀ b < g.size, (Table.blank g.size : Table Bool).get b = true ↔
      b ∈ ([] : List (List Nat)).flatten := by
    intro b hb
    simp [Table.get_blank]
  rw [components_eq_arrange] at hsplit
  exact hlisting.arrange_split (List.nil_subset _) hblank (pairwise_unordered g) hsplit

/-- An edge that is on no cycle leads forward. -/
theorem Inner.idxOf_lt (hg : g.Inner) (huv : g.Joins u v) (hback : ¬ ReflTransGen g.Joins v u) :
    g.order.idxOf u < g.order.idxOf v := by
  have hu := huv.lt_size
  have hv := hg.lt_size huv
  have hcu : g.component u ∈ g.components := mem_components.mpr ⟨u, hu, rfl⟩
  have hcv : g.component v ∈ g.components := mem_components.mpr ⟨v, hv, rfl⟩
  obtain ⟨before, after, hsplit⟩ := List.append_of_mem hcv
  have hself := mem_component_self hu
  have hbefore : g.component u ∈ before := by
    have hfree := (components_split hsplit).1 _ hcu ⟨u, hself, v, mem_component_self hv, huv⟩
    refine hfree.resolve_left fun heq => hback ?_
    have hmem : u ∈ g.component v := heq ▸ hself
    exact ((hg.mem_component_iff hcv (mem_component_self hv) u).mp hmem).1
  have horder : g.order = before.flatten ++ (g.component v :: after).flatten := by
    rw [order, hsplit, List.flatten_append]
  have hin : u ∈ before.flatten := List.mem_flatten.mpr ⟨_, hbefore, hself⟩
  have hout : v ∉ before.flatten := by
    intro hmem
    have hnodup := nodup_order g
    rw [horder] at hnodup
    refine List.disjoint_of_nodup_append hnodup hmem ?_
    exact List.mem_flatten.mpr ⟨_, List.mem_cons_self .., mem_component_self hv⟩
  rw [horder, List.idxOf_append_of_mem hin, List.idxOf_append_of_notMem hout]
  have hlt := List.idxOf_lt_length_of_mem hin
  omega

/-! ### Cycles -/

theorem one_lt_length_iff (hc : c ∈ g.components) :
    1 < c.length ↔ ∃ b ∈ c, ∃ x ∈ c, b ≠ x := by
  obtain ⟨a, _, rfl⟩ := mem_components.mp hc
  rw [← List.toFinset_card_of_nodup (nodup_component g a), Finset.one_lt_card]
  simp only [List.mem_toFinset]

theorem Inner.isLoop_iff (hg : g.Inner) (hc : c ∈ g.components) :
    g.isLoop c = true ↔ ∃ b ∈ c, TransGen g.Joins b b := by
  rw [isLoop, Bool.or_eq_true, decide_eq_true_eq, Option.any_eq_true]
  constructor
  · intro h
    rcases h with hlong | ⟨b, hb, hself⟩
    · -- of two blocks of a component each leads to the other
      obtain ⟨b, hb, x, hx, hne⟩ := (one_lt_length_iff hc).mp hlong
      obtain ⟨hbx, hxb⟩ := (hg.mem_component_iff hc hb x).mp hx
      have hway : TransGen g.Joins b x :=
        (reflTransGen_iff_eq_or_transGen.mp hbx).resolve_left hne.symm
      exact ⟨b, hb, hway.trans_left hxb⟩
    · exact ⟨b, List.mem_of_head? hb, TransGen.single (List.contains_iff_mem.mp hself)⟩
  · intro h
    obtain ⟨b, hb, hcycle⟩ := h
    obtain ⟨x, hbx, hxb⟩ := TransGen.head'_iff.mp hcycle
    have hx : x ∈ c := (hg.mem_component_iff hc hb x).mpr ⟨ReflTransGen.single hbx, hxb⟩
    by_cases hlong : 1 < c.length
    · exact Or.inl hlong
    · have halone : ∀ y ∈ c, y = b := by
        intro y hy
        by_contra hne
        exact hlong ((one_lt_length_iff hc).mpr ⟨y, hy, b, hb, hne⟩)
      obtain ⟨first, hfirst⟩ := Option.ne_none_iff_exists'.mp
        (mt List.head?_eq_none_iff.mp (List.ne_nil_of_mem hb))
      rw [halone first (List.mem_of_head? hfirst)] at hfirst
      exact Or.inr ⟨b, hfirst, List.contains_iff_mem.mpr (halone x hx ▸ hbx)⟩

theorem Inner.mem_loops (hg : g.Inner) (c : List Nat) :
    c ∈ g.loops ↔ c ∈ g.components ∧ ∃ b ∈ c, TransGen g.Joins b b := by
  rw [loops, List.mem_filter]
  exact and_congr_right fun hc => hg.isLoop_iff hc

/-- All blocks of a component with a cycle lie on cycles. -/
theorem Inner.mem_flatten_loops (hg : g.Inner) (b : Nat) :
    b ∈ g.loops.flatten ↔ TransGen g.Joins b b := by
  rw [List.mem_flatten]
  constructor
  · intro h
    obtain ⟨c, hc, hb⟩ := h
    obtain ⟨hc, x, hx, hcycle⟩ := (hg.mem_loops c).mp hc
    obtain ⟨hbx, hxb⟩ := (hg.mem_component_iff hc hb x).mp hx
    exact (TransGen.trans_right hbx hcycle).trans_left hxb
  · intro h
    obtain ⟨x, hbx, _⟩ := TransGen.head'_iff.mp h
    have hb := hbx.lt_size
    refine ⟨g.component b, (hg.mem_loops _).mpr ⟨mem_components.mpr ⟨b, hb, rfl⟩, ?_⟩,
      mem_component_self hb⟩
    exact ⟨b, mem_component_self hb, h⟩

/-! ### Components in any order -/

/-- An edge leads from one block to another one. -/
def Links (g : Graph) (u v : Nat) : Prop :=
  u ≠ v ∧ g.Joins u v

/-- Strongly connected components, in any order and with their blocks in any order: together they
hold every block once, and each holds the blocks that reach each other. -/
structure Strong (g : Graph) (scc : List (List Nat)) : Prop where
  whole : scc.flatten.Perm (List.range g.size)
  full : [] ∉ scc
  reach : ∀ c ∈ scc, ∀ u ∈ c, ∀ v, v ∈ c ↔ ReflTransGen g.Links u v ∧ ReflTransGen g.Links v u

/-- Edges from a block to itself do not matter for what is reached. -/
theorem reflTransGen_links (g : Graph) : ReflTransGen g.Links = ReflTransGen g.Joins := by
  funext u v
  refine propext ⟨fun hway => ?_, fun hway => ?_⟩
  · induction hway with
    | refl => exact ReflTransGen.refl
    | tail _ hedge ih => exact ih.tail hedge.2
  · induction hway with
    | refl => exact ReflTransGen.refl
    | @tail x y _ hedge ih =>
      by_cases hxy : x = y
      · exact hxy ▸ ih
      · exact ih.tail ⟨hxy, hedge⟩

variable {scc : List (List Nat)}

theorem Inner.strong_of_perm (hg : g.Inner) {parts : List (List Nat)}
    (hsame : List.Forall₂ List.Perm scc parts) (hparts : parts.Perm g.unordered) :
    g.Strong scc := by
  have hmem : ∀ c ∈ scc, ∃ d ∈ g.components, c.Perm d := by
    intro c hc
    obtain ⟨i, hi, rfl⟩ := List.getElem_of_mem hc
    have hi' : i < parts.length := hsame.length_eq ▸ hi
    refine ⟨parts[i], ?_, hsame.get hi hi'⟩
    exact (components_perm g).mem_iff.mpr (hparts.mem_iff.mp (List.getElem_mem hi'))
  refine ⟨?_, fun hnil => ?_, fun c hc u hu v => ?_⟩
  · exact (List.Perm.flatten_congr hsame).trans (hparts.flatten.trans (flatten_unordered_perm g))
  · obtain ⟨d, hd, hperm⟩ := hmem [] hnil
    obtain ⟨b, hb⟩ := exists_mem_of_mem_components hd
    exact List.not_mem_nil (hperm.mem_iff.mpr hb)
  · obtain ⟨d, hd, hperm⟩ := hmem c hc
    rw [reflTransGen_links, hperm.mem_iff]
    exact hg.mem_component_iff hd (hperm.mem_iff.mp hu) v

theorem Inner.strong_unordered (hg : g.Inner) : g.Strong g.unordered :=
  hg.strong_of_perm (List.forall₂_same.mpr fun c _ => List.Perm.refl c) (List.Perm.refl _)

theorem lowest_spec (h : c ≠ []) : lowest c ∈ c ∧ ∀ x ∈ c, lowest c ≤ x := by
  obtain ⟨l, hl⟩ := Option.ne_none_iff_exists'.mp (mt List.min?_eq_none_iff.mp h)
  rw [lowest, hl]
  exact List.min?_eq_some_iff.mp hl

theorem lowest_perm (h : c.Perm d) (hc : c ≠ []) : lowest c = lowest d := by
  have hd : d ≠ [] := fun hnil => hc (hnil ▸ h).eq_nil
  obtain ⟨hmem, hle⟩ := lowest_spec hc
  obtain ⟨hmem', hle'⟩ := lowest_spec hd
  exact le_antisymm (hle _ (h.mem_iff.mpr hmem')) (hle' _ (h.mem_iff.mp hmem))

namespace Strong

theorem lt_size (h : g.Strong scc) (hc : c ∈ scc) (hu : u ∈ c) : u < g.size :=
  List.mem_range.mp (h.whole.mem_iff.mp (List.mem_flatten.mpr ⟨c, hc, hu⟩))

theorem nodup (h : g.Strong scc) : scc.flatten.Nodup :=
  h.whole.nodup_iff.mpr List.nodup_range

/-- Sorted, a component is the component of any of its blocks. -/
theorem mergeSort_eq (h : g.Strong scc) (hg : g.Inner) (hc : c ∈ scc) (hu : u ∈ c) :
    c.mergeSort = g.component u := by
  have hasc := ascending_mergeSort ((List.nodup_flatten.mp h.nodup).1 c hc)
  refine Ascending.eq_of_mem_iff hasc (ascending_component g u) fun v => ?_
  have hclass := h.reach c hc u hu v
  rw [reflTransGen_links, ← hg.reaches_eq] at hclass
  rw [List.mem_mergeSort, mem_component (h.lt_size hc hu), hclass]
  exact ⟨fun hv => ⟨h.lt_size hc (hclass.mpr hv), hv⟩, fun hv => hv.2⟩

theorem mem_ranked (h : g.Strong scc) (hg : g.Inner) : d ∈ ranked scc ↔ d ∈ g.unordered := by
  rw [← (components_perm g).mem_iff, mem_components, ranked, List.mem_map]
  simp only [List.mem_mergeSort]
  constructor
  · intro hd
    obtain ⟨c, hc, rfl⟩ := hd
    obtain ⟨u, hu⟩ := List.exists_mem_of_ne_nil c fun hnil => h.full (hnil ▸ hc)
    exact ⟨u, h.lt_size hc hu, (h.mergeSort_eq hg hc hu).symm⟩
  · intro hd
    obtain ⟨u, hu, rfl⟩ := hd
    obtain ⟨c, hc, huc⟩ := List.mem_flatten.mp (h.whole.mem_iff.mpr (List.mem_range.mpr hu))
    exact ⟨c, hc, h.mergeSort_eq hg hc huc⟩

theorem pairwise_ranked (h : g.Strong scc) :
    (ranked scc).Pairwise fun c d => lowest c < lowest d := by
  have hne : ∀ c ∈ scc, c ≠ [] := fun c hc hnil => h.full (hnil ▸ hc)
  have hsort : (scc.mergeSort fun c d => decide (lowest c ≤ lowest d)).Pairwise
      fun c d => lowest c ≤ lowest d := pairwise_mergeSort_key scc
  have hdisjoint : (scc.mergeSort fun c d => decide (lowest c ≤ lowest d)).Pairwise
      List.Disjoint :=
    ((List.mergeSort_perm scc _).pairwise_iff fun hcd => hcd.symm).mpr
      (List.nodup_flatten.mp h.nodup).2
  rw [ranked, List.pairwise_map]
  refine (hsort.and hdisjoint).imp_of_mem fun {c d} hc hd hcd => ?_
  have hc := hne c (List.mem_mergeSort.mp hc)
  have hd := hne d (List.mem_mergeSort.mp hd)
  rw [← lowest_perm (List.mergeSort_perm c _).symm hc,
    ← lowest_perm (List.mergeSort_perm d _).symm hd]
  refine lt_of_le_of_ne hcd.1 fun heq => ?_
  exact hcd.2 (lowest_spec hc).1 (heq ▸ (lowest_spec hd).1)

/-- Neither the order of the components nor that of their blocks matters. -/
theorem listing_eq (h : g.Strong scc) (hg : g.Inner) : g.listing scc = g.components := by
  have hnodup : ∀ parts : List (List Nat), parts.Pairwise (fun c d => lowest c < lowest d) →
      parts.Nodup := by
    intro parts hparts
    refine hparts.imp fun {c d} hlt heq => ?_
    rw [heq] at hlt
    exact lt_irrefl _ hlt
  have hperm : (ranked scc).Perm g.unordered :=
    (List.perm_ext_iff_of_nodup (hnodup _ h.pairwise_ranked)
      (hnodup _ (pairwise_lowest_unordered g))).mpr fun d => h.mem_ranked hg
  have hranked : ranked scc = ranked g.unordered := by
    rw [ranked_unordered]
    exact hperm.eq_of_pairwise (fun c d _ _ hcd hdc => absurd hdc hcd.asymm) h.pairwise_ranked
      (pairwise_lowest_unordered g)
  rw [components, listing, listing, hranked]

end Strong

end Components

/-- Whatever order the strongly connected components are found in, they are listed in flow order,
which lists every block once. It goes from component to component, each a class of blocks that reach
each other, in ascending order; edges that are on no cycle lead forward; and the component that is
listed next is the one with the lowest block of those that are free. The loops are the components
with a cycle, in the same order. -/
theorem flow_order {g : Graph} (hg : g.Inner) {scc : List (List Nat)} (hscc : g.Strong scc) :
    g.listing scc = g.components ∧ g.Strong g.unordered ∧
    g.order.Perm (List.range g.size) ∧ g.order = (g.listing scc).flatten ∧
    (∀ c ∈ g.listing scc, Ascending c ∧ (∃ b, b ∈ c) ∧
      ∀ b ∈ c, ∀ x, x ∈ c ↔ ReflTransGen g.Joins b x ∧ ReflTransGen g.Joins x b) ∧
    (∀ u v, g.Joins u v → ¬ ReflTransGen g.Joins v u → g.order.idxOf u < g.order.idxOf v) ∧
    (∀ before c after, g.listing scc = before ++ c :: after →
      g.Free before c ∧ ∀ d ∈ after, g.Free before d → Lower c d) ∧
    g.loops.Sublist (g.listing scc) ∧
    (∀ c, c ∈ g.loops ↔ c ∈ g.listing scc ∧ ∃ b ∈ c, TransGen g.Joins b b) ∧
    ∀ b, b ∈ g.loops.flatten ↔ TransGen g.Joins b b := by
  have hlisting := hscc.listing_eq hg
  rw [hlisting]
  refine ⟨rfl, hg.strong_unordered, order_perm g, rfl, ?_, fun u v => hg.idxOf_lt,
    fun before c after => components_split, List.filter_sublist, hg.mem_loops,
    hg.mem_flatten_loops⟩
  intro c hc
  have hasc : Ascending c := by
    obtain ⟨b, _, rfl⟩ := mem_components.mp hc
    exact ascending_component g b
  exact ⟨hasc, exists_mem_of_mem_components hc, fun b hb => hg.mem_component_iff hc hb⟩

end Graph

namespace Knot

/-- A block that is left twice for the same block, a block that follows itself, and two that follow
each other and come late although they are low. -/
def graph : Graph where
  length := 24
  blocks := #[⟨0, 0, 4, [⟨3, false⟩, ⟨3, true⟩], true, true, false, false⟩,
    ⟨1, 4, 8, [⟨2, false⟩], false, false, false, false⟩,
    ⟨2, 8, 12, [⟨1, true⟩], false, true, false, false⟩,
    ⟨3, 12, 16, [⟨3, false⟩, ⟨4, false⟩], false, false, false, false⟩,
    ⟨4, 16, 20, [⟨1, false⟩], false, false, false, false⟩,
    ⟨5, 20, 24, [], true, false, true, false⟩]
  preds := ⟨#[[], [⟨2, true⟩, ⟨4, false⟩], [⟨1, false⟩], [⟨0, false⟩, ⟨0, true⟩, ⟨3, false⟩],
    [⟨3, false⟩], []]⟩
  routines := []
  boundaries := []

/-- The components as a search that goes deep first may find them. -/
def found : List (List Nat) :=
  [[5], [2, 1], [4], [3], [0]]

theorem components_eq : graph.unordered = [[0], [1, 2], [3], [4], [5]] ∧
    graph.components = [[0], [3], [4], [1, 2], [5]] ∧ graph.loops = [[3], [1, 2]] :=
  ⟨by cbv, by cbv, by cbv⟩

/-- The low cycle is listed after all that leads to it, and before the block beside. -/
theorem cycle_late : graph.Inner ∧ graph.Strong found ∧
    graph.listing found = [[0], [3], [4], [1, 2], [5]] ∧ graph.Free [[0], [3], [4]] [1, 2] ∧
    ¬ graph.Free [[0], [3]] [1, 2] ∧ Graph.Lower [1, 2] [5] ∧
    TransGen graph.Joins 3 3 ∧ ¬ TransGen graph.Joins 4 4 := by
  have hinner : graph.Inner := by decide
  obtain ⟨hunordered, hcomponents, hloops⟩ := components_eq
  have hstrong : graph.Strong found := by
    have hsame : List.Forall₂ List.Perm found [[5], [1, 2], [4], [3], [0]] := by
      unfold found
      simp only [List.forall₂_cons, List.forall₂_nil_left_iff]
      decide
    refine hinner.strong_of_perm hsame ?_
    rw [hunordered]
    decide
  obtain ⟨hsame, _, _, _, _, _, hsplit, _, _, hcycle⟩ := Graph.flow_order hinner hstrong
  have hlisting := hsame.trans hcomponents
  have hthird := hsplit [[0], [3]] [4] [[1, 2], [5]] hlisting
  have hfourth := hsplit [[0], [3], [4]] [1, 2] [[5]] hlisting
  have hwait : ¬ graph.Free [[0], [3]] [1, 2] := by
    intro hfree
    obtain ⟨l, hl, hlow⟩ := hthird.2 [1, 2] (by simp) hfree
    have h1 := hlow 1 (by simp)
    rw [List.mem_singleton] at hl
    omega
  have hlone : graph.Free [[0], [3], [4]] [5] := by
    intro d _ hlead
    obtain ⟨u, _, v, hv, huv⟩ := hlead
    have hu := huv.lt_size
    rw [List.mem_singleton.mp hv] at huv
    have hnone : ∀ u < graph.size, 5 ∉ graph.targets u := by decide
    exact absurd huv (hnone u hu)
  have hlower := hfourth.2 [5] (by simp) hlone
  refine ⟨hinner, hstrong, hlisting, hfourth.1, hwait, hlower, (hcycle 3).mp ?_, fun h => ?_⟩
  · rw [hloops]
    decide
  · have hmem := (hcycle 4).mpr h
    rw [hloops] at hmem
    exact absurd hmem (by decide)

end Knot

end RegisterWeb
