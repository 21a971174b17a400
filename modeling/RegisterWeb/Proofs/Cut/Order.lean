import Mathlib
import RegisterWeb.Proofs.Cut.Graph

/-!
The flow order of a graph in which a block was cut: the parts of the block stand in its place. If
the block lies on a cycle, its parts stay in one component; if not, the second part is a component
of its own, which becomes ready right after the first.
-/

namespace RegisterWeb

open Relation

namespace Graph

open Seam

/-! ### Components -/

namespace Cut

variable {g g' : Graph} {i b : Nat}

theorem mem_sources_head (h : g.Cut g' i) (hb : b < g.size) (x : Nat) :
    x ∈ g'.sources.get (head i b) ↔ ∃ p ∈ g.sources.get b, x = tail i p := by
  rw [mem_sources (h.size ▸ (head_lt h.lt).mpr hb), h.size]
  simp only [mem_sources hb]
  constructor
  · rintro ⟨hx, hmem⟩
    have hne : x ≠ i := by
      rintro rfl
      rw [h.waysTargets.inner, List.mem_singleton] at hmem
      exact head_ne hmem
    obtain ⟨p, rfl⟩ := exists_tail hne
    rw [h.targets_tail, List.mem_map] at hmem
    obtain ⟨c, hc, heq⟩ := hmem
    rw [head_inj] at heq
    exact ⟨p, ⟨(tail_lt h.lt).mp hx, heq ▸ hc⟩, rfl⟩
  · rintro ⟨p, ⟨hp, hmem⟩, rfl⟩
    rw [h.targets_tail]
    exact ⟨(tail_lt h.lt).mpr hp, List.mem_map_of_mem hmem⟩

theorem mem_sources_succ (h : g.Cut g' i) (x : Nat) : x ∈ g'.sources.get (i + 1) ↔ x = i := by
  have hlt := h.lt
  rw [mem_sources h.second_lt, h.size]
  constructor
  · rintro ⟨_, hmem⟩
    by_contra hne
    obtain ⟨p, rfl⟩ := exists_tail hne
    rw [h.targets_tail, List.mem_map] at hmem
    obtain ⟨c, _, heq⟩ := hmem
    exact head_ne heq
  · rintro rfl
    rw [h.waysTargets.inner]
    exact ⟨by omega, List.mem_singleton_self _⟩

/-- Whether the block that was cut lies on a cycle. -/
def Loops (g' : Graph) (i : Nat) : Prop :=
  i ∈ g'.component (i + 1)

instance (g' : Graph) (i : Nat) : Decidable (Loops g' i) :=
  inferInstanceAs (Decidable (i ∈ g'.component (i + 1)))

theorem loops_iff (h : g.Cut g' i) : Loops g' i ↔ g'.Reaches (i + 1) i := by
  have hlt := h.lt
  have hsize := h.size
  rw [Loops, mem_component (by omega)]
  constructor
  · exact fun hloops => hloops.2.1
  · intro hpath
    refine ⟨by omega, hpath, .single ⟨?_, by omega⟩⟩
    rw [h.waysTargets.inner]
    exact List.mem_singleton_self _

theorem succ_reaches_of_ne (h : g.Cut g' i) (hpath : g.Reaches i b) (hb : b ≠ i) :
    g'.Reaches (i + 1) (head i b) := by
  rcases ReflTransGen.cases_head hpath with heq | ⟨c, hstep, hpath⟩
  · exact absurd heq.symm hb
  · have hlead := h.waysTargets.leads hstep
    rw [← h.size, tail_self] at hlead
    exact ReflTransGen.head hlead (h.reaches_head.mpr hpath)

theorem loops_of_reaches (h : g.Cut g' i) (hto : g.Reaches i b) (hfrom : g.Reaches b i)
    (hne : b ≠ i) : Loops g' i :=
  h.loops_iff.mpr ((h.succ_reaches_of_ne hto hne).trans (h.reaches_self.mpr hfrom))

theorem reaches_of_succ_reaches (h : g.Cut g' i) (hpath : g'.Reaches (i + 1) (head i b)) :
    g.Reaches i b := by
  refine h.self_reaches.mp (ReflTransGen.head ⟨?_, h.second_lt⟩ hpath)
  rw [h.waysTargets.inner]
  exact List.mem_singleton_self _

theorem mem_flatMap_parts {c : List Nat} {x : Nat} :
    x ∈ c.flatMap (parts i) ↔ (∃ b ∈ c, x = head i b) ∨ (x = i + 1 ∧ i ∈ c) := by
  rw [List.mem_flatMap]
  constructor
  · rintro ⟨b, hb, hx⟩
    rcases mem_parts.mp hx with rfl | rfl
    · exact Or.inl ⟨b, hb, rfl⟩
    · by_cases hbi : b = i
      · rw [hbi, tail_self]
        exact Or.inr ⟨rfl, hbi ▸ hb⟩
      · rw [tail_of_ne hbi]
        exact Or.inl ⟨b, hb, rfl⟩
  · rintro (⟨b, hb, rfl⟩ | ⟨rfl, hi⟩)
    · exact ⟨b, hb, head_mem_parts.mpr rfl⟩
    · exact ⟨i, hi, succ_mem_parts.mpr rfl⟩

theorem head_mem_flatMap {c : List Nat} : head i b ∈ c.flatMap (parts i) ↔ b ∈ c := by
  simp only [List.mem_flatMap, head_mem_parts, exists_eq_right']

theorem tail_mem_flatMap {c : List Nat} : tail i b ∈ c.flatMap (parts i) ↔ b ∈ c := by
  simp only [List.mem_flatMap, tail_mem_parts, exists_eq_right']

theorem ascending_flatMap_parts {c : List Nat} (hc : Ascending c) :
    Ascending (c.flatMap (parts i)) := by
  refine List.pairwise_flatMap.mpr ⟨?_, hc.imp ?_⟩
  · intro b _
    unfold parts
    split <;> simp
  · intro b d hbd x hx y hy
    have hlt : tail i b < head i d := by
      unfold tail head
      split <;> split <;> omega
    have hle : ∀ e, head i e ≤ tail i e := by
      intro e
      unfold head tail
      split <;> split <;> omega
    have hb := hle b
    have hd := hle d
    rcases mem_parts.mp hx with rfl | rfl <;> rcases mem_parts.mp hy with rfl | rfl <;> omega

theorem component_head (h : g.Cut g' i) (hb : b < g.size) (hwhole : Loops g' i ∨ b ≠ i) :
    g'.component (head i b) = (g.component b).flatMap (parts i) := by
  have hb' : head i b < g'.size := h.size ▸ (head_lt h.lt).mpr hb
  refine Ascending.eq_of_mem_iff (ascending_component g' _)
    (ascending_flatMap_parts (ascending_component g b)) fun x => ?_
  rw [mem_component hb', mem_flatMap_parts]
  constructor
  · rintro ⟨hlt, hto, hfrom⟩
    by_cases hx : x = i + 1
    · subst hx
      exact Or.inr ⟨rfl, (mem_component hb i).mpr
        ⟨h.lt, h.reaches_succ.mp hto, h.reaches_of_succ_reaches hfrom⟩⟩
    · obtain ⟨c, rfl⟩ := exists_head hx
      rw [h.reaches_head] at hto hfrom
      exact Or.inl ⟨c, (mem_component hb c).mpr ⟨(head_lt h.lt).mp (h.size ▸ hlt), hto, hfrom⟩, rfl⟩
  · rintro (⟨c, hc, rfl⟩ | ⟨rfl, hi⟩)
    · obtain ⟨hlt, hto, hfrom⟩ := (mem_component hb c).mp hc
      exact ⟨h.size ▸ (head_lt h.lt).mpr hlt, h.reaches_head.mpr hto, h.reaches_head.mpr hfrom⟩
    · obtain ⟨_, hto, hfrom⟩ := (mem_component hb i).mp hi
      refine ⟨h.second_lt, ?_, ?_⟩
      · exact h.reaches_succ.mpr hto
      · by_cases hbi : b = i
        · rw [hbi, head_self]
          exact h.loops_iff.mp (hwhole.resolve_right (not_not.mpr hbi))
        · exact h.succ_reaches_of_ne hfrom hbi

theorem component_eq_singleton {g : Graph} {b : Nat} (hb : b < g.size)
    (halone : ∀ c, g.Reaches b c → g.Reaches c b → c = b) : g.component b = [b] := by
  refine Ascending.eq_of_mem_iff (ascending_component g b) (List.pairwise_singleton _ _) fun c => ?_
  rw [mem_component hb, List.mem_singleton]
  constructor
  · rintro ⟨_, hto, hfrom⟩
    exact halone c hto hfrom
  · rintro rfl
    exact ⟨hb, .refl, .refl⟩

theorem component_of_not_loops (h : g.Cut g' i) (hloops : ¬ Loops g' i) :
    g.component i = [i] ∧ g'.component i = [i] ∧ g'.component (i + 1) = [i + 1] := by
  have hlt := h.lt
  have hsize := h.size
  have halone : ∀ c, g.Reaches i c → g.Reaches c i → c = i := by
    intro c hto hfrom
    by_contra hne
    exact hloops (h.loops_of_reaches hto hfrom hne)
  refine ⟨component_eq_singleton hlt halone,
    component_eq_singleton (by omega) fun x hto hfrom => ?_,
    component_eq_singleton (by omega) fun x hto hfrom => ?_⟩
  · by_cases hx : x = i + 1
    · rw [hx] at hfrom
      exact absurd (h.loops_iff.mpr hfrom) hloops
    · obtain ⟨c, rfl⟩ := exists_head hx
      rw [halone c (h.self_reaches.mp hto) (h.reaches_self.mp hfrom), head_self]
  · by_contra hx
    obtain ⟨c, rfl⟩ := exists_head hx
    exact hloops (h.loops_iff.mpr (hto.trans (h.reaches_self.mpr (h.reaches_succ.mp hfrom))))

/-- The components that a component becomes. -/
def pieces (g' : Graph) (i : Nat) (c : List Nat) : List (List Nat) :=
  if ¬ Loops g' i ∧ c = [i] then [[i], [i + 1]] else [c.flatMap (parts i)]

theorem head?_flatMap_parts (c : List Nat) :
    (c.flatMap (parts i)).head? = c.head?.map (head i) := by
  cases c with
  | nil => rfl
  | cons b c =>
    rw [List.flatMap_cons, List.head?_cons, Option.map_some]
    unfold parts
    split
    · rename_i hb
      rw [hb, head_self]
      rfl
    · rfl

theorem pieces_of_whole {c : List Nat} (h : Loops g' i ∨ c ≠ [i]) :
    pieces g' i c = [c.flatMap (parts i)] := by
  refine if_neg ?_
  rintro ⟨hloops, hc⟩
  exact h.elim hloops fun hne => hne hc

theorem pieces_of_not_loops (hloops : ¬ Loops g' i) : pieces g' i [i] = [[i], [i + 1]] :=
  if_pos ⟨hloops, rfl⟩

/-- The second part of the block never is the lowest of a component that the first one is in. -/
theorem head?_component_succ (hloops : Loops g' i) :
    (g'.component (i + 1)).head? ≠ some (i + 1) := by
  intro hhead
  have hasc := ascending_component g' (i + 1)
  obtain ⟨rest, hrest⟩ := List.head?_eq_some_iff.mp hhead
  rw [hrest] at hasc
  have hmem : i ∈ g'.component (i + 1) := hloops
  rw [hrest] at hmem
  rcases List.mem_cons.mp hmem with heq | hmem
  · omega
  · have := List.rel_of_pairwise_cons hasc hmem
    omega

theorem unordered_eq (h : g.Cut g' i) : g'.unordered = g.unordered.flatMap (pieces g' i) := by
  have hpart : ∀ b ∈ List.range g.size,
      ((parts i b).filter fun x => (g'.component x).head? = some x).map g'.component
        = if (g.component b).head? = some b then pieces g' i (g.component b) else [] := by
    intro b hb
    have hb := List.mem_range.mp hb
    -- Only a block on no cycle falls into two components when it is cut.
    by_cases hwhole : Loops g' i ∨ b ≠ i
    · have hcomp := h.component_head hb hwhole
      have hpieces : pieces g' i (g.component b) = [(g.component b).flatMap (parts i)] := by
        refine pieces_of_whole (hwhole.imp_right fun hne hsingle => hne ?_)
        have hmem := mem_component_self hb
        rwa [hsingle, List.mem_singleton] at hmem
      have hhead : ((g'.component (head i b)).head? = some (head i b)) ↔
          (g.component b).head? = some b := by
        rw [hcomp, head?_flatMap_parts, Option.map_eq_some_iff]
        simp only [head_inj, exists_eq_right]
      have hfilter : (parts i b).filter (fun x => (g'.component x).head? = some x)
          = if (g.component b).head? = some b then [head i b] else [] := by
        by_cases hbi : b = i
        · have hsecond := head?_component_succ (hwhole.resolve_right (not_not.mpr hbi))
          rw [hbi, head_self] at hhead
          simp only [hbi, parts, if_pos, head_self, List.filter_cons, hhead, hsecond, decide_false,
            List.filter_nil]
          simp
        · rw [parts_of_ne hbi, List.filter_singleton]
          simp only [hhead]
          split <;> simp_all
      rw [hfilter]
      split
      · rw [List.map_singleton, hcomp, hpieces]
      · rfl
    · obtain ⟨hloops, hbi⟩ := not_or.mp hwhole
      obtain rfl := not_not.mp hbi
      obtain ⟨hcomp, hfirst, hsecond⟩ := h.component_of_not_loops hloops
      simp [parts, hcomp, hfirst, hsecond, pieces_of_not_loops hloops]
  rw [Graph.unordered_eq, Graph.unordered_eq, h.size, range_eq h.lt, List.filter_flatMap,
    List.map_flatMap, List.flatMap_map]
  rw [List.flatMap_congr hpart, flatMap_ite_nil]

/-! ### The order -/

/-- The same blocks are listed. -/
structure Marks (g : Graph) (i : Nat) (listed listed' : Table Bool) : Prop where
  size : listed.size = g.size
  size' : listed'.size = g.size + 1
  head : ∀ b, listed'.get (head i b) = listed.get b
  tail : ∀ b, listed'.get (tail i b) = listed.get b

variable {listed listed' : Table Bool} {c : List Nat}

theorem Marks.next (hm : Marks g i listed listed') (hi : i < g.size) (c : List Nat) :
    Marks g i (c.foldl (fun t b => t.set b true) listed)
      ((c.flatMap (parts i)).foldl (fun t b => t.set b true) listed') := by
  refine ⟨?_, ?_, fun b => ?_, fun b => ?_⟩
  · rw [(get_foldl_set c listed 0).1, hm.size]
  · rw [(get_foldl_set _ listed' 0).1, hm.size']
  · rw [Bool.eq_iff_iff, (get_foldl_set _ _ _).2, (get_foldl_set _ _ _).2, hm.head, hm.size,
      hm.size', head_mem_flatMap, head_lt hi]
  · rw [Bool.eq_iff_iff, (get_foldl_set _ _ _).2, (get_foldl_set _ _ _).2, hm.tail, hm.size,
      hm.size', tail_mem_flatMap, tail_lt hi]

theorem isReady_whole (h : g.Cut g' i) (hm : Marks g i listed listed')
    (hc : ∀ b ∈ c, b < g.size) :
    isReady g'.sources listed' (c.flatMap (parts i)) = isReady g.sources listed c := by
  rw [Bool.eq_iff_iff, isReady_iff, isReady_iff]
  constructor
  · intro hready b hb p hp
    have hsource := hready (head i b) (head_mem_flatMap.mpr hb) (tail i p)
      ((h.mem_sources_head (hc b hb) _).mpr ⟨p, hp, rfl⟩)
    rwa [tail_mem_flatMap, hm.tail] at hsource
  · intro hready x hx y hy
    rcases mem_flatMap_parts.mp hx with ⟨b, hb, rfl⟩ | ⟨rfl, hi⟩
    · obtain ⟨p, hp, rfl⟩ := (h.mem_sources_head (hc b hb) y).mp hy
      rw [tail_mem_flatMap, hm.tail]
      exact hready b hb p hp
    · rw [(h.mem_sources_succ y).mp hy, mem_flatMap_parts]
      exact Or.inl (Or.inl ⟨i, hi, head_self.symm⟩)

theorem isReady_first (h : g.Cut g' i) (hm : Marks g i listed listed') (hloops : ¬ Loops g' i) :
    isReady g'.sources listed' [i] = isReady g.sources listed [i] := by
  have hsource : ∀ y, y ∈ g'.sources.get i ↔ ∃ p ∈ g.sources.get i, y = tail i p := by
    simpa using h.mem_sources_head (b := i) h.lt
  have hself : i ∉ g.sources.get i := by
    intro hi
    refine hloops (h.loops_iff.mpr (.single ?_))
    have hlead := h.waysTargets.leads ⟨((mem_sources h.lt i).mp hi).2, h.lt⟩
    rwa [← h.size, tail_self, head_self] at hlead
  rw [Bool.eq_iff_iff, isReady_iff, isReady_iff]
  simp only [List.mem_singleton, forall_eq, hsource]
  constructor
  · intro hready p hp
    have htail := hready _ ⟨p, hp, rfl⟩
    rw [hm.tail] at htail
    exact Or.inr (htail.resolve_left tail_ne)
  · rintro hready y ⟨p, hp, rfl⟩
    rw [hm.tail]
    refine Or.inr ((hready p hp).resolve_left ?_)
    rintro rfl
    exact hself hp

theorem isReady_second (h : g.Cut g' i) :
    isReady g'.sources listed' [i + 1] = listed'.get i := by
  rw [Bool.eq_iff_iff, isReady_iff]
  simp only [List.mem_singleton, forall_eq, h.mem_sources_succ]
  constructor
  · exact fun hready => hready.resolve_left (Nat.ne_of_lt (Nat.lt_succ_self i))
  · exact Or.inr

/-- Listing the first part makes no component ready but the second part. -/
theorem not_isReady_of_set (h : g.Cut g' i) (hc : ∀ b ∈ c, b < g.size) (hi : i ∉ c)
    (hready : isReady g'.sources listed' (c.flatMap (parts i)) = false) :
    isReady g'.sources (listed'.set i true) (c.flatMap (parts i)) = false := by
  rw [← Bool.not_eq_true] at hready ⊢
  rw [isReady_iff] at hready ⊢
  refine fun hset => hready fun x hx y hy => (hset x hx y hy).imp_right fun hy' => ?_
  have hne : y ≠ i := by
    rintro rfl
    rcases mem_flatMap_parts.mp hx with ⟨b, hb, rfl⟩ | ⟨_, hmem⟩
    · obtain ⟨p, _, hp⟩ := (h.mem_sources_head (hc b hb) _).mp hy
      exact tail_ne hp.symm
    · exact hi hmem
  rwa [Table.get_set, if_neg fun heq => hne heq.1.symm] at hy'

/-- The components that are not listed yet, on both sides. -/
structure Pending (g g' : Graph) (i : Nat) (listed listed' : Table Bool)
    (pending : List (List Nat)) : Prop where
  marks : Marks g i listed listed'
  lt : ∀ c ∈ pending, ∀ b ∈ c, b < g.size
  nodup : pending.Nodup
  alone : ¬ Loops g' i → ∀ c ∈ pending, i ∈ c → c = [i]
  free : ¬ Loops g' i → [i] ∈ pending → listed.get i = false

variable {pending before after : List (List Nat)}

theorem Pending.not_isReady (hp : Pending g g' i listed listed' pending) (h : g.Cut g' i)
    (hc : c ∈ pending) (hready : isReady g.sources listed c = false) :
    ∀ d ∈ pieces g' i c, isReady g'.sources listed' d = false := by
  intro d hd
  by_cases hwhole : Loops g' i ∨ c ≠ [i]
  · rw [pieces_of_whole hwhole, List.mem_singleton] at hd
    rw [hd, h.isReady_whole hp.marks (hp.lt c hc), hready]
  · obtain ⟨hloops, hci⟩ := not_or.mp hwhole
    obtain rfl := not_not.mp hci
    rw [pieces_of_not_loops hloops, List.mem_pair] at hd
    rcases hd with rfl | rfl
    · rw [h.isReady_first hp.marks hloops, hready]
    · have hself := hp.marks.head i
      rw [head_self] at hself
      rw [h.isReady_second, hself, hp.free hloops hc]

/-- What is not ready in front of the block is not ready either once its first part is listed. -/
theorem Pending.not_isReady_set (hp : Pending g g' i listed listed' pending) (h : g.Cut g' i)
    (hloops : ¬ Loops g' i) (hc : c ∈ pending) (hne : c ≠ [i])
    (hready : isReady g.sources listed c = false) :
    ∀ d ∈ pieces g' i c, isReady g'.sources (listed'.set i true) d = false := by
  intro d hd
  have hready' := hp.not_isReady h hc hready d hd
  rw [pieces_of_whole (Or.inr hne), List.mem_singleton] at hd
  rw [hd] at hready' ⊢
  exact h.not_isReady_of_set (hp.lt c hc) (fun hi => hne (hp.alone hloops c hc hi)) hready'

theorem Pending.next (hp : Pending g g' i listed listed' (before ++ c :: after)) (hi : i < g.size) :
    Pending g g' i (c.foldl (fun t b => t.set b true) listed)
      ((c.flatMap (parts i)).foldl (fun t b => t.set b true) listed') (before ++ after) := by
  have hsub : (before ++ after).Sublist (before ++ c :: after) :=
    (List.Sublist.refl _).append (List.sublist_cons_self c after)
  have hout : c ∉ before ++ after := by
    have hnodup := hp.nodup
    rw [List.nodup_middle, List.nodup_cons] at hnodup
    exact hnodup.1
  refine ⟨hp.marks.next hi c, fun d hd => hp.lt d (hsub.subset hd), hp.nodup.sublist hsub,
    fun hloops d hd => hp.alone hloops d (hsub.subset hd), fun hloops hmem => ?_⟩
  rw [← Bool.not_eq_true, (get_foldl_set _ _ _).2, hp.free hloops (hsub.subset hmem)]
  rintro (hlisted | ⟨hic, _⟩)
  · exact Bool.false_ne_true hlisted
  · rw [hp.alone hloops c (by simp) hic] at hout
    exact hout hmem

theorem Pending.arrange_eq (hp : Pending g g' i listed listed' pending) (h : g.Cut g' i) :
    (arrange g'.sources listed' (pending.flatMap (pieces g' i))).flatten
      = (arrange g.sources listed pending).flatten.flatMap (parts i) := by
  -- By induction on the number of components left; both listings take the next one that is ready.
  induction hn : pending.length generalizing pending listed listed' with
  | zero =>
    rw [List.length_eq_zero_iff.mp hn, List.flatMap_nil, arrange_of_none (by simp),
      arrange_of_none (by simp)]
    rfl
  | succ n ih =>
    cases hfound : pending.find? (isReady g.sources listed) with
    | none =>
      have hnone : ∀ c ∈ pending, isReady g.sources listed c = false := by
        simpa using List.find?_eq_none.mp hfound
      rw [arrange_of_none hnone, arrange_of_none]
      · rfl
      · intro d hd
        obtain ⟨c, hc, hd⟩ := List.mem_flatMap.mp hd
        exact hp.not_isReady h hc (hnone c hc) d hd
    | some c =>
      obtain ⟨hready, before, after, rfl, hbefore⟩ := List.find?_eq_some_iff_append.mp hfound
      have hbefore : ∀ d ∈ before, isReady g.sources listed d = false := by
        simpa using hbefore
      have hpieces : ∀ d ∈ before.flatMap (pieces g' i), isReady g'.sources listed' d = false := by
        intro d hd
        obtain ⟨e, he, hd⟩ := List.mem_flatMap.mp hd
        exact hp.not_isReady h (List.mem_append_left _ he) (hbefore e he) d hd
      have hrest := ih (hp.next h.lt) (by simp at hn ⊢; omega)
      rw [arrange_of_first hbefore hready, List.flatten_cons, List.flatMap_append,
        List.flatMap_append, ← hrest, List.flatMap_append, List.flatMap_cons]
      by_cases hwhole : Loops g' i ∨ c ≠ [i]
      · rw [pieces_of_whole hwhole, List.singleton_append, arrange_of_first hpieces,
          List.flatten_cons]
        rw [h.isReady_whole hp.marks (hp.lt c (by simp)), hready]
      · -- The two parts are listed one after the other.
        obtain ⟨hloops, hci⟩ := not_or.mp hwhole
        obtain rfl := not_not.mp hci
        have hparts : [i].flatMap (parts i) = [i, i + 1] := by simp [parts]
        have hstill : ∀ d ∈ before.flatMap (pieces g' i),
            isReady g'.sources (listed'.set i true) d = false := by
          intro d hd
          obtain ⟨e, he, hd⟩ := List.mem_flatMap.mp hd
          have hne : e ≠ [i] := by
            rintro rfl
            rw [hbefore _ he] at hready
            exact Bool.false_ne_true hready
          exact hp.not_isReady_set h hloops (List.mem_append_left _ he) hne (hbefore e he) d hd
        have hset : (listed'.set i true).get i = true := by
          rw [Table.get_set, if_pos ⟨rfl, by rw [hp.marks.size']; exact Nat.lt_succ_of_lt h.lt⟩]
        rw [pieces_of_not_loops hloops, List.cons_append, List.singleton_append,
          arrange_of_first hpieces, List.foldl_cons, List.foldl_nil, arrange_of_first hstill,
          hparts]
        · rfl
        · rw [h.isReady_second, hset]
        · rw [h.isReady_first hp.marks hloops, hready]

/-- The parts of the block that was cut stand in its place. -/
theorem order_eq (h : g.Cut g' i) : g'.order = g.order.flatMap (parts i) := by
  rw [order, order, components_eq_arrange, components_eq_arrange, h.unordered_eq, h.size]
  refine Pending.arrange_eq ⟨⟨?_, ?_, ?_, ?_⟩, ?_, nodup_unordered g, ?_, ?_⟩ h
  · exact Table.size_blank _
  · exact Table.size_blank _
  · simp
  · simp
  · intro c hc b hb
    obtain ⟨d, hd, _, rfl⟩ := (mem_unordered g c).mp hc
    exact ((mem_component hd b).mp hb).1
  · intro hloops c hc hi
    obtain ⟨d, hd, _, rfl⟩ := (mem_unordered g c).mp hc
    rw [← (h.component_of_not_loops hloops).1, component_eq_of_mem hd hi]
  · intro _ _
    exact Table.get_blank _ _

end Cut

end Graph

end RegisterWeb
