import Mathlib.Data.List.GetD
import Mathlib.Data.List.Nodup
import RegisterWeb.Graph.Order
import RegisterWeb.Proofs.Ascending

/-!
Listing by counting. The counts of a frontier are the edges into each component that come from
components not yet listed, so a component is ready once all that lead into it have been listed, and
the lowest of those is the first one that a search through the pending components finds. The
listing that counts edges is the listing that searches.
-/

namespace RegisterWeb

/-! ### Counts -/

namespace Frontier

section Release

variable {f : Frontier} {cs : List Nat} {d : Nat}

theorem size_foldl_release (cs : List Nat) (f : Frontier) :
    (cs.foldl release f).degrees.size = f.degrees.size := by
  induction cs generalizing f with
  | nil => rfl
  | cons d cs ih =>
    rw [List.foldl_cons, ih]
    exact Table.size_set ..

theorem get_release (hd : d < f.degrees.size) (c : Nat) :
    (f.release d).degrees.get c = f.degrees.get c - if d = c then 1 else 0 := by
  rw [release, Table.get_set]
  by_cases hdc : d = c
  · subst hdc
    simp [hd]
  · simp [hdc]

theorem count_cons_cast (d : Nat) (cs : List Nat) (c : Nat) :
    ((d :: cs).count c : Int) = cs.count c + if d = c then 1 else 0 := by
  rw [List.count_cons]
  by_cases hdc : d = c <;> simp [hdc]

/-- Taking off edges lowers the degrees by as much. -/
theorem get_foldl_release (hlt : ∀ c ∈ cs, c < f.degrees.size) (c : Nat) :
    (cs.foldl release f).degrees.get c = f.degrees.get c - cs.count c := by
  induction cs generalizing f with
  | nil => simp
  | cons d cs ih =>
    obtain ⟨hd, hcs⟩ := List.forall_mem_cons.mp hlt
    have hsize : (f.release d).degrees.size = f.degrees.size := Table.size_set ..
    rw [List.foldl_cons, ih fun c hc => hsize.symm ▸ hcs c hc, get_release hd, count_cons_cast]
    omega

/-- The components that lose their last edge become ready, each once. -/
theorem ready_foldl_release (hlt : ∀ c ∈ cs, c < f.degrees.size)
    (hle : ∀ c, (cs.count c : Int) ≤ f.degrees.get c) :
    ∃ fresh, (cs.foldl release f).ready = f.ready ++ fresh ∧ fresh.Nodup ∧
      ∀ c, c ∈ fresh ↔ c ∈ cs ∧ f.degrees.get c = cs.count c := by
  induction cs generalizing f with
  | nil => exact ⟨[], by simp⟩
  | cons d cs ih =>
    obtain ⟨hd, hcs⟩ := List.forall_mem_cons.mp hlt
    have hsize : (f.release d).degrees.size = f.degrees.size := Table.size_set ..
    have hless : ∀ c, (cs.count c : Int) ≤ (f.release d).degrees.get c := by
      intro c
      have hc := hle c
      rw [count_cons_cast] at hc
      rw [get_release hd]
      omega
    obtain ⟨fresh, hready, hnodup, hfresh⟩ := ih (fun c hc => hsize.symm ▸ hcs c hc) hless
    have hother : ∀ c, d ≠ c →
        (c ∈ fresh ↔ c ∈ d :: cs ∧ f.degrees.get c = (d :: cs).count c) := by
      intro c hdc
      rw [hfresh, get_release hd, count_cons_cast, List.mem_cons]
      simp [hdc, Ne.symm hdc]
    have hlast := hle d
    rw [count_cons_cast, if_pos rfl] at hlast
    rw [List.foldl_cons, hready, release]
    by_cases hleft : f.degrees.get d - 1 = 0
    · -- no further edge leads into it, so it does not become ready again
      have hzero : (cs.count d : Int) = 0 := by omega
      have hout : d ∉ cs := List.count_eq_zero.mp (by omega)
      refine ⟨d :: fresh, by simp [hleft], ?_, fun c => ?_⟩
      · exact List.nodup_cons.mpr ⟨fun hmem => hout ((hfresh d).mp hmem).1, hnodup⟩
      · by_cases hdc : d = c
        · subst hdc
          rw [count_cons_cast, if_pos rfl, hzero]
          simp only [List.mem_cons, true_or, true_and, true_iff]
          omega
        · rw [List.mem_cons, ← hother c hdc, or_iff_right (Ne.symm hdc)]
    · refine ⟨fresh, by simp [hleft], hnodup, fun c => ?_⟩
      by_cases hdc : d = c
      · subst hdc
        rw [hfresh, get_release hd, count_cons_cast, if_pos rfl, ← List.count_pos_iff]
        simp only [List.mem_cons, true_or, true_and]
        omega
      · exact hother c hdc

end Release

/-- The degrees count the pairs that lead into each number from numbers that are not done, and the
ready numbers are those that nothing leads into and that are not done. -/
structure Counts (pairs : List (Nat × Nat)) (n : Nat) (done : List Nat) (f : Frontier) : Prop where
  size : f.degrees.size = n
  degree : ∀ j < n, f.degrees.get j = pairs.countP fun p => p.2 = j ∧ p.1 ∉ done
  nodup : f.ready.Nodup
  ready : ∀ j, j ∈ f.ready ↔ j < n ∧ j ∉ done ∧ f.degrees.get j = 0
  past : ∀ j < n, j ∈ done → f.degrees.get j = 0

/-- Pairs of different numbers below `n`. -/
def Apart (n : Nat) (pairs : List (Nat × Nat)) : Prop :=
  ∀ p ∈ pairs, p.1 < n ∧ p.2 < n ∧ p.1 ≠ p.2

variable {pairs : List (Nat × Nat)} {n c : Nat} {done rest : List Nat} {f : Frontier}

theorem Counts.degree_eq_zero (h : Counts pairs n done f) {j : Nat} (hj : j < n) :
    f.degrees.get j = 0 ↔ ∀ p ∈ pairs, p.2 = j → p.1 ∈ done := by
  rw [h.degree j hj, Int.natCast_eq_zero, List.countP_eq_zero]
  simp

theorem Counts.mem_ready (h : Counts pairs n done f) {j : Nat} (hj : j < n) (hout : j ∉ done) :
    j ∈ f.ready ↔ ∀ p ∈ pairs, p.2 = j → p.1 ∈ done := by
  rw [h.ready, h.degree_eq_zero hj]
  simp only [hj, hout, not_false_eq_true, true_and]

/-- The first number is ready, and not above any that is. -/
theorem first_rest (h : f.ready ≠ []) :
    f.ready.Perm (f.first :: f.rest.ready) ∧ ∀ j ∈ f.rest.ready, f.first ≤ j := by
  have hperm := List.mergeSort_perm f.ready fun a b => decide (a ≤ b)
  have hsorted : f.ready.mergeSort.Pairwise (· ≤ ·) := pairwise_mergeSort_key f.ready
  rw [first, rest]
  cases hlist : f.ready.mergeSort with
  | nil =>
    rw [hlist] at hperm
    exact absurd hperm.nil_eq.symm h
  | cons c ready =>
    rw [hlist] at hperm hsorted
    exact ⟨hperm.symm, fun j hj => List.rel_of_pairwise_cons hsorted hj⟩

/-- The numbers that the pairs out of `c` lead to. -/
def leaving (pairs : List (Nat × Nat)) (c : Nat) : List Nat :=
  (pairs.filter fun p => p.1 = c).map Prod.snd

theorem mem_leaving {j : Nat} : j ∈ leaving pairs c ↔ (c, j) ∈ pairs := by
  simp only [leaving, List.mem_map, List.mem_filter, decide_eq_true_eq]
  constructor
  · intro h
    obtain ⟨p, ⟨hp, rfl⟩, rfl⟩ := h
    exact hp
  · exact fun h => ⟨(c, j), ⟨h, rfl⟩, rfl⟩

/-- Of the pairs that come from numbers that are not done, those out of `c` go when `c` is done. -/
theorem countP_done (pairs : List (Nat × Nat)) (hc : c ∉ done) (j : Nat) :
    (pairs.countP fun p => p.2 = j ∧ p.1 ∉ done)
      = (pairs.countP fun p => p.2 = j ∧ p.1 ∉ done ++ [c]) + (leaving pairs c).count j := by
  induction pairs with
  | nil => rfl
  | cons p pairs ih =>
    rw [List.countP_cons, List.countP_cons, ih, leaving, leaving, List.filter_cons]
    by_cases hp : p.1 = c
    · subst hp
      simp only [hc, decide_true, if_true, List.map_cons, List.count_cons, List.mem_append,
        List.mem_singleton, or_true, not_true_eq_false, and_false, decide_false, Bool.false_eq_true,
        if_false, not_false_eq_true, and_true, beq_iff_eq, decide_eq_true_eq]
      omega
    · simp only [hp, decide_false, Bool.false_eq_true, if_false, List.mem_append,
        List.mem_singleton, or_false]
      omega

section Next

variable (h : Counts pairs n done f) (hapart : Apart n pairs)

include h

theorem Counts.degree_eq_add (hc : c ∉ done) {j : Nat} (hj : j < n) : f.degrees.get j
    = (pairs.countP fun p => p.2 = j ∧ p.1 ∉ done ++ [c]) + (leaving pairs c).count j := by
  rw [h.degree j hj, countP_done pairs hc j]
  exact Int.natCast_add ..

/-- Nothing leads from a number that is not done to one that is. -/
theorem Counts.not_mem_leaving (hc : c ∉ done) {j : Nat} (hj : j < n) (hjd : j ∈ done) :
    j ∉ leaving pairs c :=
  fun hout => hc ((h.degree_eq_zero hj).mp (h.past j hj hjd) _ (mem_leaving.mp hout) rfl)

include hapart

theorem Counts.count_leaving_le (hc : c ∉ done) (j : Nat) :
    ((leaving pairs c).count j : Int) ≤ f.degrees.get j := by
  by_cases hj : j < n
  · rw [h.degree_eq_add hc hj]
    omega
  · have hout : j ∉ leaving pairs c := fun hmem => hj (hapart _ (mem_leaving.mp hmem)).2.1
    rw [List.count_eq_zero.mpr hout, Table.get_of_size_le (h.size ▸ Nat.le_of_not_lt hj)]
    exact Int.le_refl 0

omit hapart in
theorem Counts.mem_rest_ready (hsome : f.ready ≠ []) {j : Nat} :
    j ∈ f.rest.ready ↔ j ≠ f.first ∧ j ∈ f.ready := by
  obtain ⟨hperm, -⟩ := first_rest hsome
  have hfirst := (List.nodup_cons.mp (hperm.nodup_iff.mp h.nodup)).1
  rw [hperm.mem_iff, List.mem_cons]
  constructor
  · exact fun hj => ⟨fun heq => hfirst (heq ▸ hj), Or.inr hj⟩
  · exact fun hj => hj.2.resolve_left hj.1

/-- When the first number is done, the others that were ready still are, and those become ready that
only it led into. -/
theorem Counts.mem_released (hsome : f.ready ≠ []) (hc : f.first ∉ done) {fresh : List Nat}
    (hfresh : ∀ j, j ∈ fresh ↔
      j ∈ leaving pairs f.first ∧ f.degrees.get j = (leaving pairs f.first).count j) (j : Nat) :
    j ∈ f.rest.ready ++ fresh ↔ j < n ∧ j ∉ done ++ [f.first] ∧
      f.degrees.get j - (leaving pairs f.first).count j = 0 := by
  rw [List.mem_append, hfresh, List.mem_append, List.mem_singleton, h.mem_rest_ready hsome, h.ready]
  by_cases hout : j ∈ leaving pairs f.first
  · obtain ⟨_, hj, hne⟩ := hapart _ (mem_leaving.mp hout)
    have hpos := List.count_pos_iff.mpr hout
    have hle := h.count_leaving_le hapart hc j
    have hjd : j ∉ done := fun hjd => h.not_mem_leaving hc hj hjd hout
    simp only [hj, Ne.symm hne, hjd, hout, ne_eq, not_false_eq_true, true_and, or_self]
    omega
  · have hzero := List.count_eq_zero.mpr hout
    simp only [hout, hzero, false_and, or_false, not_or, Int.natCast_zero, Int.sub_zero]
    exact ⟨fun hj => ⟨hj.2.1, ⟨hj.2.2.1, hj.1⟩, hj.2.2.2⟩,
      fun hj => ⟨hj.2.1.2, hj.1, hj.2.1.1, hj.2.2⟩⟩

/-- Listing the first number and taking off the pairs that leave it keeps the counts. -/
theorem Counts.next (hsome : f.ready ≠ []) :
    Counts pairs n (done ++ [f.first]) ((leaving pairs f.first).foldl release f.rest) := by
  obtain ⟨hperm, -⟩ := first_rest hsome
  obtain ⟨_, hc, hczero⟩ := (h.ready f.first).mp (hperm.mem_iff.mpr List.mem_cons_self)
  have hrest := (List.nodup_cons.mp (hperm.nodup_iff.mp h.nodup)).2
  have hlt : ∀ j ∈ leaving pairs f.first, j < f.rest.degrees.size := fun j hj =>
    h.size.symm ▸ (hapart _ (mem_leaving.mp hj)).2.1
  have hget : ∀ j, ((leaving pairs f.first).foldl release f.rest).degrees.get j
      = f.degrees.get j - (leaving pairs f.first).count j := get_foldl_release hlt
  obtain ⟨fresh, hready, hnodup, hfresh⟩ := ready_foldl_release hlt (h.count_leaving_le hapart hc)
  exact {
    size := (size_foldl_release ..).trans h.size
    degree := by
      intro j hj
      have hdegree := h.degree_eq_add hc hj
      rw [hget, hdegree]
      omega
    nodup := by
      rw [hready]
      refine List.nodup_append.mpr ⟨hrest, hnodup, fun a ha b hb hab => ?_⟩
      subst hab
      -- what was ready has no edges left to take off
      obtain ⟨hout, hcount⟩ := (hfresh a).mp hb
      have hzero : f.rest.degrees.get a = 0 :=
        ((h.ready a).mp (hperm.mem_iff.mpr (List.mem_cons_of_mem _ ha))).2.2
      have hpos := List.count_pos_iff.mpr hout
      omega
    ready := by
      intro j
      rw [hready, hget]
      exact h.mem_released hapart hsome hc hfresh j
    past := by
      intro j hj hjd
      have hout : j ∉ leaving pairs f.first ∧ f.degrees.get j = 0 := by
        rcases List.mem_append.mp hjd with hjd | hjd
        · exact ⟨h.not_mem_leaving hc hj hjd, h.past j hj hjd⟩
        · rw [List.mem_singleton.mp hjd]
          exact ⟨fun hmem => (hapart _ (mem_leaving.mp hmem)).2.2 rfl, hczero⟩
      rw [hget, List.count_eq_zero.mpr hout.1, hout.2]
      rfl }

end Next

end Frontier

/-! ### Tables filled by a loop -/

namespace Table

variable {α β : Type} [Inhabited α]

/-- A loop that updates one cell for each item brings the items to their cells. -/
theorem get_foldl_update (key : β → Nat) (act : α → β → α) (l : List β) (t : Table α)
    (hlt : ∀ b ∈ l, key b < t.size) :
    (l.foldl (fun t b => t.set (key b) (act (t.get (key b)) b)) t).size = t.size ∧
    ∀ i, (l.foldl (fun t b => t.set (key b) (act (t.get (key b)) b)) t).get i
      = (l.filter fun b => key b = i).foldl act (t.get i) := by
  induction l generalizing t with
  | nil => exact ⟨rfl, fun _ => rfl⟩
  | cons b l ih =>
    obtain ⟨hb, hl⟩ := List.forall_mem_cons.mp hlt
    obtain ⟨hsize, hget⟩ := ih (t.set (key b) (act (t.get (key b)) b))
      fun c hc => (Table.size_set ..).symm ▸ hl c hc
    refine ⟨hsize.trans (Table.size_set ..), fun i => ?_⟩
    rw [List.foldl_cons, hget, Table.get_set, List.filter_cons]
    by_cases hi : key b = i
    · subst hi
      simp [hb]
    · simp [hi]

theorem get_foldl_const (c : List Nat) (a : α) (t : Table α) :
    (c.foldl (fun t b => t.set b a) t).size = t.size ∧
    ∀ x, (c.foldl (fun t b => t.set b a) t).get x = if x ∈ c ∧ x < t.size then a else t.get x := by
  induction c generalizing t with
  | nil => simp
  | cons b c ih =>
    obtain ⟨hsize, hget⟩ := ih (t.set b a)
    rw [Table.size_set] at hsize hget
    refine ⟨hsize, fun x => ?_⟩
    rw [List.foldl_cons, hget, Table.get_set]
    by_cases hbx : b = x
    · subst hbx
      by_cases hlt : b < t.size
      · simp [hlt]
      · simp [hlt]
    · simp [hbx, Ne.symm hbx]

end Table

namespace Graph

theorem get_degrees {n : Nat} {pairs : List (Nat × Nat)} (hlt : ∀ p ∈ pairs, p.2 < n) :
    (degrees n pairs).size = n ∧
    ∀ j, (degrees n pairs).get j = (pairs.countP fun p => p.2 = j : Nat) := by
  obtain ⟨hsize, hget⟩ := Table.get_foldl_update Prod.snd (fun d _ => d + 1) pairs
    (Table.blank n : Table Int) (by simpa using hlt)
  refine ⟨hsize.trans (Table.size_blank n), fun j => (hget j).trans ?_⟩
  rw [Table.get_blank, List.countP_eq_length_filter]
  have hcount : ∀ (l : List (Nat × Nat)) (d : Int),
      l.foldl (fun d _ => d + 1) d = d + l.length := by
    intro l
    induction l with
    | nil => simp
    | cons p l ih =>
      intro d
      rw [List.foldl_cons, ih, List.length_cons]
      omega
  rw [hcount]
  exact Int.zero_add _

theorem get_outs {n : Nat} {pairs : List (Nat × Nat)} (hlt : ∀ p ∈ pairs, p.1 < n) (i : Nat) :
    (outs n pairs).get i = Frontier.leaving pairs i := by
  have hget := (Table.get_foldl_update Prod.fst (fun l p => l ++ [p.2]) pairs
    (Table.blank n : Table (List Nat)) (by simpa using hlt)).2 i
  rw [Table.get_blank] at hget
  refine hget.trans ?_
  have hmap : ∀ (l : List (Nat × Nat)) (out : List Nat),
      l.foldl (fun l p => l ++ [p.2]) out = out ++ l.map Prod.snd := by
    intro l
    induction l with
    | nil => simp
    | cons p l ih =>
      intro out
      rw [List.foldl_cons, ih, List.map_cons, List.append_assoc, List.singleton_append]
  rw [hmap]
  rfl

/-! ### Listing by searching -/

/-- Whether all blocks that lead into a component are in it or have been listed. -/
def isReady (sources : Table (List Nat)) (listed : Table Bool) (c : List Nat) : Bool :=
  c.all fun b => (sources.get b).all fun p => c.contains p || listed.get p

/-- Lists the first component that is ready, again and again. -/
def arrange (sources : Table (List Nat)) (listed : Table Bool) (pending : List (List Nat)) :
    List (List Nat) :=
  match _found : pending.find? (isReady sources listed) with
  | none => []
  | some c => c :: arrange sources (c.foldl (fun t b => t.set b true) listed) (pending.erase c)
termination_by pending.length
decreasing_by
  have hm := List.mem_of_find?_eq_some _found
  rw [List.length_erase_of_mem hm]
  exact Nat.sub_one_lt (Nat.ne_of_gt (List.length_pos_of_mem hm))

/-- For each block the blocks that lead to it. -/
def sources (g : Graph) : Table (List Nat) :=
  Table.tabulate g.size fun b => (List.range g.size).filter fun p => (g.targets p).contains b

theorem mem_sources {g : Graph} {b : Nat} (hb : b < g.size) (p : Nat) :
    p ∈ g.sources.get b ↔ p < g.size ∧ b ∈ g.targets p := by
  simp [sources, Table.get_tabulate, hb]

theorem isReady_iff {sources : Table (List Nat)} {listed : Table Bool} {c : List Nat} :
    isReady sources listed c = true ↔
      ∀ b ∈ c, ∀ p ∈ sources.get b, p ∈ c ∨ listed.get p = true := by
  simp only [isReady, List.all_eq_true, Bool.or_eq_true, List.contains_iff_mem]

theorem get_foldl_set (c : List Nat) (t : Table Bool) (x : Nat) :
    (c.foldl (fun t b => t.set b true) t).size = t.size ∧
      ((c.foldl (fun t b => t.set b true) t).get x = true ↔
        t.get x = true ∨ (x ∈ c ∧ x < t.size)) := by
  obtain ⟨hsize, hget⟩ := Table.get_foldl_const c true t
  refine ⟨hsize, ?_⟩
  rw [hget]
  by_cases hx : x ∈ c ∧ x < t.size
  · simp [hx]
  · simp only [hx, if_false, or_false]

section Arrange

variable {sources : Table (List Nat)} {listed : Table Bool} {c : List Nat}

theorem arrange_of_none {pending : List (List Nat)}
    (h : ∀ c ∈ pending, isReady sources listed c = false) :
    arrange sources listed pending = [] := by
  have hnone : pending.find? (isReady sources listed) = none :=
    List.find?_eq_none.mpr fun c hc => by rw [h c hc]; exact Bool.false_ne_true
  rw [arrange]
  split
  · rfl
  · rename_i c hfound
    rw [hnone] at hfound
    cases hfound

theorem arrange_of_first {before after : List (List Nat)}
    (hbefore : ∀ d ∈ before, isReady sources listed d = false)
    (hready : isReady sources listed c = true) :
    arrange sources listed (before ++ c :: after)
      = c :: arrange sources (c.foldl (fun t b => t.set b true) listed) (before ++ after) := by
  have hout : c ∉ before := by
    intro hc
    rw [hbefore c hc] at hready
    exact Bool.false_ne_true hready
  have hfind : (before ++ c :: after).find? (isReady sources listed) = some c := by
    rw [List.find?_eq_some_iff_append]
    exact ⟨hready, before, after, rfl, fun d hd => by rw [hbefore d hd]; rfl⟩
  rw [arrange]
  split
  · rename_i hnone
    rw [hnone] at hfind
    cases hfind
  · rename_i d hfound
    rw [hfind, Option.some.injEq] at hfound
    subst hfound
    rw [List.erase_append_right _ hout, List.erase_cons_head]

end Arrange

/-! ### Numbered components -/

theorem crossing_eq_some {i j : Option Nat} {k l : Nat} :
    crossing i j = some (k, l) ↔ i = some k ∧ j = some l ∧ k ≠ l := by
  rw [crossing, Option.bind_eq_bind, Option.bind_eq_some_iff]
  constructor
  · intro h
    obtain ⟨i, rfl, h⟩ := h
    obtain ⟨j, rfl, hpair⟩ := Option.bind_eq_some_iff.mp h
    split at hpair
    · rename_i hne
      cases hpair
      exact ⟨rfl, rfl, hne⟩
    · cases hpair
  · intro h
    obtain ⟨rfl, rfl, hne⟩ := h
    refine ⟨k, rfl, ?_⟩
    rw [Option.bind_some, if_pos hne]

/-- Components that together hold each of `n` blocks once. -/
structure Parts (n : Nat) (parts : List (List Nat)) : Prop where
  whole : parts.flatten.Perm (List.range n)
  full : [] ∉ parts

/-- The component with a number. -/
def part (parts : List (List Nat)) (i : Nat) : List Nat :=
  parts.getD i []

/-- Numbers are written component by component; no block is in two components. -/
theorem get_foldl_numbers (parts : List (List Nat)) (k : Nat) (t : Table (Option Nat))
    (hnodup : parts.flatten.Nodup) (hlt : ∀ b ∈ parts.flatten, b < t.size) (x : Nat) :
    (∀ i < parts.length, x ∈ part parts i → ((parts.zipIdx k).foldl
      (fun t p => p.1.foldl (fun t b => t.set b (some p.2)) t) t).get x = some (k + i)) ∧
    (x ∉ parts.flatten → ((parts.zipIdx k).foldl
      (fun t p => p.1.foldl (fun t b => t.set b (some p.2)) t) t).get x = t.get x) := by
  induction parts generalizing k t with
  | nil => exact ⟨fun i hi => absurd hi (Nat.not_lt_zero i), fun _ => rfl⟩
  | cons c parts ih =>
    rw [List.flatten_cons] at hnodup hlt
    obtain ⟨_, hrest, hdisjoint⟩ := List.nodup_append.mp hnodup
    obtain ⟨hsize, hget⟩ := Table.get_foldl_const c (some k) t
    obtain ⟨hin, hout⟩ := ih (k + 1) (c.foldl (fun t b => t.set b (some k)) t) hrest fun b hb =>
      hsize.symm ▸ hlt b (List.mem_append_right _ hb)
    rw [List.zipIdx_cons, List.foldl_cons]
    refine ⟨fun i hi hx => ?_, fun hx => ?_⟩
    · cases i with
      | zero =>
        have hxc : x ∈ c := hx
        rw [hout fun hxr => hdisjoint x hxc x hxr rfl, hget,
          if_pos ⟨hxc, hlt x (List.mem_append_left _ hxc)⟩, Nat.add_zero]
      | succ i =>
        rw [hin i (Nat.lt_of_succ_lt_succ hi) hx]
        congr 1
        omega
    · rw [List.flatten_cons, List.mem_append, not_or] at hx
      rw [hout hx.2, hget, if_neg fun h => hx.1 h.1]

namespace Parts

variable {n : Nat} {parts : List (List Nat)} {b i j : Nat}

theorem part_mem (hi : i < parts.length) : part parts i ∈ parts := by
  rw [part, List.getD_eq_getElem _ _ hi]
  exact List.getElem_mem hi

theorem lt_length (hb : b ∈ part parts i) : i < parts.length := by
  by_contra hi
  rw [part, List.getD_eq_default _ _ (Nat.le_of_not_lt hi)] at hb
  exact List.not_mem_nil hb

theorem mem_flatten (hb : b ∈ part parts i) : b ∈ parts.flatten :=
  List.mem_flatten.mpr ⟨_, part_mem (lt_length hb), hb⟩

theorem nodup (h : Parts n parts) : parts.flatten.Nodup :=
  h.whole.nodup_iff.mpr List.nodup_range

theorem mem_iff (h : Parts n parts) : b ∈ parts.flatten ↔ b < n := by
  rw [h.whole.mem_iff, List.mem_range]

theorem lt (h : Parts n parts) (hb : b ∈ part parts i) : b < n :=
  h.mem_iff.mp (mem_flatten hb)

theorem get_numbers (h : Parts n parts) (hb : b ∈ part parts i) :
    (numbers n parts).get b = some i := by
  have hget := (get_foldl_numbers parts 0 (Table.blank n) h.nodup
    (by simp [h.mem_iff]) b).1 i (lt_length hb) hb
  rwa [Nat.zero_add] at hget

theorem get_numbers_iff (h : Parts n parts) :
    (numbers n parts).get b = some i ↔ b ∈ part parts i := by
  refine ⟨fun hget => ?_, h.get_numbers⟩
  by_cases hb : b ∈ parts.flatten
  · obtain ⟨c, hc, hbc⟩ := List.mem_flatten.mp hb
    obtain ⟨j, hj, rfl⟩ := List.getElem_of_mem hc
    have hbj : b ∈ part parts j := by rwa [part, List.getD_eq_getElem _ _ hj]
    rw [h.get_numbers hbj, Option.some.injEq] at hget
    exact hget ▸ hbj
  · rw [numbers, (get_foldl_numbers parts 0 (Table.blank n) h.nodup
      (by simp [h.mem_iff]) b).2 hb, Table.get_blank] at hget
    cases hget

/-- No block is in two components. -/
theorem eq_of_mem (h : Parts n parts) (hi : b ∈ part parts i) (hj : b ∈ part parts j) : i = j :=
  Option.some.inj ((h.get_numbers hi).symm.trans (h.get_numbers hj))

theorem exists_part (h : Parts n parts) (hb : b < n) : ∃ i, b ∈ part parts i := by
  obtain ⟨c, hc, hbc⟩ := List.mem_flatten.mp (h.mem_iff.mpr hb)
  obtain ⟨i, hi, rfl⟩ := List.getElem_of_mem hc
  exact ⟨i, by rwa [part, List.getD_eq_getElem _ _ hi]⟩

variable {g : Graph}

theorem mem_crossings (h : Parts g.size parts) :
    (i, j) ∈ g.crossings (numbers g.size parts) ↔
      i ≠ j ∧ ∃ b ∈ part parts i, ∃ t ∈ part parts j, t ∈ g.targets b := by
  simp only [crossings, List.mem_flatMap, List.mem_filterMap, List.mem_range, crossing_eq_some,
    h.get_numbers_iff]
  constructor
  · intro hmem
    obtain ⟨b, _, t, ht, hb, htj, hne⟩ := hmem
    exact ⟨hne, b, hb, t, htj, ht⟩
  · intro hmem
    obtain ⟨hne, b, hb, t, htj, ht⟩ := hmem
    exact ⟨b, h.lt hb, t, ht, hb, htj, hne⟩

theorem apart_crossings (h : Parts g.size parts) :
    Frontier.Apart parts.length (g.crossings (numbers g.size parts)) := by
  intro p hp
  obtain ⟨hne, b, hb, t, ht, _⟩ := h.mem_crossings.mp hp
  exact ⟨lt_length hb, lt_length ht, hne⟩

/-- With the blocks of some components marked, the components that are ready are those that only
those components lead into. -/
theorem isReady_iff (h : Parts g.size parts) {listed : Table Bool} {done : List Nat}
    (hlisted : ∀ b < g.size, listed.get b = true ↔ ∃ i ∈ done, b ∈ part parts i) :
    isReady g.sources listed (part parts j) = true ↔
      ∀ p ∈ g.crossings (numbers g.size parts), p.2 = j → p.1 ∈ done := by
  rw [Graph.isReady_iff]
  constructor
  · intro hready p hp hpj
    obtain ⟨hne, b, hb, t, ht, hedge⟩ := h.mem_crossings.mp hp
    rw [hpj] at ht hne
    rcases hready t ht b ((mem_sources (h.lt ht) b).mpr ⟨h.lt hb, hedge⟩) with hbj | hmark
    · exact absurd (h.eq_of_mem hb hbj) hne
    · obtain ⟨i, hi, hbi⟩ := (hlisted b (h.lt hb)).mp hmark
      exact h.eq_of_mem hb hbi ▸ hi
  · intro hfree t ht b hsource
    obtain ⟨hb, hedge⟩ := (mem_sources (h.lt ht) b).mp hsource
    obtain ⟨i, hbi⟩ := h.exists_part hb
    by_cases hij : i = j
    · exact Or.inl (hij ▸ hbi)
    · have hi := hfree (i, j) (h.mem_crossings.mpr ⟨hij, b, hbi, t, ht, hedge⟩) rfl
      exact Or.inr ((hlisted b hb).mpr ⟨i, hi, hbi⟩)

/-! ### The two listings -/

/-- The components that are not done, in order. -/
def pending (parts : List (List Nat)) (done : List Nat) : List (List Nat) :=
  ((List.range parts.length).filter fun i => i ∉ done).map (part parts)

theorem pending_nil (parts : List (List Nat)) : pending parts [] = parts := by
  refine List.ext_getElem (by simp [pending]) fun i hi hi' => ?_
  simp [pending, part, hi']

/-- Where the search finds its first hit at a number, the components in front of it are not ready. -/
theorem pending_split {done : List Nat} (hi : i < parts.length) (hout : i ∉ done) :
    ∃ before after : List Nat, pending parts done = before.map (part parts) ++ part parts i ::
        after.map (part parts) ∧
      pending parts (done ++ [i]) = before.map (part parts) ++ after.map (part parts) ∧
      ∀ j ∈ before, j < i ∧ j ∉ done := by
  have hmem : i ∈ (List.range parts.length).filter fun i => i ∉ done := by simp [hi, hout]
  obtain ⟨before, after, hsplit⟩ := List.append_of_mem hmem
  have hsorted : (before ++ i :: after).Pairwise (· < ·) :=
    hsplit ▸ List.pairwise_lt_range.filter _
  have hnodup : (before ++ i :: after).Nodup := hsorted.imp Nat.ne_of_lt
  have hrest : ((List.range parts.length).filter fun j => j ∉ done ++ [i]) = before ++ after := by
    have hboth : ((List.range parts.length).filter fun j => j ∉ done ++ [i])
        = ((List.range parts.length).filter fun j => j ∉ done).filter fun j => j != i := by
      rw [List.filter_filter]
      refine List.filter_congr fun j _ => ?_
      rw [Bool.eq_iff_iff, Bool.and_eq_true, bne_iff_ne, decide_eq_true_eq, decide_eq_true_eq,
        List.mem_append, List.mem_singleton, not_or]
      exact and_comm
    have hbefore : i ∉ before := fun hmem =>
      (List.nodup_append.mp hnodup).2.2 i hmem i List.mem_cons_self rfl
    rw [hboth, hsplit, ← hnodup.erase_eq_filter, List.erase_append_right _ hbefore,
      List.erase_cons_head]
  refine ⟨before, after, ?_, ?_, fun j hj => ⟨?_, ?_⟩⟩
  · rw [pending, hsplit, List.map_append, List.map_cons]
  · rw [pending, hrest, List.map_append]
  · exact (List.pairwise_append.mp hsorted).2.2 j hj i List.mem_cons_self
  · have hj : j ∈ (List.range parts.length).filter fun i => i ∉ done :=
      hsplit ▸ List.mem_append_left _ hj
    simpa using (List.mem_filter.mp hj).2

/-- From the same state on, the listing that counts lists what the listing that searches does. -/
theorem map_list (h : Parts g.size parts) {done : List Nat} {listed : Table Bool} {f : Frontier}
    (hcounts : Frontier.Counts (g.crossings (numbers g.size parts)) parts.length done f)
    (hsize : listed.size = g.size)
    (hlisted : ∀ b < g.size, listed.get b = true ↔ ∃ i ∈ done, b ∈ part parts i) :
    (Frontier.list (outs parts.length (g.crossings (numbers g.size parts))) f).map (part parts)
      = arrange g.sources listed (pending parts done) := by
  have hapart := h.apart_crossings
  generalize houts : outs parts.length (g.crossings (numbers g.size parts)) = out
  fun_induction Frontier.list out f generalizing done listed with
  | case1 f hnone =>
    rw [arrange_of_none, List.map_nil]
    intro c hc
    obtain ⟨j, hj, rfl⟩ := List.mem_map.mp hc
    have hj : j < parts.length ∧ j ∉ done := by simpa using hj
    rw [← Bool.not_eq_true, h.isReady_iff hlisted, ← hcounts.mem_ready hj.1 hj.2, hnone]
    exact List.not_mem_nil
  | case2 f hsome ih =>
    obtain ⟨hperm, hlow⟩ := Frontier.first_rest hsome
    have hfirst := hperm.mem_iff.mpr List.mem_cons_self
    obtain ⟨hlt, hout, _⟩ := (hcounts.ready f.first).mp hfirst
    obtain ⟨before, after, hsplit, hnext, hbefore⟩ := pending_split hlt hout
    have hleaving : out.get f.first
        = Frontier.leaving (g.crossings (numbers g.size parts)) f.first := by
      rw [← houts, get_outs fun p hp => (hapart p hp).1]
    have hrest : (Frontier.list out ((out.get f.first).foldl Frontier.release f.rest)).map
        (part parts)
          = arrange g.sources ((part parts f.first).foldl (fun t b => t.set b true) listed)
            (pending parts (done ++ [f.first])) := by
      refine ih ?_ ?_ ?_
      · rw [hleaving]
        exact hcounts.next hapart hsome
      · rw [(get_foldl_set _ _ 0).1, hsize]
      · intro b hb
        rw [(get_foldl_set _ _ _).2, hlisted b hb, hsize]
        simp only [hb, and_true, List.mem_append, List.mem_singleton, or_and_right, exists_or,
          exists_eq_left]
    rw [List.map_cons, hrest, hnext, hsplit, arrange_of_first]
    · intro d hd
      obtain ⟨j, hj, rfl⟩ := List.mem_map.mp hd
      obtain ⟨hjc, hjd⟩ := hbefore j hj
      rw [← Bool.not_eq_true, h.isReady_iff hlisted,
        ← hcounts.mem_ready (Nat.lt_trans hjc hlt) hjd, hperm.mem_iff, List.mem_cons, not_or]
      exact ⟨Nat.ne_of_lt hjc, fun hjr => Nat.not_le_of_lt hjc (hlow j hjr)⟩
    · rw [h.isReady_iff hlisted, ← hcounts.mem_ready hlt hout]
      exact hfirst

end Parts

theorem counts_frontier {n : Nat} {pairs : List (Nat × Nat)} (h : Frontier.Apart n pairs) :
    Frontier.Counts pairs n [] (frontier n pairs) := by
  obtain ⟨hsize, hdegree⟩ := get_degrees fun p hp => (h p hp).2.1
  refine ⟨hsize, fun j _ => ?_, List.nodup_range.filter _, fun j => ?_, fun j _ hj => ?_⟩
  · simp [frontier, hdegree]
  · simp [frontier]
  · exact absurd hj List.not_mem_nil

/-- Components in the order of their lowest blocks are listed by counting as they are by searching. -/
theorem listing_eq {g : Graph} {parts : List (List Nat)} (h : Parts g.size parts)
    (hranked : ranked parts = parts) :
    g.listing parts = arrange g.sources (Table.blank g.size) parts := by
  have hlist := h.map_list (counts_frontier h.apart_crossings) (Table.size_blank g.size) (by simp)
  rw [Parts.pending_nil] at hlist
  rw [← hlist, listing, hranked]
  rfl

end Graph

end RegisterWeb
