import RegisterWeb.Live.Instance
import RegisterWeb.Proofs.Ascending

/-!
Range lists as sets of offsets. The ranges of a list stand in ascending order with gaps between
them; adding a range keeps this and adds exactly its offsets. The ranges of the versions of a
register are a map from versions to such lists, and adding a range to a version leaves the other
versions alone.
-/

namespace RegisterWeb

theorem Offset.toInt_min (a b : Offset) : (min a b).toInt = min a.toInt b.toInt := by
  show (if a ≤ b then a else b).toInt = _
  split
  · rename_i h
    rw [Int64.le_iff_toInt_le] at h
    omega
  · rename_i h
    rw [Int64.le_iff_toInt_le] at h
    omega

theorem Offset.toInt_max (a b : Offset) : (max a b).toInt = max a.toInt b.toInt := by
  show (if a ≤ b then b else a).toInt = _
  split
  · rename_i h
    rw [Int64.le_iff_toInt_le] at h
    omega
  · rename_i h
    rw [Int64.le_iff_toInt_le] at h
    omega

namespace Ranges

/-- The ranges stand in ascending order, leave gaps, and none is empty. -/
structure Apart (rs : Ranges) : Prop where
  gaps : rs.Pairwise fun r r' => r.stop < r'.start
  full : ∀ r ∈ rs, r.start < r.stop

theorem apart_nil : Apart [] :=
  ⟨List.Pairwise.nil, fun _ h => absurd h List.not_mem_nil⟩

theorem Apart.tail {r : Range} {rs : Ranges} (h : Apart (r :: rs)) : Apart rs :=
  ⟨(List.pairwise_cons.mp h.gaps).2, fun s hs => h.full s (List.mem_cons_of_mem r hs)⟩

theorem Apart.contains_iff {rs : Ranges} (h : Apart rs) (p : Offset) :
    rs.contains p = true ↔ ∃ r ∈ rs, r.start ≤ p ∧ p < r.stop := by
  induction rs with
  | nil => simp [contains]
  | cons r rs ih =>
    have hgap := (List.pairwise_cons.mp h.gaps).1
    have hfull := h.full r (List.mem_cons_self ..)
    unfold contains at ih ⊢
    by_cases hp : p < r.stop
    · rw [List.find?_cons_of_pos (by simpa using hp)]
      simp only [decide_eq_true_eq, List.mem_cons]
      constructor
      · exact fun hs => ⟨r, Or.inl rfl, hs, hp⟩
      · intro ⟨s, hs, hstart, hstop⟩
        rcases hs with rfl | hs
        · exact hstart
        · have hlt := hgap s hs
          rw [Int64.lt_iff_toInt_lt] at hp hlt
          rw [Int64.le_iff_toInt_le] at hstart ⊢
          omega
    · rw [List.find?_cons_of_neg (by simpa using hp), ih h.tail]
      constructor
      · exact fun ⟨s, hs, hin⟩ => ⟨s, List.mem_cons_of_mem r hs, hin⟩
      · intro ⟨s, hs, hin⟩
        rcases List.mem_cons.mp hs with rfl | hs
        · exact absurd hin.2 hp
        · exact ⟨s, hs, hin⟩

theorem lt_start_of_mem_place {c start stop : Offset} {rs : Ranges} (hstart : c < start)
    (hrs : ∀ r ∈ rs, c < r.start) : ∀ r ∈ place start stop rs, c < r.start := by
  induction rs generalizing start stop with
  | nil =>
    intro r hr
    rw [List.mem_singleton.mp hr]
    exact hstart
  | cons s rs ih =>
    have hs := hrs s (List.mem_cons_self ..)
    have htail : ∀ r ∈ rs, c < r.start := fun r hr => hrs r (List.mem_cons_of_mem s hr)
    intro r hr
    unfold place at hr
    split at hr
    · rcases List.mem_cons.mp hr with rfl | hr
      · exact hs
      · exact ih hstart htail r hr
    · split at hr
      · rcases List.mem_cons.mp hr with rfl | hr
        · exact hstart
        · exact hrs r hr
      · refine ih ?_ htail r hr
        rw [Int64.lt_iff_toInt_lt] at hstart hs ⊢
        rw [Offset.toInt_min]
        omega

theorem Apart.place {rs : Ranges} (h : Apart rs) {start stop : Offset} (hlt : start < stop) :
    Apart (place start stop rs) ∧
      ∀ p, (∃ r ∈ Ranges.place start stop rs, r.start ≤ p ∧ p < r.stop) ↔
        (∃ r ∈ rs, r.start ≤ p ∧ p < r.stop) ∨ (start ≤ p ∧ p < stop) := by
  induction rs generalizing start stop with
  | nil =>
    refine ⟨⟨List.pairwise_singleton _ _, ?_⟩, ?_⟩
    · intro r hr
      rw [List.mem_singleton.mp hr]
      exact hlt
    · simp [Ranges.place]
  | cons s rs ih =>
    obtain ⟨hgap, htail⟩ := List.pairwise_cons.mp h.gaps
    have hfull := h.full s (List.mem_cons_self ..)
    unfold Ranges.place
    split
    · rename_i hbefore
      obtain ⟨happart, hholds⟩ := ih h.tail hlt
      refine ⟨⟨List.pairwise_cons.mpr ⟨lt_start_of_mem_place hbefore hgap, happart.gaps⟩, ?_⟩, ?_⟩
      · intro r hr
        rcases List.mem_cons.mp hr with rfl | hr
        · exact hfull
        · exact happart.full r hr
      · intro p
        simp only [List.exists_mem_cons_iff, hholds, or_assoc]
    · rename_i hmeets
      split
      · rename_i hafter
        refine ⟨⟨List.pairwise_cons.mpr ⟨?_, h.gaps⟩, ?_⟩, ?_⟩
        · intro r hr
          rcases List.mem_cons.mp hr with rfl | hr
          · exact hafter
          · have hgap' := hgap r hr
            simp only [Int64.lt_iff_toInt_lt] at hafter hgap' hfull ⊢
            omega
        · intro r hr
          rcases List.mem_cons.mp hr with rfl | hr
          · exact hlt
          · exact h.full r hr
        · intro p
          rw [List.exists_mem_cons_iff, or_comm]
      · rename_i htouches
        have hlt' : min start s.start < max stop s.stop := by
          simp only [Int64.lt_iff_toInt_lt, Offset.toInt_min, Offset.toInt_max] at hlt ⊢
          omega
        obtain ⟨happart, hholds⟩ := ih h.tail hlt'
        refine ⟨happart, ?_⟩
        intro p
        rw [hholds, List.exists_mem_cons_iff]
        -- the two ranges meet or touch, so together they are one
        have hjoin : (min start s.start ≤ p ∧ p < max stop s.stop) ↔
            (s.start ≤ p ∧ p < s.stop) ∨ (start ≤ p ∧ p < stop) := by
          simp only [Int64.lt_iff_toInt_lt, Int64.le_iff_toInt_le, Offset.toInt_min,
            Offset.toInt_max] at hmeets htouches hlt hfull ⊢
          omega
        rw [hjoin, or_left_comm, or_assoc]

theorem Apart.insert {rs : Ranges} (h : Apart rs) (start stop : Offset) :
    Apart (insert rs start stop) ∧
      ∀ p, (insert rs start stop).contains p = true ↔
        rs.contains p = true ∨ (start ≤ p ∧ p < stop) := by
  unfold Ranges.insert
  split
  · rename_i hlt
    obtain ⟨happart, hholds⟩ := h.place hlt
    refine ⟨happart, ?_⟩
    intro p
    rw [happart.contains_iff, hholds, h.contains_iff]
  · rename_i hempty
    refine ⟨h, ?_⟩
    intro p
    constructor
    · exact Or.inl
    · intro hp
      rcases hp with hp | ⟨hstart, hstop⟩
      · exact hp
      · simp only [Int64.lt_iff_toInt_lt, Int64.le_iff_toInt_le] at hempty hstart hstop
        omega

end Ranges

namespace VersionRanges

/-- The ranges of a version. -/
def ranges (m : VersionRanges) (v : Version) : Ranges :=
  (m.lookup v).getD []

/-- The versions are in ascending order, each with ranges that are in order. -/
structure Ordered (m : VersionRanges) : Prop where
  keys : Ascending (m.map Prod.fst)
  apart : ∀ e ∈ m, e.2.Apart

theorem ordered_nil : Ordered [] :=
  ⟨List.Pairwise.nil, fun _ h => absurd h List.not_mem_nil⟩

theorem Ordered.tail {e : Version × Ranges} {m : VersionRanges} (h : Ordered (e :: m)) :
    Ordered m :=
  ⟨(List.pairwise_cons.mp h.keys).2, fun d hd => h.apart d (List.mem_cons_of_mem e hd)⟩

theorem Ordered.cons {x : Version} {rs : Ranges} {m : VersionRanges} (h : Ordered m)
    (hx : ∀ u ∈ m.map Prod.fst, x < u) (hrs : rs.Apart) : Ordered ((x, rs) :: m) := by
  refine ⟨List.pairwise_cons.mpr ⟨hx, h.keys⟩, ?_⟩
  intro d hd
  rcases List.mem_cons.mp hd with rfl | hd
  · exact hrs
  · exact h.apart d hd

theorem ranges_cons (x : Version) (rs : Ranges) (m : VersionRanges) (w : Version) :
    ranges ((x, rs) :: m) w = if w = x then rs else ranges m w := by
  unfold ranges
  rw [List.lookup_cons]
  by_cases hw : w = x
  · simp [hw]
  · have hne : (w == x) = false := by simpa using hw
    simp [hw, hne]

theorem Ordered.apart_ranges {m : VersionRanges} (h : Ordered m) (v : Version) :
    (m.ranges v).Apart := by
  unfold ranges
  cases hv : m.lookup v with
  | none => exact Ranges.apart_nil
  | some rs =>
    obtain ⟨before, after, heq, _⟩ := List.lookup_eq_some_iff.mp hv
    apply h.apart (v, rs)
    rw [heq]
    exact List.mem_append.mpr (Or.inr (List.mem_cons_self ..))

theorem ranges_eq_nil_of_lt {m : VersionRanges} {v : Version}
    (h : ∀ w ∈ m.map Prod.fst, v < w) : m.ranges v = [] := by
  have hnone : m.lookup v = none := by
    rw [List.lookup_eq_none_iff]
    intro e he
    rw [bne_iff_ne]
    intro heq
    have hlt := h e.1 (List.mem_map_of_mem he)
    rw [heq] at hlt
    exact UInt32.lt_irrefl _ hlt
  rw [ranges, hnone]
  rfl

theorem lt_of_mem_place {v w : Version} {start stop : Offset} {m : VersionRanges} (hw : w < v)
    (hm : ∀ u ∈ m.map Prod.fst, w < u) :
    ∀ u ∈ (place v start stop m).map Prod.fst, w < u := by
  induction m with
  | nil =>
    intro u hu
    rw [List.mem_singleton.mp hu]
    exact hw
  | cons e m ih =>
    obtain ⟨x, rs⟩ := e
    have hx := hm x (List.mem_cons_self ..)
    have htail : ∀ u ∈ m.map Prod.fst, w < u := fun u hu => hm u (List.mem_cons_of_mem x hu)
    intro u hu
    unfold place at hu
    split at hu
    · rcases List.mem_cons.mp hu with rfl | hu
      · exact hw
      · exact hm u hu
    · split at hu
      · rcases List.mem_cons.mp hu with rfl | hu
        · exact hx
        · exact ih htail u hu
      · rcases List.mem_cons.mp hu with rfl | hu
        · exact hx
        · exact htail u hu

theorem Ordered.place {m : VersionRanges} (h : Ordered m) (v : Version) (start stop : Offset) :
    Ordered (place v start stop m) ∧
      ∀ w, (VersionRanges.place v start stop m).ranges w =
        if w = v then (m.ranges v).insert start stop else m.ranges w := by
  have hnew := (Ranges.apart_nil.insert start stop).1
  induction m with
  | nil =>
    refine ⟨ordered_nil.cons (by simp) hnew, ?_⟩
    intro w
    exact ranges_cons v _ [] w
  | cons e m ih =>
    obtain ⟨x, rs⟩ := e
    have hkeys := (List.pairwise_cons.mp h.keys).1
    have hrs := h.apart (x, rs) (List.mem_cons_self ..)
    unfold VersionRanges.place
    split
    · -- the version is lower than all others
      rename_i hlt
      have hbelow : ∀ u ∈ ((x, rs) :: m).map Prod.fst, v < u := by
        intro u hu
        rcases List.mem_cons.mp hu with rfl | hu
        · exact hlt
        · exact UInt32.lt_trans hlt (hkeys u hu)
      refine ⟨h.cons hbelow hnew, ?_⟩
      intro w
      rw [ranges_cons, ranges_eq_nil_of_lt hbelow]
    · split
      · rename_i hlt
        obtain ⟨hordered, hget⟩ := ih h.tail
        have hne : v ≠ x := fun heq => UInt32.lt_irrefl x (heq ▸ hlt)
        refine ⟨hordered.cons (lt_of_mem_place hlt hkeys) hrs, ?_⟩
        intro w
        rw [ranges_cons, ranges_cons, ranges_cons, hget, if_neg hne]
        by_cases hw : w = x
        · rw [if_pos hw, if_pos hw, if_neg (hw ▸ hne.symm)]
        · rw [if_neg hw, if_neg hw]
      · rename_i hge hle
        have hvx : v = x := UInt32.le_antisymm (UInt32.not_lt.mp hle) (UInt32.not_lt.mp hge)
        subst hvx
        refine ⟨h.tail.cons hkeys (hrs.insert start stop).1, ?_⟩
        intro w
        rw [ranges_cons, ranges_cons, ranges_cons, if_pos rfl]
        by_cases hw : w = v
        · rw [if_pos hw, if_pos hw]
        · rw [if_neg hw, if_neg hw, if_neg hw]

/-- Adding a range to a version adds its offsets to this version and to no other. -/
theorem Ordered.insert {m : VersionRanges} (h : Ordered m) (start stop : Offset) (v : Version) :
    Ordered (m.insert start stop v) ∧
      ∀ w p, ((m.insert start stop v).ranges w).contains p = true ↔
        (m.ranges w).contains p = true ∨ (w = v ∧ start ≤ p ∧ p < stop) := by
  unfold VersionRanges.insert
  split
  · obtain ⟨hordered, hget⟩ := h.place v start stop
    refine ⟨hordered, ?_⟩
    intro w p
    rw [hget]
    by_cases hw : w = v
    · rw [if_pos hw, ((h.apart_ranges v).insert start stop).2 p, hw]
      simp
    · simp [hw]
  · rename_i hempty
    refine ⟨h, ?_⟩
    intro w p
    constructor
    · exact Or.inl
    · intro hp
      rcases hp with hp | ⟨_, hstart, hstop⟩
      · exact hp
      · simp only [Int64.lt_iff_toInt_lt, Int64.le_iff_toInt_le] at hempty hstart hstop
        omega

theorem Ordered.insertAll {m : VersionRanges} (h : Ordered m) (vs : VersionSet)
    (start stop : Offset) :
    Ordered (m.insertAll vs start stop) ∧
      ∀ w p, ((m.insertAll vs start stop).ranges w).contains p = true ↔
        (m.ranges w).contains p = true ∨ (w ∈ vs ∧ start ≤ p ∧ p < stop) := by
  unfold VersionRanges.insertAll
  induction vs generalizing m with
  | nil => exact ⟨h, fun w p => by simp⟩
  | cons v vs ih =>
    obtain ⟨hordered, hget⟩ := h.insert start stop v
    obtain ⟨hordered', hget'⟩ := ih hordered
    refine ⟨hordered', ?_⟩
    intro w p
    rw [List.foldl_cons, hget', hget, List.mem_cons, or_and_right, or_assoc]

end VersionRanges

end RegisterWeb
