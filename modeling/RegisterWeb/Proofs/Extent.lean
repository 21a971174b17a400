import Mathlib
import RegisterWeb.Proofs.Cover

/-!
The extent of liveness: the offsets that the ranges of a version hold, no more and no less. A list of
ranges is the only one for its offsets, so two walks that find the same offsets give the same ranges.
-/

namespace RegisterWeb

/-! ### One list for a set of offsets -/

namespace Ranges

theorem Apart.start_le {r : Range} {rs : Ranges} (h : Apart (r :: rs)) {p : Offset}
    (hp : Ranges.contains (r :: rs) p = true) : r.start ≤ p := by
  obtain ⟨s, hs, hlow, _⟩ := (h.contains_iff p).mp hp
  rcases List.mem_cons.mp hs with rfl | hs
  · exact hlow
  · have hgap := (List.pairwise_cons.mp h.gaps).1 s hs
    have hfull := h.full r List.mem_cons_self
    rw [Int64.lt_iff_toInt_lt] at hgap hfull
    rw [Int64.le_iff_toInt_le] at hlow ⊢
    omega

theorem Apart.contains_start {r : Range} {rs : Ranges} (h : Apart (r :: rs)) :
    Ranges.contains (r :: rs) r.start = true :=
  (h.contains_iff _).mpr ⟨r, List.mem_cons_self, Int64.le_refl _, h.full r List.mem_cons_self⟩

/-- The first range ends right where the set has its first gap. -/
theorem Apart.stop_le {r : Range} {rs : Ranges} (h : Apart (r :: rs)) {stop : Offset}
    (hin : ∀ p, r.start ≤ p → p < stop → Ranges.contains (r :: rs) p = true) : stop ≤ r.stop := by
  by_contra hlt
  have hfull := h.full r List.mem_cons_self
  rw [Int64.not_le] at hlt
  obtain ⟨s, hs, hlow, hhigh⟩ := (h.contains_iff _).mp (hin r.stop (Int64.le_of_lt hfull) hlt)
  rcases List.mem_cons.mp hs with rfl | hs
  · exact Int64.lt_irrefl hhigh
  · exact Int64.lt_irrefl (Int64.lt_of_lt_of_le ((List.pairwise_cons.mp h.gaps).1 s hs) hlow)

theorem Apart.contains_cons {r : Range} {rs : Ranges} (h : Apart (r :: rs)) (p : Offset) :
    Ranges.contains (r :: rs) p = true ↔ (r.start ≤ p ∧ p < r.stop) ∨ rs.contains p = true := by
  rw [h.contains_iff, h.tail.contains_iff]
  simp only [List.exists_mem_cons_iff]

theorem Apart.lt_of_contains_tail {r : Range} {rs : Ranges} (h : Apart (r :: rs)) {p : Offset}
    (hp : rs.contains p = true) : r.stop < p := by
  obtain ⟨s, hs, hlow, _⟩ := (h.tail.contains_iff p).mp hp
  exact Int64.lt_of_lt_of_le ((List.pairwise_cons.mp h.gaps).1 s hs) hlow

/-- Ranges that hold the same offsets are the same list. -/
theorem Apart.eq_of_contains {rs qs : Ranges} (hr : Apart rs) (hq : Apart qs)
    (same : ∀ p, rs.contains p = true ↔ qs.contains p = true) : rs = qs := by
  induction rs generalizing qs with
  | nil =>
    cases qs with
    | nil => rfl
    | cons q qs => exact absurd ((same q.start).mpr hq.contains_start) (by simp [contains])
  | cons r rs ih =>
    cases qs with
    | nil => exact absurd ((same r.start).mp hr.contains_start) (by simp [contains])
    | cons q qs =>
      have hstart : r.start = q.start :=
        Int64.le_antisymm (hr.start_le ((same _).mpr hq.contains_start))
          (hq.start_le ((same _).mp hr.contains_start))
      have hstop : r.stop = q.stop := by
        apply Int64.le_antisymm
        · refine hq.stop_le fun p hlow hhigh => (same p).mp ?_
          exact (hr.contains_cons p).mpr (Or.inl ⟨hstart ▸ hlow, hhigh⟩)
        · refine hr.stop_le fun p hlow hhigh => (same p).mpr ?_
          exact (hq.contains_cons p).mpr (Or.inl ⟨hstart ▸ hlow, hhigh⟩)
      have hrq : r = q := by
        cases r
        cases q
        simp only [Range.mk.injEq]
        exact ⟨hstart, hstop⟩
      subst hrq
      congr 1
      refine ih hr.tail hq.tail fun p => ⟨fun hp => ?_, fun hp => ?_⟩
      · have hcons := (same p).mp ((hr.contains_cons p).mpr (Or.inr hp))
        refine ((hq.contains_cons p).mp hcons).resolve_left fun hin => ?_
        exact Int64.lt_irrefl (Int64.lt_trans (hr.lt_of_contains_tail hp) hin.2)
      · have hcons := (same p).mpr ((hq.contains_cons p).mpr (Or.inr hp))
        refine ((hr.contains_cons p).mp hcons).resolve_left fun hin => ?_
        exact Int64.lt_irrefl (Int64.lt_trans (hq.lt_of_contains_tail hp) hin.2)

theorem place_ne_nil (start stop : Offset) (rs : Ranges) : place start stop rs ≠ [] := by
  fun_induction place start stop rs <;> simp_all

end Ranges

namespace VersionRanges

/-- Every version that is listed has a range. -/
def Full (m : VersionRanges) : Prop :=
  ∀ e ∈ m, e.2 ≠ []

theorem Full.place {m : VersionRanges} (h : Full m) (v : Version) {start stop : Offset}
    (hlt : start < stop) : Full (place v start stop m) := by
  have hnew : ∀ rs : Ranges, rs.insert start stop ≠ [] := by
    intro rs
    rw [Ranges.insert, if_pos hlt]
    exact Ranges.place_ne_nil start stop rs
  induction m with
  | nil =>
    intro e he
    rw [List.mem_singleton.mp he]
    exact hnew []
  | cons e m ih =>
    obtain ⟨w, rs⟩ := e
    have htail : Full m := fun e he => h e (List.mem_cons_of_mem _ he)
    have hhead : rs ≠ [] := h (w, rs) List.mem_cons_self
    unfold VersionRanges.place
    split
    · intro e he
      rcases List.mem_cons.mp he with rfl | he
      · exact hnew []
      · exact h e he
    · split
      · intro e he
        rcases List.mem_cons.mp he with rfl | he
        · exact hhead
        · exact ih htail e he
      · intro e he
        rcases List.mem_cons.mp he with rfl | he
        · exact hnew rs
        · exact htail e he

theorem Full.insert {m : VersionRanges} (h : Full m) (start stop : Offset) (v : Version) :
    Full (m.insert start stop v) := by
  unfold VersionRanges.insert
  split
  · exact h.place v (by assumption)
  · exact h

theorem Full.insertAll {m : VersionRanges} (h : Full m) (vs : VersionSet) (start stop : Offset) :
    Full (m.insertAll vs start stop) :=
  foldl_keeps (fun _ v hm => hm.insert start stop v) vs m h

theorem Ordered.contains_cons {v : Version} {rs : Ranges} {m : VersionRanges}
    (h : Ordered ((v, rs) :: m)) (w : Version) (p : Offset) :
    (ranges ((v, rs) :: m) w).contains p = true ↔
      (w = v ∧ rs.contains p = true) ∨ (m.ranges w).contains p = true := by
  rw [ranges_cons]
  split
  · rename_i hw
    subst hw
    have hlt : ∀ u ∈ m.map Prod.fst, w < u := (List.pairwise_cons.mp h.keys).1
    rw [ranges_eq_nil_of_lt hlt]
    simp [Ranges.contains]
  · rename_i hw
    simp [hw]

theorem Full.exists_contains {v : Version} {rs : Ranges} {m : VersionRanges}
    (hfull : Full ((v, rs) :: m)) (h : Ordered ((v, rs) :: m)) :
    ∃ p, rs.contains p = true ∧ (ranges ((v, rs) :: m) v).contains p = true := by
  cases rs with
  | nil => exact absurd rfl (hfull (v, []) List.mem_cons_self)
  | cons r rs =>
    have hstart := (h.apart (v, r :: rs) List.mem_cons_self).contains_start
    exact ⟨r.start, hstart, (h.contains_cons v r.start).mpr (Or.inl ⟨rfl, hstart⟩)⟩

theorem Ordered.le_of_contains {v : Version} {rs : Ranges} {m : VersionRanges}
    (h : Ordered ((v, rs) :: m)) {w : Version} {p : Offset}
    (hp : (ranges ((v, rs) :: m) w).contains p = true) : v ≤ w := by
  by_contra hlt
  rw [UInt32.not_le] at hlt
  have hall : ∀ u ∈ ((v, rs) :: m).map Prod.fst, w < u := by
    intro u hu
    rcases List.mem_cons.mp hu with rfl | hu
    · exact hlt
    · exact UInt32.lt_trans hlt ((List.pairwise_cons.mp h.keys).1 u hu)
  rw [ranges_eq_nil_of_lt hall] at hp
  cases hp

/-- Lists without empty entries that give every version the same offsets are the same. -/
theorem Ordered.eq_of_contains {m m' : VersionRanges} (h : Ordered m) (h' : Ordered m')
    (hfull : Full m) (hfull' : Full m')
    (same : ∀ v p, (m.ranges v).contains p = true ↔ (m'.ranges v).contains p = true) : m = m' := by
  induction m generalizing m' with
  | nil =>
    cases m' with
    | nil => rfl
    | cons e m' =>
      obtain ⟨p, _, hp⟩ := hfull'.exists_contains h'
      exact absurd ((same e.1 p).mpr hp) (by simp [ranges, Ranges.contains])
  | cons e m ih =>
    cases m' with
    | nil =>
      obtain ⟨p, _, hp⟩ := hfull.exists_contains h
      exact absurd ((same e.1 p).mp hp) (by simp [ranges, Ranges.contains])
    | cons e' m' =>
      obtain ⟨v, rs⟩ := e
      obtain ⟨v', rs'⟩ := e'
      obtain ⟨p, _, hp⟩ := hfull.exists_contains h
      obtain ⟨p', _, hp'⟩ := hfull'.exists_contains h'
      have hv : v = v' := UInt32.le_antisymm (h.le_of_contains ((same v' p').mpr hp'))
        (h'.le_of_contains ((same v p).mp hp))
      subst hv
      have hrs : rs = rs' := by
        apply (h.apart (v, rs) List.mem_cons_self).eq_of_contains
          (h'.apart (v, rs') List.mem_cons_self)
        intro q
        have hq := same v q
        rwa [ranges_cons, ranges_cons, if_pos rfl, if_pos rfl] at hq
      subst hrs
      congr 1
      refine ih h.tail h'.tail (fun e he => hfull e (List.mem_cons_of_mem _ he))
        (fun e he => hfull' e (List.mem_cons_of_mem _ he)) fun w q => ?_
      by_cases hw : w = v
      · subst hw
        rw [ranges_eq_nil_of_lt (List.pairwise_cons.mp h.keys).1,
          ranges_eq_nil_of_lt (List.pairwise_cons.mp h'.keys).1]
      · have hq := same w q
        rwa [ranges_cons, ranges_cons, if_neg hw, if_neg hw] at hq

end VersionRanges

/-! ### What a walk finds -/

namespace Walk

/-- Whether a version is live at an offset on the rest of a walk, from the current versions and the
place since which they are needed. At the end they are needed up to `stop` if they leave alive. -/
def Extends (leaves : Bool) (stop : Offset) (v : Version) (p : Offset) :
    VersionSet → Offset → List Access → Prop
  | current, since, [] => leaves = true ∧ v ∈ current ∧ since ≤ p ∧ p < stop
  | current, since, x :: xs =>
    (x.reads = true ∧ v ∈ current ∧ since ≤ p ∧ p < x.offset + 1) ∨
      match x.write with
      | some w => (v = w ∧ x.offset + 1 ≤ p ∧ p < x.offset + 1 + 1) ∨
          Extends leaves stop v p [w] (x.offset + 1) xs
      | none => Extends leaves stop v p current since xs

theorem finds_step {w : Walk} (h : w.found.Ordered) (x : Access) (v : Version) (p : Offset) :
    (w.step x).Finds v p ↔ w.Finds v p ∨
      (x.reads = true ∧ v ∈ w.current ∧ w.since ≤ p ∧ p < x.offset + 1) ∨
      (x.write = some v ∧ x.offset + 1 ≤ p ∧ p < x.offset + 1 + 1) := by
  have hread : (if x.reads then w.found.insertAll w.current w.since (x.offset + 1)
      else w.found).Ordered ∧
      (((if x.reads then w.found.insertAll w.current w.since (x.offset + 1)
        else w.found).ranges v).contains p = true ↔
          w.Finds v p ∨ (x.reads = true ∧ v ∈ w.current ∧ w.since ≤ p ∧ p < x.offset + 1)) := by
    cases x.reads with
    | false => exact ⟨h, by simp [Finds]⟩
    | true =>
      obtain ⟨hordered, hget⟩ := h.insertAll w.current w.since (x.offset + 1)
      exact ⟨hordered, by simp [Finds, hget]⟩
  obtain ⟨hordered, hget⟩ := hread
  unfold step
  cases hwrite : x.write with
  | none =>
    refine hget.trans ?_
    simp
  | some u =>
    refine ((hordered.insert (x.offset + 1) (x.offset + 1 + 1) u).2 v p).trans ?_
    rw [hget, or_assoc, Option.some_inj, eq_comm (a := v)]

theorem finds_foldl {w : Walk} (h : w.found.Ordered) (leaves : Bool) (stop : Offset)
    (l : List Access) (v : Version) (p : Offset) :
    ((l.foldl step w).Finds v p ∨ (leaves = true ∧ v ∈ (l.foldl step w).current ∧
        (l.foldl step w).since ≤ p ∧ p < stop)) ↔
      w.Finds v p ∨ Extends leaves stop v p w.current w.since l := by
  induction l generalizing w with
  | nil => rfl
  | cons x l ih =>
    rw [List.foldl_cons, ih (step_spec h x).1, finds_step h, or_assoc, or_assoc]
    simp only [Extends]
    cases hwrite : x.write with
    | none => simp [step, hwrite]
    | some u =>
      simp only [step, hwrite, Option.some_inj]
      rw [eq_comm (a := u)]

section Through

variable {g : Graph} {t : Track} {l : LiveFlow} {found : VersionRanges}

/-- Whether a version is live at an offset by what one block does. -/
def LiveIn (g : Graph) (t : Track) (l : LiveFlow) (b : Nat) (v : Version) (p : Offset) : Prop :=
  Extends (l.leaves.get b) (g.block b).stop v p (if l.enters.get b then t.entering b else [])
    (g.block b).start (t.accesses b)

theorem contains_through (h : found.Ordered) (b : Nat) (v : Version) (p : Offset) :
    ((through g t l found b).ranges v).contains p = true ↔
      (found.ranges v).contains p = true ∨ LiveIn g t l b v p := by
  rw [(through_spec h).2, finds_foldl (w := opening g t l found b) h]
  rfl

theorem contains_foldl_through (h : found.Ordered) (blocks : List Nat) (v : Version) (p : Offset) :
    ((blocks.foldl (through g t l) found).ranges v).contains p = true ↔
      (found.ranges v).contains p = true ∨ ∃ b ∈ blocks, LiveIn g t l b v p := by
  induction blocks generalizing found with
  | nil => simp
  | cons b blocks ih =>
    rw [List.foldl_cons, ih (through_spec h).1, contains_through h, or_assoc]
    simp only [List.exists_mem_cons_iff]

theorem full_step {w : Walk} (h : w.found.Full) (x : Access) : (w.step x).found.Full := by
  have hread : (if x.reads then w.found.insertAll w.current w.since (x.offset + 1)
      else w.found).Full := by
    split
    · exact h.insertAll _ _ _
    · exact h
  unfold step
  cases x.write with
  | none => exact hread
  | some u => exact hread.insert _ _ u

theorem full_through (h : found.Full) (b : Nat) : (through g t l found b).Full := by
  have hwalk : ((t.accesses b).foldl step (opening g t l found b)).found.Full :=
    foldl_keeps (P := fun w : Walk => w.found.Full) (fun w x hw => full_step hw x) _ _ h
  unfold through
  simp only
  split
  · exact hwalk.insertAll _ _ _
  · exact hwalk

end Through

end Walk

namespace LiveInstance

variable {g : Graph} {order : List Nat} {scopes : Table (Option (Array Bool))} {t : Track}

/-- A version is live where some block makes it live, and nowhere else. -/
theorem contains_rangesOf_iff (v : Version) (p : Offset) :
    ((rangesOf g order scopes t).ranges v).contains p = true ↔
      ∃ b < g.size, Walk.LiveIn g t (liveness g order scopes t) b v p := by
  rw [rangesOf, Walk.contains_foldl_through VersionRanges.ordered_nil]
  simp [VersionRanges.ranges, Ranges.contains]

theorem ordered_rangesOf : (rangesOf g order scopes t).Ordered :=
  (foldl_through VersionRanges.ordered_nil _).1

theorem full_rangesOf : (rangesOf g order scopes t).Full :=
  foldl_keeps (P := VersionRanges.Full) (fun _ b h => Walk.full_through h b) _ _
    fun _ he => absurd he List.not_mem_nil

end LiveInstance

end RegisterWeb
