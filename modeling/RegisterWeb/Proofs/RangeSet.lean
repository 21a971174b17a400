import Mathlib
import RegisterWeb.Proofs.Extent
import RegisterWeb.Proofs.Search

/-!
Lists of ranges that are made by adding ranges to the empty list, one after the other. Such a list
stands for the set of all offsets that were added: it is the only list in order with gaps for that
set, so neither the order in which ranges are added nor adding one again makes a difference. In such
a list the ranges that a new one meets may be searched by halving and replaced in place.
-/

namespace RegisterWeb

namespace Ranges

/-- The list after the given ranges have been added in turn, from a start up to a stop each; where the
start is not below the stop there is nothing to add. -/
def ofPairs (pairs : List (Offset × Offset)) : Ranges :=
  pairs.foldl (fun rs e => rs.insert e.1 e.2) []

/-- The offset lies in one of the given ranges. -/
def Covered (pairs : List (Offset × Offset)) (p : Offset) : Prop :=
  ∃ e ∈ pairs, e.1 ≤ p ∧ p < e.2

theorem covered_cons {e : Offset × Offset} {pairs : List (Offset × Offset)} {p : Offset} :
    Covered (e :: pairs) p ↔ (e.1 ≤ p ∧ p < e.2) ∨ Covered pairs p :=
  List.exists_mem_cons_iff ..

/-- Adding ranges keeps a list in order and adds exactly their offsets. -/
theorem Apart.insertAll {rs : Ranges} (h : Apart rs) (pairs : List (Offset × Offset)) :
    Apart (pairs.foldl (fun rs e => rs.insert e.1 e.2) rs) ∧
      ∀ p, (pairs.foldl (fun rs e => rs.insert e.1 e.2) rs).contains p = true ↔
        rs.contains p = true ∨ Covered pairs p := by
  induction pairs generalizing rs with
  | nil => exact ⟨h, fun p => by simp [Covered]⟩
  | cons e pairs ih =>
    obtain ⟨happart, hholds⟩ := h.insert e.1 e.2
    obtain ⟨happart', hholds'⟩ := ih happart
    refine ⟨happart', fun p => ?_⟩
    rw [List.foldl_cons, hholds', hholds, covered_cons, or_assoc]

theorem apart_ofPairs (pairs : List (Offset × Offset)) : Apart (ofPairs pairs) :=
  (apart_nil.insertAll pairs).1

theorem contains_ofPairs (pairs : List (Offset × Offset)) (p : Offset) :
    (ofPairs pairs).contains p = true ↔ Covered pairs p := by
  have hempty : ¬ Ranges.contains [] p = true := by simp [contains]
  rw [ofPairs, (apart_nil.insertAll pairs).2 p, or_iff_right hempty]

/-- The first range that reaches beyond `a` begins before `b` only if some range does both. -/
theorem Apart.overlaps_iff_exists {rs : Ranges} (h : Apart rs) (a b : Offset) :
    rs.overlaps a b = true ↔ ∃ r ∈ rs, a < r.stop ∧ r.start < b := by
  induction rs with
  | nil => simp [overlaps]
  | cons r rs ih =>
    have hgap := (List.pairwise_cons.mp h.gaps).1
    have hfull := h.full r List.mem_cons_self
    unfold overlaps at ih ⊢
    rw [List.exists_mem_cons_iff]
    by_cases ha : a < r.stop
    · rw [List.find?_cons_of_pos (by simpa using ha)]
      simp only [decide_eq_true_eq, ha, true_and]
      constructor
      · exact Or.inl
      · intro hstart
        rcases hstart with hstart | ⟨s, hs, _, hstart⟩
        · exact hstart
        · -- a later range begins behind this one
          exact Int64.lt_trans hfull (Int64.lt_trans (hgap s hs) hstart)
    · rw [List.find?_cons_of_neg (by simpa using ha), ih h.tail]
      exact (or_iff_right fun hr => ha hr.1).symm

theorem Apart.overlaps_iff {rs : Ranges} (h : Apart rs) {a b : Offset} (hab : a < b) :
    rs.overlaps a b = true ↔ ∃ p, a ≤ p ∧ p < b ∧ rs.contains p = true := by
  rw [h.overlaps_iff_exists]
  constructor
  · intro hr
    obtain ⟨r, hr, hstop, hstart⟩ := hr
    -- the later of the two starts lies in both
    rcases Int64.le_total r.start a with hle | hle
    · exact ⟨a, Int64.le_refl a, hab, (h.contains_iff a).mpr ⟨r, hr, hle, hstop⟩⟩
    · exact ⟨r.start, hle, hstart,
        (h.contains_iff _).mpr ⟨r, hr, Int64.le_refl _, h.full r hr⟩⟩
  · intro hp
    obtain ⟨p, hlow, hhigh, hp⟩ := hp
    obtain ⟨r, hr, hstart, hstop⟩ := (h.contains_iff p).mp hp
    exact ⟨r, hr, Int64.lt_of_le_of_lt hlow hstop, Int64.lt_of_le_of_lt hstart hhigh⟩

theorem Apart.insert_comm {rs : Ranges} (h : Apart rs) (a b c d : Offset) :
    (rs.insert a b).insert c d = (rs.insert c d).insert a b := by
  obtain ⟨hfirst, hfirst'⟩ := h.insert a b
  obtain ⟨hsecond, hsecond'⟩ := h.insert c d
  refine (hfirst.insert c d).1.eq_of_contains (hsecond.insert a b).1 fun p => ?_
  rw [(hfirst.insert c d).2, (hsecond.insert a b).2, hfirst', hsecond', or_right_comm]

theorem Apart.insert_insert {rs : Ranges} (h : Apart rs) (a b : Offset) :
    (rs.insert a b).insert a b = rs.insert a b := by
  obtain ⟨hfirst, hfirst'⟩ := h.insert a b
  refine (hfirst.insert a b).1.eq_of_contains hfirst fun p => ?_
  rw [(hfirst.insert a b).2, hfirst', or_assoc, or_self]

/-! ### The same by halving -/

/-- Joins a range with the ranges at the front that it meets or touches, and counts them. -/
def absorb (start stop : Offset) : Ranges → Range × Nat
  | [] => (⟨start, stop⟩, 0)
  | r :: rs =>
    if r.start ≤ stop then
      let joined := absorb (min start r.start) (max stop r.stop) rs
      (joined.1, joined.2 + 1)
    else (⟨start, stop⟩, 0)

/-- Puts a range in the place of `n` ranges from index `i` on: it moves the rest back if there are
none to replace, and closes the gap behind the first of them if there are more. -/
def replace (rs : Ranges) (i n : Nat) (r : Range) : Ranges :=
  (if n = 0 then rs.insertIdx i default else rs.take (i + 1) ++ rs.drop (i + n)).set i r

/-- Adds the offsets from `start` up to `stop` in place: searches for the first range that reaches
`start`, joins it and those after it, and replaces them. -/
def splice (rs : Ranges) (start stop : Offset) : Ranges :=
  if start < stop then
    let i := seek rs fun r => decide (start ≤ r.stop)
    let joined := absorb start stop (rs.drop i)
    rs.replace i joined.2 joined.1
  else rs

/-- Searches for the first range that reaches beyond `p`. -/
def holds (rs : Ranges) (p : Offset) : Bool :=
  (rs[seek rs fun r => decide (p < r.stop)]?).any fun r => decide (r.start ≤ p)

/-- Searches for the first range that reaches beyond `start`. -/
def meets (rs : Ranges) (start stop : Offset) : Bool :=
  (rs[seek rs fun r => decide (start < r.stop)]?).any fun r => decide (r.start < stop)

section Halving

variable {rs : Ranges}

theorem Apart.stops (h : Apart rs) : rs.Pairwise fun r r' => r.stop < r'.stop :=
  List.Pairwise.imp_of_mem (fun _ hr' hgap => Int64.lt_trans hgap (h.full _ hr')) h.gaps

theorem Apart.seek_le (h : Apart rs) (p : Offset) :
    (seek rs fun r => decide (p ≤ r.stop)) = rs.findIdx fun r => decide (p ≤ r.stop) :=
  seek_eq_findIdx (h.stops.imp fun hlt hp =>
    decide_eq_true (Int64.le_trans (of_decide_eq_true hp) (Int64.le_of_lt hlt)))

theorem Apart.getElem?_seek_lt (h : Apart rs) (p : Offset) :
    rs[seek rs fun r => decide (p < r.stop)]? = rs.find? fun r => decide (p < r.stop) :=
  getElem?_seek (h.stops.imp fun hlt hp =>
    decide_eq_true (Int64.lt_trans (of_decide_eq_true hp) hlt))

theorem absorb_le (start stop : Offset) (rs : Ranges) : (absorb start stop rs).2 ≤ rs.length := by
  induction rs generalizing start stop with
  | nil => exact Nat.le_refl 0
  | cons r rs ih =>
    rw [absorb]
    split
    · exact Nat.succ_le_succ (ih _ _)
    · exact Nat.zero_le _

theorem replace_eq {i n : Nat} (h : i + n ≤ rs.length) (r : Range) :
    rs.replace i n r = rs.take i ++ r :: rs.drop (i + n) := by
  have hi : i ≤ rs.length := Nat.le_trans (Nat.le_add_right i n) h
  induction rs generalizing i with
  | nil =>
    obtain ⟨rfl, rfl⟩ : i = 0 ∧ n = 0 := by simpa using h
    rfl
  | cons s rs ih =>
    cases i with
    | zero =>
      cases n with
      | zero => rfl
      | succ n => simp [replace]
    | succ i =>
      have hsucc : i + 1 + n = i + n + 1 := Nat.add_right_comm i 1 n
      rw [hsucc, List.length_cons] at h
      have hrest := ih (Nat.le_of_succ_le_succ h) (Nat.le_of_succ_le_succ hi)
      unfold replace at hrest ⊢
      rw [hsucc]
      split at hrest
      · rename_i hn
        simpa [hn] using hrest
      · rename_i hn
        simpa [hn] using hrest

/-- Ranges that end before a new one are passed over. -/
theorem place_eq_append (start stop : Offset) (rs : Ranges) :
    place start stop rs = rs.take (rs.findIdx fun r => decide (start ≤ r.stop)) ++
      place start stop (rs.drop (rs.findIdx fun r => decide (start ≤ r.stop))) := by
  induction rs with
  | nil => rfl
  | cons r rs ih =>
    rw [List.findIdx_cons]
    by_cases hr : start ≤ r.stop
    · simp [hr]
    · rw [place, if_pos (Int64.not_le.mp hr), ih]
      simp [hr]

/-- Where no range ends before a new one, the first ranges are joined with it. -/
theorem place_eq_absorb {start stop : Offset} (h : ∀ r ∈ rs, start ≤ r.stop) :
    place start stop rs = (absorb start stop rs).1 :: rs.drop (absorb start stop rs).2 := by
  induction rs generalizing start stop with
  | nil => rfl
  | cons r rs ih =>
    obtain ⟨hr, hrs⟩ := List.forall_mem_cons.mp h
    rw [place, if_neg (Int64.not_lt.mpr hr), absorb]
    by_cases hstart : r.start ≤ stop
    · rw [if_neg (Int64.not_lt.mpr hstart), if_pos hstart, ih fun s hs => ?_]
      · rfl
      · have hle := hrs s hs
        rw [Int64.le_iff_toInt_le] at hle ⊢
        rw [Offset.toInt_min]
        omega
    · rw [if_pos (Int64.not_le.mp hstart), if_neg hstart]
      rfl

theorem Apart.le_of_mem_drop (h : Apart rs) {start : Offset} :
    ∀ r ∈ rs.drop (rs.findIdx fun r => decide (start ≤ r.stop)), start ≤ r.stop := by
  induction rs with
  | nil => exact fun r hr => absurd hr List.not_mem_nil
  | cons s rs ih =>
    rw [List.findIdx_cons]
    by_cases hs : start ≤ s.stop
    · simp only [hs, decide_true, cond_true, List.drop_zero]
      refine List.forall_mem_cons.mpr ⟨hs, fun r hr => ?_⟩
      exact Int64.le_trans hs (Int64.le_of_lt ((List.pairwise_cons.mp h.stops).1 r hr))
    · simpa [hs] using ih h.tail

theorem Apart.splice_eq (h : Apart rs) (start stop : Offset) :
    rs.splice start stop = rs.insert start stop := by
  unfold splice Ranges.insert
  split
  · rw [h.seek_le, replace_eq, place_eq_append, place_eq_absorb h.le_of_mem_drop, List.drop_drop]
    have hle := absorb_le start stop
      (rs.drop (rs.findIdx fun r => decide (start ≤ r.stop)))
    rw [List.length_drop] at hle
    have hfound : rs.findIdx (fun r => decide (start ≤ r.stop)) ≤ rs.length :=
      List.findIdx_le_length
    omega
  · rfl

theorem Apart.holds_eq (h : Apart rs) (p : Offset) : rs.holds p = rs.contains p := by
  rw [holds, h.getElem?_seek_lt, contains]
  cases rs.find? fun r => decide (p < r.stop) <;> rfl

theorem Apart.meets_eq (h : Apart rs) (start stop : Offset) :
    rs.meets start stop = rs.overlaps start stop := by
  rw [meets, h.getElem?_seek_lt, overlaps]
  cases rs.find? fun r => decide (start < r.stop) <;> rfl

/-- Adding ranges in place, one after the other, gives the same list. -/
theorem Apart.spliceAll (h : Apart rs) (pairs : List (Offset × Offset)) :
    pairs.foldl (fun rs e => rs.splice e.1 e.2) rs =
      pairs.foldl (fun rs e => rs.insert e.1 e.2) rs := by
  induction pairs generalizing rs with
  | nil => rfl
  | cons e pairs ih =>
    rw [List.foldl_cons, List.foldl_cons, h.splice_eq]
    exact ih (h.insert e.1 e.2).1

end Halving

/-- Ranges that have been added in turn make a list in order with gaps, and it holds exactly the
offsets that were added. A range overlaps the list if they share an offset. The list depends on
nothing but the set of offsets, so adding ranges commutes, and adding one again changes nothing.
Searching by halving and replacing in place leads to the same list and the same answers. -/
theorem canonical_ofPairs (pairs : List (Offset × Offset)) :
    ((∀ r ∈ ofPairs pairs, r.start < r.stop) ∧
      (ofPairs pairs).Pairwise fun r r' => r.stop < r'.start) ∧
    (∀ p, (ofPairs pairs).contains p = true ↔ ∃ e ∈ pairs, e.1 ≤ p ∧ p < e.2) ∧
    (∀ a b, a < b → ((ofPairs pairs).overlaps a b = true ↔
      ∃ p, a ≤ p ∧ p < b ∧ (ofPairs pairs).contains p = true)) ∧
    (∀ pairs', (∀ p, Covered pairs p ↔ Covered pairs' p) → ofPairs pairs = ofPairs pairs') ∧
    (∀ a b c d, ((ofPairs pairs).insert a b).insert c d
      = ((ofPairs pairs).insert c d).insert a b) ∧
    (∀ a b, ((ofPairs pairs).insert a b).insert a b = (ofPairs pairs).insert a b) ∧
    pairs.foldl (fun rs e => splice rs e.1 e.2) [] = ofPairs pairs ∧
    (∀ p, (ofPairs pairs).holds p = (ofPairs pairs).contains p) ∧
    ∀ a b, (ofPairs pairs).meets a b = (ofPairs pairs).overlaps a b := by
  have happart := apart_ofPairs pairs
  refine ⟨⟨happart.full, happart.gaps⟩, contains_ofPairs pairs,
    fun a b hab => happart.overlaps_iff hab, ?_, happart.insert_comm, happart.insert_insert,
    apart_nil.spliceAll pairs, happart.holds_eq, happart.meets_eq⟩
  intro pairs' hsame
  refine happart.eq_of_contains (apart_ofPairs pairs') fun p => ?_
  rw [contains_ofPairs, contains_ofPairs, hsame]

/-- Two ranges that touch are one, in whichever order they come and whatever empty ranges stand
between them; offsets from 2 to 9 meet it. -/
theorem touching_joined :
    ofPairs [(4, 8), (9, 3), (0, 4)] = ofPairs [(0, 8)] ∧
      ∃ p, 2 ≤ p ∧ p < 9 ∧ (ofPairs [(0, 8)]).contains p = true := by
  obtain ⟨_, _, _, hunique, _⟩ := canonical_ofPairs [(4, 8), (9, 3), (0, 4)]
  obtain ⟨_, _, hoverlaps, _⟩ := canonical_ofPairs [(0, 8)]
  refine ⟨hunique [(0, 8)] fun p => ?_, (hoverlaps 2 9 (by decide)).mp (by decide)⟩
  simp only [Covered, List.mem_cons, List.not_mem_nil, or_false, exists_eq_or_imp,
    exists_eq_left, Int64.le_iff_toInt_le, Int64.lt_iff_toInt_lt]
  have hzero : (0 : Offset).toInt = 0 := rfl
  have hthree : (3 : Offset).toInt = 3 := rfl
  have hfour : (4 : Offset).toInt = 4 := rfl
  have height : (8 : Offset).toInt = 8 := rfl
  have hnine : (9 : Offset).toInt = 9 := rfl
  omega

end Ranges

end RegisterWeb
