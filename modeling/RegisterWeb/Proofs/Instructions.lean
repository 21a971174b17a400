import Mathlib
import RegisterWeb.Proofs.Place

/-!
Lists in order of a key. A list that is sorted by a key is known by its groups, the elements of each
key in turn: the usages of an instruction are those at its offset, and sorting registers keeps apart
only those that the order tells apart.
-/

namespace RegisterWeb

section Sorted

variable {α κ : Type} [LinearOrder κ] {key : α → κ}

/-- Sorted lists with the same groups are the same. -/
theorem eq_of_filter_eq {l m : List α} (hl : l.Pairwise fun a b => key a ≤ key b)
    (hm : m.Pairwise fun a b => key a ≤ key b)
    (same : ∀ k, l.filter (fun a => key a = k) = m.filter fun a => key a = k) : l = m := by
  induction l generalizing m with
  | nil =>
    cases m with
    | nil => rfl
    | cons b m =>
      have hb := same (key b)
      rw [List.filter_cons_of_pos (by simp)] at hb
      cases hb
  | cons a l ih =>
    cases m with
    | nil =>
      have ha := same (key a)
      rw [List.filter_cons_of_pos (by simp)] at ha
      cases ha
    | cons b m =>
      obtain ⟨hal, hl'⟩ := List.pairwise_cons.mp hl
      obtain ⟨hbm, hm'⟩ := List.pairwise_cons.mp hm
      have hba : key b ≤ key a := by
        have ha : a ∈ (b :: m).filter fun c => key c = key a := by
          rw [← same]
          simp
        rcases List.mem_cons.mp (List.mem_filter.mp ha).1 with rfl | ha
        · exact le_refl _
        · exact hbm a ha
      have hab : key a ≤ key b := by
        have hb : b ∈ (a :: l).filter fun c => key c = key b := by
          rw [same]
          simp
        rcases List.mem_cons.mp (List.mem_filter.mp hb).1 with rfl | hb
        · exact le_refl _
        · exact hal b hb
      have heq : key a = key b := le_antisymm hab hba
      have hfirst := same (key a)
      rw [List.filter_cons_of_pos (by simp), List.filter_cons_of_pos (by simp [heq])] at hfirst
      obtain ⟨rfl, hrest⟩ := List.cons.inj hfirst
      congr 1
      refine ih hl' hm' fun k => ?_
      by_cases hk : key a = k
      · rw [← hk]
        exact hrest
      · have hk' := same k
        rwa [List.filter_cons_of_neg (by simpa using hk),
          List.filter_cons_of_neg (by simpa using hk)] at hk'

theorem flatMap_ite {β : Type} [DecidableEq α] {l : List α} (hl : l.Nodup) (a : α) (s : List β) :
    l.flatMap (fun b => if b = a then s else []) = if a ∈ l then s else [] := by
  induction l with
  | nil => simp
  | cons b l ih =>
    obtain ⟨hb, hl⟩ := List.nodup_cons.mp hl
    rw [List.flatMap_cons, ih hl]
    by_cases hba : b = a
    · subst hba
      simp [hb]
    · simp [hba, Ne.symm hba]

/-- A sorted list is made of its groups, in the order of their keys. -/
theorem flatMap_filter {l : List α} (hl : l.Pairwise fun a b => key a ≤ key b) {keys : List κ}
    (hkeys : keys.Pairwise (· < ·)) (hmem : ∀ a ∈ l, key a ∈ keys) :
    keys.flatMap (fun k => l.filter fun a => key a = k) = l := by
  have hsorted : (keys.flatMap fun k => l.filter fun a => key a = k).Pairwise
      fun a b => key a ≤ key b := by
    rw [List.pairwise_flatMap]
    refine ⟨fun k _ => hl.filter _, hkeys.imp fun {i j} hij x hx y hy => ?_⟩
    have hi : key x = i := by simpa using (List.mem_filter.mp hx).2
    have hj : key y = j := by simpa using (List.mem_filter.mp hy).2
    rw [hi, hj]
    exact le_of_lt hij
  refine eq_of_filter_eq hsorted hl fun k => ?_
  have hgroup : ∀ i, (l.filter fun a => key a = i).filter (fun a => key a = k)
      = if i = k then l.filter (fun a => key a = k) else [] := by
    intro i
    by_cases hik : i = k
    · subst hik
      simp
    · rw [if_neg hik, List.filter_filter, List.filter_eq_nil_iff]
      intro a _ ha
      rw [Bool.and_eq_true, decide_eq_true_eq, decide_eq_true_eq] at ha
      exact hik (ha.2.symm.trans ha.1)
  rw [List.filter_flatMap]
  simp only [hgroup]
  rw [flatMap_ite (hkeys.imp ne_of_lt)]
  split
  · rfl
  · rename_i hk
    refine (List.filter_eq_nil_iff.mpr fun a ha hak => hk ?_).symm
    rw [← of_decide_eq_true hak]
    exact hmem a ha

/-- Sorting keeps the order within each group. -/
theorem filter_mergeSort (l : List α) (k : κ) :
    (l.mergeSort fun a b => decide (key a ≤ key b)).filter (fun a => key a = k)
      = l.filter fun a => key a = k := by
  have htrans : ∀ a b c : α, decide (key a ≤ key b) = true → decide (key b ≤ key c) = true →
      decide (key a ≤ key c) = true := by
    intro a b c hab hbc
    exact decide_eq_true (le_trans (of_decide_eq_true hab) (of_decide_eq_true hbc))
  have htotal : ∀ a b : α, (decide (key a ≤ key b) || decide (key b ≤ key a)) = true := by
    intro a b
    simpa using le_total (key a) (key b)
  have hsorted : (l.filter fun a => key a = k).Pairwise
      fun a b => decide (key a ≤ key b) = true := by
    refine List.pairwise_of_forall_mem_list fun a ha b hb => ?_
    rw [of_decide_eq_true (List.mem_filter.mp ha).2, of_decide_eq_true (List.mem_filter.mp hb).2]
    exact decide_eq_true (le_refl k)
  have hsub := (List.sublist_mergeSort htrans htotal hsorted List.filter_sublist).filter
    fun a => decide (key a = k)
  rw [List.filter_filter, show (fun a => decide (key a = k) && decide (key a = k))
    = fun a => decide (key a = k) from funext fun a => Bool.and_self _] at hsub
  refine (hsub.eq_of_length ?_).symm
  exact ((List.mergeSort_perm l _).filter _).length_eq.symm

end Sorted

theorem nodup_eraseDups {α : Type} [BEq α] [LawfulBEq α] (l : List α) : l.eraseDups.Nodup := by
  cases l with
  | nil => simp
  | cons a l =>
    rw [List.eraseDups_cons, List.nodup_cons]
    refine ⟨?_, nodup_eraseDups _⟩
    rw [List.mem_eraseDups]
    simp
termination_by l.length
decreasing_by exact Nat.lt_succ_of_le (List.length_filter_le _ _)

/-! ### The order of registers -/

namespace Register

/-- What the order of registers looks at: the bank, the name of the variable if there is one, and the
index. -/
def rank (r : Register) : Nat ×ₗ WithBot String ×ₗ Int :=
  toLex (r.bank.toNat, toLex (r.owner.elim ⊥ fun v => (v.name : WithBot String), r.index.toInt))

theorem precedes_iff (a b : Register) : a.precedes b = true ↔ a.rank < b.rank := by
  obtain ⟨v, bank, i⟩ := a
  obtain ⟨w, bank', j⟩ := b
  rw [rank, rank, Prod.Lex.toLex_lt_toLex, Prod.Lex.toLex_lt_toLex]
  simp only [precedes]
  by_cases hbank : bank = bank'
  · subst hbank
    rw [if_neg (by simp)]
    cases v with
    | none =>
      cases w with
      | none => simp [Int64.lt_iff_toInt_lt]
      | some w => simp
    | some v =>
      cases w with
      | none => simp
      | some w =>
        by_cases hname : v.name = w.name
        · simp [hname, Int64.lt_iff_toInt_lt]
        · simp [hname]
  · rw [if_pos hbank]
    have hne : bank.toNat ≠ bank'.toNat := fun h => hbank (UInt8.toNat_inj.mp h)
    simp [UInt8.lt_iff_toNat_lt, hne]

theorem bank_eq_of_rank {r q : Register} (h : r.rank = q.rank) : r.bank = q.bank :=
  UInt8.toNat_inj.mp (congrArg (fun k => (ofLex k).1) h)

theorem index_eq_of_rank {r q : Register} (h : r.rank = q.rank) : r.index = q.index :=
  Int64.toInt_inj.mp (congrArg (fun k => (ofLex (ofLex k).2).2) h)

/-- Registers of one rank differ only if their variables share a name. -/
theorem eq_of_rank {r q : Register} (h : r.rank = q.rank)
    (howner : ∀ v ∈ r.owner, ∀ w ∈ q.owner, v.name = w.name → v = w) : r = q := by
  have hbank := bank_eq_of_rank h
  have hname := congrArg (fun k => (ofLex (ofLex k).2).1) h
  have hindex := index_eq_of_rank h
  obtain ⟨owner, bank, index⟩ := r
  obtain ⟨owner', bank', index'⟩ := q
  cases hbank
  cases hindex
  cases owner with
  | none =>
    cases owner' with
    | none => rfl
    | some w => exact absurd hname.symm (WithBot.coe_ne_bot (a := w.name))
  | some v =>
    cases owner' with
    | none => exact absurd hname (WithBot.coe_ne_bot (a := v.name))
    | some w => rw [howner v rfl w rfl (WithBot.coe_inj.mp hname)]

theorem sort_eq (rs : List Register) :
    sort rs = rs.mergeSort fun a b => decide (a.rank ≤ b.rank) := by
  rw [sort]
  congr 1
  funext a b
  rw [Bool.eq_iff_iff, Bool.not_eq_true', decide_eq_true_eq, ← not_lt, ← precedes_iff,
    Bool.not_eq_true]

theorem mem_sort {rs : List Register} {r : Register} : r ∈ sort rs ↔ r ∈ rs :=
  List.mem_mergeSort

theorem pairwise_sort (rs : List Register) : (sort rs).Pairwise fun a b => a.rank ≤ b.rank := by
  rw [sort_eq]
  exact pairwise_mergeSort_key rs

/-- Lists that agree on each group of registers that the order does not tell apart are sorted alike. -/
theorem sort_congr {rs qs : List Register}
    (same : ∀ k, rs.filter (fun r => r.rank = k) = qs.filter fun r => r.rank = k) :
    sort rs = sort qs := by
  refine eq_of_filter_eq (pairwise_sort rs) (pairwise_sort qs) fun k => ?_
  rw [sort_eq, sort_eq, filter_mergeSort, filter_mergeSort, same]

end Register

/-! ### Instructions -/

namespace Usage

theorem sort_eq (us : List Usage) :
    sort us = us.mergeSort fun a b => decide (a.offset.toInt ≤ b.offset.toInt) := by
  rw [sort]
  congr 1
  funext a b
  rw [Bool.eq_iff_iff, decide_eq_true_eq, decide_eq_true_eq, Int64.le_iff_toInt_le]

theorem pairwise_sort (us : List Usage) :
    (sort us).Pairwise fun a b => a.offset.toInt ≤ b.offset.toInt := by
  rw [sort_eq]
  exact pairwise_mergeSort_key us

theorem sort_perm (us : List Usage) : (sort us).Perm us :=
  List.mergeSort_perm us _

/-- The offsets of usages, each once. -/
def offsets (us : List Usage) : List Offset :=
  Ascending.ofList (us.map Usage.offset)

theorem ascending_offsets (us : List Usage) : Ascending (offsets us) :=
  Ascending.ascending_ofList _

theorem mem_offsets {us : List Usage} {p : Offset} : p ∈ offsets us ↔ ∃ u ∈ us, u.offset = p := by
  rw [offsets, Ascending.mem_ofList, List.mem_map]

end Usage

namespace Summary

variable {us : List Usage}

theorem filter_offset (us : List Usage) (p : Offset) :
    us.filter (fun u => u.offset == p) = us.filter fun u => u.offset.toInt = p.toInt := by
  refine List.filter_congr fun u _ => ?_
  rw [Bool.eq_iff_iff, beq_iff_eq, decide_eq_true_eq, Int64.toInt_inj]

/-- The instructions of sorted usages: at each offset all usages that stand there. -/
theorem instructions_eq (hus : us.Pairwise fun a b => a.offset.toInt ≤ b.offset.toInt) :
    instructions us
      = (Usage.offsets us).map fun p => us.filter fun u => u.offset == p := by
  have hasc := Usage.ascending_offsets us
  have hne : ∀ p ∈ Usage.offsets us, us.filter (fun u => u.offset == p) ≠ [] := by
    intro p hp hnil
    obtain ⟨u, hu, rfl⟩ := Usage.mem_offsets.mp hp
    exact List.filter_eq_nil_iff.mp hnil u hu (beq_self_eq_true _)
  rw [instructions, List.splitBy_eq_iff]
  refine ⟨?_, ?_, ?_, ?_⟩
  · have hkeys : ((Usage.offsets us).map Int64.toInt).Pairwise (· < ·) :=
      List.pairwise_map.mpr (hasc.imp fun h => Int64.lt_iff_toInt_lt.mp h)
    have hgroups := flatMap_filter hus hkeys fun u hu =>
      List.mem_map_of_mem (Usage.mem_offsets.mpr ⟨u, hu, rfl⟩)
    rw [List.flatMap_map] at hgroups
    rw [← List.flatMap_def]
    simp only [filter_offset]
    exact hgroups.symm
  · intro hnil
    obtain ⟨p, hp, hnil⟩ := List.mem_map.mp hnil
    exact hne p hp hnil
  · intro group hgroup
    obtain ⟨p, _, rfl⟩ := List.mem_map.mp hgroup
    refine List.Pairwise.isChain (List.pairwise_of_forall_mem_list fun u hu v hv => ?_)
    rw [beq_iff_eq.mp (List.mem_filter.mp hu).2, beq_iff_eq.mp (List.mem_filter.mp hv).2]
    exact beq_self_eq_true p
  · refine List.Pairwise.isChain (List.pairwise_map.mpr (hasc.imp_of_mem fun {p q} hp hq hpq => ?_))
    refine ⟨hne p hp, hne q hq, ?_⟩
    rw [beq_iff_eq.mp (List.mem_filter.mp (List.getLast_mem (hne p hp))).2,
      beq_iff_eq.mp (List.mem_filter.mp (List.head_mem (hne q hq))).2, beq_eq_false_iff_ne]
    exact Int64.ne_of_lt hpq

theorem mem_touched {instr : List Usage} {r : Register} :
    r ∈ touched instr ↔ (Touch.of? r instr).isSome = true := by
  rw [touched, List.mem_filter, List.mem_eraseDups, and_iff_right_iff_imp]
  intro h
  obtain ⟨t, ht⟩ := Option.isSome_iff_exists.mp h
  unfold Touch.of? at ht
  simp only at ht
  split at ht
  · cases ht
  · rename_i u rest hmine
    have hu := List.mem_filter.mp (hmine ▸ List.mem_cons_self : u ∈ _)
    exact List.mem_map.mpr ⟨u, hu.1, beq_iff_eq.mp hu.2⟩

/-- The registers of a summary are those that some instruction touches. -/
theorem mem_flatMap_touched {instrs : List (List Usage)} {r : Register} :
    r ∈ (instrs.flatMap touched).eraseDups ↔ instrs.filterMap (Touch.of? r) ≠ [] := by
  rw [List.mem_eraseDups, List.mem_flatMap, Ne, List.filterMap_eq_nil_iff]
  simp only [mem_touched, ← Option.not_isSome_iff_eq_none]
  push Not
  rfl

end Summary

/-- What an instruction at a known offset does to a register. -/
theorem Touch.of?_eq {r : Register} {instr : List Usage} {p : Offset}
    (h : ∀ u ∈ instr, u.offset = p) :
    of? r instr =
      if instr.any (fun u => u.register == r && u.reads) ||
          instr.any (fun u => u.register == r && u.isPureWrite) then
        some ⟨p, instr.any fun u => u.register == r && u.reads,
          instr.any fun u => u.register == r && u.isPureWrite⟩
      else none := by
  unfold of?
  simp only [List.any_filter]
  cases hmine : instr.filter fun u => u.register == r with
  | nil =>
    have hno : ∀ test : Usage → Bool,
        instr.any (fun u => u.register == r && test u) = false := by
      intro test
      rw [← List.any_filter, hmine]
      rfl
    simp only [hno, Bool.or_self, Bool.false_eq_true, if_false]
  | cons u rest =>
    have hu : u.offset = p := h u (List.mem_filter.mp (hmine ▸ List.mem_cons_self)).1
    simp only [hu]

namespace Analysis

variable {g : Graph} {us : List Usage}

theorem snd_of_place {u : Usage} {p : Nat × Usage} (h : place g u = .ok p) : p.2 = u := by
  unfold place at h
  split at h
  · cases h
    rfl
  · cases h
  · cases h

theorem map_snd_of_place {placed : List (Nat × Usage)} (h : us.mapM (place g) = .ok placed) :
    placed.map Prod.snd = us := by
  have hall := forall₂_of_mapM h
  induction hall with
  | nil => rfl
  | cons hp _ ih =>
    rw [List.mapM_cons] at h
    obtain ⟨_, _, h⟩ := bind_eq_ok.mp h
    obtain ⟨_, hrest, h⟩ := bind_eq_ok.mp h
    cases h
    rw [List.map_cons, ih hrest, snd_of_place hp]

theorem pairwise_placed {placed : List (Nat × Usage)}
    (h : (Usage.sort us).mapM (place g) = .ok placed) (test : Nat × Usage → Bool) :
    ((placed.filter test).map Prod.snd).Pairwise fun a b => a.offset.toInt ≤ b.offset.toInt := by
  refine List.Pairwise.sublist (List.filter_sublist.map Prod.snd) ?_
  rw [map_snd_of_place h]
  exact Usage.pairwise_sort us

end Analysis

end RegisterWeb
