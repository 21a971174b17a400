import Mathlib
import RegisterWeb.Proofs.Offsets
import RegisterWeb.Proofs.Scan
import RegisterWeb.Proofs.Shuffle

/-!
Summaries as replays. A list of usages falls into instructions, the longest runs of usages with one
offset, and the summary of a block says of each register what a replay of the instructions shows:
one access for each instruction that acts on the register, versions counted from 1, and whether the
first access reads. The registers stand in their order, and those that the order does not tell apart
in the order in which they are first accessed; beyond that the order of the usages of an instruction
does not matter. One pass over the instructions, for all registers together, makes the summary.
-/

namespace RegisterWeb

/-! ### Instructions -/

namespace Summary

/-- The usages fall into the given instructions: runs of usages with one offset, as long as
possible. -/
structure Runs (us : List Usage) (instrs : List (List Usage)) : Prop where
  whole : instrs.flatten = us
  full : [] ∉ instrs
  together : ∀ instr ∈ instrs, ∀ u ∈ instr, ∀ v ∈ instr, u.offset = v.offset
  apart : instrs.IsChain fun instr next => ∀ u ∈ instr, ∀ v ∈ next, u.offset ≠ v.offset

variable {us : List Usage} {instrs instrs' : List (List Usage)}

theorem Runs.ne_nil (h : Runs us instrs) {instr : List Usage} (hinstr : instr ∈ instrs) :
    instr ≠ [] := by
  rintro rfl
  exact h.full hinstr

theorem Runs.uniform (h : Runs us instrs) : Uniform instrs := by
  intro instr hinstr
  obtain ⟨v, hv⟩ := List.exists_mem_of_ne_nil instr (h.ne_nil hinstr)
  exact ⟨v.offset, fun u hu => h.together instr hinstr u hu v hv⟩

theorem runs_instructions (us : List Usage) : Runs us (instructions us) := by
  obtain ⟨hwhole, hfull, hchain, hapart⟩ := List.splitBy_eq_iff.mp (Eq.refl (instructions us))
  have htogether : ∀ instr ∈ instructions us, ∀ u ∈ instr, ∀ v ∈ instr, u.offset = v.offset := by
    intro instr hinstr
    have hoffsets : (instr.map Usage.offset).IsChain Eq :=
      (List.isChain_map _).mpr ((hchain instr hinstr).imp fun {u v} huv => beq_iff_eq.mp huv)
    intro u hu v hv
    exact hoffsets.pairwise.forall_of_forall (fun _ _ => rfl) (List.mem_map_of_mem hu)
      (List.mem_map_of_mem hv)
  refine ⟨hwhole.symm, hfull, htogether, ?_⟩
  refine hapart.imp_of_mem_imp fun {instr next} hinstr hnext hends u hu v hv => ?_
  obtain ⟨hne, hne', hends⟩ := hends
  rw [htogether instr hinstr u hu _ (List.getLast_mem hne),
    htogether next hnext v hv _ (List.head_mem hne')]
  exact beq_eq_false_iff_ne.mp hends

/-- There is one way to cut usages into instructions. -/
theorem runs_iff : Runs us instrs ↔ instrs = instructions us := by
  constructor
  · intro h
    refine (List.splitBy_eq_iff.mpr ⟨h.whole.symm, h.full, ?_, ?_⟩).symm
    · intro instr hinstr
      refine List.Pairwise.isChain (List.pairwise_of_forall_mem_list fun u hu v hv => ?_)
      exact beq_iff_eq.mpr (h.together instr hinstr u hu v hv)
    · refine h.apart.imp_of_mem_imp fun {instr next} hinstr hnext hends => ?_
      refine ⟨h.ne_nil hinstr, h.ne_nil hnext, beq_eq_false_iff_ne.mpr ?_⟩
      exact hends _ (List.getLast_mem _) _ (List.head_mem _)
  · rintro rfl
    exact runs_instructions us

/-- Another order of the usages inside of the instructions leaves the instructions what they are. -/
theorem Runs.reordered (h : Runs us instrs) (hperm : List.Forall₂ List.Perm instrs instrs') :
    Runs instrs'.flatten instrs' := by
  have hmem : ∀ instr' ∈ instrs', ∃ instr ∈ instrs, instr.Perm instr' := by
    intro instr' hinstr'
    obtain ⟨i, hi, rfl⟩ := List.getElem_of_mem hinstr'
    have hi' : i < instrs.length := hperm.length_eq ▸ hi
    exact ⟨_, List.getElem_mem hi', hperm.get hi' hi⟩
  refine ⟨rfl, ?_, ?_, ?_⟩
  · intro hnil
    obtain ⟨instr, hinstr, hsame⟩ := hmem [] hnil
    exact h.ne_nil hinstr hsame.eq_nil
  · intro instr' hinstr' u hu v hv
    obtain ⟨instr, hinstr, hsame⟩ := hmem instr' hinstr'
    exact h.together instr hinstr u (hsame.mem_iff.mpr hu) v (hsame.mem_iff.mpr hv)
  · rw [List.isChain_iff_getElem]
    intro i hi u hu v hv
    have hlength := hperm.length_eq
    have hi' : i + 1 < instrs.length := hlength ▸ hi
    have hfirst := hperm.get (Nat.lt_of_succ_lt hi') (Nat.lt_of_succ_lt hi)
    have hsecond := hperm.get hi' hi
    exact List.isChain_iff_getElem.mp h.apart i hi' u (hfirst.mem_iff.mpr hu) v
      (hsecond.mem_iff.mpr hv)

end Summary

/-! ### Accesses -/

/-- An access says what the usages of an instruction say together about a register. -/
structure Access.Sums (r : Register) (instr : List Usage) (x : Access) : Prop where
  offset : ∀ u ∈ instr, u.offset = x.offset
  reads : x.reads = true ↔ ∃ u ∈ instr, u.register = r ∧ u.reads = true
  writes : x.write.isSome = true ↔ ∃ u ∈ instr, u.register = r ∧ u.isPureWrite = true

namespace Touch

variable {r : Register} {instr : List Usage}

theorem of?_of_acts {p : Offset} (h : ∀ u ∈ instr, u.offset = p)
    (hacts : (instr.any fun u => u.acts r) = true) :
    ∃ t, of? r instr = some t ∧ t.offset = p ∧
      (t.reads = true ↔ ∃ u ∈ instr, u.register = r ∧ u.reads = true) ∧
      (t.writes = true ↔ ∃ u ∈ instr, u.register = r ∧ u.isPureWrite = true) := by
  have hoffset := offset_of? (r := r) h
  rw [if_pos hacts] at hoffset
  obtain ⟨t, ht, htp⟩ := Option.map_eq_some_iff.mp hoffset
  refine ⟨t, ht, htp, ?_⟩
  rw [of?_eq h] at ht
  split at ht
  · cases ht
    simp only [List.any_eq_true, Bool.and_eq_true, beq_iff_eq, and_self]
  · cases ht

theorem of?_of_not_acts {p : Offset} (h : ∀ u ∈ instr, u.offset = p)
    (hacts : (instr.any fun u => u.acts r) = false) : of? r instr = none := by
  have hoffset := offset_of? (r := r) h
  rw [hacts] at hoffset
  exact Option.map_eq_none_iff.mp hoffset

/-- The versions that numbered touches make follow those that were made before. -/
theorem made_number (k : Nat) (ts : List Touch) :
    (number k ts).filterMap Access.write
      = (List.range' (k + 1) (writeCount ts)).map UInt32.ofNat := by
  induction ts generalizing k with
  | nil => rfl
  | cons t ts ih =>
    cases hw : t.writes with
    | true =>
      have hcount : writeCount (t :: ts) = writeCount ts + 1 := List.countP_cons_of_pos hw
      simp only [number, hw, if_true, List.filterMap_cons, ih, hcount, List.range'_succ,
        List.map_cons]
    | false =>
      have hcount : writeCount (t :: ts) = writeCount ts :=
        List.countP_cons_of_neg (Bool.not_eq_true _ ▸ hw)
      simp only [number, hw, Bool.false_eq_true, if_false, List.filterMap_cons, ih, hcount]

/-- Each instruction that acts on a register is one of the numbered accesses, in order. -/
theorem sums_number {instrs : List (List Usage)} (h : Summary.Uniform instrs) (k : Nat) :
    List.Forall₂ (Access.Sums r) (instrs.filter fun instr => instr.any fun u => u.acts r)
      (number k (instrs.filterMap (of? r))) := by
  induction instrs generalizing k with
  | nil => exact List.Forall₂.nil
  | cons instr instrs ih =>
    obtain ⟨⟨p, hp⟩, hrest⟩ := List.forall_mem_cons.mp h
    rw [List.filter_cons]
    cases hacts : instr.any fun u => u.acts r with
    | false =>
      rw [List.filterMap_cons_none (of?_of_not_acts hp hacts)]
      exact ih hrest k
    | true =>
      obtain ⟨t, ht, rfl, hreads, hwrites⟩ := of?_of_acts hp hacts
      rw [List.filterMap_cons_some ht]
      cases hw : t.writes with
      | true =>
        simp only [number, hw, if_true]
        exact List.Forall₂.cons ⟨hp, hreads, by simpa [hw] using hwrites⟩ (ih hrest _)
      | false =>
        simp only [number, hw, Bool.false_eq_true, if_false]
        exact List.Forall₂.cons ⟨hp, hreads, by simpa [hw] using hwrites⟩ (ih hrest _)

theorem filterMap_of?_reordered {instrs instrs' : List (List Usage)}
    (hperm : List.Forall₂ List.Perm instrs instrs') (h : Summary.Uniform instrs) :
    instrs.filterMap (of? r) = instrs'.filterMap (of? r) := by
  induction hperm with
  | nil => rfl
  | cons hinstr _ ih =>
    obtain ⟨⟨p, hp⟩, hrest⟩ := List.forall_mem_cons.mp h
    rw [List.filterMap_cons, List.filterMap_cons, of?_perm hinstr hp, ih hrest]

end Touch

/-- A use of a register says what a replay of the instructions of a block shows. -/
structure Use.Replays (r : Register) (instrs : List (List Usage)) (use : Use) : Prop where
  accesses : List.Forall₂ (Access.Sums r)
    (instrs.filter fun instr => instr.any fun u => u.acts r) use.accesses
  made : use.made = (List.range' 1 use.info.changes).map UInt32.ofNat
  first : use.info.first = if use.info.changes = 0 then none else some 1
  last : use.info.last
    = if use.info.changes = 0 then none else some (UInt32.ofNat use.info.changes)
  readsFirst : use.info.readsFirst = true ↔ ∃ x, use.accesses.head? = some x ∧ x.reads = true
  before : use.info.before = none

theorem Use.replays_ofAccesses {r : Register} {instrs : List (List Usage)}
    (h : Summary.Uniform instrs) :
    (ofAccesses (Touch.number 0 (instrs.filterMap (Touch.of? r)))).Replays r instrs := by
  have hmade := Touch.made_number 0 (instrs.filterMap (Touch.of? r))
  have hchanges := Touch.length_write_number 0 (instrs.filterMap (Touch.of? r))
  have hsums := Touch.sums_number (r := r) h 0
  generalize Touch.number 0 (instrs.filterMap (Touch.of? r)) = xs at hmade hchanges hsums
  rw [← hchanges, Nat.zero_add] at hmade
  refine ⟨hsums, hmade, ?_, ?_, ?_, rfl⟩
  · show (xs.filterMap Access.write).head? = _
    rw [hmade, List.head?_map, List.head?_range']
    split
    · rename_i hzero
      exact (if_pos hzero).symm
    · rename_i hzero
      exact (if_neg hzero).symm
  · show (xs.filterMap Access.write).getLast? = _
    rw [hmade, List.getLast?_map, List.getLast?_range']
    split
    · rename_i hzero
      exact (if_pos hzero).symm
    · rename_i hzero
      rw [Nat.add_sub_cancel_left]
      exact (if_neg hzero).symm
  · show (xs.head?.map Access.reads).getD false = true
      ↔ ∃ x, xs.head? = some x ∧ x.reads = true
    cases xs.head? with
    | none => simp
    | some x => simp

/-! ### The order of registers -/

section Order

variable {α : Type}

/-- A stable sort keeps what holds between elements that come one after the other and have the same
key. -/
theorem pairwise_mergeSort_ties {κ : Type} [LinearOrder κ] {key : α → κ} {R : α → α → Prop}
    {l : List α} (h : l.Pairwise R) :
    (l.mergeSort fun a b => decide (key a ≤ key b)).Pairwise
      fun a b => key a < key b ∨ key a = key b ∧ R a b := by
  have hsorted : (l.mergeSort fun a b => decide (key a ≤ key b)).Pairwise
      fun a b => key a ≤ key b := pairwise_mergeSort_key l
  rw [List.pairwise_iff_forall_sublist] at hsorted ⊢
  intro a b hab
  rcases lt_or_eq_of_le (hsorted hab) with hlt | heq
  · exact Or.inl hlt
  · -- two elements with one key come from the group of that key, which sorting leaves alone
    have hgroup := hab.filter fun c => decide (key c = key a)
    rw [filter_mergeSort, List.filter_cons_of_pos (by simp),
      List.filter_cons_of_pos (by simp [heq]), List.filter_nil] at hgroup
    refine Or.inr ⟨heq, ?_⟩
    exact List.pairwise_iff_forall_sublist.mp h (hgroup.trans List.filter_sublist)

theorem pairwise_eraseDups [BEq α] [LawfulBEq α] (l : List α) :
    l.eraseDups.Pairwise fun a b => l.idxOf a < l.idxOf b := by
  induction l with
  | nil => exact List.Pairwise.nil
  | cons a l ih =>
    have hne : ∀ b ∈ l.eraseDups.filter (fun b => !b == a), (a :: l).idxOf b = l.idxOf b + 1 := by
      intro b hb
      have hba : (b == a) = false := by simpa using (List.mem_filter.mp hb).2
      exact List.idxOf_cons_ne l fun h => (beq_eq_false_iff_ne.mp hba) h.symm
    rw [List.eraseDups_cons, ← filter_eraseDups, List.pairwise_cons]
    refine ⟨fun b hb => ?_, (ih.sublist List.filter_sublist).imp_of_mem fun hb hc hlt => ?_⟩
    · rw [List.idxOf_cons_self, hne b hb]
      exact Nat.succ_pos _
    · rw [hne _ hb, hne _ hc]
      exact Nat.succ_lt_succ hlt

end Order

namespace Summary

/-- Where a register is first accessed: the first instruction that acts on it, and the first usage of
it there. -/
def firstAccess (instrs : List (List Usage)) (r : Register) : Nat ×ₗ Nat :=
  toLex (instrs.findIdx fun instr => instr.any fun u => u.acts r,
    (((instrs.find? fun instr => instr.any fun u => u.acts r).getD []).map
      Usage.register).idxOf r)

section FirstAccess

variable {r : Register} {instr : List Usage} {instrs : List (List Usage)}

theorem firstAccess_cons_of_acts (h : (instr.any fun u => u.acts r) = true) :
    firstAccess (instr :: instrs) r = toLex (0, (instr.map Usage.register).idxOf r) := by
  simp only [firstAccess, List.findIdx_cons, List.find?_cons, h, cond_true, Option.getD_some]

theorem firstAccess_cons_of_not_acts (h : (instr.any fun u => u.acts r) = false) :
    firstAccess (instr :: instrs) r
      = toLex ((ofLex (firstAccess instrs r)).1 + 1, (ofLex (firstAccess instrs r)).2) := by
  simp only [firstAccess, List.findIdx_cons, List.find?_cons, h, cond_false, ofLex_toLex]

theorem mem_touched_iff_acts {p : Offset} (h : ∀ u ∈ instr, u.offset = p) :
    r ∈ touched instr ↔ (instr.any fun u => u.acts r) = true := by
  rw [mem_touched]
  cases hacts : instr.any fun u => u.acts r with
  | false => simp only [Touch.of?_of_not_acts h hacts, Option.isSome_none]
  | true =>
    obtain ⟨t, ht, _⟩ := Touch.of?_of_acts h hacts
    simp only [ht, Option.isSome_some]

/-- Registers are met in the order of their first accesses. -/
theorem pairwise_touched (h : Uniform instrs) :
    (instrs.flatMap touched).eraseDups.Pairwise
      fun q r => firstAccess instrs q < firstAccess instrs r := by
  induction instrs with
  | nil => exact List.Pairwise.nil
  | cons instr instrs ih =>
    obtain ⟨⟨p, hinstr⟩, hrest⟩ := List.forall_mem_cons.mp h
    have hnodup : (touched instr).Nodup := (nodup_eraseDups _).sublist List.filter_sublist
    have hhere : ∀ q ∈ touched instr, firstAccess (instr :: instrs) q
        = toLex (0, (instr.map Usage.register).idxOf q) :=
      fun q hq => firstAccess_cons_of_acts ((mem_touched_iff_acts hinstr).mp hq)
    have hlater : ∀ q ∈ (instrs.flatMap touched).eraseDups.filter
        (fun q => !(touched instr).elem q), firstAccess (instr :: instrs) q
          = toLex ((ofLex (firstAccess instrs q)).1 + 1, (ofLex (firstAccess instrs q)).2) := by
      intro q hq
      have hnot : q ∉ touched instr := by simpa using (List.mem_filter.mp hq).2
      refine firstAccess_cons_of_not_acts (Bool.eq_false_of_not_eq_true ?_)
      exact fun hacts => hnot ((mem_touched_iff_acts hinstr).mpr hacts)
    rw [List.flatMap_cons, List.eraseDups_append, eraseDups_of_nodup hnodup, List.removeAll,
      ← filter_eraseDups, List.pairwise_append]
    refine ⟨?_, ?_, ?_⟩
    · -- in the first instruction the first usages decide
      have horder := (pairwise_eraseDups (instr.map Usage.register)).sublist
        (List.filter_sublist (p := fun q => (Touch.of? q instr).isSome))
      refine List.Pairwise.imp_of_mem (fun {q r} hq hr hlt => ?_) horder
      rw [hhere q hq, hhere r hr, Prod.Lex.toLex_lt_toLex]
      exact Or.inr ⟨rfl, hlt⟩
    · -- what it does not act on keeps its order, one instruction later
      refine ((ih hrest).sublist List.filter_sublist).imp_of_mem fun {q r} hq hr hlt => ?_
      rw [hlater q hq, hlater r hr, Prod.Lex.toLex_lt_toLex]
      rcases Prod.Lex.lt_iff.mp hlt with hfirst | ⟨hfirst, hsecond⟩
      · exact Or.inl (Nat.succ_lt_succ hfirst)
      · exact Or.inr ⟨congrArg (· + 1) hfirst, hsecond⟩
    · intro q hq r hr
      rw [hhere q hq, hlater r hr, Prod.Lex.toLex_lt_toLex]
      exact Or.inl (Nat.succ_pos _)

end FirstAccess

/-! ### Summaries -/

/-- A summary says what a replay of the instructions of a block shows: each register that some usage
acts on has one use, and the registers stand in their order, those that it does not tell apart in the
order of their first accesses. -/
structure Replays (instrs : List (List Usage)) (s : Summary) : Prop where
  mem_registers : ∀ r, r ∈ s.registers ↔ ∃ instr ∈ instrs, ∃ u ∈ instr, u.acts r = true
  use_iff : ∀ r, r ∈ s.registers ↔ ∃ use, s.use? r = some use
  uses : ∀ r use, s.use? r = some use → use.Replays r instrs
  nodup : s.registers.Nodup
  sorted : s.registers.Pairwise fun q r => r.precedes q = false ∧
    (q.precedes r = false → firstAccess instrs q < firstAccess instrs r)

/-- Two summaries differ in the order of registers that their order does not tell apart, and in
nothing else. -/
structure Tied (s s' : Summary) : Prop where
  uses : ∀ r, s.use? r = s'.use? r
  registers : List.Forall₂ (fun q r => q.precedes r = false ∧ r.precedes q = false)
    s.registers s'.registers

theorem registers_ofUsages (us : List Usage) :
    (ofUsages us).registers = Register.sort ((instructions us).flatMap touched).eraseDups := by
  unfold registers ofUsages
  rw [List.map_map]
  exact List.map_id _

theorem mem_registers_ofUsages {us : List Usage} {r : Register} :
    r ∈ (ofUsages us).registers ↔ touches us r ≠ [] := by
  rw [registers_ofUsages, Register.mem_sort, mem_flatMap_touched]
  rfl

theorem nodup_registers_ofUsages (us : List Usage) : (ofUsages us).registers.Nodup := by
  rw [registers_ofUsages]
  exact (List.mergeSort_perm _ _).nodup_iff.mpr (nodup_eraseDups _)

theorem replays_ofUsages (us : List Usage) : (ofUsages us).Replays (instructions us) := by
  have huniform := (runs_instructions us).uniform
  refine ⟨fun r => ?_, fun r => ?_, fun r use huse => ?_, nodup_registers_ofUsages us, ?_⟩
  · rw [registers_ofUsages, Register.mem_sort, List.mem_eraseDups, List.mem_flatMap]
    refine exists_congr fun instr => and_congr_right fun hinstr => ?_
    obtain ⟨p, hp⟩ := huniform instr hinstr
    rw [mem_touched_iff_acts hp, List.any_eq_true]
  · rw [mem_registers_ofUsages, use?_eq]
    split
    · rename_i hnil
      simp [hnil]
    · rename_i hne
      simp [hne]
  · rw [use?_eq] at huse
    split at huse
    · cases huse
    · cases huse
      exact Use.replays_ofAccesses huniform
  · rw [registers_ofUsages, Register.sort_eq]
    refine (pairwise_mergeSort_ties (pairwise_touched huniform)).imp fun {q r} h => ?_
    rw [← Bool.not_eq_true, ← Bool.not_eq_true, Register.precedes_iff, Register.precedes_iff]
    rcases h with hlt | ⟨heq, hfirst⟩
    · exact ⟨hlt.asymm, fun hnot => absurd hlt hnot⟩
    · exact ⟨heq ▸ lt_irrefl _, fun _ => hfirst⟩

/-- The order of the usages inside of the instructions shows only in the order of registers that are
not told apart. -/
theorem tied_of_reordered {us : List Usage} {instrs : List (List Usage)}
    (h : List.Forall₂ List.Perm (instructions us) instrs) :
    (ofUsages us).Tied (ofUsages instrs.flatten) := by
  have hinstrs : instrs = instructions instrs.flatten :=
    runs_iff.mp ((runs_instructions us).reordered h)
  have htouches : ∀ r, touches us r = touches instrs.flatten r := by
    intro r
    unfold touches
    rw [← hinstrs]
    exact Touch.filterMap_of?_reordered h (runs_instructions us).uniform
  refine ⟨fun r => by rw [use?_eq, use?_eq, htouches], ?_⟩
  have hperm : (ofUsages us).registers.Perm (ofUsages instrs.flatten).registers := by
    refine (List.perm_ext_iff_of_nodup (nodup_registers_ofUsages _)
      (nodup_registers_ofUsages _)).mpr fun r => ?_
    rw [mem_registers_ofUsages, mem_registers_ofUsages, htouches]
  have hsorted : ∀ vs, ((ofUsages vs).registers.map Register.rank).Pairwise (· ≤ ·) := by
    intro vs
    rw [registers_ofUsages]
    exact List.pairwise_map.mpr (Register.pairwise_sort _)
  have hranks := List.Perm.eq_of_pairwise (fun _ _ _ _ => le_antisymm) (hsorted us)
    (hsorted instrs.flatten) (hperm.map Register.rank)
  rw [← List.forall₂_eq_eq_eq, List.forall₂_map_left_iff, List.forall₂_map_right_iff] at hranks
  refine hranks.imp fun q r heq => ?_
  rw [← Bool.not_eq_true, ← Bool.not_eq_true, Register.precedes_iff, Register.precedes_iff, heq]
  exact ⟨lt_irrefl _, lt_irrefl _⟩

/-- The summary of a block replays its instructions, the longest runs of usages at one offset, and
one pass over them makes it. The order of the usages inside of an instruction decides at most between
registers that are not told apart. -/
theorem replays_instructions (us : List Usage) :
    ∃ instrs, (∀ instrs', Runs us instrs' ↔ instrs' = instrs) ∧
      (ofUsages us).Replays instrs ∧ Scan.summary instrs = ofUsages us ∧
      ∀ shuffled, List.Forall₂ List.Perm instrs shuffled →
        (ofUsages us).Tied (ofUsages shuffled.flatten) := by
  refine ⟨instructions us, fun _ => runs_iff, replays_ofUsages us,
    Scan.summary_eq (runs_instructions us).uniform, ?_⟩
  intro shuffled hshuffled
  exact tied_of_reordered hshuffled

end Summary

namespace Namesakes

/-- Two variables of one name. -/
def x : Register := Register.slot ⟨0, "x", Bank.vector⟩ 0

def y : Register := Register.slot ⟨1, "x", Bank.vector⟩ 0

def usages : List Usage :=
  [⟨0, x, 1, 0, true, false⟩, ⟨0, y, 1, 0, false, true⟩, ⟨0, x, 1, 0, false, true⟩,
    ⟨4, x, 1, 0, true, true⟩]

/-- The same instructions, where the other variable comes first. -/
def swapped : List (List Usage) :=
  [[⟨0, y, 1, 0, false, true⟩, ⟨0, x, 1, 0, false, true⟩, ⟨0, x, 1, 0, true, false⟩],
    [⟨4, x, 1, 0, true, true⟩]]

/-- The usages of the first instruction in another order change the order of the two variables and
nothing else. -/
theorem swapped_tied : List.Forall₂ List.Perm (Summary.instructions usages) swapped ∧
    (Summary.ofUsages usages).registers = [x, y] ∧
    (Summary.ofUsages swapped.flatten).registers = [y, x] ∧
    (Summary.ofUsages usages).Tied (Summary.ofUsages swapped.flatten) := by
  obtain ⟨instrs, hruns, _, _, htied⟩ := Summary.replays_instructions usages
  have hinstrs := (hruns (Summary.instructions usages)).mp (Summary.runs_instructions usages)
  have hperm : List.Forall₂ List.Perm (Summary.instructions usages) swapped :=
    .cons (by decide) (.cons (by decide) .nil)
  have hregisters : (Summary.ofUsages usages).registers = [x, y] ∧
      (Summary.ofUsages swapped.flatten).registers = [y, x] := by
    cbv
  exact ⟨hperm, hregisters.1, hregisters.2, htied swapped (hinstrs ▸ hperm)⟩

end Namesakes

end RegisterWeb
