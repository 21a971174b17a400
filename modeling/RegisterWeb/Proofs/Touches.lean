import Mathlib
import RegisterWeb.Proofs.Instructions

/-!
Accesses read off the usages. A block holds the usages between its start and its stop, and each of
its instructions that touches a register is one access. The versions of a variable are numbered
through the blocks in flow order, so the version of a write is known from the number of writes
before it. The registers of an analysis are those that some block touches, in order.
-/

namespace RegisterWeb

/-! ### Lists without duplicates -/

section Duplicates

variable {α β : Type} [BEq α] [LawfulBEq α]

theorem filter_eraseDups (p : α → Bool) (l : List α) :
    l.eraseDups.filter p = (l.filter p).eraseDups := by
  cases l with
  | nil => rfl
  | cons a l =>
    rw [List.eraseDups_cons, List.filter_cons, List.filter_cons, filter_eraseDups p,
      List.filter_filter]
    split
    · rw [List.eraseDups_cons, List.filter_filter]
      congr 3
      funext b
      exact Bool.and_comm ..
    · rename_i hp
      congr 1
      refine List.filter_congr fun b _ => ?_
      cases hb : b == a with
      | false => simp
      | true =>
        rw [eq_of_beq hb, Bool.eq_false_of_not_eq_true hp]
        rfl
termination_by l.length
decreasing_by exact Nat.lt_succ_of_le (List.length_filter_le _ _)

theorem eraseDups_of_nodup {l : List α} (h : l.Nodup) : l.eraseDups = l := by
  induction l with
  | nil => rfl
  | cons a l ih =>
    obtain ⟨ha, hl⟩ := List.nodup_cons.mp h
    have hkeep : l.filter (fun b => !b == a) = l := by
      refine List.filter_eq_self.mpr fun b hb => ?_
      rw [Bool.not_eq_true', beq_eq_false_iff_ne]
      rintro rfl
      exact ha hb
    rw [List.eraseDups_cons, hkeep, ih hl]

theorem eraseDups_flatMap_eraseDups (f : β → List α) (l : List β) :
    (l.flatMap fun b => (f b).eraseDups).eraseDups = (l.flatMap f).eraseDups := by
  induction l with
  | nil => rfl
  | cons b l ih =>
    have hremove : ∀ as : List α, (as.removeAll (f b).eraseDups) = as.removeAll (f b) := by
      intro as
      refine List.filter_congr fun a _ => ?_
      rw [Bool.eq_iff_iff]
      simp [List.mem_eraseDups]
    rw [List.flatMap_cons, List.flatMap_cons, List.eraseDups_append, List.eraseDups_append,
      eraseDups_of_nodup (nodup_eraseDups _), hremove]
    unfold List.removeAll
    rw [← filter_eraseDups, ← filter_eraseDups, ih]

end Duplicates

/-! ### Touches -/

/-- An access with its version moved up. -/
def Access.shift (k : Nat) (x : Access) : Access :=
  { x with write := x.write.map (· + UInt32.ofNat k) }

namespace Touch

/-- How many of some touches write. -/
def writeCount (ts : List Touch) : Nat :=
  ts.countP Touch.writes

theorem writeCount_append (ts us : List Touch) :
    writeCount (ts ++ us) = writeCount ts + writeCount us :=
  List.countP_append

theorem number_append (k : Nat) (ts us : List Touch) :
    number k (ts ++ us) = number k ts ++ number (k + writeCount ts) us := by
  induction ts generalizing k with
  | nil => rfl
  | cons t ts ih =>
    cases hw : t.writes with
    | true =>
      simp only [List.cons_append, number, hw, if_true, ih, writeCount,
        List.countP_cons_of_pos hw]
      rw [Nat.add_right_comm, Nat.add_assoc]
    | false =>
      simp only [List.cons_append, number, hw, Bool.false_eq_true, if_false, ih, writeCount,
        List.countP_cons_of_neg (Bool.not_eq_true _ ▸ hw)]

theorem map_shift_number (k j : Nat) (ts : List Touch) :
    (number j ts).map (Access.shift k) = number (k + j) ts := by
  induction ts generalizing j with
  | nil => rfl
  | cons t ts ih =>
    cases hw : t.writes with
    | true =>
      simp only [number, hw, if_true, List.map_cons, Access.shift, Option.map_some, ih]
      rw [← UInt32.ofNat_add, Nat.add_comm (j + 1) k, Nat.add_assoc]
    | false =>
      simp only [number, hw, Bool.false_eq_true, if_false, List.map_cons, Access.shift,
        Option.map_none, ih]

theorem length_write_number (k : Nat) (ts : List Touch) :
    ((number k ts).filterMap Access.write).length = writeCount ts := by
  induction ts generalizing k with
  | nil => rfl
  | cons t ts ih =>
    cases hw : t.writes with
    | true => simp [number, hw, writeCount, ih]
    | false => simp [number, hw, writeCount, ih]

/-- An access to a physical register makes the entry version if it writes. -/
def fixed (t : Touch) : Access :=
  ⟨t.offset, t.reads, if t.writes then some Version.entry else none⟩

theorem map_number_entry (k : Nat) (ts : List Touch) :
    (number k ts).map (fun x => { x with write := x.write.map fun _ => Version.entry })
      = ts.map fixed := by
  induction ts generalizing k with
  | nil => rfl
  | cons t ts ih =>
    cases hw : t.writes with
    | true => simp [number, hw, fixed, ih]
    | false => simp [number, hw, fixed, ih]

end Touch

namespace Summary

/-- What the instructions of a list of usages do to a register. -/
def touches (us : List Usage) (r : Register) : List Touch :=
  (instructions us).filterMap (Touch.of? r)

theorem use?_eq (us : List Usage) (r : Register) : (ofUsages us).use? r =
    if touches us r = [] then none
    else some (Use.ofAccesses (Touch.number 0 (touches us r))) := by
  have hmem : r ∈ Register.sort ((instructions us).flatMap touched).eraseDups
      ↔ ¬ touches us r = [] :=
    Register.mem_sort.trans mem_flatMap_touched
  unfold use? ofUsages
  rw [lookup_map_pair]
  by_cases htouches : touches us r = []
  · rw [if_pos htouches, if_neg fun h => hmem.mp h htouches]
  · rw [if_neg htouches, if_pos (hmem.mpr htouches)]
    rfl

/-- Usages that end before others begin make their instructions apart. -/
theorem instructions_append {us vs : List Usage}
    (h : ∀ u ∈ us, ∀ v ∈ vs, u.offset < v.offset) :
    instructions (us ++ vs) = instructions us ++ instructions vs := by
  refine List.splitBy_append fun u hu v hv => ?_
  rw [beq_eq_false_iff_ne]
  exact Int64.ne_of_lt (h u (List.mem_of_getLast? hu) v (List.mem_of_head? hv))

end Summary

/-! ### The usages of a block -/

theorem Graph.blockAt_iff {g : Graph} (hpart : Layout.Partition g.length g.blocks) {p : Offset}
    {b : Nat} : g.blockAt p = .ok (some b) ↔ b < g.size ∧ (g.block b).contains p = true := by
  constructor
  · intro hb
    have hin : 0 ≤ p ∧ p < g.length := by
      by_contra hout
      rw [Graph.blockAt, Layout.blockAt_outside _ _ hout] at hb
      cases hb
    obtain ⟨c, hc, hfound, hcontains⟩ := hpart.blockAt_inside hin.1 hin.2
    rw [Graph.blockAt, hfound] at hb
    cases hb
    exact ⟨hc, hcontains⟩
  · rintro ⟨hb, hcontains⟩
    have hspan := hpart.bounds hb
    have hin := hcontains
    rw [Block.contains, Bool.and_eq_true, decide_eq_true_eq, decide_eq_true_eq] at hin
    obtain ⟨c, hc, hfound, hcontains'⟩ := hpart.blockAt_inside
      (Int64.le_trans hspan.1 hin.1) (Int64.lt_of_lt_of_le hin.2 hspan.2)
    rw [Graph.blockAt, hfound, hpart.unique hc hb hcontains' hcontains]

/-- The usages that a block holds, in order of offset. -/
def Graph.usagesAt (g : Graph) (us : List Usage) (b : Nat) : List Usage :=
  (Usage.sort us).filter fun u => (g.block b).contains u.offset

namespace Analysis

variable {g : Graph} {us : List Usage} {a : Analysis} {r : Register} {b : Nat}

theorem filter_placed (hpart : Layout.Partition g.length g.blocks) {us : List Usage}
    {placed : List (Nat × Usage)} (h : us.mapM (place g) = .ok placed) (hb : b < g.size) :
    (placed.filter fun p => p.1 == b).map Prod.snd
      = us.filter fun u => (g.block b).contains u.offset := by
  have hplace : ∀ u p, place g u = .ok p → (p.1 == b) = (g.block b).contains p.2.offset := by
    intro u p hp
    unfold place at hp
    split at hp
    · rename_i c hc
      cases hp
      rw [Bool.eq_iff_iff, beq_iff_eq]
      constructor
      · rintro rfl
        exact ((Graph.blockAt_iff hpart).mp hc).2
      · intro hcontains
        rw [(Graph.blockAt_iff hpart).mpr ⟨hb, hcontains⟩] at hc
        cases hc
        rfl
    · cases hp
    · cases hp
  have hfilter : (placed.filter fun p => p.1 == b)
      = placed.filter ((fun u => (g.block b).contains u.offset) ∘ Prod.snd) := by
    refine List.filter_congr fun p hp => ?_
    obtain ⟨u, _, hu⟩ := exists_of_mem_mapM h hp
    exact hplace u p hu
  rw [hfilter, ← List.filter_map, map_snd_of_place h]

theorem usagesAt_of_size_le (us : List Usage) (hb : g.size ≤ b) : g.usagesAt us b = [] := by
  refine List.filter_eq_nil_iff.mpr fun u _ hu => ?_
  rw [Graph.block_of_size_le hb, Block.contains, Bool.and_eq_true, decide_eq_true_eq,
    decide_eq_true_eq] at hu
  exact Int64.lt_irrefl (Int64.lt_of_le_of_lt hu.1 hu.2)

/-- The summary of a block is that of the usages that it holds. -/
theorem summaries_eq (hpart : Layout.Partition g.length g.blocks) (ha : ofUsages g us = .ok a)
    (b : Nat) : a.summaries.get b = Summary.ofUsages (g.usagesAt us b) := by
  obtain ⟨placed, hplaced, hok⟩ := bind_eq_ok.mp ha
  have hsummaries : a.summaries = summarize g placed := by
    cases hok
    rfl
  rw [hsummaries, summarize, Table.get_tabulate]
  split
  · rename_i hb
    rw [filter_placed hpart hplaced hb]
    rfl
  · rename_i hb
    rw [usagesAt_of_size_le us (Nat.le_of_not_lt hb)]
    simp [Summary.ofUsages, Summary.instructions, Register.sort, default,
      instInhabitedSummary.default]

end Analysis

/-! ### Versions by their place -/

namespace Use

/-- The use that consists of some touches, if there are any. -/
def ofTouches? (ts : List Touch) : Option Use :=
  if ts = [] then none else some (ofAccesses (Touch.number 0 ts))

theorem accesses_ofTouches? (ts : List Touch) :
    ((ofTouches? ts).map Use.accesses).getD [] = Touch.number 0 ts := by
  unfold ofTouches?
  split
  · rename_i hnil
    rw [hnil]
    rfl
  · rfl

theorem changes_ofTouches? (ts : List Touch) :
    ((ofTouches? ts).map fun u => u.info.changes).getD 0 = Touch.writeCount ts := by
  unfold ofTouches?
  split
  · rename_i hnil
    rw [hnil]
    rfl
  · exact Touch.length_write_number 0 ts

end Use

namespace Track.Numbering

variable {uses : Table (Option Use)}

theorem visit_other (n : Numbering) {b c : Nat} (h : b ≠ c) :
    (n.visit b).uses.get c = n.uses.get c := by
  unfold visit
  split
  · split
    · rw [Table.get_set, if_neg fun hbc => h hbc.1]
    · rfl
  · rfl

theorem foldl_visit_other {l : List Nat} {c : Nat} (h : c ∉ l) (n : Numbering) :
    (l.foldl visit n).uses.get c = n.uses.get c := by
  induction l generalizing n with
  | nil => rfl
  | cons b l ih =>
    rw [List.mem_cons, not_or] at h
    rw [List.foldl_cons, ih h.2, visit_other n (Ne.symm h.1)]

theorem changesAt_visit (n : Numbering) (b c : Nat) :
    changesAt (n.visit b).uses c = changesAt n.uses c := by
  obtain ⟨base, hbase⟩ := visit_get n b c
  rw [changesAt, changesAt, hbase, Option.map_map]
  rfl

theorem versions_visit (n : Numbering) (b : Nat) :
    (n.visit b).versions = n.versions + UInt32.ofNat (changesAt n.uses b) := by
  unfold visit changesAt
  cases hb : n.uses.get b with
  | none => exact (UInt32.add_zero _).symm
  | some u =>
    cases hw : u.info.isWritten with
    | true => simp only [hw, if_true, Option.map_some, Option.getD_some]
    | false =>
      have hzero : u.info.changes = 0 := by simpa [Info.isWritten] using hw
      simp only [hw, Bool.false_eq_true, if_false, Option.map_some, Option.getD_some, hzero]
      exact (UInt32.add_zero _).symm

theorem versions_foldl (l : List Nat) (n : Numbering) :
    (l.foldl visit n).versions = n.versions + UInt32.ofNat (total (changesAt n.uses) l) := by
  induction l generalizing n with
  | nil => exact (UInt32.add_zero _).symm
  | cons b l ih =>
    have hsame : changesAt (n.visit b).uses = changesAt n.uses := funext (changesAt_visit n b)
    rw [List.foldl_cons, ih, hsame, versions_visit, total, UInt32.ofNat_add, UInt32.add_assoc]

/-- A block gets the numbers that follow those of the blocks before it. -/
theorem accesses_ofUses {T : Nat → List Touch} (huses : ∀ b, uses.get b = Use.ofTouches? (T b))
    {before after : List Nat} {c : Nat} (hnodup : (before ++ c :: after).Nodup) :
    (((ofUses (before ++ c :: after) uses).uses.get c).map Use.accesses).getD []
      = Touch.number (total (fun b => Touch.writeCount (T b)) before) (T c) := by
  obtain ⟨_, hafter, hdisjoint⟩ := List.nodup_append.mp hnodup
  have hc : c ∉ before := fun hc => hdisjoint c hc c List.mem_cons_self rfl
  have hchanges : ∀ b, changesAt uses b = Touch.writeCount (T b) := by
    intro b
    rw [changesAt, huses, Use.changes_ofTouches?]
  have hstart : (before.foldl visit ⟨1, uses⟩).uses.get c = Use.ofTouches? (T c) := by
    rw [foldl_visit_other hc, huses]
  have hversions : (before.foldl visit ⟨1, uses⟩).versions - 1
      = UInt32.ofNat (total (fun b => Touch.writeCount (T b)) before) := by
    rw [versions_foldl, funext hchanges, UInt32.add_comm, UInt32.add_sub_cancel]
  rw [ofUses, List.foldl_append, List.foldl_cons,
    foldl_visit_other (List.nodup_cons.mp hafter).1]
  -- Only the visit of `c` itself changes its accesses: it adds the versions given out before.
  generalize before.foldl visit ⟨1, uses⟩ = n at hstart hversions
  have hnumber := Touch.map_shift_number (total (fun b => Touch.writeCount (T b)) before) 0 (T c)
  rw [Nat.add_zero] at hnumber
  rw [← hnumber]
  by_cases hnil : T c = []
  · rw [Use.ofTouches?, if_pos hnil] at hstart
    simp [visit, hstart, hnil, Touch.number]
  · rw [Use.ofTouches?, if_neg hnil] at hstart
    cases hw : (Use.ofAccesses (Touch.number 0 (T c))).info.isWritten with
    | true =>
      have hlt : c < n.uses.size := by
        by_contra hge
        rw [Table.get_of_size_le (Nat.le_of_not_lt hge)] at hstart
        cases hstart
      simp only [visit, hstart, hw, if_true, Table.get_set, and_self, hlt, hversions]
      rfl
    | false =>
      have hquiet : ∀ x ∈ Touch.number 0 (T c), x.write = none := by
        simpa [Info.isWritten, Use.ofAccesses] using hw
      have hsame : ∀ x ∈ Touch.number 0 (T c),
          x.shift (total (fun b => Touch.writeCount (T b)) before) = x := by
        intro x hx
        rw [Access.shift, hquiet x hx, Option.map_none, ← hquiet x hx]
      simp only [visit, hstart, hw, Bool.false_eq_true, if_false, Option.map_some, Option.getD_some]
      rw [List.map_congr_left hsame, List.map_id']
      rfl

end Track.Numbering

/-- What the instructions of a block do to a register. -/
def Graph.touchesAt (g : Graph) (us : List Usage) (r : Register) (b : Nat) : List Touch :=
  Summary.touches (g.usagesAt us b) r

/-- The registers that the instructions of a block touch, each as often as it is touched. -/
def Graph.touchedAt (g : Graph) (us : List Usage) (b : Nat) : List Register :=
  (Summary.instructions (g.usagesAt us b)).flatMap Summary.touched

namespace Analysis

variable {g : Graph} {us : List Usage} {a : Analysis} {r : Register} {b : Nat}

theorem uses_eq (hpart : Layout.Partition g.length g.blocks) (ha : ofUsages g us = .ok a)
    (r : Register) (b : Nat) : (Table.tabulate g.size fun b => (a.summaries.get b).use? r).get b
      = Use.ofTouches? (g.touchesAt us r b) := by
  rw [Table.get_tabulate]
  split
  · rw [summaries_eq hpart ha, Summary.use?_eq]
    rfl
  · rename_i hb
    rw [Graph.touchesAt, usagesAt_of_size_le us (Nat.le_of_not_lt hb)]
    rfl

/-- The accesses to a slot, with versions by their place in flow order. -/
theorem accesses_slot (hpart : Layout.Partition g.length g.blocks) (ha : ofUsages g us = .ok a)
    (hr : r ∈ a.registers) (hslot : r.isSlot = true) {before after : List Nat}
    (horder : g.order = before ++ b :: after) :
    a.accesses b r = Touch.number (total (fun c => Touch.writeCount (g.touchesAt us r c)) before)
      (g.touchesAt us r b) := by
  rw [accesses, (fresh_of_ofUsages ha).use?_eq hr hslot, numbering]
  show (((Track.Numbering.ofUses g.order _).uses.get b).map Use.accesses).getD [] = _
  have hnodup := Graph.nodup_order g
  rw [horder] at hnodup ⊢
  exact Track.Numbering.accesses_ofUses (uses_eq hpart ha r) hnodup

theorem accesses_physical (hpart : Layout.Partition g.length g.blocks)
    (ha : ofUsages g us = .ok a) (hr : r ∈ a.registers) (hslot : r.isSlot = false) (b : Nat) :
    a.accesses b r = (g.touchesAt us r b).map Touch.fixed := by
  rw [accesses, (fresh_of_ofUsages ha).use?_physical hr hslot, uses_eq hpart ha,
    ← Touch.map_number_entry 0, ← Use.accesses_ofTouches?]
  cases Use.ofTouches? (g.touchesAt us r b) with
  | none => rfl
  | some u => rfl

theorem versions_eq (hpart : Layout.Partition g.length g.blocks) (ha : ofUsages g us = .ok a)
    (r : Register) : (numbering g a r).versions
      = 1 + UInt32.ofNat (total (fun c => Touch.writeCount (g.touchesAt us r c)) g.order) := by
  have hchanges : Track.Numbering.changesAt
      (Table.tabulate g.size fun b => (a.summaries.get b).use? r)
        = fun c => Touch.writeCount (g.touchesAt us r c) := by
    funext c
    rw [Track.Numbering.changesAt, uses_eq hpart ha, Use.changes_ofTouches?]
  rw [numbering, Track.Numbering.ofUses, Track.Numbering.versions_foldl, hchanges]
  rfl

/-- The registers are those that some block touches. -/
theorem registers_eq (hpart : Layout.Partition g.length g.blocks) (ha : ofUsages g us = .ok a) :
    a.registers = Register.sort ((List.range g.size).flatMap (g.touchedAt us)).eraseDups := by
  have hfresh := fresh_of_ofUsages ha
  obtain ⟨placed, hplaced⟩ := hfresh.summaries
  have hlist : a.summaries.toList.flatMap Summary.registers
      = (List.range g.size).flatMap fun b => Register.sort (g.touchedAt us b).eraseDups := by
    rw [hplaced, summarize, Table.tabulate, Table.toList, Array.toList_map, Array.toList_range,
      List.flatMap_map]
    refine List.flatMap_congr fun b hb => ?_
    have hget := summaries_eq hpart ha b
    rw [hplaced, summarize, Table.get_tabulate, if_pos (List.mem_range.mp hb)] at hget
    rw [hget, Summary.registers, Summary.ofUsages, List.map_map]
    exact List.map_id'' (fun _ => rfl) _
  rw [hfresh.registers_eq, registersOf, hlist]
  refine Register.sort_congr fun k => ?_
  have hgroup : ∀ b, (Register.sort (g.touchedAt us b).eraseDups).filter (fun r => r.rank = k)
      = ((g.touchedAt us b).filter fun r => r.rank = k).eraseDups := by
    intro b
    rw [Register.sort_eq, filter_mergeSort, filter_eraseDups]
  rw [filter_eraseDups, filter_eraseDups, List.filter_flatMap, List.filter_flatMap]
  simp only [hgroup]
  exact eraseDups_flatMap_eraseDups _ _

end Analysis

end RegisterWeb
