import RegisterWeb.Proofs.Analysis

/-!
The numbers of the versions of a register variable. Numbering moves the versions that a block makes
up by a constant and keeps everything else. As long as there are fewer writes than words for
versions, the numbers of the versions run from 1 to the number of writes, so none of them is one of
the words with a meaning of their own.
-/

namespace RegisterWeb

namespace Use

/-- The versions that a use makes, in order. -/
def made (u : Use) : List Version :=
  u.accesses.filterMap Access.write

/-- The facts about a use agree with its accesses, and each access reads or writes. -/
structure Regular (u : Use) : Prop where
  changes : u.info.changes = u.made.length
  readsFirst : u.info.readsFirst = (u.accesses.head?.map Access.reads).getD false
  acts : ∀ x ∈ u.accesses, x.reads = true ∨ x.write ≠ none

/-- Also the last version is that of the last write. -/
structure Coherent (u : Use) : Prop extends u.Regular where
  last : u.info.last = u.made.getLast?

theorem made_mapWrites (f : Version → Version) (u : Use) : (u.mapWrites f).made = u.made.map f := by
  simp only [made, mapWrites, List.filterMap_map, List.map_filterMap]
  rfl

theorem Regular.mapWrites {u : Use} (h : u.Regular) (f : Version → Version) :
    (u.mapWrites f).Regular := by
  refine ⟨?_, ?_, ?_⟩
  · rw [made_mapWrites, List.length_map]
    exact h.changes
  · show u.info.readsFirst = _
    rw [h.readsFirst]
    cases hacc : u.accesses <;> simp [Use.mapWrites, hacc]
  · intro x hx
    obtain ⟨x₀, hx₀, rfl⟩ := List.mem_map.mp hx
    exact (h.acts x₀ hx₀).imp id fun hw => by simpa using hw

theorem Coherent.mapWrites {u : Use} (h : u.Coherent) (f : Version → Version) :
    (u.mapWrites f).Coherent := by
  refine ⟨h.toRegular.mapWrites f, ?_⟩
  rw [made_mapWrites, List.getLast?_map, ← h.last]
  rfl

theorem Regular.readsFirst_of_read {u : Use} (h : u.Regular) {before after : List Access}
    {x : Access} (hacc : u.accesses = before ++ x :: after) (hx : x.reads = true)
    (hquiet : ∀ y ∈ before, y.write = none) : u.info.readsFirst = true := by
  rw [h.readsFirst, hacc]
  cases before with
  | nil => simpa using hx
  | cons y before =>
    have hmem : y ∈ u.accesses := by
      rw [hacc]
      exact List.mem_cons_self ..
    have hy := hquiet y (List.mem_cons_self ..)
    simpa using (h.acts y hmem).resolve_right fun hw => hw hy

theorem mapWrites_mapWrites (f f' : Version → Version) (u : Use) :
    (u.mapWrites f).mapWrites f' = u.mapWrites (f' ∘ f) := by
  simp [mapWrites, Option.map_map, Function.comp_def]

theorem map_mapWrites_zero (u : Option Use) : u.map (mapWrites fun v => v + 0) = u := by
  cases u <;> simp [mapWrites]

/-- A use with the versions of its block numbered from 1. -/
structure Local (u : Use) : Prop extends u.Coherent where
  made_local : ∀ v ∈ u.made, ∃ i, 0 < i ∧ i ≤ u.info.changes ∧ v = UInt32.ofNat i

end Use

namespace Touch

theorem acts_of_of? {r : Register} {instr : List Usage} {t : Touch} (h : of? r instr = some t) :
    t.reads = true ∨ t.writes = true := by
  unfold of? at h
  dsimp only at h
  split at h
  · exact absurd h (by simp)
  · split at h
    · rename_i hacts
      cases h
      exact Bool.or_eq_true_iff.mp hacts
    · exact absurd h (by simp)

theorem acts_number {k : Nat} {touches : List Touch}
    (h : ∀ t ∈ touches, t.reads = true ∨ t.writes = true) :
    ∀ x ∈ number k touches, x.reads = true ∨ x.write ≠ none := by
  induction touches generalizing k with
  | nil => exact fun x hx => absurd hx List.not_mem_nil
  | cons t touches ih =>
    have ht := h t (List.mem_cons_self ..)
    have hrest := fun k => ih (k := k) fun d hd => h d (List.mem_cons_of_mem t hd)
    intro x hx
    unfold number at hx
    split at hx
    · rcases List.mem_cons.mp hx with rfl | hx
      · exact Or.inr (by simp)
      · exact hrest _ x hx
    · rename_i hw
      rcases List.mem_cons.mp hx with rfl | hx
      · exact Or.inl (ht.resolve_right hw)
      · exact hrest _ x hx

theorem mem_number {k : Nat} {touches : List Touch} {v : Version}
    (h : v ∈ (number k touches).filterMap Access.write) :
    ∃ i, k < i ∧ i ≤ k + ((number k touches).filterMap Access.write).length ∧
      v = UInt32.ofNat i := by
  induction touches generalizing k with
  | nil => exact absurd h List.not_mem_nil
  | cons t touches ih =>
    by_cases hw : t.writes = true
    · simp only [number, hw, if_true, List.filterMap_cons, List.mem_cons, List.length_cons] at h ⊢
      rcases h with rfl | h
      · exact ⟨k + 1, by omega, by omega, rfl⟩
      · obtain ⟨i, hlow, hhigh, hv⟩ := ih h
        exact ⟨i, by omega, by omega, hv⟩
    · simp only [number, hw, Bool.false_eq_true, if_false, List.filterMap_cons] at h ⊢
      exact ih h

end Touch

namespace Summary

theorem use?_ofUsages {usages : List Usage} {r : Register} {u : Use}
    (h : (ofUsages usages).use? r = some u) :
    u = Use.ofAccesses (Touch.number 0 ((instructions usages).filterMap (Touch.of? r))) := by
  unfold use? at h
  obtain ⟨before, after, heq, _⟩ := List.lookup_eq_some_iff.mp h
  have hmem : (r, u) ∈ (ofUsages usages).uses := by
    rw [heq]
    exact List.mem_append.mpr (Or.inr (List.mem_cons_self ..))
  obtain ⟨r', _, hr'⟩ := List.mem_map.mp hmem
  cases hr'
  rfl

theorem local_use? {usages : List Usage} {r : Register} {u : Use}
    (h : (ofUsages usages).use? r = some u) : u.Local := by
  rw [use?_ofUsages h]
  have hacts : ∀ t ∈ (instructions usages).filterMap (Touch.of? r),
      t.reads = true ∨ t.writes = true := by
    intro t ht
    obtain ⟨instr, _, hof⟩ := List.mem_filterMap.mp ht
    exact Touch.acts_of_of? hof
  refine ⟨⟨⟨rfl, rfl, Touch.acts_number hacts⟩, rfl⟩, ?_⟩
  intro v hv
  obtain ⟨i, hlow, hhigh, hv⟩ := Touch.mem_number hv
  rw [Nat.zero_add] at hhigh
  exact ⟨i, hlow, hhigh, hv⟩

end Summary

namespace Track

namespace Numbering

theorem size_visit (n : Numbering) (b : Nat) : (n.visit b).uses.size = n.uses.size := by
  unfold visit
  split
  · split
    · exact Table.size_set ..
    · rfl
  · rfl

/-- Numbering only moves the versions of a block up. -/
theorem visit_get (n : Numbering) (b c : Nat) :
    ∃ base, (n.visit b).uses.get c = (n.uses.get c).map (Use.mapWrites (· + base)) := by
  have hkeep : ∃ base : Version, n.uses.get c = (n.uses.get c).map (Use.mapWrites (· + base)) :=
    ⟨0, (Use.map_mapWrites_zero _).symm⟩
  unfold visit
  cases hb : n.uses.get b with
  | none => exact hkeep
  | some u =>
    by_cases hw : u.info.isWritten = true
    · simp only [hw, if_true, Table.get_set]
      by_cases hbc : b = c ∧ b < n.uses.size
      · obtain ⟨rfl, hlt⟩ := hbc
        exact ⟨n.versions - 1, by simp [hlt, hb]⟩
      · rw [if_neg hbc]
        exact hkeep
    · simp only [hw, Bool.false_eq_true, if_false]
      exact hkeep

theorem ofUses_get (order : List Nat) (uses : Table (Option Use)) :
    (ofUses order uses).uses.size = uses.size ∧
      ∀ c, ∃ base, (ofUses order uses).uses.get c
        = (uses.get c).map (Use.mapWrites (· + base)) := by
  refine foldl_keeps (P := fun n : Numbering => n.uses.size = uses.size ∧
    ∀ c, ∃ base, n.uses.get c = (uses.get c).map (Use.mapWrites (· + base))) ?_ order ⟨1, uses⟩ ?_
  · intro n b ⟨hsize, hget⟩
    refine ⟨(size_visit n b).trans hsize, ?_⟩
    intro c
    obtain ⟨base, hbase⟩ := hget c
    obtain ⟨base', hbase'⟩ := visit_get n b c
    refine ⟨base + base', ?_⟩
    rw [hbase', hbase, Option.map_map]
    congr 1
    funext u
    simp [Use.mapWrites_mapWrites, Function.comp_def, UInt32.add_assoc]
  · exact ⟨rfl, fun c => ⟨0, (Use.map_mapWrites_zero _).symm⟩⟩

/-- How many versions a block makes. -/
def changesAt (uses : Table (Option Use)) (b : Nat) : Nat :=
  ((uses.get b).map fun u => u.info.changes).getD 0

/-- Where numbering stands after some blocks, as long as the words suffice. -/
structure Counted (uses : Table (Option Use)) (done : List Nat) (n : Numbering) : Prop where
  fresh : ∀ c, c ∉ done → n.uses.get c = uses.get c
  versions : n.versions.toNat = total (changesAt uses) done + 1
  bounded : ∀ c ∈ done, ∀ u, n.uses.get c = some u → ∀ v ∈ u.made,
    0 < v.toNat ∧ v.toNat ≤ total (changesAt uses) done

section Counted

variable {uses : Table (Option Use)} {done : List Nat} {n : Numbering} {b : Nat}

theorem total_changesAt_append :
    total (changesAt uses) (done ++ [b]) = total (changesAt uses) done + changesAt uses b := by
  simp [total_append, total]

/-- A block that makes no version leaves the numbering as it is. -/
theorem Counted.quiet (h : Counted uses done n) (hb : b ∉ done)
    (hlocal : ∀ c u, uses.get c = some u → u.Local) (hzero : changesAt uses b = 0) :
    Counted uses (done ++ [b]) n := by
  have htotal : total (changesAt uses) (done ++ [b]) = total (changesAt uses) done := by
    rw [total_changesAt_append, hzero, Nat.add_zero]
  refine ⟨?_, ?_, ?_⟩
  · intro c hc
    exact h.fresh c fun hdone => hc (List.mem_append_left _ hdone)
  · rw [htotal]
    exact h.versions
  · intro c hc u hu v hv
    rw [htotal]
    rcases List.mem_append.mp hc with hc | hc
    · exact h.bounded c hc u hu v hv
    · rw [List.mem_singleton.mp hc, h.fresh b hb] at hu
      have hlength := (hlocal b u hu).changes
      simp only [changesAt, hu, Option.map_some, Option.getD_some] at hzero
      rw [hzero] at hlength
      rw [List.length_eq_zero_iff.mp hlength.symm] at hv
      exact absurd hv List.not_mem_nil

/-- The numbers of a block that makes versions follow those of the blocks before. -/
theorem Counted.made_shifted (h : Counted uses done n) {u : Use} (hu : u.Local)
    (hwords : total (changesAt uses) done + u.info.changes + 1 < UInt32.size) {v : Version}
    (hv : v ∈ (u.mapWrites fun v => v + (n.versions - 1)).made) :
    0 < v.toNat ∧ v.toNat ≤ total (changesAt uses) done + u.info.changes := by
  rw [Use.made_mapWrites] at hv
  obtain ⟨x, hx, rfl⟩ := List.mem_map.mp hv
  obtain ⟨i, hlow, hhigh, rfl⟩ := hu.made_local x hx
  have hversions := h.versions
  have hone : (1 : UInt32) ≤ n.versions := by
    rw [UInt32.le_iff_toNat_le]
    simp only [UInt32.toNat_one]
    omega
  have hbase : (n.versions - 1).toNat = total (changesAt uses) done := by
    rw [UInt32.toNat_sub_of_le _ _ hone]
    simp only [UInt32.toNat_one]
    omega
  rw [UInt32.toNat_add, UInt32.toNat_ofNat', hbase]
  have hsize : UInt32.size = 2 ^ 32 := rfl
  omega

theorem Counted.visit (h : Counted uses done n) (hlocal : ∀ c u, uses.get c = some u → u.Local)
    (hb : b ∉ done) (hwords : total (changesAt uses) (done ++ [b]) + 1 < UInt32.size) :
    Counted uses (done ++ [b]) (n.visit b) := by
  have hget : n.uses.get b = uses.get b := h.fresh b hb
  cases hu : uses.get b with
  | none =>
    have hsame : n.visit b = n := by simp [Numbering.visit, hget, hu]
    rw [hsame]
    exact h.quiet hb hlocal (by simp [changesAt, hu])
  | some u =>
    have hchanges : changesAt uses b = u.info.changes := by simp [changesAt, hu]
    cases hw : u.info.isWritten with
    | false =>
      have hsame : n.visit b = n := by simp [Numbering.visit, hget, hu, hw]
      rw [hsame]
      refine h.quiet hb hlocal ?_
      rw [hchanges]
      simpa [Info.isWritten] using hw
    | true =>
      have hvisit : n.visit b = ⟨n.versions + UInt32.ofNat u.info.changes,
          n.uses.set b (some (u.mapWrites fun v => v + (n.versions - 1)))⟩ := by
        simp [Numbering.visit, hget, hu, hw]
      have hlt : b < n.uses.size := by
        by_contra hge
        rw [Table.get_of_size_le (Nat.le_of_not_lt hge), hu] at hget
        exact absurd hget (by simp)
      rw [total_changesAt_append, hchanges] at hwords
      rw [hvisit]
      refine ⟨?_, ?_, ?_⟩
      · intro c hc
        rw [List.mem_append, List.mem_singleton, not_or] at hc
        rw [Table.get_set, if_neg fun hbc => hc.2 hbc.1.symm]
        exact h.fresh c hc.1
      · rw [total_changesAt_append, hchanges, UInt32.toNat_add, UInt32.toNat_ofNat', h.versions]
        have hsize : UInt32.size = 2 ^ 32 := rfl
        omega
      · intro c hc w hw v hv
        rw [total_changesAt_append, hchanges]
        rw [Table.get_set] at hw
        split at hw
        · cases hw
          exact h.made_shifted (hlocal b u hu) hwords hv
        · rename_i hbc
          rcases List.mem_append.mp hc with hc | hc
          · have hbound := h.bounded c hc w hw v hv
            omega
          · exact absurd ⟨(List.mem_singleton.mp hc).symm, hlt⟩ hbc

theorem Counted.foldl {rest : List Nat} (h : Counted uses done n)
    (hlocal : ∀ c u, uses.get c = some u → u.Local) (hnodup : (done ++ rest).Nodup)
    (hwords : total (changesAt uses) (done ++ rest) + 1 < UInt32.size) :
    Counted uses (done ++ rest) (rest.foldl Numbering.visit n) := by
  induction rest generalizing done n with
  | nil => simpa using h
  | cons b rest ih =>
    have hb : b ∉ done := fun hb =>
      (List.nodup_append.mp hnodup).2.2 b hb b (List.mem_cons_self ..) rfl
    have hassoc : done ++ b :: rest = (done ++ [b]) ++ rest := by simp
    rw [hassoc] at hnodup hwords ⊢
    have hpart : total (changesAt uses) (done ++ [b]) + 1 < UInt32.size := by
      rw [total_append] at hwords
      omega
    exact ih (h.visit hlocal hb hpart) hnodup hwords

end Counted

theorem counted_order {g : Graph} {uses : Table (Option Use)}
    (hlocal : ∀ c u, uses.get c = some u → u.Local)
    (hwords : total (changesAt uses) (List.range g.size) + 1 < UInt32.size) :
    Counted uses g.order (ofUses g.order uses) := by
  have hstart : Counted uses [] ⟨1, uses⟩ :=
    ⟨fun _ _ => rfl, rfl, fun c hc => absurd hc List.not_mem_nil⟩
  rw [← total_perm (Graph.order_perm g)] at hwords
  exact hstart.foldl hlocal (Graph.nodup_order g) hwords

/-- The versions are numbered from 1 on, one for each write. -/
theorem made_bounded {g : Graph} {uses : Table (Option Use)} (hsize : uses.size = g.size)
    (hlocal : ∀ c u, uses.get c = some u → u.Local)
    (hwords : total (changesAt uses) (List.range g.size) + 1 < UInt32.size) {b : Nat} {u : Use}
    (hu : (ofUses g.order uses).uses.get b = some u) {v : Version} (hv : v ∈ u.made) :
    0 < v.toNat ∧ v.toNat ≤ total (changesAt uses) (List.range g.size) := by
  have hb : b ∈ g.order := by
    rw [Graph.mem_order]
    by_contra hb
    have hle : (ofUses g.order uses).uses.size ≤ b := by
      rw [(ofUses_get g.order uses).1, hsize]
      exact Nat.le_of_not_lt hb
    rw [Table.get_of_size_le hle] at hu
    exact absurd hu (by simp [default])
  rw [← total_perm (Graph.order_perm g)]
  exact (counted_order hlocal hwords).bounded b hb u hu v hv

end Numbering

end Track

namespace Analysis

theorem Fresh.use?_physical {g : Graph} {a : Analysis} (h : a.Fresh g) {r : Register}
    (hr : r ∈ a.registers) (hslot : r.isSlot = false) (b : Nat) : a.use? b r =
      ((Table.tabulate g.size fun b => (a.summaries.get b).use? r).get b).map Track.fixUse := by
  rw [use?, h.track?_of_mem hr, Option.bind_some]
  simp only [trackOf, Track.ofRegister, hslot, Bool.false_eq_true, if_false, Track.ofPhysical]
  exact Table.get_map (f := Option.map Track.fixUse) rfl _ b

theorem Fresh.use?_of_size_le {g : Graph} {a : Analysis} (h : a.Fresh g) {r : Register}
    (hr : r ∈ a.registers) {b : Nat} (hb : g.size ≤ b) : a.use? b r = none := by
  cases hslot : r.isSlot with
  | true =>
    rw [h.use?_eq hr hslot]
    apply Table.get_of_size_le
    rw [numbering, (Track.Numbering.ofUses_get _ _).1, Table.size_tabulate]
    exact hb
  | false =>
    rw [h.use?_physical hr hslot, Table.get_tabulate, if_neg (Nat.not_lt_of_le hb)]
    rfl

theorem Fresh.flow_rules {g : Graph} {a : Analysis} (h : a.Fresh g) {r : Register}
    (hr : r ∈ a.registers) (hslot : r.isSlot = true) {f : Flow}
    (hf : ((Track.initial g.size (numbering g a r)).withEffects g).Alike f) (b : Nat) :
    f.reads.get b = ((a.use? b r).any fun u => u.info.readsFirst) ∧
      f.made.get b =
        (a.use? b r).bind fun u => u.info.last.filter fun v => v != Version.unknown := by
  have hframe := ((Flow.tidy_initial g.size (numbering g a r)).withEffects g).1.frame
  rw [hf.reads, hf.made, hframe]
  simp only [Track.initial, Table.get_tabulate, ← h.use?_eq hr hslot]
  by_cases hb : b < g.size
  · simp only [hb, if_true, and_self]
  · rw [h.use?_of_size_le hr (Nat.le_of_not_lt hb), if_neg hb, if_neg hb]
    exact ⟨rfl, rfl⟩

/-! ### The uses of a register variable before renaming -/

/-- The last version of a register that a block writes. -/
def lastWrite? (a : Analysis) (r : Register) (b : Nat) : Option Version :=
  (a.use? b r).bind fun u => u.made.getLast?

/-- How many writes of a register there are in all blocks. -/
def writes (a : Analysis) (r : Register) : Nat :=
  total (fun b => ((a.use? b r).map fun u => u.made.length).getD 0) (List.range a.graph.size)

section Uses

variable {g : Graph} {a : Analysis} {r : Register}

theorem Fresh.local_use? (h : a.Fresh g) {b : Nat} {u : Use}
    (hu : (Table.tabulate g.size fun b => (a.summaries.get b).use? r).get b = some u) :
    u.Local := by
  obtain ⟨placed, hplaced⟩ := h.summaries
  rw [Table.get_tabulate] at hu
  split at hu
  · rename_i hb
    rw [hplaced, summarize, Table.get_tabulate, if_pos hb] at hu
    exact Summary.local_use? hu
  · exact absurd hu (by simp [default])

theorem Fresh.use?_shifted (h : a.Fresh g) (hr : r ∈ a.registers) (hslot : r.isSlot = true)
    (b : Nat) : ∃ base, a.use? b r =
      ((Table.tabulate g.size fun b => (a.summaries.get b).use? r).get b).map
        (Use.mapWrites (· + base)) := by
  rw [h.use?_eq hr hslot]
  exact (Track.Numbering.ofUses_get _ _).2 b

theorem Fresh.coherent_use? (h : a.Fresh g) (hr : r ∈ a.registers) (hslot : r.isSlot = true)
    {b : Nat} {u : Use} (hu : a.use? b r = some u) : u.Coherent := by
  obtain ⟨base, hbase⟩ := h.use?_shifted hr hslot b
  rw [hbase] at hu
  obtain ⟨u₀, hu₀, rfl⟩ := Option.map_eq_some_iff.mp hu
  exact (h.local_use? hu₀).toCoherent.mapWrites _

theorem Fresh.writes_eq (h : a.Fresh g) (hr : r ∈ a.registers) (hslot : r.isSlot = true) :
    a.writes r = total (Track.Numbering.changesAt
      (Table.tabulate g.size fun b => (a.summaries.get b).use? r)) (List.range g.size) := by
  unfold writes
  rw [h.graph]
  congr 1
  funext b
  obtain ⟨base, hbase⟩ := h.use?_shifted hr hslot b
  rw [hbase]
  unfold Track.Numbering.changesAt
  cases hu : (Table.tabulate g.size fun b => (a.summaries.get b).use? r).get b with
  | none => rfl
  | some u =>
    have hchanges := (h.local_use? hu).changes
    simp only [Option.map_some, Option.getD_some, Use.made_mapWrites, List.length_map, hchanges]

/-- With fewer writes than words, the versions are numbered up to the number of writes. -/
theorem Fresh.made_le (h : a.Fresh g) (hr : r ∈ a.registers) (hslot : r.isSlot = true)
    (hwrites : a.writes r < UInt32.size - 2) {b : Nat} {u : Use} (hu : a.use? b r = some u)
    {v : Version} (hv : v ∈ u.made) : 0 < v.toNat ∧ v.toNat ≤ a.writes r := by
  rw [h.writes_eq hr hslot] at hwrites ⊢
  rw [h.use?_eq hr hslot] at hu
  exact Track.Numbering.made_bounded (Table.size_tabulate _ _) (fun c u hu => h.local_use? hu)
    (by omega) hu hv

theorem Fresh.versions_numbering (h : a.Fresh g) (hr : r ∈ a.registers) (hslot : r.isSlot = true)
    (hwrites : a.writes r < UInt32.size - 2) :
    (numbering g a r).versions.toNat = a.writes r + 1 := by
  rw [h.writes_eq hr hslot] at hwrites ⊢
  rw [← total_perm (Graph.order_perm g)]
  exact (Track.Numbering.counted_order (fun c u hu => h.local_use? hu) (by omega)).versions

theorem Fresh.made_lt (h : a.Fresh g) (hr : r ∈ a.registers) (hslot : r.isSlot = true)
    (hwrites : a.writes r < UInt32.size - 2) {b : Nat} {u : Use} (hu : a.use? b r = some u)
    {v : Version} (hv : v ∈ u.made) :
    0 < v.toNat ∧ v ≠ Version.inherited ∧ v ≠ Version.unknown := by
  have hbound := h.made_le hr hslot hwrites hu hv
  refine ⟨hbound.1, ?_, ?_⟩
  · intro heq
    have hnat : v.toNat = UInt32.size - 2 := congrArg UInt32.toNat heq
    omega
  · intro heq
    have hnat : v.toNat = UInt32.size - 1 := congrArg UInt32.toNat heq
    omega

theorem Fresh.last_eq (h : a.Fresh g) (hr : r ∈ a.registers) (hslot : r.isSlot = true)
    (hwrites : a.writes r < UInt32.size - 2) (b : Nat) :
    ((a.use? b r).bind fun u => u.info.last.filter fun v => v != Version.unknown)
      = a.lastWrite? r b := by
  unfold lastWrite?
  cases hu : a.use? b r with
  | none => rfl
  | some u =>
    simp only [Option.bind_some]
    rw [(h.coherent_use? hr hslot hu).last]
    cases hlast : u.made.getLast? with
    | none => rfl
    | some v =>
      have hv := List.mem_of_getLast? hlast
      have hknown := (h.made_lt hr hslot hwrites hu hv).2.2
      simp [Option.filter, hknown]

/-! ### Physical registers -/

theorem Fresh.regular_use? (h : a.Fresh g) (hr : r ∈ a.registers) {b : Nat} {u : Use}
    (hu : a.use? b r = some u) : u.Regular := by
  cases hslot : r.isSlot with
  | true => exact (h.coherent_use? hr hslot hu).toRegular
  | false =>
    rw [h.use?_physical hr hslot] at hu
    obtain ⟨u₀, hu₀, rfl⟩ := Option.map_eq_some_iff.mp hu
    have hentry := (h.local_use? hu₀).toRegular.mapWrites fun _ => Version.entry
    exact ⟨hentry.changes, hentry.readsFirst, hentry.acts⟩

/-- A write of a physical register makes the entry version again. -/
theorem Fresh.made_physical (h : a.Fresh g) (hr : r ∈ a.registers) (hslot : r.isSlot = false)
    {b : Nat} {u : Use} (hu : a.use? b r = some u) {v : Version} (hv : v ∈ u.made) :
    v = Version.entry := by
  rw [h.use?_physical hr hslot] at hu
  obtain ⟨u₀, _, rfl⟩ := Option.map_eq_some_iff.mp hu
  have hmade : (Track.fixUse u₀).made = u₀.made.map fun _ => Version.entry :=
    Use.made_mapWrites (fun _ => Version.entry) u₀
  rw [hmade] at hv
  obtain ⟨_, _, hentry⟩ := List.mem_map.mp hv
  exact hentry.symm

end Uses

end Analysis

end RegisterWeb
