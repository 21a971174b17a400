import Mathlib
import RegisterWeb.Proofs.Cut.Result

/-!
What is left of the versions of a register variable. The list of replacements sends each version
that was merged into a lower one to the lowest of its web, which no replacement sends further. All
versions that an accepted section speaks of are such lowest ones, among those that were numbered.
-/

namespace RegisterWeb

/-! ### Replacements in ascending order -/

namespace Replace

variable {rs : List Replace} {v : Version}

/-- Whether the replacement at an index replaces no lower version than the given one. -/
def atLeast (rs : List Replace) (v : Version) (i : Nat) : Bool :=
  rs[i]?.all fun x => decide (v ≤ x.old)

theorem rename_cases (rs : List Replace) (v : Version) :
    rename rs v = v ∨ ∃ x ∈ rs, x.old = v ∧ rename rs v = x.new := by
  unfold rename
  dsimp only
  split
  · rename_i x hx
    split
    · rename_i hold
      exact Or.inr ⟨x, List.mem_of_getElem? hx, hold, rfl⟩
    · exact Or.inl rfl
  · exact Or.inl rfl

theorem upward_atLeast (h : rs.Pairwise fun x y => x.old < y.old) (v : Version) :
    Upward rs.length (atLeast rs v) := by
  intro i j hij hj hi
  have hlt := List.pairwise_iff_getElem.mp h
  simp only [atLeast, List.getElem?_eq_getElem hj, Option.all_some, decide_eq_true_eq]
  simp only [atLeast, List.getElem?_eq_getElem (Nat.lt_of_le_of_lt hij hj), Option.all_some,
    decide_eq_true_eq] at hi
  rcases Nat.lt_or_eq_of_le hij with hij | rfl
  · exact UInt32.le_trans hi (UInt32.le_of_lt (hlt i j _ hj hij))
  · exact hi

/-- In an ascending list the search finds every replacement. -/
theorem rename_of_mem (h : rs.Pairwise fun x y => x.old < y.old) {x : Replace} (hx : x ∈ rs) :
    rename rs x.old = x.new := by
  obtain ⟨j, hj, rfl⟩ := List.getElem_of_mem hx
  have hlt := List.pairwise_iff_getElem.mp h
  unfold rename
  dsimp only
  generalize hk : bisect rs.length _ = k
  have hsearch : bisect rs.length (atLeast rs rs[j].old) = k := by
    rw [← hk]
    congr 1
    funext i
    unfold atLeast
    cases rs[i]? <;> rfl
  have hsplit : ∀ i (hi : i < rs.length), rs[j].old ≤ rs[i].old ↔ k ≤ i := by
    intro i hi
    rw [← hsearch, ← bisect_splits (upward_atLeast h _) hi]
    simp [atLeast, List.getElem?_eq_getElem hi]
  have hkj : k ≤ j := (hsplit j hj).mp (UInt32.le_refl _)
  have hlow := (hsplit k (Nat.lt_of_le_of_lt hkj hj)).mpr (Nat.le_refl k)
  have hkeq : k = j := by
    by_contra hne
    have hless := hlt k j (Nat.lt_of_le_of_lt hkj hj) hj (by omega)
    exact UInt32.lt_irrefl _ (UInt32.lt_of_le_of_lt hlow hless)
  rw [hkeq, List.getElem?_eq_getElem hj]
  simp

/-- The replacements of `n` versions by their canonical ones: ascending, each by a lower version that
is not replaced itself, so that renaming once is enough. -/
structure Reduces (rs : List Replace) (n : Nat) (canonical : Version → Version) : Prop where
  ascending : rs.Pairwise fun x y => x.old < y.old
  lower : ∀ x ∈ rs, x.new < x.old ∧ x.old.toNat < n
  apart : ∀ x ∈ rs, ∀ y ∈ rs, x.new ≠ y.old
  rename_eq : ∀ v, v.toNat < n → rename rs v = canonical v
  rename_rename : ∀ v, rename rs (rename rs v) = rename rs v

end Replace

/-! ### The replacements of a flow -/

namespace Track

variable {f : Flow} {x : Replace} {v : Version}

theorem mem_merged : x ∈ merged f ↔
    x.old.toNat < f.versions.toNat ∧ x.new = f.webs.root x.old ∧ x.new ≠ x.old := by
  obtain ⟨old, new⟩ := x
  simp only [merged, List.mem_filterMap, List.mem_range]
  constructor
  · intro hx
    obtain ⟨i, hi, hx⟩ := hx
    split at hx
    · cases hx
    · rename_i hroot
      cases hx
      have hsize : i < UInt32.size := Nat.lt_trans hi f.versions.toNat_lt
      exact ⟨by rwa [UInt32.toNat_ofNat_of_lt' hsize], rfl, hroot⟩
  · intro hx
    obtain ⟨hlt, hnew, hne⟩ := hx
    refine ⟨old.toNat, hlt, ?_⟩
    rw [UInt32.ofNat_toNat, if_neg (hnew ▸ hne), hnew]

theorem pairwise_merged (f : Flow) : (merged f).Pairwise fun x y => x.old < y.old := by
  unfold merged
  rw [List.pairwise_filterMap]
  refine List.pairwise_lt_range.imp_of_mem ?_
  intro i j hi hj hij x hx y hy
  have hsize := f.versions.toNat_lt
  rw [List.mem_range] at hi hj
  dsimp only at hx hy
  split at hx
  · cases hx
  · split at hy
    · cases hy
    · cases hx
      cases hy
      rw [UInt32.lt_iff_toNat_lt, UInt32.toNat_ofNat_of_lt' (Nat.lt_trans hi hsize),
        UInt32.toNat_ofNat_of_lt' (Nat.lt_trans hj hsize)]
      exact hij

theorem rename_merged (hv : v.toNat < f.versions.toNat) :
    Replace.rename (merged f) v = f.webs.root v := by
  by_cases hroot : f.webs.root v = v
  · rcases Replace.rename_cases (merged f) v with hsame | ⟨x, hx, rfl, hnew⟩
    · rw [hsame, hroot]
    · rw [hnew, (mem_merged.mp hx).2.1]
  · exact Replace.rename_of_mem (x := ⟨v, f.webs.root v⟩) (pairwise_merged f)
      (mem_merged.mpr ⟨hv, rfl, hroot⟩)

theorem rename_merged_of_le (hv : f.versions.toNat ≤ v.toNat) :
    Replace.rename (merged f) v = v := by
  rcases Replace.rename_cases (merged f) v with hsame | ⟨x, hx, rfl, _⟩
  · exact hsame
  · exact absurd (mem_merged.mp hx).1 (Nat.not_lt.mpr hv)

theorem root_lt (hv : v.toNat < f.versions.toNat) : (f.webs.root v).toNat < f.versions.toNat :=
  Nat.lt_of_le_of_lt (UInt32.le_iff_toNat_le.mp (f.webs.root_le v)) hv

theorem reduces_merged (hf : f.webs.Downward) :
    Replace.Reduces (merged f) f.versions.toNat f.webs.root := by
  refine ⟨pairwise_merged f, ?_, ?_, fun v hv => rename_merged hv, ?_⟩
  · intro x hx
    obtain ⟨hlt, hnew, hne⟩ := mem_merged.mp hx
    exact ⟨UInt32.lt_of_le_of_ne (hnew ▸ f.webs.root_le x.old) hne, hlt⟩
  · intro x hx y hy heq
    obtain ⟨_, hnew, _⟩ := mem_merged.mp hx
    obtain ⟨_, hnew', hne⟩ := mem_merged.mp hy
    rw [hnew', ← heq, hnew] at hne
    exact hne (hf.root_root x.old)
  · intro v
    by_cases hv : v.toNat < f.versions.toNat
    · rw [rename_merged hv, rename_merged (root_lt hv), hf.root_root]
    · rw [rename_merged_of_le (Nat.le_of_not_lt hv), rename_merged_of_le (Nat.le_of_not_lt hv)]

end Track

/-! ### The versions that flow -/

/-- The versions with a number below that of the given one. -/
def VersionSet.below (v : Version) : VersionSet :=
  (List.range v.toNat).map UInt32.ofNat

theorem VersionSet.mem_below {v u : Version} : u ∈ below v ↔ u.toNat < v.toNat := by
  rw [below, List.mem_map]
  constructor
  · intro hu
    obtain ⟨i, hi, rfl⟩ := hu
    rw [List.mem_range] at hi
    rwa [UInt32.toNat_ofNat_of_lt' (Nat.lt_trans hi v.toNat_lt)]
  · intro hu
    exact ⟨u.toNat, List.mem_range.mpr hu, UInt32.ofNat_toNat⟩

namespace Flow

variable {g : Graph} {f : Flow} {s : VersionSet}

/-- All that is made and all that enters blocks lies in a set, and so does all that routines leave
behind but for the inherited version. -/
structure Draws (s : VersionSet) (f : Flow) : Prop where
  made : ∀ b v, f.made.get b = some v → v ∈ s
  effects : ∀ c, ∀ v ∈ f.effects.get c, v ≠ Version.inherited → v ∈ s
  entering : ∀ b, f.entering.get b ⊆ s

theorem Draws.leaving (h : f.Draws s) (b : Nat) : f.leaving b ⊆ s := by
  intro v hv
  rcases mem_leaving.mp hv with hv | ⟨_, hv⟩
  · exact h.made b v hv
  · exact h.entering b hv

theorem Draws.passing (h : f.Draws s) (g : Graph) (b : Nat) : f.passing g b ⊆ s := by
  intro v hv
  cases hcalls : (g.block b).calls with
  | false =>
    rw [passing_of_not_calls hcalls] at hv
    exact h.leaving b hv
  | true =>
    obtain ⟨c, _, hv⟩ := (mem_passing_of_calls hcalls).mp hv
    rcases (VersionSet.mem_resolve _ _ v).mp hv with ⟨hv, hne⟩ | ⟨_, hv⟩
    · exact h.effects c v hv hne
    · exact h.leaving b hv

theorem Draws.receive (h : f.Draws s) (c : Nat) {t : VersionSet} (ht : t ⊆ s) :
    (f.receive c t).Draws s := by
  refine ⟨h.made, h.effects, fun b v hv => ?_⟩
  rw [Flow.receive, Table.get_set] at hv
  split at hv
  · rcases (VersionSet.mem_union _ _ v).mp hv with hv | hv
    · exact h.entering c hv
    · exact ht hv
  · exact h.entering b hv

/-- Inside of a routine there is the inherited version as well. -/
theorem Draws.body (h : f.Draws s) (g : Graph) (q : Routine) :
    (f.body g q).Draws (Version.inherited :: s) := by
  -- at the start nothing but the inherited version enters, and each block hands on what it may have
  refine saturate_keeps (Draws (Version.inherited :: s)) (fun k hk => ?_) _ ⟨?_, ?_, ?_⟩
  · refine foldl_keeps (fun k b hk => ?_) q.blocks k hk
    exact foldl_keeps (fun k c (hk : k.Draws _) => hk.receive c (hk.passing g b)) _ k hk
  · exact fun b v hv => List.mem_cons_of_mem _ (h.made b v hv)
  · exact fun c v hv hne => List.mem_cons_of_mem _ (h.effects c v hv hne)
  · intro b v hv
    rw [Table.get_set] at hv
    split at hv
    · exact List.mem_singleton.mp hv ▸ List.mem_cons_self
    · rw [Table.get_blank] at hv
      exact absurd hv List.not_mem_nil

theorem Draws.learn (h : f.Draws s) (g : Graph) (q : Routine) : (f.learn g q).Draws s := by
  refine ⟨h.made, fun c v hv hne => ?_, h.entering⟩
  have hbody := h.body g q
  rw [Flow.learn, Table.get_set] at hv
  split at hv
  · rcases (VersionSet.mem_union _ _ v).mp hv with hv | hv
    · exact h.effects q.entry v hv hne
    · rcases mem_exits.mp hv with ⟨b, _, hv⟩ | ⟨b, _, hv⟩
      · exact (List.mem_cons.mp (hbody.leaving b hv)).resolve_left hne
      · exact (List.mem_cons.mp (hbody.passing g b hv)).resolve_left hne
  · exact h.effects c v hv hne

theorem Draws.withEffects (h : f.Draws s) (g : Graph) : (f.withEffects g).Draws s :=
  saturate_keeps (Draws s)
    (fun k hk => foldl_keeps (fun k q (hk : k.Draws s) => hk.learn g q) g.routines k hk) f h

/-- A set that holds the entry version, all that is made and all that routines leave behind holds
whatever enters a block. -/
theorem Sound.entering_within (h : f.Sound g) (hentry : Version.entry ∈ s)
    (hmade : ∀ b v, f.made.get b = some v → v ∈ s)
    (heffects : ∀ c, ∀ v ∈ f.effects.get c, v ≠ Version.inherited → v ∈ s) (b : Nat) :
    f.entering.get b ⊆ s := by
  let filled : Flow := { f with entering := Table.tabulate g.size fun _ => s }
  have hfilled : ∀ b, filled.entering.get b ⊆ s := by
    intro b
    show (Table.tabulate g.size fun _ => s).get b ⊆ s
    rw [Table.get_tabulate]
    split
    · exact List.Subset.refl s
    · exact List.nil_subset s
  have hdraws : filled.Draws s := ⟨hmade, heffects, hfilled⟩
  refine List.Subset.trans (h.least filled.entering ?_ b) (hfilled b)
  intro b hb v hv
  rw [Table.get_tabulate, if_pos hb]
  rcases mem_incoming.mp hv with ⟨_, rfl⟩ | ⟨e, _, hv⟩
  · exact hentry
  · unfold along at hv
    split at hv
    · exact hdraws.leaving e.block hv
    · exact hdraws.passing g e.block hv

end Flow

namespace Analysis

variable {g : Graph} {a s : Analysis} {r : Register} {t : Track} {f : Flow}

theorem Fresh.versions_of_alike (h : a.Fresh g) (hr : r ∈ a.registers) (hslot : r.isSlot = true)
    (hwrites : a.writes r < UInt32.size - 2)
    (hf : ((Track.initial g.size (numbering g a r)).withEffects g).Alike f) :
    f.versions.toNat = a.writes r + 1 := by
  have hframe := ((Flow.tidy_initial g.size (numbering g a r)).withEffects g).1.frame
  rw [hf.versions, hframe]
  exact h.versions_numbering hr hslot hwrites

theorem Solved.made_lt (h : a.Solved g r f) (hfresh : a.Fresh g) (hr : r ∈ a.registers)
    (hslot : r.isSlot = true) (hwrites : a.writes r < UInt32.size - 2) {b : Nat} {u : Use}
    (hu : a.use? b r = some u) {v : Version} (hv : v ∈ u.made) :
    v.toNat < f.versions.toNat := by
  rw [hfresh.versions_of_alike hr hslot hwrites (h.alike hfresh)]
  exact Nat.lt_succ_of_le (hfresh.made_le hr hslot hwrites hu hv).2

/-- Routines leave behind and blocks are entered with versions that were numbered. -/
theorem Fresh.draws (h : a.Fresh g) (hr : r ∈ a.registers) (hslot : r.isSlot = true)
    (hwrites : a.writes r < UInt32.size - 2) (hsound : f.Sound g)
    (hf : ((Track.initial g.size (numbering g a r)).withEffects g).Alike f) :
    f.Draws (VersionSet.below f.versions) := by
  have hversions := h.versions_of_alike hr hslot hwrites hf
  have hmade : ∀ b v, f.made.get b = some v → v ∈ VersionSet.below f.versions := by
    intro b v hv
    rw [(h.flow_rules hr hslot hf b).2, h.last_eq hr hslot hwrites, lastWrite?] at hv
    obtain ⟨u, hu, hlast⟩ := Option.bind_eq_some_iff.mp hv
    rw [VersionSet.mem_below, hversions]
    exact Nat.lt_succ_of_le (h.made_le hr hslot hwrites hu (List.mem_of_getLast? hlast)).2
  have hstart : (Track.initial g.size (numbering g a r)).Draws (VersionSet.below f.versions) := by
    have hframe := ((Flow.tidy_initial g.size (numbering g a r)).withEffects g).1.frame
    refine ⟨fun b v hv => hmade b v ?_, fun c v hv => ?_, fun b v hv => ?_⟩
    · rw [hf.made, hframe]
      exact hv
    · rw [Track.initial, Table.get_blank] at hv
      exact absurd hv List.not_mem_nil
    · rw [Track.initial, Table.get_blank] at hv
      exact absurd hv List.not_mem_nil
  have heffects : ∀ c, ∀ v ∈ f.effects.get c, v ≠ Version.inherited →
      v ∈ VersionSet.below f.versions := by
    rw [hf.effects]
    exact (hstart.withEffects g).effects
  have hentry : Version.entry ∈ VersionSet.below f.versions := by
    rw [VersionSet.mem_below, hversions]
    exact Nat.succ_pos _
  exact ⟨hmade, heffects, hsound.entering_within hentry hmade heffects⟩

/-- All versions that enter blocks or are left behind by routines were numbered. -/
theorem Solved.within (h : a.Solved g r f) (hfresh : a.Fresh g) (hr : r ∈ a.registers)
    (hslot : r.isSlot = true) (hwrites : a.writes r < UInt32.size - 2) :
    (∀ b, ∀ v ∈ f.entering.get b, v.toNat < f.versions.toNat) ∧
      ∀ c, ∀ v ∈ f.effects.get c, v ≠ Version.inherited → v.toNat < f.versions.toNat := by
  have hdraws := hfresh.draws hr hslot hwrites h.sound (h.alike hfresh)
  refine ⟨fun b v hv => ?_, fun c v hv hne => ?_⟩
  · exact VersionSet.mem_below.mp (hdraws.entering b hv)
  · exact VersionSet.mem_below.mp (hdraws.effects c v hv hne)

/-! ### Queries about a register -/

/-- The replacements of a register; there are none if it is not listed. -/
def replacesOf (a : Analysis) (r : Register) : List Replace :=
  (a.replaces.lookup r).getD []

/-- The number of versions of a register before merging; one that is not used has its entry version. -/
def versions (a : Analysis) (r : Register) : Nat :=
  match a.track? r with
  | some t => t.versions
  | none => 1

/-- The versions made inside the routine entered at a block that may be left behind by it. -/
def definitions (a : Analysis) (r : Register) (entry : Nat) : VersionSet :=
  match a.track? r with
  | some t => t.definitions entry
  | none => []

/-- A version of a register that no replacement changes. -/
def Remains (a : Analysis) (r : Register) (v : Version) : Prop :=
  v.toNat < a.versions r ∧ Replace.rename (a.replacesOf r) v = v

theorem Fresh.replacesOf_eq (h : a.Fresh g) (hs : a.settle.outcome = .ok s) (r : Register) :
    s.replacesOf r = ((s.track? r).map Track.replaces).getD [] := by
  have hreplaces : s.replaces =
      (a.registers.filter fun r => !(settledTrack g a r).replaces.isEmpty).map
        fun r => (r, (settledTrack g a r).replaces) := by
    rw [replaces, h.tracks_outcome hs, List.filter_map, List.map_map]
    exact List.map_congr_left fun r _ => by simp [register_settledTrack]
  rw [replacesOf, hreplaces, lookup_map_pair]
  by_cases hr : r ∈ a.registers
  · have htrack : s.track? r = some (settledTrack g a r) := h.track?_outcome hs hr
    rw [htrack]
    simp only [List.mem_filter, hr, true_and, Bool.not_eq_true', List.isEmpty_eq_false_iff]
    by_cases hnone : (settledTrack g a r).replaces = []
    · simp [hnone]
    · simp [hnone]
  · rw [track?_outcome_eq_none hs hr, if_neg fun hmem => hr (List.mem_filter.mp hmem).1]
    rfl

/-- The settled track of a register variable, with the answers to queries about it. -/
structure Answers (s : Analysis) (r : Register) (t : Track) (f : Flow) : Prop where
  track : s.track? r = some t
  flow : t.flow = some f
  replaces : s.replacesOf r = Track.merged f

theorem Fresh.answers (h : a.Fresh g) (hg : g.WellFormed) (hs : a.settle.outcome = .ok s)
    (hr : r ∈ a.registers) (hslot : r.isSlot = true) :
    ∃ t f, s.Answers r t f ∧ a.Settled g r t f := by
  obtain ⟨t, f, ht, hsettled⟩ := h.settled hg hs hr hslot
  refine ⟨t, f, ⟨ht, hsettled.flow, ?_⟩, hsettled⟩
  have htrack : t = settledTrack g a r := Option.some.inj (ht.symm.trans (h.track?_outcome hs hr))
  have hflow := hsettled.flow
  rw [htrack] at hflow
  rw [h.replacesOf_eq hs, ht, htrack, Option.map_some, Option.getD_some,
    replaces_settledTrack hflow]

section Answers

variable {v : Version}

theorem Answers.versions_eq (h : s.Answers r t f) : s.versions r = f.versions.toNat := by
  simp only [versions, h.track, Track.versions, h.flow]

/-- The canonical version of a numbered one remains. -/
theorem Answers.remains (h : s.Answers r t f) (hf : f.webs.Downward)
    (hv : v.toNat < f.versions.toNat) : s.Remains r (f.webs.root v) := by
  have hlt := Track.root_lt hv
  rw [Remains, h.versions_eq, h.replaces, Track.rename_merged hlt]
  exact ⟨hlt, hf.root_root v⟩

theorem Answers.remains_of_mem (h : s.Answers r t f) (hf : f.webs.Downward) {set : VersionSet}
    (hset : ∀ v ∈ set, v.toNat < f.versions.toNat) (hv : v ∈ f.webs.canonical set) :
    s.Remains r v := by
  obtain ⟨u, hu, rfl⟩ := (Webs.mem_canonical _ _ _).mp hv
  exact h.remains hf (hset u hu)

end Answers

end Analysis

/-! ### Uses after renaming -/

/-- A use as it stands before renaming: nothing is known of the version on entry, and the first
version is that of the first write. -/
structure Use.Unentered (u : Use) : Prop where
  before : u.info.before = none
  first : u.info.first = u.made.head?
  nonempty : u.accesses ≠ []

theorem Use.Unentered.mapWrites {u : Use} (h : u.Unentered) (φ : Version → Version) :
    (u.mapWrites φ).Unentered := by
  refine ⟨h.before, ?_, ?_⟩
  · rw [made_mapWrites, List.head?_map, ← h.first]
    rfl
  · exact fun hnil => h.nonempty (List.map_eq_nil_iff.mp hnil)

theorem Summary.unentered_use? {us : List Usage} {r : Register} {u : Use}
    (h : (ofUsages us).use? r = some u) : u.Unentered := by
  rw [use?_eq] at h
  split at h
  · cases h
  · rename_i hne
    cases h
    refine ⟨rfl, rfl, ?_⟩
    obtain ⟨t, ts, hts⟩ := List.exists_cons_of_ne_nil hne
    rw [hts]
    cases hw : t.writes <;> simp [Use.ofAccesses, Touch.number, hw]

/-- What is known of the versions that a block has of a register, if `remains` says which versions
are left: the last one is known, and the others unless the block makes none or reads none. -/
structure Use.Known (remains : Version → Prop) (entering leaving : VersionSet) (u : Use) :
    Prop where
  before : ∀ v, u.info.before = some v → remains v
  before_none : u.info.before = none → u.info.readsFirst = false ∧ entering.length ≠ 1
  first : ∀ v, u.info.first = some v → remains v
  first_none : u.info.first = none → u.info.isWritten = false
  last : ∃ v, u.info.last = some v ∧ remains v ∧ leaving = [v]
  writes : ∀ x ∈ u.accesses, ∀ v, x.write = some v → remains v

section Renamed

variable {webs : Webs} {entering leaving : VersionSet} {u : Use} {remains : Version → Prop}

theorem Use.Coherent.isWritten_iff (h : u.Coherent) : u.info.isWritten = true ↔ u.made ≠ [] := by
  rw [Info.isWritten, bne_iff_ne, h.changes]
  exact not_congr List.length_eq_zero_iff

theorem Use.Unentered.before_renameUse (h : u.Unentered) :
    (Track.renameUse webs entering u).info.before =
      if u.info.readsFirst || entering.length == 1 then entering.head? else none := by
  rw [← h.before]
  rfl

/-- The version on entry is one that enters. -/
theorem Use.Unentered.mem_of_before (h : u.Unentered) {v : Version}
    (hv : (Track.renameUse webs entering u).info.before = some v) : v ∈ entering := by
  rw [h.before_renameUse] at hv
  split at hv
  · exact List.mem_of_head? hv
  · cases hv

/-- The version on entry is known where the block reads it and where only one enters. -/
theorem Use.Unentered.unread_of_before (h : u.Unentered)
    (hread : u.info.readsFirst = true → ∃ v, entering = [v])
    (hnone : (Track.renameUse webs entering u).info.before = none) :
    u.info.readsFirst = false ∧ entering.length ≠ 1 := by
  rw [h.before_renameUse] at hnone
  split at hnone
  · rename_i hknown
    rw [List.head?_eq_none_iff] at hnone
    rcases Bool.or_eq_true_iff.mp hknown with hfirst | hone
    · obtain ⟨v, hv⟩ := hread hfirst
      rw [hv] at hnone
      cases hnone
    · rw [hnone] at hone
      cases hone
  · rename_i hunknown
    rw [Bool.or_eq_true, beq_iff_eq, not_or, Bool.not_eq_true] at hunknown
    exact hunknown

theorem Use.Coherent.last_renameUse (h : u.Coherent) :
    (Track.renameUse webs entering u).info.last =
      if u.info.isWritten then u.made.getLast?.map webs.root
      else (Track.renameUse webs entering u).info.before := by
  rw [← h.last]
  rfl

/-- The version that a block ends with is the only one that leaves it: the last one made there, and
in a block that makes none the one that enters. -/
theorem Use.Coherent.leaving_renameUse (h : u.Coherent) (hbare : u.Unentered)
    (hread : u.made = [] → u.info.readsFirst = true ∧ ∃ v, entering = [v])
    (hleaving : leaving =
      match u.made.getLast? with
      | some w => [webs.root w]
      | none => entering) :
    ∃ v, (Track.renameUse webs entering u).info.last = some v ∧ leaving = [v] ∧
      ((∃ w ∈ u.made, v = webs.root w) ∨ v ∈ entering) := by
  rw [h.last_renameUse, hleaving]
  cases hmade : u.made.getLast? with
  | some w =>
    have hmem := List.mem_of_getLast? hmade
    rw [if_pos (h.isWritten_iff.mpr (List.ne_nil_of_mem hmem))]
    exact ⟨webs.root w, rfl, rfl, Or.inl ⟨w, hmem, rfl⟩⟩
  | none =>
    rw [List.getLast?_eq_none_iff] at hmade
    obtain ⟨hfirst, v, hv⟩ := hread hmade
    rw [if_neg fun hwritten => h.isWritten_iff.mp hwritten hmade, hbare.before_renameUse, hfirst,
      hv]
    exact ⟨v, rfl, rfl, Or.inr List.mem_cons_self⟩

/-- A renamed use is known if the versions that enter and those made there remain. -/
theorem Use.Coherent.known_renameUse (h : u.Coherent) (hbare : u.Unentered)
    (hentering : ∀ v ∈ entering, remains v) (hmade : ∀ w ∈ u.made, remains (webs.root w))
    (hread : u.info.readsFirst = true → ∃ v, entering = [v])
    (hunmade : u.made = [] → u.info.readsFirst = true)
    (hleaving : leaving =
      match u.made.getLast? with
      | some w => [webs.root w]
      | none => entering) :
    (Track.renameUse webs entering u).Known remains entering leaving where
  before _ hv := hentering _ (hbare.mem_of_before hv)
  before_none hnone := hbare.unread_of_before hread hnone
  first v hv := by
    obtain ⟨w, hw, rfl⟩ := Option.map_eq_some_iff.mp hv
    rw [hbare.first] at hw
    exact hmade w (List.mem_of_head? hw)
  first_none hnone := by
    have hfirst := Option.map_eq_none_iff.mp hnone
    rw [hbare.first, List.head?_eq_none_iff] at hfirst
    exact Bool.eq_false_iff.mpr fun hwritten => h.isWritten_iff.mp hwritten hfirst
  last := by
    obtain ⟨v, hlast, heq, hv⟩ := h.leaving_renameUse hbare
      (fun hnil => ⟨hunmade hnil, hread (hunmade hnil)⟩) hleaving
    refine ⟨v, hlast, ?_, heq⟩
    rcases hv with ⟨w, hw, rfl⟩ | hv
    · exact hmade w hw
    · exact hentering v hv
  writes x hx v hv := by
    obtain ⟨y, hy, rfl⟩ := List.mem_map.mp hx
    obtain ⟨w, hw, rfl⟩ := Option.map_eq_some_iff.mp hv
    exact hmade w (List.mem_filterMap.mpr ⟨y, hy, hw⟩)

end Renamed

namespace Analysis

variable {g : Graph} {a s : Analysis} {r : Register} {t : Track} {f : Flow}

theorem Fresh.unentered_use? (h : a.Fresh g) (hr : r ∈ a.registers) (hslot : r.isSlot = true)
    {b : Nat} {u : Use} (hu : a.use? b r = some u) : u.Unentered := by
  obtain ⟨base, hbase⟩ := h.use?_shifted hr hslot b
  rw [hbase] at hu
  obtain ⟨u₀, hu₀, rfl⟩ := Option.map_eq_some_iff.mp hu
  obtain ⟨placed, hplaced⟩ := h.summaries
  rw [Table.get_tabulate] at hu₀
  split at hu₀
  · rename_i hb
    rw [hplaced, summarize, Table.get_tabulate, if_pos hb] at hu₀
    exact (Summary.unentered_use? hu₀).mapWrites _
  · cases hu₀

theorem Settled.leaving_eq (h : a.Settled g r t f) (hfresh : a.Fresh g) (hr : r ∈ a.registers)
    (hslot : r.isSlot = true) (hwrites : a.writes r < UInt32.size - 2) {b : Nat} {u : Use}
    (hu : a.use? b r = some u) : t.leaving b =
      match u.made.getLast? with
      | some w => [f.webs.root w]
      | none => f.webs.canonical (f.entering.get b) := by
  have hmade : f.made.get b = u.made.getLast? := by
    rw [(h.toSolved.lastWrite?_eq hfresh hr hslot hwrites).1, lastWrite?, hu, Option.bind_some]
  simp only [Track.leaving, h.flow, Flow.leaving, hmade]
  cases u.made.getLast? <;> rfl

/-- A block that makes no version of a register that it uses reads the version on entry. -/
theorem Fresh.readsFirst_of_made (h : a.Fresh g) (hr : r ∈ a.registers) (hslot : r.isSlot = true)
    {b : Nat} {u : Use} (hu : a.use? b r = some u) (hmade : u.made = []) :
    u.info.readsFirst = true := by
  obtain ⟨x, xs, hacc⟩ := List.exists_cons_of_ne_nil (h.unentered_use? hr hslot hu).nonempty
  have hregular := h.regular_use? hr hu
  have hx : x ∈ u.accesses := hacc ▸ List.mem_cons_self
  have hquiet : x.write = none := by
    rw [Use.made, List.filterMap_eq_nil_iff] at hmade
    exact hmade x hx
  rw [hregular.readsFirst, hacc]
  exact (hregular.acts x hx).resolve_right fun hne => hne hquiet

theorem Settled.entering_eq (h : a.Settled g r t f) (b : Nat) :
    t.entering b = f.webs.canonical (f.entering.get b) := by
  simp only [Track.entering, h.flow]

/-- Every version that enters a block remains. -/
theorem Settled.remains_entering (h : a.Settled g r t f) (hfresh : a.Fresh g)
    (hanswers : s.Answers r t f) (hr : r ∈ a.registers) (hslot : r.isSlot = true)
    (hwrites : a.writes r < UInt32.size - 2) {b : Nat} {v : Version} (hv : v ∈ t.entering b) :
    s.Remains r v := by
  rw [h.entering_eq] at hv
  exact hanswers.remains_of_mem h.sound.webs.downward
    ((h.toSolved.within hfresh hr hslot hwrites).1 b) hv

/-- Where the version on entry is read, one version enters, up to merging. -/
theorem Settled.entering_of_readsFirst (h : a.Settled g r t f) {b : Nat} {u : Use}
    (hu : a.use? b r = some u) (hfirst : u.info.readsFirst = true) : ∃ v, t.entering b = [v] := by
  have hreads : f.reads.get b = true := by rw [h.reads, hu, Option.any_some, hfirst]
  obtain ⟨v, hv⟩ := List.exists_mem_of_ne_nil _ (h.defined b hreads)
  exact ⟨f.webs.root v, (h.entering_eq b).trans (h.canonical_entering hv hreads)⟩

theorem Settled.known (h : a.Settled g r t f) (hfresh : a.Fresh g)
    (hanswers : s.Answers r t f) (hr : r ∈ a.registers) (hslot : r.isSlot = true)
    (hwrites : a.writes r < UInt32.size - 2) {b : Nat} {u : Use} (hu : s.use? b r = some u) :
    u.Known (s.Remains r) (t.entering b) (t.leaving b) := by
  rw [use?, hanswers.track, Option.bind_some, h.uses] at hu
  obtain ⟨u₀, hu₀, rfl⟩ := Option.map_eq_some_iff.mp hu
  have hmade : ∀ v ∈ u₀.made, s.Remains r (f.webs.root v) := fun v hv =>
    hanswers.remains h.sound.webs.downward (h.toSolved.made_lt hfresh hr hslot hwrites hu₀ hv)
  have hleaving := h.leaving_eq hfresh hr hslot hwrites hu₀
  rw [← h.entering_eq] at hleaving ⊢
  exact (hfresh.coherent_use? hr hslot hu₀).known_renameUse (hfresh.unentered_use? hr hslot hu₀)
    (fun _ => h.remains_entering hfresh hanswers hr hslot hwrites) hmade
    (h.entering_of_readsFirst hu₀) (hfresh.readsFirst_of_made hr hslot hu₀) hleaving

end Analysis

/-! ### Live instances -/

theorem Walk.Extends.origin {leaves : Bool} {stop p since : Offset} {v : Version}
    {current : VersionSet} {xs : List Access} (h : Extends leaves stop v p current since xs) :
    v ∈ current ∨ ∃ x ∈ xs, x.write = some v := by
  induction xs generalizing current since with
  | nil => exact Or.inl h.2.1
  | cons x xs ih =>
    rcases h with ⟨_, hv, _⟩ | h
    · exact Or.inl hv
    · cases hw : x.write with
      | some w =>
        rw [hw] at h
        rcases h with ⟨rfl, _⟩ | h
        · exact Or.inr ⟨x, List.mem_cons_self, hw⟩
        · rcases ih h with hv | ⟨y, hy, hv⟩
          · rw [List.mem_singleton.mp hv]
            exact Or.inr ⟨x, List.mem_cons_self, hw⟩
          · exact Or.inr ⟨y, List.mem_cons_of_mem x hy, hv⟩
      | none =>
        rw [hw] at h
        rcases ih h with hv | ⟨y, hy, hv⟩
        · exact Or.inl hv
        · exact Or.inr ⟨y, List.mem_cons_of_mem x hy, hv⟩

theorem VersionRanges.Full.exists_of_mem {m : VersionRanges} (hfull : m.Full) (h : m.Ordered)
    {e : Version × Ranges} (he : e ∈ m) : ∃ p, (m.ranges e.1).contains p = true := by
  induction m with
  | nil => exact absurd he List.not_mem_nil
  | cons d m ih =>
    obtain ⟨w, rs⟩ := d
    rcases List.mem_cons.mp he with rfl | he
    · obtain ⟨p, _, hp⟩ := hfull.exists_contains h
      exact ⟨p, hp⟩
    · obtain ⟨p, hp⟩ := ih (fun e he => hfull e (List.mem_cons_of_mem _ he)) h.tail he
      exact ⟨p, (h.contains_cons e.1 p).mpr (Or.inr hp)⟩

/-- Every version that is live somewhere enters a block or is written in one. -/
theorem LiveInstance.origin_of_mem {g : Graph} {order : List Nat}
    {scopes : Table (Option (Array Bool))} {t : Track} {e : Version × Ranges}
    (he : e ∈ rangesOf g order scopes t) :
    ∃ b, e.1 ∈ t.entering b ∨ ∃ x ∈ t.accesses b, x.write = some e.1 := by
  obtain ⟨p, hp⟩ := full_rangesOf.exists_of_mem ordered_rangesOf he
  obtain ⟨b, _, hlive⟩ := (contains_rangesOf_iff e.1 p).mp hp
  refine ⟨b, hlive.origin.imp_left fun hv => ?_⟩
  split at hv
  · exact hv
  · exact absurd hv List.not_mem_nil

/-- The instances of a register come from the versions that enter blocks and are written there. -/
theorem Analysis.Fresh.origin_of_instance {g : Graph} {a s : Analysis} (h : a.Fresh g)
    (hs : a.settle.outcome = .ok s) {i : LiveInstance} (hi : i ∈ LiveInstance.ofAnalysis s) :
    ∃ t b, s.track? i.inst.register = some t ∧ (i.inst.version ∈ t.entering b ∨
      ∃ x ∈ t.accesses b, x.write = some i.inst.version) := by
  obtain ⟨t, ht, hmem⟩ := List.mem_flatMap.mp (LiveInstance.mem_of_mem_number hi)
  obtain ⟨e, he, heq⟩ := List.mem_map.mp hmem
  have hinst : (⟨t.register, e.1⟩ : Instance) = i.inst := congrArg Prod.fst heq
  obtain ⟨b, horigin⟩ := LiveInstance.origin_of_mem he
  refine ⟨t, b, ?_, ?_⟩
  · rw [← hinst]
    exact h.track?_of_mem_outcome hs ht
  · rw [← hinst]
    exact horigin

/-! ### Only canonical versions remain -/

namespace Analysis

/-- The versions of a register that a settled analysis and its live instances speak of. -/
structure Canonical (s : Analysis) (instances : List LiveInstance) (r : Register) : Prop where
  replaces : Replace.Reduces (s.replacesOf r) (s.versions r) (s.canonical r)
  uses : ∀ b u, s.use? b r = some u → u.Known (s.Remains r) (s.entering b r) (s.leaving b r)
  entering : ∀ b, ∀ v ∈ s.entering b r, s.Remains r v
  leaving : ∀ b, ∀ v ∈ s.leaving b r, s.Remains r v
  definitions : ∀ entry, ∀ v ∈ s.definitions r entry, s.Remains r v
  instances : ∀ i ∈ instances, i.inst.register = r → s.Remains r i.inst.version

variable {g : Graph} {a s : Analysis} {r : Register}

theorem Fresh.canonical_unused (h : a.Fresh g) (hs : a.settle.outcome = .ok s)
    (hr : r ∉ a.registers) : s.Canonical (LiveInstance.ofAnalysis s) r := by
  have hnone := track?_outcome_eq_none hs hr
  have hreplaces : s.replacesOf r = [] := by
    rw [h.replacesOf_eq hs, hnone]
    rfl
  have hversions : s.versions r = 1 := by rw [versions, hnone]
  have hentry : ∀ v ∈ ([Version.entry] : VersionSet), s.Remains r v := by
    intro v hv
    rw [List.mem_singleton.mp hv, Remains, hversions, hreplaces]
    exact ⟨Nat.zero_lt_one, rfl⟩
  exact {
    replaces := by
      rw [hreplaces]
      refine ⟨List.Pairwise.nil, fun x hx => absurd hx List.not_mem_nil,
        fun x hx => absurd hx List.not_mem_nil, fun v _ => ?_, fun v => rfl⟩
      rw [canonical, hnone]
      rfl
    uses := fun b u hu => by
      rw [use?, hnone] at hu
      cases hu
    entering := fun b v hv => by
      rw [Analysis.entering, hnone] at hv
      exact hentry v hv
    leaving := fun b v hv => by
      rw [Analysis.leaving, hnone] at hv
      exact hentry v hv
    definitions := fun entry v hv => by
      rw [Analysis.definitions, hnone] at hv
      exact absurd hv List.not_mem_nil
    instances := fun i hi hreg => by
      obtain ⟨t, b, ht, _⟩ := h.origin_of_instance hs hi
      rw [hreg, hnone] at ht
      cases ht }

variable {t : Track} {f : Flow}

/-- Every version that leaves a block remains. -/
theorem Settled.remains_leaving (h : a.Settled g r t f) (hfresh : a.Fresh g)
    (hanswers : s.Answers r t f) (hr : r ∈ a.registers) (hslot : r.isSlot = true)
    (hwrites : a.writes r < UInt32.size - 2) {b : Nat} {v : Version} (hv : v ∈ t.leaving b) :
    s.Remains r v := by
  cases hu : s.use? b r with
  | some u =>
    obtain ⟨w, _, hw, hlast⟩ := (h.known hfresh hanswers hr hslot hwrites hu).last
    rw [hlast] at hv
    exact List.mem_singleton.mp hv ▸ hw
  | none =>
    -- a block that does not use the register hands on what enters
    rw [use?, hanswers.track, Option.bind_some, h.uses, Option.map_eq_none_iff] at hu
    have hmade : f.made.get b = none := by rw [h.made, hu, Option.bind_none]
    simp only [Track.leaving, h.flow, Flow.leaving, hmade] at hv
    rw [← h.entering_eq] at hv
    exact h.remains_entering hfresh hanswers hr hslot hwrites hv

theorem Settled.remains_written (h : a.Settled g r t f) (hfresh : a.Fresh g)
    (hanswers : s.Answers r t f) (hr : r ∈ a.registers) (hslot : r.isSlot = true)
    (hwrites : a.writes r < UInt32.size - 2) {b : Nat} {x : Access} (hx : x ∈ t.accesses b)
    {v : Version} (hv : x.write = some v) : s.Remains r v := by
  unfold Track.accesses at hx
  split at hx
  · rename_i u hu
    have huse : s.use? b r = some u := by rw [use?, hanswers.track, Option.bind_some, hu]
    exact (h.known hfresh hanswers hr hslot hwrites huse).writes x hx v hv
  · exact absurd hx List.not_mem_nil

theorem Fresh.canonical_used (h : a.Fresh g) (hg : g.WellFormed) (hs : a.settle.outcome = .ok s)
    (hr : r ∈ a.registers) (hslot : r.isSlot = true) (hwrites : a.writes r < UInt32.size - 2) :
    s.Canonical (LiveInstance.ofAnalysis s) r := by
  obtain ⟨t, f, hanswers, hsettled⟩ := h.answers hg hs hr hslot
  have hdown := hsettled.sound.webs.downward
  have hentering : ∀ b, ∀ v ∈ t.entering b, s.Remains r v := fun _ _ =>
    hsettled.remains_entering h hanswers hr hslot hwrites
  exact {
    replaces := by
      have hcanonical : s.canonical r = f.webs.root :=
        funext (hsettled.canonical_eq hanswers.track)
      rw [hanswers.replaces, hanswers.versions_eq, hcanonical]
      exact Track.reduces_merged hdown
    uses := fun b u hu => by
      simp only [Analysis.entering, Analysis.leaving, hanswers.track]
      exact hsettled.known h hanswers hr hslot hwrites hu
    entering := fun b v hv => by
      simp only [Analysis.entering, hanswers.track] at hv
      exact hentering b v hv
    leaving := fun b v hv => by
      simp only [Analysis.leaving, hanswers.track] at hv
      exact hsettled.remains_leaving h hanswers hr hslot hwrites hv
    definitions := fun entry v hv => by
      simp only [Analysis.definitions, hanswers.track, Track.definitions, hsettled.flow] at hv
      refine hanswers.remains_of_mem hdown (fun w hw => ?_) hv
      obtain ⟨hw, hne⟩ := (VersionSet.mem_without _ _ _).mp hw
      exact (hsettled.toSolved.within h hr hslot hwrites).2 entry w hw hne
    instances := fun i hi hreg => by
      obtain ⟨t', b, ht', horigin⟩ := h.origin_of_instance hs hi
      rw [hreg] at ht'
      cases hanswers.track.symm.trans ht'
      rcases horigin with hv | ⟨x, hx, hv⟩
      · exact hentering b _ hv
      · exact hsettled.remains_written h hanswers hr hslot hwrites hx hv }

end Analysis

/-- In a section that is accepted only canonical versions of a register variable remain: the
replacements send each version to its canonical one at once, and wherever a version is named it is
one that they leave alone. -/
theorem Section.only_canonical_remain {settings : Settings} {sec : Section} {a : Analysis}
    {tasks : Nat} {result : Result} (hsec : Run.ofSection settings sec = .complete a tasks result)
    {r : Register} (hslot : r.isSlot = true) (hwrites : a.writes r < UInt32.size - 2) :
    result.analysis.Canonical result.live.instances r := by
  obtain ⟨g, hgraph, ha, hs, hinstances⟩ := Run.ofSection_complete hsec
  have hg := Graph.wellFormed_of_build hgraph
  have hfresh := Analysis.fresh_of_ofUsages ha
  rw [hinstances]
  by_cases hr : r ∈ a.registers
  · exact hfresh.canonical_used hg hs hr hslot hwrites
  · exact hfresh.canonical_unused hs hr

namespace Branch

def source : Section := ⟨#[], 32, hints, usages, []⟩

def stages : Run := Run.ofSection (Settings.standard 1) source

def result : Result := stages.outcome.toOption.getD default

/-- The write inside the routine is replaced by the one before the call, and nothing names it. -/
theorem inner_write_replaced : result.analysis.replacesOf x = [⟨⟨3#32⟩, ⟨1#32⟩⟩] ∧
    result.analysis.Canonical result.live.instances x := by
  have hstages : stages = .complete (stages.start?.getD default) stages.tasks result ∧
      (stages.start?.getD default).writes x = 3 ∧
      result.analysis.replacesOf x = [⟨⟨3#32⟩, ⟨1#32⟩⟩] := by
    cbv
  obtain ⟨hcomplete, hwrites, hreplaces⟩ := hstages
  exact ⟨hreplaces, Section.only_canonical_remain hcomplete rfl (by rw [hwrites]; decide)⟩

end Branch

end RegisterWeb
