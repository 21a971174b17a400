import Mathlib
import RegisterWeb.Proofs.HintOrder

/-!
Hints that disagree about a size. A size that is left open is asked of the settings as soon as the
first hint at an offset is met, and from then on it counts like a size that was given. So hints that
all give the same size, if any, are still refused where a hint that leaves the size open comes first
and the settings answer differently, and nowhere else. Hints that are accepted have the size that one
of them gives, or else that of the settings.
-/

namespace RegisterWeb

/-! ### Stages that fail -/

section Stages

variable {ε α β : Type} {e : ε}

theorem bind_eq_error {x : Except ε α} {f : α → Except ε β} (h : (x >>= f) = .error e) :
    x = .error e ∨ ∃ a, x = .ok a ∧ f a = .error e := by
  cases x with
  | error e' =>
    cases h
    exact Or.inl rfl
  | ok a => exact Or.inr ⟨a, rfl, h⟩

theorem exists_of_mapM_error {f : α → Except ε β} {l : List α} (h : l.mapM f = .error e) :
    ∃ a ∈ l, f a = .error e := by
  induction l with
  | nil => cases h
  | cons a l ih =>
    rw [List.mapM_cons] at h
    rcases bind_eq_error h with ha | ⟨_, _, h⟩
    · exact ⟨a, List.mem_cons_self, ha⟩
    · rcases bind_eq_error h with hl | ⟨_, _, h⟩
      · obtain ⟨b, hb, hfail⟩ := ih hl
        exact ⟨b, List.mem_cons_of_mem a hb, hfail⟩
      · cases h

theorem exists_of_forM_error {f : α → Except ε Unit} {l : List α} (h : l.forM f = .error e) :
    ∃ a ∈ l, f a = .error e := by
  induction l with
  | nil => cases h
  | cons a l ih =>
    rcases bind_eq_error h with ha | ⟨_, _, hl⟩
    · exact ⟨a, List.mem_cons_self, ha⟩
    · obtain ⟨b, hb, hfail⟩ := ih hl
      exact ⟨b, List.mem_cons_of_mem a hb, hfail⟩

/-- A fold fails at one of its steps, after those before it. -/
theorem exists_of_foldlM_error {f : β → α → Except ε β} {l : List α} {s : β}
    (h : l.foldlM f s = .error e) :
    ∃ done a rest s', l = done ++ a :: rest ∧ done.foldlM f s = .ok s' ∧ f s' a = .error e := by
  induction l generalizing s with
  | nil => cases h
  | cons a l ih =>
    rw [List.foldlM_cons] at h
    rcases bind_eq_error h with ha | ⟨s₁, ha, hl⟩
    · exact ⟨[], a, l, s, rfl, rfl, ha⟩
    · obtain ⟨done, b, rest, s', rfl, hdone, hb⟩ := ih hl
      refine ⟨a :: done, b, rest, s', rfl, ?_, hb⟩
      rw [List.foldlM_cons, ha]
      exact hdone

end Stages

/-! ### Where a conflict is reported -/

namespace Hint

/-- No two hints give different sizes for one instruction. -/
def SizesAgree (hints : List Hint) : Prop :=
  ∀ h ∈ hints, ∀ h' ∈ hints, h.offset = h'.offset → h.size ≠ 0 → h'.size ≠ 0 → h.size = h'.size

instance (hints : List Hint) : Decidable (SizesAgree hints) :=
  inferInstanceAs (Decidable (∀ h ∈ hints, ∀ h' ∈ hints, _ → _ → _ → _))

/-- Some hint gives the size of the instruction at an offset. -/
def Gives (hints : List Hint) (p z : Offset) : Prop :=
  z ≠ 0 ∧ ∃ h ∈ hints, h.offset = p ∧ h.size = z

/-- The first hint at an offset leaves the size open and the settings give one, but another hint there
gives a different one. -/
structure Overtaken (s : Settings) (code : Code) (hints : List Hint) (p asked given : Offset) :
    Prop where
  first : ∃ h, hints.find? (fun h => h.offset == p) = some h ∧ h.size = 0
  answer : s.sizeAt code p = .ok asked
  later : Gives hints p given
  differ : asked ≠ given

variable {s : Settings} {code : Code} {hints : List Hint} {h : Hint} {p z z' : Offset}

theorem gives_sort : Gives (sort hints) p z ↔ Gives hints p z := by
  simp only [Gives, mem_sort]

theorem find?_sort (hints : List Hint) (p : Offset) :
    (sort hints).find? (fun h => h.offset == p) = hints.find? fun h => h.offset == p := by
  rw [← List.head?_filter, filter_sort, List.head?_filter]

theorem overtaken_sort :
    Overtaken s code (sort hints) p z z' ↔ Overtaken s code hints p z z' := by
  constructor
  · intro hover
    exact ⟨find?_sort hints p ▸ hover.first, hover.answer, gives_sort.mp hover.later, hover.differ⟩
  · intro hover
    refine ⟨?_, hover.answer, gives_sort.mpr hover.later, hover.differ⟩
    rw [find?_sort]
    exact hover.first

theorem SizesAgree.sort (hagree : SizesAgree hints) : SizesAgree (sort hints) :=
  fun h hh h' hh' => hagree h (mem_sort.mp hh) h' (mem_sort.mp hh')

theorem Gives.unique (hagree : SizesAgree hints) (hz : Gives hints p z) (hz' : Gives hints p z') :
    z = z' := by
  obtain ⟨hne, h, hh, rfl, rfl⟩ := hz
  obtain ⟨hne', h', hh', hoffset, rfl⟩ := hz'
  exact hagree h hh h' hh' hoffset.symm hne hne'

/-- The first hint at an offset gives the size or leaves it to the settings. -/
theorem sizeAt?_cases (hsize : sizeAt? s code hints p = some z) : ∃ h,
    hints.find? (fun h => h.offset == p) = some h ∧ h ∈ hints ∧ h.offset = p ∧
      ((h.size ≠ 0 ∧ h.size = z) ∨ (h.size = 0 ∧ s.sizeAt code p = .ok z)) := by
  obtain ⟨h, hfind, hsize⟩ := Option.bind_eq_some_iff.mp hsize
  have hoffset : h.offset = p := by simpa using List.find?_some hfind
  refine ⟨h, hfind, List.mem_of_find?_eq_some hfind, hoffset, ?_⟩
  unfold Instr.sizeFor at hsize
  split at hsize
  · rename_i hzero
    rw [hoffset] at hsize
    cases hanswer : s.sizeAt code p with
    | error f =>
      rw [hanswer] at hsize
      cases hsize
    | ok z₀ =>
      rw [hanswer] at hsize
      cases hsize
      exact Or.inr ⟨hzero, rfl⟩
  · rename_i hzero
    cases hsize
    exact Or.inl ⟨hzero, rfl⟩

end Hint

namespace Instr

variable {s : Settings} {code : Code} {n : Offset} {hints : List Hint} {known : List Instr}
  {h : Hint} {p z z' : Offset}

theorem record_conflict
    (herror : record s code n known h = .error (.structural p (.sizeConflict z z'))) :
    h.offset = p ∧ h.size = z' ∧ z' ≠ 0 ∧ z ≠ z' ∧ (at? known p).map Instr.size = some z := by
  unfold record at herror
  split at herror
  · cases herror
  · split at herror
    · rename_i i hi
      split at herror
      · cases herror
      · rename_i hsize
        cases herror
        obtain ⟨hzero, hother⟩ := not_or.mp hsize
        exact ⟨rfl, rfl, hzero, Ne.symm hother, by rw [hi, Option.map_some]⟩
    · rcases bind_eq_error herror with hsize | ⟨z₀, _, herror⟩
      · unfold sizeFor at hsize
        split at hsize
        · cases hanswer : s.sizeAt code h.offset with
          | error f =>
            rw [hanswer] at hsize
            cases hsize
          | ok z₀ =>
            rw [hanswer] at hsize
            cases hsize
        · cases hsize
      · split at herror
        · cases herror
        · split at herror
          · cases herror
          · cases herror

/-- A conflict is between the size of the first hint at an offset and that of a later one. -/
theorem ofHints_conflict
    (herror : ofHints s code n hints = .error (.structural p (.sizeConflict z z'))) :
    Hint.sizeAt? s code hints p = some z ∧ Hint.Gives hints p z' ∧ z ≠ z' := by
  obtain ⟨done, h, rest, known, rfl, hdone, hrecord⟩ := exists_of_foldlM_error herror
  obtain ⟨rfl, rfl, hzero, hdiffer, hknown⟩ := record_conflict hrecord
  rw [(recorded_of_ofHints hdone).size] at hknown
  refine ⟨?_, ⟨hzero, h, List.mem_append_right done List.mem_cons_self, rfl, rfl⟩, hdiffer⟩
  obtain ⟨first, hfirst, hsize⟩ := Option.bind_eq_some_iff.mp hknown
  rw [Hint.sizeAt?, List.find?_append, hfirst]
  exact hsize

/-- Where the sizes that are given agree, a conflict is with an answer of the settings. -/
theorem overtaken_of_conflict (hagree : Hint.SizesAgree hints)
    (herror : ofHints s code n hints = .error (.structural p (.sizeConflict z z'))) :
    Hint.Overtaken s code hints p z z' := by
  obtain ⟨hsize, hgives, hdiffer⟩ := ofHints_conflict herror
  obtain ⟨h, hfind, hh, hoffset, ⟨hne, rfl⟩ | ⟨hopen, hanswer⟩⟩ := Hint.sizeAt?_cases hsize
  · have hfirst : Hint.Gives hints p h.size := ⟨hne, h, hh, hoffset, rfl⟩
    exact absurd (hfirst.unique hagree hgives) hdiffer
  · exact ⟨⟨h, hfind, hopen⟩, hanswer, hgives, hdiffer⟩

/-- The size that is recorded is the one that a hint gives, or else that of the settings. -/
theorem size_of_ofHints (hok : ofHints s code n hints = .ok known)
    (hsome : ∃ h ∈ hints, h.offset = p) :
    ∃ i, at? known p = some i ∧ (∀ z, Hint.Gives hints p z → i.size = z) ∧
      ((¬ ∃ z, Hint.Gives hints p z) → s.sizeAt code p = .ok i.size) := by
  have hrec := recorded_of_ofHints hok
  obtain ⟨h, hh, rfl⟩ := hsome
  obtain ⟨i, hi⟩ := Option.ne_none_iff_exists'.mp (hrec.found h hh)
  have hsize : Hint.sizeAt? s code hints h.offset = some i.size := by
    rw [← hrec.size, hi, Option.map_some]
  refine ⟨i, hi, ?_, ?_⟩
  · intro z hgives
    obtain ⟨hne, h', hh', hoffset, rfl⟩ := hgives
    rw [← hoffset, Hint.sizeAt?_of_given hok hh' hne] at hsize
    exact (Option.some.inj hsize).symm
  · intro hnone
    obtain ⟨h', _, hh', hoffset, ⟨hne, _⟩ | ⟨_, hanswer⟩⟩ := Hint.sizeAt?_cases hsize
    · exact absurd ⟨h'.size, hne, h', hh', hoffset, rfl⟩ hnone
    · exact hanswer

/-- Hints are refused where the settings have answered before a size was given. -/
theorem not_ok_of_overtaken (hover : Hint.Overtaken s code hints p z z') :
    ofHints s code n hints ≠ .ok known := by
  intro hok
  obtain ⟨hne, h, hh, rfl, rfl⟩ := hover.later
  obtain ⟨first, hfind, hopen⟩ := hover.first
  have hoffset : first.offset = h.offset := by simpa using List.find?_some hfind
  have hsize := Hint.sizeAt?_of_given hok hh hne
  rw [Hint.sizeAt?, hfind, Option.bind_some, sizeFor, if_pos hopen, hoffset, hover.answer] at hsize
  exact hover.differ (Option.some.inj hsize)

theorem entriesOf_error {e : Failure} (herror : entriesOf s n known h = .error e) :
    ∃ t flaw, e = .structural h.offset (.badTarget t flaw) := by
  have hcheck : checkTargets s n known h = .error e := by
    unfold entriesOf at herror
    split at herror
    · cases herror
    · cases herror
    · cases herror
    · cases herror
    · rcases bind_eq_error herror with hcheck | ⟨_, _, herror⟩
      · exact hcheck
      · cases herror
  obtain ⟨t, _, ht⟩ := exists_of_forM_error hcheck
  cases hflaw : targetFlaw? s n known t with
  | none =>
    rw [hflaw] at ht
    cases ht
  | some flaw =>
    rw [hflaw] at ht
    cases ht
    exact ⟨t, flaw, rfl⟩

end Instr

namespace Transfer

variable {n : Offset} {blocks : Array Block} {e : Failure}

theorem locate_error {p : Offset} (herror : locate n blocks p = .error e) : ∃ f, e = .fault f := by
  unfold locate at herror
  split at herror
  · cases herror
  · cases herror
    exact ⟨_, rfl⟩
  · cases herror
    exact ⟨_, rfl⟩

theorem ofHints_error {hints : List Hint} (herror : ofHints n blocks hints = .error e) :
    ∃ f, e = .fault f := by
  obtain ⟨h, _, herror⟩ := exists_of_mapM_error herror
  rcases bind_eq_error herror with hsource | ⟨_, _, herror⟩
  · exact locate_error hsource
  · rcases bind_eq_error herror with htargets | ⟨_, _, herror⟩
    · obtain ⟨t, _, ht⟩ := exists_of_mapM_error htargets
      exact locate_error ht
    · cases herror

end Transfer

namespace Graph

variable {s : Settings} {code : Code} {n : Offset} {hints : List Hint}

/-- Only the recording of instructions reports conflicts of sizes. -/
theorem ofHints_of_conflict {p z z' : Offset}
    (herror : build s code n hints = .error (.structural p (.sizeConflict z z'))) :
    Instr.ofHints s code n (Hint.sort hints) = .error (.structural p (.sizeConflict z z')) := by
  unfold build at herror
  split at herror
  · cases hsort : Hint.sort hints with
    | nil =>
      rw [hsort] at herror
      cases herror
    | cons h rest =>
      rw [hsort] at herror
      cases herror
  · rcases bind_eq_error herror with hstarts | ⟨starts, _, herror⟩
    · rcases bind_eq_error hstarts with hknown | ⟨known, _, hstarts⟩
      · exact hknown
      · rcases bind_eq_error hstarts with hmarked | ⟨_, _, hstarts⟩
        · obtain ⟨h, _, hentries⟩ := exists_of_mapM_error hmarked
          obtain ⟨t, flaw, heq⟩ := Instr.entriesOf_error hentries
          cases heq
        · cases hstarts
    · rcases bind_eq_error herror with htransfers | ⟨_, _, herror⟩
      · obtain ⟨f, heq⟩ := Transfer.ofHints_error htransfers
        cases heq
      · cases herror

/-- Where all sizes that are given for one instruction agree, a conflict of sizes is reported only if
the first hint at the offset leaves the size open, the settings give one and a later hint another;
and such hints are never accepted. Hints that are accepted have the size that some hint gives for
their instruction, or else the size of the settings. -/
theorem conflicts_overtaken (hagree : Hint.SizesAgree hints) :
    (∀ p asked given, build s code n hints = .error (.structural p (.sizeConflict asked given)) →
      Hint.Overtaken s code hints p asked given) ∧
    (∀ p asked given, Hint.Overtaken s code hints p asked given →
      ∀ g, build s code n hints ≠ .ok g) ∧
    ∀ g, build s code n hints = .ok g →
      ∃ known, Instr.ofHints s code n (Hint.sort hints) = .ok known ∧
        ∀ p, (∃ h ∈ hints, h.offset = p) → ∃ i, Instr.at? known p = some i ∧
          (∀ z, Hint.Gives hints p z → i.size = z) ∧
          ((¬ ∃ z, Hint.Gives hints p z) → s.sizeAt code p = .ok i.size) := by
  have hrecorded : ∀ g, build s code n hints = .ok g →
      ∃ known, Instr.ofHints s code n (Hint.sort hints) = .ok known := by
    intro g hok
    by_cases hzero : n = 0
    · subst hzero
      obtain ⟨rfl, _⟩ := build_zero hok
      refine ⟨[], ?_⟩
      rw [Hint.sort, List.mergeSort_nil]
      rfl
    · obtain ⟨starts, transfers, hstages⟩ := exists_stages hok hzero
      obtain ⟨known, _, hknown, _⟩ := Layout.starts_eq_ok hstages.opened
      exact ⟨known, hknown⟩
  refine ⟨?_, ?_, ?_⟩
  · intro p asked given herror
    have hover := Instr.overtaken_of_conflict hagree.sort (ofHints_of_conflict herror)
    exact Hint.overtaken_sort.mp hover
  · intro p asked given hover g hok
    obtain ⟨known, hknown⟩ := hrecorded g hok
    exact Instr.not_ok_of_overtaken (Hint.overtaken_sort.mpr hover) hknown
  · intro g hok
    obtain ⟨known, hknown⟩ := hrecorded g hok
    refine ⟨known, hknown, fun p hsome => ?_⟩
    obtain ⟨h, hh, hp⟩ := hsome
    have hsize := Instr.size_of_ofHints hknown ⟨h, Hint.mem_sort.mpr hh, hp⟩
    simpa only [Hint.gives_sort] using hsize

end Graph

namespace LongJump

/-- A long jump stands at a label. -/
def hints : List Hint :=
  [⟨4, .label, [], 0⟩, ⟨4, .jump, [0], 8⟩, ⟨12, .ret, [], 0⟩]

/-- The same hints, with the jump before the label. -/
def swapped : List Hint :=
  [⟨4, .jump, [0], 8⟩, ⟨4, .label, [], 0⟩, ⟨12, .ret, [], 0⟩]

def graph : Graph where
  length := 16
  blocks := #[⟨0, 0, 4, [⟨1, false⟩], true, false, false, false⟩,
    ⟨1, 4, 12, [⟨0, false⟩], false, false, false, true⟩,
    ⟨2, 12, 16, [], true, false, true, false⟩]
  preds := ⟨#[[⟨1, false⟩], [⟨0, false⟩], []]⟩
  routines := []
  boundaries := []

theorem refused : Graph.build (Settings.standard 1) #[] 16 hints
    = .error (.structural 4 (.sizeConflict 4 8)) := by
  cbv

theorem builds : Graph.build (Settings.standard 1) #[] 16 swapped = .ok graph := by
  cbv

/-- The label is met first and the settings answer for it; with the jump first its size counts. -/
theorem jump_overtaken : Hint.Overtaken (Settings.standard 1) #[] hints 4 4 8 ∧
    ∃ known, Instr.ofHints (Settings.standard 1) #[] 16 (Hint.sort swapped) = .ok known ∧
      ∃ i, Instr.at? known 4 = some i ∧ i.size = 8 := by
  have hagree : Hint.SizesAgree hints := by decide
  have hagree' : Hint.SizesAgree swapped := by decide
  refine ⟨(Graph.conflicts_overtaken hagree).1 4 4 8 refused, ?_⟩
  obtain ⟨known, hknown, hsizes⟩ := (Graph.conflicts_overtaken hagree').2.2 graph builds
  obtain ⟨i, hi, hgiven, _⟩ := hsizes 4 ⟨⟨4, .label, [], 0⟩, by decide, rfl⟩
  exact ⟨known, hknown, i, hi, hgiven 8 ⟨by decide, ⟨4, .jump, [0], 8⟩, by decide, rfl, rfl⟩⟩

/-- Only one size is given at each offset, and all hints lie in the section, but a conflict is
reported. -/
theorem conflict_with_one_size :
    (∀ h ∈ hints, 0 ≤ h.offset ∧ h.offset < 16) ∧
    (∀ h ∈ hints, ∀ h' ∈ hints, h.offset = h'.offset → h.size ≠ 0 → h'.size ≠ 0 →
      h.size = h'.size) ∧
    Graph.build (Settings.standard 1) #[] 16 hints
      = .error (.structural 4 (.sizeConflict 4 8)) :=
  ⟨by decide, by decide, refused⟩

end LongJump

end RegisterWeb
