import Mathlib
import RegisterWeb.Proofs.Cut.Label
import RegisterWeb.Proofs.Shuffle

/-!
The order in which hints are listed. Hints at one offset may agree on the size of their instruction
in one order and not in another, since a size that is left open is asked of the settings if its hint
comes first. Where both orders are accepted all sizes are the same, so blocks start at the same
places, the transfers are the same up to their order, and the graphs are equal.
-/

namespace RegisterWeb

open RegisterWeb.Graph

namespace Hint

variable {s : Settings} {code : Code} {n : Offset} {hints hints' : List Hint} {p : Offset}
  {known known' : List Instr}

theorem sort_perm (hperm : hints.Perm hints') : (sort hints).Perm (sort hints') :=
  ((List.mergeSort_perm _ _).trans hperm).trans (List.mergeSort_perm _ _).symm

/-- Where all hints leave the size open, the settings give it. -/
theorem sizeAt?_of_open (hsome : ∃ h ∈ hints, h.offset = p)
    (hopen : ∀ h ∈ hints, h.offset = p → h.size = 0) :
    sizeAt? s code hints p = ((s.sizeAt code p).mapError Failure.fault).toOption := by
  obtain ⟨h, hh, hp⟩ := hsome
  cases hfind : hints.find? fun h => h.offset == p with
  | none => exact absurd hp (by simpa using List.find?_eq_none.mp hfind h hh)
  | some h₀ =>
    have hp₀ : h₀.offset = p := by simpa using List.find?_some hfind
    have hzero := hopen h₀ (List.mem_of_find?_eq_some hfind) hp₀
    rw [sizeAt?, hfind, Option.bind_some, Instr.sizeFor, if_pos hzero, hp₀]

theorem sizeAt?_of_given (hok : Instr.ofHints s code n hints = .ok known) {h : Hint}
    (hh : h ∈ hints) (hsize : h.size ≠ 0) : sizeAt? s code hints h.offset = some h.size := by
  rw [← (Instr.recorded_of_ofHints hok).size]
  exact (Instr.agree_of_ofHints hok h hh).resolve_left hsize

theorem sizeAt?_reordered (hperm : hints.Perm hints')
    (hok : Instr.ofHints s code n hints = .ok known)
    (hok' : Instr.ofHints s code n hints' = .ok known') (p : Offset) :
    sizeAt? s code hints p = sizeAt? s code hints' p := by
  by_cases hsome : ∃ h ∈ hints, h.offset = p
  · by_cases hgiven : ∃ h ∈ hints, h.offset = p ∧ h.size ≠ 0
    · obtain ⟨h, hh, rfl, hsize⟩ := hgiven
      rw [sizeAt?_of_given hok hh hsize, sizeAt?_of_given hok' (hperm.mem_iff.mp hh) hsize]
    · have hopen : ∀ h ∈ hints, h.offset = p → h.size = 0 := by
        intro h hh hp
        by_contra hsize
        exact hgiven ⟨h, hh, hp, hsize⟩
      rw [sizeAt?_of_open hsome hopen, sizeAt?_of_open]
      · obtain ⟨h, hh, hp⟩ := hsome
        exact ⟨h, hperm.mem_iff.mp hh, hp⟩
      · intro h hh
        exact hopen h (hperm.mem_iff.mpr hh)
  · have hsome' : ¬ ∃ h ∈ hints', h.offset = p := by
      intro hh
      obtain ⟨h, hh, hp⟩ := hh
      exact hsome ⟨h, hperm.mem_iff.mpr hh, hp⟩
    rw [sizeAt?_eq_none hsome, sizeAt?_eq_none hsome']

end Hint

namespace Layout

variable {s : Settings} {code : Code} {n : Offset} {hints hints' : List Hint}

theorem after_reordered {known known' : List Instr} (hperm : hints.Perm hints')
    (hok : Instr.ofHints s code n hints = .ok known)
    (hok' : Instr.ofHints s code n hints' = .ok known') {h : Hint} (hh : h ∈ hints) :
    Instr.after known h = Instr.after known' h := by
  obtain ⟨z, hz, _, hafter⟩ := (Instr.recorded_of_ofHints hok).after_eq hh
  obtain ⟨z', hz', _, hafter'⟩ :=
    (Instr.recorded_of_ofHints hok').after_eq (hperm.mem_iff.mp hh)
  rw [Hint.sizeAt?_reordered hperm hok hok', hz'] at hz
  cases hz
  rw [hafter, hafter']

/-- The marks of a hint depend on the other hints only through the end of its instruction. -/
theorem entriesOf_unique {known known' : List Instr} {h : Hint} {entries entries' : List Offset}
    (hafter : Instr.after known h = Instr.after known' h)
    (hok : Instr.entriesOf s n known h = .ok entries)
    (hok' : Instr.entriesOf s n known' h = .ok entries') : entries = entries' := by
  have hcases := Instr.entriesOf_cases hok
  have hcases' := Instr.entriesOf_cases hok'
  rw [hafter] at hcases
  grind

theorem mem_starts_iff {starts : List Offset} (hok : Layout.starts s code n hints = .ok starts) :
    ∃ known, Instr.ofHints s code n hints = .ok known ∧
      (∀ h ∈ hints, ∃ entries, Instr.entriesOf s n known h = .ok entries) ∧
      Ascending starts ∧
      ∀ p, p ∈ starts ↔ p ≠ n ∧ (p = 0 ∨ ∃ h ∈ hints, ∃ entries,
        Instr.entriesOf s n known h = .ok entries ∧ p ∈ entries) := by
  obtain ⟨known, marked, hknown, hmarked, rfl⟩ := starts_eq_ok hok
  refine ⟨known, hknown, ?_, (Ascending.ascending_ofList _).sublist List.filter_sublist, ?_⟩
  · intro h hh
    obtain ⟨entries, _, hentries⟩ := exists_mem_of_mapM hmarked hh
    exact ⟨entries, hentries⟩
  · intro p
    rw [List.mem_filter, bne_iff_ne, and_comm, Ascending.mem_ofList, List.mem_cons,
      mem_flatten_mapM hmarked]

theorem starts_reordered {starts starts' : List Offset} (hperm : hints.Perm hints')
    (hok : Layout.starts s code n hints = .ok starts)
    (hok' : Layout.starts s code n hints' = .ok starts') : starts = starts' := by
  obtain ⟨known, hknown, hmarks, hasc, hmem⟩ := mem_starts_iff hok
  obtain ⟨known', hknown', hmarks', hasc', hmem'⟩ := mem_starts_iff hok'
  refine Ascending.eq_of_mem_iff hasc hasc' fun p => ?_
  rw [hmem, hmem']
  refine and_congr_right fun _ => or_congr_right (exists_congr fun h => ?_)
  rw [hperm.mem_iff]
  refine and_congr_right fun hh => ?_
  obtain ⟨entries, hentries⟩ := hmarks h (hperm.mem_iff.mpr hh)
  obtain ⟨entries', hentries'⟩ := hmarks' h hh
  have hafter := after_reordered hperm hknown hknown' (hperm.mem_iff.mpr hh)
  obtain rfl := entriesOf_unique hafter hentries hentries'
  rw [hentries, hentries']

/-! ### Edges -/

theorem ofHints_reordered {blocks : Array Block} {transfers transfers' : List Transfer}
    (hperm : hints.Perm hints') (hok : Transfer.ofHints n blocks hints = .ok transfers)
    (hok' : Transfer.ofHints n blocks hints' = .ok transfers') : transfers.Perm transfers' := by
  have hexits : Transfer.ofHint n blocks ((hints.filter fun h => h.kind.isExit).map Hint.offset)
      = Transfer.ofHint n blocks ((hints'.filter fun h => h.kind.isExit).map Hint.offset) := by
    funext h
    unfold Transfer.ofHint
    rw [((hperm.filter _).map Hint.offset).contains_eq]
  simp only [Transfer.ofHints, hexits] at hok hok'
  obtain ⟨found, hfound, hsame⟩ := mapM_perm (hperm.filter _) hok
  cases hfound.symm.trans hok'
  exact hsame

theorem link_reordered {transfers transfers' : List Transfer} (hperm : transfers.Perm transfers')
    (blocks : Array Block) (boundaries : List Offset) :
    link blocks boundaries transfers = link blocks boundaries transfers' := by
  have hblock : ∀ b, linkBlock blocks boundaries transfers b
      = linkBlock blocks boundaries transfers' b := by
    intro b
    have hnext : (linkBlock blocks boundaries transfers b).next
        = (linkBlock blocks boundaries transfers' b).next := by
      refine Ascending.eq_of_mem_iff (Ascending.ascending_ofList _) (Ascending.ascending_ofList _)
        fun e => ?_
      refine Layout.mem_next.trans (Iff.trans ?_ Layout.mem_next.symm)
      simp only [hperm.mem_iff]
    have hmine := hperm.filter fun t => t.source == b.id
    rw [Block.mk.injEq]
    exact ⟨rfl, rfl, rfl, hnext, rfl, hmine.any_eq, hmine.any_eq, hmine.any_eq⟩
  unfold link
  rw [funext hblock]

end Layout

namespace Graph

variable {s : Settings} {code : Code} {n : Offset} {hints hints' : List Hint} {g g' : Graph}

theorem boundariesOf_reordered (hperm : hints.Perm hints') :
    boundariesOf hints = boundariesOf hints' := by
  refine Ascending.eq_of_mem_iff (Ascending.ascending_ofList _) (Ascending.ascending_ofList _)
    fun p => ?_
  refine mem_boundariesOf.trans (Iff.trans ?_ mem_boundariesOf.symm)
  simp only [hperm.mem_iff]

/-- Two orders of the hints that are both accepted give the same graph, also where the hints at one
offset change places. -/
theorem build_reordered (hperm : hints.Perm hints') (hbuilt : build s code n hints = .ok g)
    (hbuilt' : build s code n hints' = .ok g') : g = g' := by
  by_cases hzero : n = 0
  · subst hzero
    rw [(build_zero hbuilt).2, (build_zero hbuilt').2]
  · obtain ⟨starts, transfers, hstages⟩ := exists_stages hbuilt hzero
    obtain ⟨starts', transfers', hstages'⟩ := exists_stages hbuilt' hzero
    have hsorted := Hint.sort_perm hperm
    obtain rfl := Layout.starts_reordered hsorted hstages.opened hstages'.opened
    have htransfers := Layout.ofHints_reordered hsorted hstages.located hstages'.located
    rw [hstages.graph, hstages'.graph, boundariesOf_reordered hperm,
      Layout.link_reordered htransfers]

end Graph

namespace Medley

/-- The return at 12 now comes before the call there, and the routine before its callers. -/
def shuffled : List Hint :=
  [⟨24, .ret, [], 0⟩, ⟨12, .ret, [], 0⟩, ⟨16, .halt, [], 8⟩, ⟨12, .call, [24], 0⟩,
    ⟨8, .other 9, [16], 0⟩, ⟨16, .boundary, [], 0⟩, ⟨0, .condJump, [8], 0⟩, ⟨4, .call, [24], 0⟩]

theorem shuffled_builds : shuffled.Perm hints ∧
    ∃ g, Graph.build (Settings.standard 1) #[] 32 shuffled = .ok g ∧ g = graph := by
  have hperm : shuffled.Perm hints := by decide
  have hbuilt : ∃ g, Graph.build (Settings.standard 1) #[] 32 shuffled = .ok g := ⟨graph, by cbv⟩
  obtain ⟨g, hg⟩ := hbuilt
  exact ⟨hperm, g, hg, Graph.build_reordered hperm hg builds⟩

end Medley

end RegisterWeb
