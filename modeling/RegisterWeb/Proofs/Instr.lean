import Mathlib
import RegisterWeb.Proofs.Graph

/-!
The instructions that hints speak of. The size of an instruction is that of the first hint at its
offset. As long as no instruction reaches beyond the end of the section, also where the sum of two
words would wrap around, each hint makes blocks start exactly at its own offset, at its targets and
behind its instruction, as its kind says, and all of these lie in the section or at its end.
-/

namespace RegisterWeb

instance : IsStrictTotalOrder Offset (· < ·) where
  trichotomous := fun _ _ hab hba =>
    Int64.le_antisymm (Int64.not_lt.mp hba) (Int64.not_lt.mp hab)
  irrefl := fun _ => Int64.lt_irrefl
  trans := fun _ _ _ => Int64.lt_trans

/-- A sum that stays below some word does not wrap around. -/
theorem Offset.toInt_add_of_le {p z n : Offset} (hp : 0 ≤ p) (hz : 0 < z)
    (hsum : p.toInt + z.toInt ≤ n.toInt) : (p + z).toInt = p.toInt + z.toInt := by
  rw [Int64.le_iff_toInt_le, Int64.toInt_zero] at hp
  rw [Int64.lt_iff_toInt_lt, Int64.toInt_zero] at hz
  have hn := n.toInt_lt
  rw [Int64.toInt_add]
  apply Int.bmod_eq_of_le <;> omega

/-! ### Sizes of instructions -/

namespace Hint

theorem mem_sort {hs : List Hint} {h : Hint} : h ∈ sort hs ↔ h ∈ hs :=
  List.mem_mergeSort

-- sorting is stable, so the hints at one offset keep their order
theorem filter_sort (hs : List Hint) (p : Offset) :
    (sort hs).filter (fun h => h.offset == p) = hs.filter fun h => h.offset == p := by
  have hsorted : (hs.filter fun h => h.offset == p).Pairwise
      fun a b => decide (a.offset ≤ b.offset) = true := by
    refine List.pairwise_of_forall_mem_list ?_
    intro a ha b hb
    have hpa : a.offset = p := by simpa using (List.mem_filter.mp ha).2
    have hpb : b.offset = p := by simpa using (List.mem_filter.mp hb).2
    rw [hpa, hpb]
    exact decide_eq_true (Int64.le_refl p)
  have hsub : (hs.filter fun h => h.offset == p).Sublist (sort hs) := by
    refine List.sublist_mergeSort ?_ ?_ hsorted List.filter_sublist
    · intro a b c hab hbc
      simp only [decide_eq_true_eq] at hab hbc ⊢
      exact Int64.le_trans hab hbc
    · intro a b
      simp only [Bool.or_eq_true, decide_eq_true_eq]
      exact Int64.le_total a.offset b.offset
  have hfilter := hsub.filter fun h => h.offset == p
  rw [List.filter_filter] at hfilter
  simp only [Bool.and_self] at hfilter
  have hlength := ((List.mergeSort_perm hs fun a b => decide (a.offset ≤ b.offset)).filter
    fun h => h.offset == p).length_eq
  exact (hfilter.eq_of_length hlength.symm).symm

/-- The size of the instruction at an offset: that of the first hint there, which the settings give
if the hint leaves it open. -/
def sizeAt? (s : Settings) (code : Code) (hints : List Hint) (p : Offset) : Option Offset :=
  (hints.find? fun h => h.offset == p).bind fun h => (Instr.sizeFor s code h).toOption

theorem sizeAt?_sort (s : Settings) (code : Code) (hints : List Hint) (p : Offset) :
    sizeAt? s code (sort hints) p = sizeAt? s code hints p := by
  rw [sizeAt?, ← List.head?_filter, filter_sort, List.head?_filter]
  rfl

theorem sizeAt?_eq_none {s : Settings} {code : Code} {hints : List Hint} {p : Offset}
    (hfree : ¬ ∃ h ∈ hints, h.offset = p) : sizeAt? s code hints p = none := by
  have hfind : hints.find? (fun h => h.offset == p) = none := by
    refine List.find?_eq_none.mpr ?_
    intro h hmem hp
    exact hfree ⟨h, hmem, by simpa using hp⟩
  rw [sizeAt?, hfind, Option.bind_none]

theorem sizeAt?_append (s : Settings) (code : Code) (hints : List Hint) (h : Hint) (p : Offset) :
    sizeAt? s code (hints ++ [h]) p =
      if ∃ h' ∈ hints, h'.offset = p then sizeAt? s code hints p
      else if h.offset = p then (Instr.sizeFor s code h).toOption else none := by
  unfold sizeAt?
  rw [List.find?_append]
  cases hfind : hints.find? fun h => h.offset == p with
  | some h' =>
    have hmem := List.mem_of_find?_eq_some hfind
    have hp : h'.offset = p := by simpa using List.find?_some hfind
    rw [if_pos ⟨h', hmem, hp⟩]
    rfl
  | none =>
    have hfree : ¬ ∃ h' ∈ hints, h'.offset = p := by
      intro ⟨h', hmem, hp⟩
      exact absurd hp (by simpa using List.find?_eq_none.mp hfind h' hmem)
    rw [if_neg hfree, Option.none_or]
    by_cases hp : h.offset = p
    · simp [hp]
    · simp [hp]

end Hint

namespace Instr

section Record

variable {s : Settings} {code : Code} {n : Offset} {hints : List Hint} {known known' : List Instr}
  {h : Hint}

/-- A hint that is accepted lies in the section. It speaks again of an instruction, whose size it
leaves open or repeats, or of a new one, which ends in the section as far as words can tell. -/
theorem record_cases (hok : record s code n known h = .ok known') :
    (0 ≤ h.offset ∧ h.offset < n) ∧
      ((∃ i, at? known h.offset = some i ∧ (h.size = 0 ∨ h.size = i.size) ∧ known' = known) ∨
        ∃ z, at? known h.offset = none ∧ sizeFor s code h = .ok z ∧ 0 < z ∧ h.offset + z ≤ n ∧
          known' = known ++ [⟨h.offset, z⟩]) := by
  unfold record at hok
  split at hok
  · cases hok
  · rename_i hin
    rw [not_or, Int64.not_lt, Int64.not_le] at hin
    refine ⟨hin, ?_⟩
    split at hok
    · rename_i i hi
      split at hok
      · rename_i hsize
        cases hok
        exact Or.inl ⟨i, hi, hsize, rfl⟩
      · cases hok
    · rename_i hfree
      obtain ⟨z, hz, hok⟩ := bind_eq_ok.mp hok
      split at hok
      · cases hok
      · rename_i hpos
        split at hok
        · cases hok
        · rename_i hend
          cases hok
          exact Or.inr ⟨z, hfree, hz, Int64.not_le.mp hpos, Int64.not_lt.mp hend, rfl⟩

/-- What holds before any hint, and is kept by every hint that is recorded, holds of all of them. -/
theorem ofHints_induct {P : List Hint → List Instr → Prop} (hnil : P [] [])
    (hstep : ∀ done known h known', P done known → record s code n known h = .ok known' →
      P (done ++ [h]) known')
    (hok : ofHints s code n hints = .ok known) : P hints known := by
  have hall : ∀ (rest done : List Hint) (known₀ : List Instr), P done known₀ →
      rest.foldlM (record s code n) known₀ = .ok known → P (done ++ rest) known := by
    intro rest
    induction rest with
    | nil =>
      intro done known₀ hdone hok
      cases hok
      rwa [List.append_nil]
    | cons h rest ih =>
      intro done known₀ hdone hok
      rw [List.foldlM_cons] at hok
      obtain ⟨known₁, hrecord, hok⟩ := bind_eq_ok.mp hok
      have hrest := ih (done ++ [h]) known₁ (hstep done known₀ h known₁ hdone hrecord) hok
      rwa [List.append_assoc] at hrest
  exact hall hints [] [] hnil hok

end Record

/-- What is recorded after some hints: they lie in the section, and each has an instruction, of the
size that the first hint at its offset gives it. -/
structure Recorded (s : Settings) (code : Code) (n : Offset) (done : List Hint)
    (known : List Instr) : Prop where
  inside : ∀ h ∈ done, 0 ≤ h.offset ∧ h.offset < n
  found : ∀ h ∈ done, at? known h.offset ≠ none
  size : ∀ p, (at? known p).map Instr.size = Hint.sizeAt? s code done p
  positive : ∀ i ∈ known, 0 < i.size

section Recorded

variable {s : Settings} {code : Code} {n : Offset} {done hints : List Hint} {known known' : List Instr}
  {h : Hint}

theorem recorded_nil (s : Settings) (code : Code) (n : Offset) : Recorded s code n [] [] :=
  ⟨fun _ hh => absurd hh List.not_mem_nil, fun _ hh => absurd hh List.not_mem_nil, fun _ => rfl,
    fun _ hi => absurd hi List.not_mem_nil⟩

theorem at?_append (known : List Instr) (i : Instr) (p : Offset) :
    at? (known ++ [i]) p = (at? known p).or (if i.offset = p then some i else none) := by
  unfold at?
  rw [List.find?_append]
  by_cases hp : i.offset = p
  · simp [hp]
  · simp [hp]

theorem Recorded.repeated (hrec : Recorded s code n done known)
    (hinside : 0 ≤ h.offset ∧ h.offset < n) (hknown : at? known h.offset ≠ none) :
    Recorded s code n (done ++ [h]) known := by
  refine ⟨?_, ?_, ?_, hrec.positive⟩
  · intro h' hmem
    rcases List.mem_append.mp hmem with hmem | hmem
    · exact hrec.inside h' hmem
    · rw [List.mem_singleton.mp hmem]
      exact hinside
  · intro h' hmem
    rcases List.mem_append.mp hmem with hmem | hmem
    · exact hrec.found h' hmem
    · rw [List.mem_singleton.mp hmem]
      exact hknown
  · intro p
    rw [Hint.sizeAt?_append, hrec.size]
    split
    · rfl
    · rename_i hfree
      -- an instruction without a hint before would be one without a size
      have hnone : Hint.sizeAt? s code done p = none := Hint.sizeAt?_eq_none hfree
      have hother : h.offset ≠ p := by
        intro hp
        rw [← hrec.size, Option.map_eq_none_iff, ← hp] at hnone
        exact hknown hnone
      rw [hnone, if_neg hother]

theorem Recorded.added (hrec : Recorded s code n done known)
    (hinside : 0 ≤ h.offset ∧ h.offset < n) (hfree : at? known h.offset = none) {z : Offset}
    (hsize : sizeFor s code h = .ok z) (hz : 0 < z) :
    Recorded s code n (done ++ [h]) (known ++ [⟨h.offset, z⟩]) := by
  have hfirst : ¬ ∃ h' ∈ done, h'.offset = h.offset := by
    intro ⟨h', hmem, hp⟩
    exact hrec.found h' hmem (hp ▸ hfree)
  refine ⟨?_, ?_, ?_, ?_⟩
  · intro h' hmem
    rcases List.mem_append.mp hmem with hmem | hmem
    · exact hrec.inside h' hmem
    · rw [List.mem_singleton.mp hmem]
      exact hinside
  · intro h' hmem
    rw [at?_append]
    rcases List.mem_append.mp hmem with hmem | hmem
    · intro hnone
      exact hrec.found h' hmem (Option.or_eq_none_iff.mp hnone).1
    · rw [List.mem_singleton.mp hmem, hfree]
      simp
  · intro p
    rw [at?_append, Hint.sizeAt?_append]
    by_cases hp : h.offset = p
    · subst hp
      rw [hfree, if_neg hfirst, if_pos rfl, if_pos rfl, hsize]
      rfl
    · rw [if_neg hp, if_neg hp, Option.or_none, hrec.size]
      split
      · rfl
      · rename_i hnone
        exact Hint.sizeAt?_eq_none hnone
  · intro i hi
    rcases List.mem_append.mp hi with hi | hi
    · exact hrec.positive i hi
    · rw [List.mem_singleton.mp hi]
      exact hz

theorem Recorded.record (hrec : Recorded s code n done known)
    (hok : record s code n known h = .ok known') : Recorded s code n (done ++ [h]) known' := by
  obtain ⟨hin, ⟨i, hi, _, rfl⟩ | ⟨z, hfree, hsize, hz, _, rfl⟩⟩ := record_cases hok
  · exact hrec.repeated hin (by rw [hi]; simp)
  · exact hrec.added hin hfree hsize hz

theorem recorded_of_ofHints (hok : ofHints s code n hints = .ok known) :
    Recorded s code n hints known :=
  ofHints_induct (recorded_nil s code n) (fun _ _ _ _ hrec => hrec.record) hok

theorem Recorded.after_eq (hrec : Recorded s code n hints known) (hh : h ∈ hints) :
    ∃ z, Hint.sizeAt? s code hints h.offset = some z ∧ 0 < z ∧ after known h = h.offset + z := by
  cases hi : at? known h.offset with
  | none => exact absurd hi (hrec.found h hh)
  | some i =>
    have hoffset : i.offset = h.offset := by simpa using List.find?_some hi
    refine ⟨i.size, ?_, hrec.positive i (List.mem_of_find?_eq_some hi), ?_⟩
    · rw [← hrec.size, hi, Option.map_some]
    · rw [after, hi]
      exact congrArg (· + i.size) hoffset

end Recorded

/-! ### Targets -/

theorem forM_eq_ok {ε α : Type} {f : α → Except ε Unit} {l : List α} (h : l.forM f = .ok ()) :
    ∀ a ∈ l, f a = .ok () := by
  induction l with
  | nil => exact fun a ha => absurd ha List.not_mem_nil
  | cons b l ih =>
    obtain ⟨_, hb, hl⟩ := bind_eq_ok.mp h
    intro a ha
    rcases List.mem_cons.mp ha with rfl | ha
    · exact hb
    · exact ih hl a ha

theorem targets_inside {s : Settings} {n : Offset} {known : List Instr} {h : Hint}
    (hok : checkTargets s n known h = .ok ()) : ∀ t ∈ h.targets, 0 ≤ t ∧ t < n := by
  intro t ht
  have hflaw := forM_eq_ok hok t ht
  unfold targetFlaw? at hflaw
  by_cases hout : t < 0 ∨ n ≤ t
  · rw [if_pos hout] at hflaw
    cases hflaw
  · rwa [not_or, Int64.not_lt, Int64.not_le] at hout

end Instr

/-! ### Where blocks start -/

namespace Hint

/-- Where a hint makes a block start, given the sizes of the instructions. -/
inductive Opens (size? : Offset → Option Offset) (h : Hint) : Offset → Prop
  | here (kind : h.kind = .label ∨ h.kind = .boundary) : Opens size? h h.offset
  | target {p : Offset} (mark : h.kind ≠ .label ∧ h.kind ≠ .boundary)
      (exit : h.kind ≠ .ret ∧ h.kind ≠ .halt) (mem : p ∈ h.targets) : Opens size? h p
  | next {p z : Offset} (mark : h.kind ≠ .label ∧ h.kind ≠ .boundary)
      (size : size? h.offset = some z) (sum : p.toInt = h.offset.toInt + z.toInt) :
      Opens size? h p

/-- No hinted instruction reaches beyond the end of the section, in numbers without bounds. -/
def Fit (s : Settings) (code : Code) (n : Offset) (hints : List Hint) : Prop :=
  ∀ h ∈ hints, ∀ z ∈ sizeAt? s code hints h.offset, h.offset.toInt + z.toInt ≤ n.toInt

instance (s : Settings) (code : Code) (n : Offset) (hints : List Hint) :
    Decidable (Fit s code n hints) :=
  decidable_of_iff (∀ h ∈ hints, (sizeAt? s code hints h.offset).all
      (fun z => decide (h.offset.toInt + z.toInt ≤ n.toInt)) = true) <| by
    simp only [Fit, Option.all_eq_true, decide_eq_true_eq, Option.mem_def]

theorem Fit.sort {s : Settings} {code : Code} {n : Offset} {hints : List Hint}
    (h : Fit s code n hints) : Fit s code n (sort hints) := by
  intro hint hmem z hz
  rw [sizeAt?_sort] at hz
  exact h hint (mem_sort.mp hmem) z hz

end Hint

namespace Instr

variable {s : Settings} {code : Code} {n : Offset} {hints : List Hint} {known : List Instr}
  {h : Hint} {entries : List Offset}

theorem entriesOf_cases (hok : entriesOf s n known h = .ok entries) :
    ((h.kind = .label ∨ h.kind = .boundary) ∧ entries = [h.offset]) ∨
      ((h.kind = .ret ∨ h.kind = .halt) ∧ entries = [after known h]) ∨
      ((h.kind ≠ .label ∧ h.kind ≠ .boundary) ∧ (h.kind ≠ .ret ∧ h.kind ≠ .halt) ∧
        checkTargets s n known h = .ok () ∧ entries = h.targets ++ [after known h]) := by
  unfold entriesOf at hok
  split at hok
  · rename_i hkind
    cases hok
    exact Or.inl ⟨Or.inl hkind, rfl⟩
  · rename_i hkind
    cases hok
    exact Or.inl ⟨Or.inr hkind, rfl⟩
  · rename_i hkind
    cases hok
    exact Or.inr (Or.inl ⟨Or.inl hkind, rfl⟩)
  · rename_i hkind
    cases hok
    exact Or.inr (Or.inl ⟨Or.inr hkind, rfl⟩)
  · rename_i hlabel hboundary hret hhalt
    obtain ⟨_, hcheck, hok⟩ := bind_eq_ok.mp hok
    cases hok
    exact Or.inr (Or.inr ⟨⟨hlabel, hboundary⟩, ⟨hret, hhalt⟩, hcheck, rfl⟩)

theorem Recorded.eq_after_iff (hrec : Recorded s code n hints known)
    (hfit : Hint.Fit s code n hints) (hh : h ∈ hints) (p : Offset) :
    p = after known h ↔ ∃ z, Hint.sizeAt? s code hints h.offset = some z ∧
      p.toInt = h.offset.toInt + z.toInt := by
  obtain ⟨z, hsize, hz, hafter⟩ := hrec.after_eq hh
  have hexact := Offset.toInt_add_of_le (hrec.inside h hh).1 hz (hfit h hh z hsize)
  rw [hafter]
  constructor
  · intro hp
    exact ⟨z, hsize, hp ▸ hexact⟩
  · intro hp
    obtain ⟨z', hsize', hp⟩ := hp
    cases hsize.symm.trans hsize'
    rw [← Int64.toInt_inj, hp, hexact]

theorem Recorded.mem_entries (hrec : Recorded s code n hints known)
    (hfit : Hint.Fit s code n hints) (hh : h ∈ hints)
    (hok : entriesOf s n known h = .ok entries) (p : Offset) :
    p ∈ entries ↔ h.Opens (Hint.sizeAt? s code hints) p := by
  have hafter := hrec.eq_after_iff hfit hh p
  rcases entriesOf_cases hok with ⟨hkind, rfl⟩ | ⟨hkind, rfl⟩ | ⟨hmark, hexit, _, rfl⟩
  · rw [List.mem_singleton]
    constructor
    · rintro rfl
      exact .here hkind
    · intro hopens
      cases hopens with
      | here => rfl
      | target hmark => exact absurd hkind (not_or.mpr hmark)
      | next hmark => exact absurd hkind (not_or.mpr hmark)
  · have hmark : h.kind ≠ .label ∧ h.kind ≠ .boundary := by
      rcases hkind with hkind | hkind <;> simp [hkind]
    rw [List.mem_singleton, hafter]
    constructor
    · intro hp
      obtain ⟨z, hsize, hsum⟩ := hp
      exact .next hmark hsize hsum
    · intro hopens
      cases hopens with
      | here hkind' => exact absurd hkind' (not_or.mpr hmark)
      | target _ hexit => exact absurd hkind (not_or.mpr hexit)
      | next _ hsize hsum => exact ⟨_, hsize, hsum⟩
  · rw [List.mem_append, List.mem_singleton, hafter]
    constructor
    · intro hp
      rcases hp with hp | ⟨z, hsize, hsum⟩
      · exact .target hmark hexit hp
      · exact .next hmark hsize hsum
    · intro hopens
      cases hopens with
      | here hkind => exact absurd hkind (not_or.mpr hmark)
      | target _ _ hmem => exact Or.inl hmem
      | next _ hsize hsum => exact Or.inr ⟨_, hsize, hsum⟩

theorem Recorded.entries_inside (hrec : Recorded s code n hints known)
    (hfit : Hint.Fit s code n hints) (hh : h ∈ hints)
    (hok : entriesOf s n known h = .ok entries) : ∀ p ∈ entries, 0 ≤ p ∧ p ≤ n := by
  have hin := hrec.inside h hh
  have hafter : 0 ≤ after known h ∧ after known h ≤ n := by
    obtain ⟨z, hsize, hz, heq⟩ := hrec.after_eq hh
    have hend := hfit h hh z hsize
    have hexact := Offset.toInt_add_of_le hin.1 hz hend
    rw [heq, Int64.le_iff_toInt_le, Int64.le_iff_toInt_le, hexact, Int64.toInt_zero]
    rw [Int64.le_iff_toInt_le, Int64.toInt_zero] at hin
    rw [Int64.lt_iff_toInt_lt, Int64.toInt_zero] at hz
    omega
  intro p hp
  rcases entriesOf_cases hok with ⟨_, rfl⟩ | ⟨_, rfl⟩ | ⟨_, _, hcheck, rfl⟩
  · rw [List.mem_singleton.mp hp]
    exact ⟨hin.1, Int64.le_of_lt hin.2⟩
  · rw [List.mem_singleton.mp hp]
    exact hafter
  · rcases List.mem_append.mp hp with hp | hp
    · have htarget := targets_inside hcheck p hp
      exact ⟨htarget.1, Int64.le_of_lt htarget.2⟩
    · rw [List.mem_singleton.mp hp]
      exact hafter

end Instr

end RegisterWeb
