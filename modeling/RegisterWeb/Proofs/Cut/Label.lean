import Mathlib
import RegisterWeb.Proofs.Cut.Graph
import RegisterWeb.Proofs.Place

/-!
A label inside of a block. It makes a block start at its offset and changes nothing else about the
layout: instructions keep their sizes, and no hint leads there. So if nothing before it in the block
leaves the block, the graph is the one without the label, with a cut.
-/

namespace RegisterWeb

open RegisterWeb.Graph
open RegisterWeb.Seam

/-! ### Sizes of instructions -/

namespace Instr

variable {s : Settings} {code : Code} {n : Offset} {done hints : List Hint}
  {known known' : List Instr} {h : Hint}

/-- The hints leave the sizes of their instructions open, or give those that are recorded. -/
def Agree (hints : List Hint) (known : List Instr) : Prop :=
  ∀ h ∈ hints, h.size = 0 ∨ (at? known h.offset).map Instr.size = some h.size

theorem Agree.record (hagree : Agree done known) (hrec : Recorded s code n done known)
    (hok : record s code n known h = .ok known') : Agree (done ++ [h]) known' := by
  obtain ⟨_, ⟨i, hi, hsize, rfl⟩ | ⟨z, hfree, hz, _, _, rfl⟩⟩ := record_cases hok
  · intro h' hmem
    rcases List.mem_append.mp hmem with hmem | hmem
    · exact hagree h' hmem
    · rw [List.mem_singleton.mp hmem, hi]
      exact hsize.imp_right fun hsize => congrArg some hsize.symm
  · intro h' hmem
    rw [at?_append]
    rcases List.mem_append.mp hmem with hmem | hmem
    · obtain ⟨i, hi⟩ := Option.ne_none_iff_exists'.mp (hrec.found h' hmem)
      have hkept := hagree h' hmem
      rw [hi] at hkept ⊢
      exact hkept
    · rw [List.mem_singleton.mp hmem, hfree, Option.none_or, if_pos rfl]
      refine or_iff_not_imp_left.mpr fun hne => ?_
      rw [sizeFor, if_neg hne] at hz
      cases hz
      rfl

theorem agree_of_ofHints (hok : ofHints s code n hints = .ok known) : Agree hints known := by
  have hboth : Recorded s code n hints known ∧ Agree hints known := by
    refine ofHints_induct (P := fun done known => Recorded s code n done known ∧ Agree done known)
      ⟨recorded_nil s code n, fun _ hh => absurd hh List.not_mem_nil⟩ ?_ hok
    intro done known h known' hdone hrecord
    exact ⟨hdone.1.record hrecord, hdone.2.record hdone.1 hrecord⟩
  exact hboth.2

end Instr

/-- The hint for a label that leaves the size of its instruction open. -/
def Hint.labelAt (p : Offset) : Hint :=
  ⟨p, .label, [], 0⟩

namespace Hint

variable {s : Settings} {code : Code} {n p : Offset} {first second : List Hint} {h : Hint}

theorem mem_insert_label :
    h ∈ first ++ labelAt p :: second ↔ h ∈ first ++ second ∨ h = labelAt p := by
  simp only [List.mem_append, List.mem_cons]
  tauto

theorem forall_insert_label {P : Hint → Prop} (hlabel : P (labelAt p)) :
    (∀ h ∈ first ++ labelAt p :: second, P h) ↔ ∀ h ∈ first ++ second, P h := by
  simp only [mem_insert_label, or_imp, forall_and, forall_eq, hlabel, and_true]

theorem exists_insert_label {P : Hint → Prop} (hlabel : ¬ P (labelAt p)) :
    (∃ h ∈ first ++ labelAt p :: second, P h) ↔ ∃ h ∈ first ++ second, P h := by
  simp only [mem_insert_label, or_and_right, exists_or, exists_eq_left, hlabel, or_false]

theorem find?_insert_label_self (hfirst : first.find? (fun h => h.offset == p) = none) :
    (first ++ labelAt p :: second).find? (fun h => h.offset == p) = some (labelAt p) := by
  rw [List.find?_append, hfirst, Option.none_or]
  exact List.find?_cons_of_pos (beq_self_eq_true p)

/-- A label does not change the size of an instruction that has a hint already. -/
theorem sizeAt?_insert_label {known : List Instr}
    (hok : Instr.ofHints s code n (sort (first ++ labelAt p :: second)) = .ok known)
    (hh : h ∈ first ++ second) :
    sizeAt? s code (first ++ labelAt p :: second) h.offset
      = sizeAt? s code (first ++ second) h.offset := by
  by_cases hp : h.offset = p
  · subst hp
    cases hfirst : first.find? fun h' => h'.offset == h.offset with
    | some h₀ =>
      rw [sizeAt?, sizeAt?, List.find?_append, List.find?_append, hfirst, Option.some_or,
        Option.some_or]
    | none =>
      -- The label comes first, and another hint there gives its size or leaves it open.
      have hsecond : h ∈ second := by
        refine (List.mem_append.mp hh).resolve_left fun hmem => ?_
        exact List.find?_eq_none.mp hfirst h hmem (beq_self_eq_true _)
      cases hfound : second.find? fun h' => h'.offset == h.offset with
      | none => exact absurd (beq_self_eq_true _) (List.find?_eq_none.mp hfound h hsecond)
      | some h₀ =>
        have hoffset : h₀.offset = h.offset := by simpa using List.find?_some hfound
        have hmem : h₀ ∈ first ++ labelAt h.offset :: second :=
          mem_insert_label.mpr (Or.inl (List.mem_append_right _ (List.mem_of_find?_eq_some hfound)))
        have hsame : sizeAt? s code (first ++ second) h.offset
            = (Instr.sizeFor s code h₀).toOption := by
          rw [sizeAt?, List.find?_append, hfirst, Option.none_or, hfound, Option.bind_some]
        rw [hsame]
        by_cases hzero : h₀.size = 0
        · rw [sizeAt?, find?_insert_label_self hfirst, Option.bind_some, Instr.sizeFor,
            Instr.sizeFor, if_pos hzero, hoffset]
          rfl
        · have hsize := (Instr.agree_of_ofHints hok h₀ (mem_sort.mpr hmem)).resolve_left hzero
          rw [(Instr.recorded_of_ofHints hok).size, sizeAt?_sort, hoffset] at hsize
          rw [hsize, Instr.sizeFor, if_neg hzero]
          rfl
  · have hne : ((labelAt p).offset == h.offset) = false := beq_false_of_ne (Ne.symm hp)
    rw [sizeAt?, sizeAt?, List.find?_append, List.find?_append, List.find?_cons, hne]

/-- Where the hints make blocks start with the label. -/
theorem opens_insert_label {known : List Instr}
    (hok : Instr.ofHints s code n (sort (first ++ labelAt p :: second)) = .ok known) (q : Offset) :
    (∃ h ∈ first ++ labelAt p :: second,
        h.Opens (sizeAt? s code (first ++ labelAt p :: second)) q) ↔
      (∃ h ∈ first ++ second, h.Opens (sizeAt? s code (first ++ second)) q) ∨ q = p := by
  have hopens : ∀ h ∈ first ++ second, ∀ q,
      h.Opens (sizeAt? s code (first ++ labelAt p :: second)) q ↔
        h.Opens (sizeAt? s code (first ++ second)) q := by
    intro h hh q
    have hsize := sizeAt?_insert_label hok hh
    constructor
    · intro hopens
      cases hopens with
      | here kind => exact .here kind
      | target mark exit mem => exact .target mark exit mem
      | next mark size sum => exact .next mark (hsize ▸ size) sum
    · intro hopens
      cases hopens with
      | here kind => exact .here kind
      | target mark exit mem => exact .target mark exit mem
      | next mark size sum => exact .next mark (hsize.trans size) sum
  constructor
  · rintro ⟨h, hh, hq⟩
    rcases mem_insert_label.mp hh with hh | rfl
    · exact Or.inl ⟨h, hh, (hopens h hh q).mp hq⟩
    · cases hq with
      | here kind => exact Or.inr rfl
      | target mark exit mem => exact absurd rfl mark.1
      | next mark size sum => exact absurd rfl mark.1
  · rintro (⟨h, hh, hq⟩ | rfl)
    · exact ⟨h, mem_insert_label.mpr (Or.inl hh), (hopens h hh q).mpr hq⟩
    · exact ⟨labelAt q, mem_insert_label.mpr (Or.inr rfl), .here (Or.inl rfl)⟩

theorem Fit.of_insert_label {known : List Instr}
    (hfit : Fit s code n (first ++ labelAt p :: second))
    (hok : Instr.ofHints s code n (Hint.sort (first ++ labelAt p :: second)) = .ok known) :
    Fit s code n (first ++ second) := by
  intro h hh z hz
  refine hfit h (mem_insert_label.mpr (Or.inl hh)) z ?_
  rwa [sizeAt?_insert_label hok hh]

end Hint

/-! ### A start between two others -/

namespace Seam

variable {i b : Nat} {p : Offset} {l l' : List Offset}

/-- An ascending list with one more member has it in its place. -/
theorem eq_insert (hl : Ascending l) (hl' : Ascending l') (hi : i < l.length) (hlow : l[i] < p)
    (hhigh : ∀ q, l[i + 1]? = some q → p < q) (hmem : ∀ q, q ∈ l' ↔ q ∈ l ∨ q = p) :
    l' = l.take (i + 1) ++ p :: l.drop (i + 1) := by
  have hget : ∀ j k (hj : j < l.length) (hk : k < l.length), j < k → l[j] < l[k] :=
    List.pairwise_iff_getElem.mp hl
  have hbefore : ∀ q ∈ l.take (i + 1), q < p := by
    intro q hq
    obtain ⟨j, hj, rfl⟩ := List.mem_take_iff_getElem.mp hq
    rcases Nat.lt_or_eq_of_le (show j ≤ i by omega) with hji | rfl
    · exact Int64.lt_trans (hget j i (by omega) hi hji) hlow
    · exact hlow
  have hbehind : ∀ q ∈ l.drop (i + 1), p < q := by
    intro q hq
    obtain ⟨j, hj, rfl⟩ := List.mem_drop_iff_getElem.mp hq
    have hnext := hhigh _ (List.getElem?_eq_getElem (show i + 1 < l.length by omega))
    rcases Nat.eq_zero_or_pos j with rfl | hpos
    · exact hnext
    · exact Int64.lt_trans hnext (hget (i + 1) (i + 1 + j) (by omega) (by omega) (by omega))
  refine Ascending.eq_of_mem_iff hl' ?_ fun q => ?_
  · refine List.pairwise_append.mpr ⟨hl.sublist (List.take_sublist _ _),
      List.pairwise_cons.mpr ⟨hbehind, hl.sublist (List.drop_sublist _ _)⟩, ?_⟩
    intro q hq u hu
    rcases List.mem_cons.mp hu with rfl | hu
    · exact hbefore q hq
    · exact Int64.lt_trans (hbefore q hq) (hbehind u hu)
  · rw [hmem, List.mem_append, List.mem_cons]
    have hsplit : q ∈ l ↔ q ∈ l.take (i + 1) ∨ q ∈ l.drop (i + 1) := by
      rw [← List.mem_append, List.take_append_drop]
    rw [hsplit]
    tauto

theorem tail_succ : tail i b + 1 = head i (b + 1) := by
  unfold tail head
  split <;> split <;> omega

theorem getElem?_insert_head (hi : i < l.length) :
    (l.take (i + 1) ++ p :: l.drop (i + 1))[head i b]? = l[b]? := by
  have hlength : (l.take (i + 1)).length = i + 1 := by
    rw [List.length_take]
    omega
  by_cases hb : b ≤ i
  · rw [head, if_pos hb, List.getElem?_append_left (by omega), List.getElem?_take_of_lt (by omega)]
  · have hsub : b + 1 - (i + 1) = (b - (i + 1)) + 1 := by omega
    rw [head, if_neg hb, List.getElem?_append_right (by omega), hlength, hsub,
      List.getElem?_cons_succ, List.getElem?_drop, Nat.add_sub_cancel' (by omega)]

theorem getElem?_insert_succ (hi : i < l.length) :
    (l.take (i + 1) ++ p :: l.drop (i + 1))[i + 1]? = some p := by
  have hlength : (l.take (i + 1)).length = i + 1 := by
    rw [List.length_take]
    omega
  rw [List.getElem?_append_right (by omega), hlength, Nat.sub_self, List.getElem?_cons_zero]

end Seam

/-! ### The blocks with the label -/

namespace Graph

variable {s : Settings} {code : Code} {n p : Offset} {hints : List Hint} {g : Graph}
  {starts : List Offset} {transfers : List Transfer}

theorem Stages.start_getD (h : Stages s code n hints g starts transfers) (b : Nat) :
    (g.block b).start = starts[b]?.getD 0 := by
  by_cases hb : b < starts.length
  · rw [h.start_eq hb, List.getElem?_eq_getElem hb, Option.getD_some]
  · rw [block_of_size_le (h.size_eq ▸ Nat.le_of_not_lt hb),
      List.getElem?_eq_none (Nat.le_of_not_lt hb)]
    rfl

theorem Stages.stop_getD (h : Stages s code n hints g starts transfers) (b : Nat) :
    (g.block b).stop = if b < g.size then starts[b + 1]?.getD n else 0 := by
  split
  · rename_i hb
    exact h.stop_eq (h.size_eq ▸ hb)
  · rename_i hb
    rw [block_of_size_le (Nat.le_of_not_lt hb)]
    rfl

theorem Stages.root_iff (h : Stages s code n hints g starts transfers) {b : Nat} (hb : b < g.size) :
    (g.block b).root = true ↔ b = 0 ∨ g.preds.get b = [] ∨
      ((∃ hint ∈ hints, hint.kind = .boundary ∧ hint.offset = (g.block b).start) ∧
        isCalled g.preds b = false) := by
  obtain ⟨hlt, hid, hstart, _⟩ := h.place_eq hb
  have hlink : b < (Layout.link (Layout.blocks n starts) (boundariesOf hints) transfers).size := by
    rwa [Layout.link, Array.size_map]
  have hroot : (g.block b).root = isRoot g.preds (boundariesOf hints)
      ((Layout.link (Layout.blocks n starts) (boundariesOf hints) transfers).getD b default) := by
    rw [h.graph]
    simp only [block, ofBlocks]
    rw [Layout.getD_map _ hlink]
  rw [hroot, Layout.link, Layout.getD_map _ hlt, isRoot, hstart, ← mem_boundariesOf]
  simp only [Layout.linkBlock, hid, Bool.or_eq_true, beq_iff_eq, List.isEmpty_iff, Bool.and_eq_true,
    List.contains_iff_mem, Bool.not_eq_true', or_assoc]

/-- The two graphs of a section without and with a label inside of block `i`. -/
structure Labeled (s : Settings) (code : Code) (n : Offset) (first second : List Hint) (p : Offset)
    (g g' : Graph) (i : Nat) : Prop where
  built : build s code n (first ++ second) = .ok g
  built' : build s code n (first ++ Hint.labelAt p :: second) = .ok g'
  fit : Hint.Fit s code n (first ++ Hint.labelAt p :: second)
  inside : (g.block i).start < p ∧ p < (g.block i).stop
  later : ∀ h ∈ first ++ second, g.Holds i h → h.kind ≠ .label → h.kind ≠ .boundary → p ≤ h.offset

namespace Labeled

variable {first second : List Hint} {g' : Graph} {i b : Nat}

theorem lt (h : Labeled s code n first second p g g' i) : i < g.size := by
  by_contra hi
  have hinside := h.inside
  rw [block_of_size_le (Nat.le_of_not_lt hi)] at hinside
  exact Int64.lt_irrefl (Int64.lt_trans hinside.1 hinside.2)

/-- How both graphs came about. -/
theorem stages (h : Labeled s code n first second p g g' i) :
    ∃ starts transfers starts' transfers', Stages s code n (first ++ second) g starts transfers ∧
      Stages s code n (first ++ Hint.labelAt p :: second) g' starts' transfers' ∧ 0 < n ∧
      Hint.Fit s code n (first ++ second) ∧
      starts' = starts.take (i + 1) ++ p :: starts.drop (i + 1) := by
  have hn := length_ne_zero_of_build h.built h.lt
  obtain ⟨starts, transfers, hstages⟩ := exists_stages h.built hn
  obtain ⟨starts', transfers', hstages'⟩ := exists_stages h.built' hn
  have hpos : 0 < n := hstages'.positive
    (Hint.mem_sort.mpr (Hint.mem_insert_label.mpr (Or.inr (Eq.refl (Hint.labelAt p)))))
  obtain ⟨known, _, hknown, _, _⟩ := Layout.starts_eq_ok hstages'.opened
  have hfit := h.fit.of_insert_label hknown
  refine ⟨starts, transfers, starts', transfers', hstages, hstages', hpos, hfit, ?_⟩
  have hi : i < starts.length := hstages.size_eq ▸ h.lt
  obtain ⟨hlow, hhigh⟩ := h.inside
  have hend : p < n :=
    Int64.lt_of_lt_of_le hhigh ((hstages.partition hfit hpos).2.bounds h.lt).2
  rw [hstages.start_eq hi] at hlow
  rw [hstages.stop_eq hi] at hhigh
  refine eq_insert (Layout.starts_lt hstages.opened hpos).1
    (Layout.starts_lt hstages'.opened hpos).1 hi hlow ?_ ?_
  · intro q hq
    rwa [hq] at hhigh
  · intro q
    have hsizes : ∀ hints : List Hint, Hint.sizeAt? s code (Hint.sort hints)
        = Hint.sizeAt? s code hints := fun hints => funext (Hint.sizeAt?_sort s code hints)
    have hopens := Hint.opens_insert_label hknown q
    rw [Layout.mem_starts h.fit.sort hstages'.opened, Layout.mem_starts hfit.sort hstages.opened]
    simp only [hsizes, Hint.mem_sort, hopens]
    constructor
    · rintro ⟨hne, hzero | hold | hnew⟩
      · exact Or.inl ⟨hne, Or.inl hzero⟩
      · exact Or.inl ⟨hne, Or.inr hold⟩
      · exact Or.inr hnew
    · rintro (⟨hne, hold⟩ | rfl)
      · exact ⟨hne, hold.imp_right Or.inl⟩
      · exact ⟨Int64.ne_of_lt hend, Or.inr (Or.inr rfl)⟩

theorem partition (h : Labeled s code n first second p g g' i) :
    Layout.Partition g.length g.blocks ∧ Layout.Partition g'.length g'.blocks := by
  obtain ⟨starts, transfers, starts', transfers', hstages, hstages', hpos, hfit, _⟩ := h.stages
  rw [hstages.length_eq, hstages'.length_eq]
  exact ⟨(hstages.partition hfit hpos).2, (hstages'.partition h.fit hpos).2⟩

theorem size (h : Labeled s code n first second p g g' i) : g'.size = g.size + 1 := by
  obtain ⟨starts, transfers, starts', transfers', hstages, hstages', _, _, hstarts⟩ := h.stages
  have hi : i < starts.length := hstages.size_eq ▸ h.lt
  rw [hstages.size_eq, hstages'.size_eq, hstarts, List.length_append, List.length_cons,
    List.length_take, List.length_drop]
  omega

theorem start (h : Labeled s code n first second p g g' i) (b : Nat) :
    (g'.block (head i b)).start = (g.block b).start := by
  obtain ⟨starts, transfers, starts', transfers', hstages, hstages', _, _, hstarts⟩ := h.stages
  rw [hstages.start_getD, hstages'.start_getD, hstarts,
    getElem?_insert_head (hstages.size_eq ▸ h.lt)]

theorem block_outside (h : Labeled s code n first second p g g' i) (hb : ¬ b < g.size) :
    g'.block (head i b) = g.block b := by
  have hb' : ¬ head i b < g'.size := by
    rw [h.size, head_lt h.lt]
    exact hb
  rw [block_of_size_le (Nat.le_of_not_lt hb), block_of_size_le (Nat.le_of_not_lt hb')]

theorem block_tail_outside (h : Labeled s code n first second p g g' i) (hb : ¬ b < g.size) :
    g'.block (tail i b) = g.block b := by
  have hne : b ≠ i := by
    rintro rfl
    exact hb h.lt
  rw [tail_of_ne hne, h.block_outside hb]

theorem stop (h : Labeled s code n first second p g g' i) (b : Nat) :
    (g'.block (tail i b)).stop = (g.block b).stop := by
  have hsize := h.size
  obtain ⟨starts, transfers, starts', transfers', hstages, hstages', _, _, hstarts⟩ := h.stages
  rw [hstages.stop_getD, hstages'.stop_getD, hsize, tail_succ, hstarts,
    getElem?_insert_head (hstages.size_eq ▸ h.lt)]
  simp only [tail_lt h.lt]

theorem seam (h : Labeled s code n first second p g g' i) :
    (g'.block (i + 1)).start = p ∧ (g'.block i).stop = p := by
  have hsize := h.size
  have hlt := h.lt
  obtain ⟨starts, transfers, starts', transfers', hstages, hstages', _, _, hstarts⟩ := h.stages
  have hp : starts'[i + 1]? = some p := by
    rw [hstarts, getElem?_insert_succ (hstages.size_eq ▸ hlt)]
  rw [hstages'.start_getD, hstages'.stop_getD, if_pos (by omega), hp]
  exact ⟨rfl, rfl⟩

theorem declared (h : Labeled s code n first second p g g' i) :
    (∀ b < g.size, g.Declared (first ++ second) b) ∧
      ∀ b < g'.size, g'.Declared (first ++ Hint.labelAt p :: second) b := by
  obtain ⟨starts, transfers, starts', transfers', hstages, hstages', _, hfit, _⟩ := h.stages
  exact ⟨fun b hb => hstages.declared hfit hb, fun b hb => hstages'.declared h.fit hb⟩

/-- No block starts at the label without it. -/
theorem start_ne (h : Labeled s code n first second p g g' i) (hb : b < g.size) :
    (g.block b).start ≠ p := by
  intro hstart
  have hpart := h.partition.1
  have hin : (g.block i).contains p = true := by
    rw [Block.contains, Bool.and_eq_true, decide_eq_true_eq, decide_eq_true_eq]
    exact ⟨Int64.le_of_lt h.inside.1, h.inside.2⟩
  have hown : (g.block b).contains p = true := by
    rw [← hstart]
    exact Transfer.contains_start hpart hb
  obtain rfl : b = i := hpart.unique hb h.lt hown hin
  exact Int64.ne_of_lt h.inside.1 hstart

/-- No hint makes a block start at the label without it. -/
theorem not_opens (h : Labeled s code n first second p g g' i) {hint : Hint}
    (hmem : hint ∈ first ++ second) : ¬ hint.Opens (Hint.sizeAt? s code (first ++ second)) p := by
  intro hopens
  have hbound := h.partition.1.bounds h.lt
  obtain ⟨starts, transfers, starts', transfers', hstages, _, _, hfit, _⟩ := h.stages
  rw [hstages.length_eq] at hbound
  obtain ⟨b, hb, hstart⟩ := (hstages.start_iff hfit p).mpr
    ⟨Int64.ne_of_lt (Int64.lt_of_lt_of_le h.inside.2 hbound.2), Or.inr ⟨hint, hmem, hopens⟩⟩
  exact h.start_ne hb hstart

/-! ### Hints in the parts -/

theorem holds_tail (h : Labeled s code n first second p g g' i) (hb : b ≠ i) (hint : Hint) :
    g'.Holds (tail i b) hint ↔ g.Holds b hint := by
  have hstart := h.start b
  rw [← tail_of_ne hb] at hstart
  rw [Holds, Holds, Block.contains, Block.contains, h.stop, hstart]

theorem holds_first (h : Labeled s code n first second p g g' i) (hint : Hint) :
    g'.Holds i hint ↔ (g.block i).start ≤ hint.offset ∧ hint.offset < p := by
  have hstart := h.start i
  rw [head_self] at hstart
  rw [Holds, Block.contains, Bool.and_eq_true, decide_eq_true_eq, decide_eq_true_eq, hstart,
    h.seam.2]

theorem holds_second (h : Labeled s code n first second p g g' i) (hint : Hint) :
    g'.Holds (i + 1) hint ↔ p ≤ hint.offset ∧ hint.offset < (g.block i).stop := by
  have hstop := h.stop i
  rw [tail_self] at hstop
  rw [Holds, Block.contains, Bool.and_eq_true, decide_eq_true_eq, decide_eq_true_eq, hstop,
    h.seam.1]

theorem later_of_terminates (h : Labeled s code n first second p g g' i) {hint : Hint}
    (hmem : hint ∈ first ++ second) (hholds : g.Holds i hint)
    (hends : hint.kind.terminates = true) : p ≤ hint.offset := by
  refine h.later hint hmem hholds ?_ ?_
  · intro hkind
    rw [hkind] at hends
    cases hends
  · intro hkind
    rw [hkind] at hends
    cases hends

/-- The hints of a block that end it are in its last part. -/
theorem exists_held (h : Labeled s code n first second p g g' i) (b : Nat) {Q : Hint → Prop}
    (hQ : ∀ hint, Q hint → hint.kind.terminates = true) :
    (∃ hint ∈ first ++ Hint.labelAt p :: second, g'.Holds (tail i b) hint ∧ Q hint) ↔
      ∃ hint ∈ first ++ second, g.Holds b hint ∧ Q hint := by
  have hholds : ∀ hint ∈ first ++ second, Q hint →
      (g'.Holds (tail i b) hint ↔ g.Holds b hint) := by
    intro hint hmem hq
    by_cases hb : b = i
    · subst hb
      rw [tail_self, h.holds_second]
      constructor
      · rintro ⟨hlow, hhigh⟩
        rw [Holds, Block.contains, Bool.and_eq_true, decide_eq_true_eq, decide_eq_true_eq]
        exact ⟨Int64.le_trans (Int64.le_of_lt h.inside.1) hlow, hhigh⟩
      · intro hold
        have hlow := h.later_of_terminates hmem hold (hQ hint hq)
        rw [Holds, Block.contains, Bool.and_eq_true, decide_eq_true_eq, decide_eq_true_eq] at hold
        exact ⟨hlow, hold.2⟩
    · exact h.holds_tail hb hint
  constructor
  · rintro ⟨hint, hmem, hold, hq⟩
    rcases Hint.mem_insert_label.mp hmem with hmem | rfl
    · exact ⟨hint, hmem, (hholds hint hmem hq).mp hold, hq⟩
    · cases hQ _ hq
  · rintro ⟨hint, hmem, hold, hq⟩
    exact ⟨hint, Hint.mem_insert_label.mpr (Or.inl hmem), (hholds hint hmem hq).mpr hold, hq⟩

/-- No hint of the first part ends it. -/
theorem still_first (h : Labeled s code n first second p g g' i) {hint : Hint}
    (hmem : hint ∈ first ++ Hint.labelAt p :: second) (hholds : g'.Holds i hint) :
    hint.kind.terminates = false := by
  rw [← Bool.not_eq_true]
  intro hends
  rw [h.holds_first] at hholds
  rcases Hint.mem_insert_label.mp hmem with hmem | rfl
  · have hold : g.Holds i hint := by
      rw [Holds, Block.contains, Bool.and_eq_true, decide_eq_true_eq, decide_eq_true_eq]
      exact ⟨hholds.1, Int64.lt_trans hholds.2 h.inside.2⟩
    exact Int64.not_lt.mpr (h.later_of_terminates hmem hold hends) hholds.2
  · cases hends

theorem not_mem_targets (h : Labeled s code n first second p g g' i) {hint : Hint}
    (hmem : hint ∈ first ++ second) (hkind : hint.kind.isJump = true ∨ hint.kind.isCall = true) :
    p ∉ hint.targets := by
  intro htarget
  refine h.not_opens hmem (.target ?_ ?_ htarget)
  · constructor <;> (intro hother; rw [hother] at hkind; revert hkind; decide)
  · constructor <;> (intro hother; rw [hother] at hkind; revert hkind; decide)

theorem fallsThrough_tail (h : Labeled s code n first second p g g' i) (b : Nat) :
    g'.FallsThrough (first ++ Hint.labelAt p :: second) (tail i b) ↔
      g.FallsThrough (first ++ second) b := by
  have hstill : (∀ hint ∈ first ++ Hint.labelAt p :: second,
      g'.Holds (tail i b) hint → hint.kind.terminates = false) ↔
        ∀ hint ∈ first ++ second, g.Holds b hint → hint.kind.terminates = false := by
    have hexists := not_congr (h.exists_held b (Q := fun hint => hint.kind.terminates = true)
      fun _ hends => hends)
    simpa only [not_exists, not_and, Bool.not_eq_true] using hexists
  have hexits : ∀ q : Offset, (∀ h' ∈ first ++ Hint.labelAt p :: second,
      h'.offset = q → h'.kind.isExit = false) ↔
        ∀ h' ∈ first ++ second, h'.offset = q → h'.kind.isExit = false :=
    fun q => Hint.forall_insert_label fun _ => rfl
  unfold FallsThrough
  rw [tail_succ, h.start, hstill]
  refine and_congr (Hint.forall_insert_label fun hkind => nomatch hkind)
    (or_congr_right (or_congr ?_ ?_))
  · refine h.exists_held b fun hint hkind => ?_
    rw [hkind]
    rfl
  · simp only [hexits]
    refine h.exists_held b fun hint hcall => ?_
    rw [HintKind.terminates, hcall.1, Bool.or_true, Bool.true_or]

/-! ### Edges -/

/-- The hints that steer to a block steer to its first part. -/
theorem exists_aimed (h : Labeled s code n first second p g g' i) (b y : Nat)
    {K : HintKind → Bool} (hK : ∀ k, K k = true → k.isJump = true ∨ k.isCall = true) :
    (y < g'.size ∧ ∃ hint ∈ first ++ Hint.labelAt p :: second, g'.Holds (tail i b) hint ∧
        K hint.kind = true ∧ (g'.block y).start ∈ hint.targets) ↔
      ∃ c, y = head i c ∧ c < g.size ∧ ∃ hint ∈ first ++ second, g.Holds b hint ∧
        K hint.kind = true ∧ (g.block c).start ∈ hint.targets := by
  rw [h.exists_held b (Q := fun hint => K hint.kind = true ∧ (g'.block y).start ∈ hint.targets)]
  · constructor
    · rintro ⟨hy, hint, hmem, hholds, hkind, htarget⟩
      have hne : y ≠ i + 1 := by
        rintro rfl
        rw [h.seam.1] at htarget
        exact h.not_mem_targets hmem (hK _ hkind) htarget
      obtain ⟨c, rfl⟩ := exists_head hne
      rw [h.start] at htarget
      exact ⟨c, rfl, (head_lt h.lt).mp (h.size ▸ hy), hint, hmem, hholds, hkind, htarget⟩
    · rintro ⟨c, rfl, hc, hint, hmem, hholds, hkind, htarget⟩
      rw [← h.start] at htarget
      exact ⟨h.size ▸ (head_lt h.lt).mpr hc, hint, hmem, hholds, hkind, htarget⟩
  · intro hint hq
    rw [HintKind.terminates]
    rcases hK _ hq.1 with hjump | hcall
    · rw [hjump, Bool.true_or, Bool.true_or]
    · rw [hcall, Bool.or_true, Bool.true_or]

/-- The edges of a block are those of its last part. -/
theorem mem_next_tail (h : Labeled s code n first second p g g' i) (hb : b < g.size) (y : Nat)
    (isCall : Bool) : (⟨y, isCall⟩ : Edge) ∈ (g'.block (tail i b)).next ↔
      ∃ c, y = head i c ∧ (⟨c, isCall⟩ : Edge) ∈ (g.block b).next := by
  have hdeclared := h.declared.1 b hb
  have hdeclared' := h.declared.2 (tail i b) (h.size ▸ (tail_lt h.lt).mpr hb)
  cases isCall with
  | true =>
    rw [hdeclared'.call]
    simp only [hdeclared.call]
    exact h.exists_aimed b y fun k hk => Or.inr hk
  | false =>
    have hjumps := h.exists_aimed b y (K := HintKind.isJump) fun k hk => Or.inl hk
    rw [hdeclared'.plain, and_or_left, hjumps, h.fallsThrough_tail, tail_succ]
    simp only [hdeclared.plain, and_or_left, exists_or]
    refine or_congr_right ?_
    constructor
    · rintro ⟨hy, rfl, hfalls⟩
      exact ⟨b + 1, rfl, (head_lt h.lt).mp (h.size ▸ hy), rfl, hfalls⟩
    · rintro ⟨c, rfl, hc, rfl, hfalls⟩
      exact ⟨h.size ▸ (head_lt h.lt).mpr hc, rfl, hfalls⟩

theorem next_tail (h : Labeled s code n first second p g g' i) (b : Nat) :
    (g'.block (tail i b)).next = (g.block b).next.map fun e => ⟨head i e.block, e.isCall⟩ := by
  by_cases hb : b < g.size
  · have hb' : tail i b < g'.size := h.size ▸ (tail_lt h.lt).mpr hb
    refine Ascending.eq_of_mem_iff (h.declared.2 _ hb').sorted ?_ fun e => ?_
    · refine List.pairwise_map.mpr ((h.declared.1 b hb).sorted.imp fun {e e'} hlt => ?_)
      rw [Edge.lt_iff] at hlt ⊢
      exact hlt.imp head_lt_head.mpr fun hsame => ⟨congrArg (head i) hsame.1, hsame.2⟩
    · obtain ⟨y, isCall⟩ := e
      rw [h.mem_next_tail hb, List.mem_map]
      constructor
      · rintro ⟨c, rfl, hc⟩
        exact ⟨_, hc, rfl⟩
      · rintro ⟨e, he, heq⟩
        cases heq
        exact ⟨e.block, rfl, he⟩
  · rw [h.block_tail_outside hb, block_of_size_le (Nat.le_of_not_lt hb)]
    rfl

theorem next_first (h : Labeled s code n first second p g g' i) :
    (g'.block i).next = [⟨i + 1, false⟩] := by
  have hlt : i < g'.size := h.size ▸ Nat.lt_succ_of_lt h.lt
  have hdeclared := h.declared.2 i hlt
  have hfalls : g'.FallsThrough (first ++ Hint.labelAt p :: second) i := by
    refine ⟨?_, Or.inl fun hint hmem hholds => h.still_first hmem hholds⟩
    rw [h.seam.1]
    refine (Hint.forall_insert_label fun hkind => nomatch hkind).mpr fun hint hmem hkind hp => ?_
    exact h.not_opens hmem (hp ▸ .here (Or.inr hkind))
  refine Ascending.eq_of_mem_iff hdeclared.sorted (List.pairwise_singleton _ _) fun e => ?_
  obtain ⟨y, isCall⟩ := e
  rw [List.mem_singleton, Edge.mk.injEq]
  cases isCall with
  | true =>
    rw [hdeclared.call]
    constructor
    · rintro ⟨_, hint, hmem, hholds, hcall, _⟩
      have hstill := h.still_first hmem hholds
      rw [HintKind.terminates, hcall, Bool.or_true, Bool.true_or] at hstill
      cases hstill
    · intro heq
      cases heq.2
  | false =>
    rw [hdeclared.plain]
    constructor
    · rintro ⟨_, ⟨hint, hmem, hholds, hjump, _⟩ | ⟨hy, _⟩⟩
      · have hstill := h.still_first hmem hholds
        rw [HintKind.terminates, hjump, Bool.true_or, Bool.true_or] at hstill
        cases hstill
      · exact ⟨hy, rfl⟩
    · rintro ⟨rfl, _⟩
      exact ⟨h.size ▸ Nat.succ_lt_succ h.lt, Or.inr ⟨rfl, hfalls⟩⟩

/-! ### Flags -/

theorem calls_tail (h : Labeled s code n first second p g g' i) (b : Nat) :
    (g'.block (tail i b)).calls = (g.block b).calls := by
  by_cases hb : b < g.size
  · have hb' : tail i b < g'.size := h.size ▸ (tail_lt h.lt).mpr hb
    rw [Bool.eq_iff_iff, (h.declared.1 b hb).calls, (h.declared.2 _ hb').calls]
    simp only [h.mem_next_tail hb]
    constructor
    · rintro ⟨y, c, _, hc⟩
      exact ⟨c, hc⟩
    · rintro ⟨c, hc⟩
      exact ⟨head i c, c, rfl, hc⟩
  · rw [h.block_tail_outside hb]

theorem returns_tail (h : Labeled s code n first second p g g' i) (b : Nat) :
    (g'.block (tail i b)).returns = (g.block b).returns := by
  by_cases hb : b < g.size
  · have hb' : tail i b < g'.size := h.size ▸ (tail_lt h.lt).mpr hb
    rw [Bool.eq_iff_iff, (h.declared.1 b hb).returns, (h.declared.2 _ hb').returns]
    refine h.exists_held b fun hint hkind => ?_
    rw [hkind]
    rfl
  · rw [h.block_tail_outside hb]

theorem flags_first (h : Labeled s code n first second p g g' i) :
    (g'.block i).calls = false ∧ (g'.block i).returns = false := by
  have hlt : i < g'.size := h.size ▸ Nat.lt_succ_of_lt h.lt
  have hdeclared := h.declared.2 i hlt
  constructor
  · rw [← Bool.not_eq_true, hdeclared.calls, h.next_first]
    simp
  · rw [← Bool.not_eq_true, hdeclared.returns]
    rintro ⟨hint, hmem, hholds, hkind⟩
    have hstill := h.still_first hmem hholds
    rw [hkind] at hstill
    cases hstill

/-! ### Roots -/

theorem relinked (h : Labeled s code n first second p g g' i) : g.Relinked g' i :=
  ⟨h.next_tail, h.next_first⟩

theorem root_head (h : Labeled s code n first second p g g' i) (b : Nat) :
    (g'.block (head i b)).root = (g.block b).root := by
  have hg := wellFormed_of_build h.built
  have hg' := wellFormed_of_build h.built'
  by_cases hb : b < g.size
  · have hb' : head i b < g'.size := h.size ▸ (head_lt h.lt).mpr hb
    have hboundary : (∃ hint ∈ first ++ Hint.labelAt p :: second,
        hint.kind = .boundary ∧ hint.offset = (g.block b).start) ↔
          ∃ hint ∈ first ++ second, hint.kind = .boundary ∧ hint.offset = (g.block b).start :=
      Hint.exists_insert_label fun hkind => nomatch hkind.1
    have hzero : head i b = 0 ↔ b = 0 := by
      unfold head
      split <;> omega
    have hnone : g'.preds.get (head i b) = [] ↔ g.preds.get b = [] := by
      simp only [List.eq_nil_iff_forall_not_mem, h.relinked.mem_preds_head hg hg']
      constructor
      · intro hfree e he
        exact hfree _ ⟨e, he, rfl⟩
      · rintro hfree _ ⟨e, he, rfl⟩
        exact hfree e he
    obtain ⟨starts, transfers, starts', transfers', hstages, hstages', _, _, _⟩ := h.stages
    rw [Bool.eq_iff_iff, hstages'.root_iff hb', hstages.root_iff hb, h.start, hboundary, hzero,
      hnone, h.relinked.isCalled_head hg hg']
  · rw [h.block_outside hb]

theorem root_second (h : Labeled s code n first second p g g' i) :
    (g'.block (i + 1)).root = false := by
  have hg' := wellFormed_of_build h.built'
  obtain ⟨starts, transfers, starts', transfers', _, hstages', _, _, _⟩ := h.stages
  rw [← Bool.not_eq_true, hstages'.root_iff (h.size ▸ Nat.succ_lt_succ h.lt)]
  rintro (hzero | hnone | ⟨⟨hint, hmem, hkind, hoffset⟩, _⟩)
  · exact Nat.succ_ne_zero i hzero
  · have hedge := (h.relinked.mem_preds_self hg' ⟨i, false⟩).mpr rfl
    rw [hnone] at hedge
    exact absurd hedge List.not_mem_nil
  · rw [h.seam.1] at hoffset
    rcases Hint.mem_insert_label.mp hmem with hmem | rfl
    · exact h.not_opens hmem (hoffset ▸ .here (Or.inr hkind))
    · cases hkind

/-- The label cuts its block in two, and changes nothing else. -/
theorem cut (h : Labeled s code n first second p g g' i) : g.Cut g' i where
  toRelinked := h.relinked
  lt := h.lt
  size := h.size
  calls := h.calls_tail
  returns := h.returns_tail
  still := h.flags_first
  root := h.root_head
  entered := h.root_second
  start := h.start
  stop := h.stop
  meet := h.seam.2.trans h.seam.1.symm

end Labeled

end Graph

end RegisterWeb
