import Mathlib
import RegisterWeb.Proofs.Instr

/-!
The layout of a built graph. If all instructions end in the section, the blocks cut it into
consecutive stretches, they start exactly where the hints say, and the search for the block of an
offset finds the one that holds it.
-/

namespace RegisterWeb

namespace Layout

variable {s : Settings} {code : Code} {n : Offset} {hints : List Hint} {starts : List Offset}

theorem starts_eq_ok (hok : Layout.starts s code n hints = .ok starts) :
    ∃ known marked, Instr.ofHints s code n hints = .ok known ∧
      hints.mapM (Instr.entriesOf s n known) = .ok marked ∧
      starts = (Ascending.ofList (0 :: marked.flatten)).filter fun p => p != n := by
  obtain ⟨known, hknown, hok⟩ := bind_eq_ok.mp hok
  obtain ⟨marked, hmarked, hok⟩ := bind_eq_ok.mp hok
  cases hok
  exact ⟨known, marked, hknown, hmarked, rfl⟩

theorem mem_flatten_mapM {ε α β : Type} {f : α → Except ε (List β)} {l : List α}
    {l' : List (List β)} (h : l.mapM f = .ok l') (b : β) :
    b ∈ l'.flatten ↔ ∃ a ∈ l, ∃ bs, f a = .ok bs ∧ b ∈ bs := by
  rw [List.mem_flatten]
  constructor
  · intro hb
    obtain ⟨bs, hbs, hb⟩ := hb
    obtain ⟨a, ha, hf⟩ := exists_of_mem_mapM h hbs
    exact ⟨a, ha, bs, hf, hb⟩
  · intro ha
    obtain ⟨a, ha, bs, hf, hb⟩ := ha
    obtain ⟨bs', hbs', hf'⟩ := exists_mem_of_mapM h ha
    cases hf.symm.trans hf'
    exact ⟨bs, hbs', hb⟩

theorem starts_inside (hfit : Hint.Fit s code n hints) (hn : 0 < n)
    (hok : Layout.starts s code n hints = .ok starts) :
    Ascending starts ∧ ∀ p ∈ starts, 0 ≤ p ∧ p < n := by
  obtain ⟨known, marked, hknown, hmarked, rfl⟩ := starts_eq_ok hok
  have hrec := Instr.recorded_of_ofHints hknown
  refine ⟨List.Pairwise.sublist List.filter_sublist (Ascending.ascending_ofList _), ?_⟩
  intro p hp
  obtain ⟨hp, hne⟩ := List.mem_filter.mp hp
  rw [bne_iff_ne] at hne
  rw [Ascending.mem_ofList, List.mem_cons, mem_flatten_mapM hmarked] at hp
  rcases hp with rfl | ⟨h, hh, entries, hentries, hp⟩
  · exact ⟨Int64.le_refl 0, hn⟩
  · have hin := hrec.entries_inside hfit hh hentries p hp
    exact ⟨hin.1, Int64.lt_of_le_of_ne hin.2 hne⟩

theorem mem_starts (hfit : Hint.Fit s code n hints) (hok : Layout.starts s code n hints = .ok starts)
    (p : Offset) :
    p ∈ starts ↔ p ≠ n ∧ (p = 0 ∨ ∃ h ∈ hints, h.Opens (Hint.sizeAt? s code hints) p) := by
  obtain ⟨known, marked, hknown, hmarked, rfl⟩ := starts_eq_ok hok
  have hrec := Instr.recorded_of_ofHints hknown
  rw [List.mem_filter, bne_iff_ne, and_comm, Ascending.mem_ofList, List.mem_cons,
    mem_flatten_mapM hmarked]
  refine and_congr_right fun _ => or_congr_right (exists_congr fun h => and_congr_right fun hh => ?_)
  constructor
  · intro hp
    obtain ⟨entries, hentries, hp⟩ := hp
    exact (hrec.mem_entries hfit hh hentries p).mp hp
  · intro hopens
    obtain ⟨entries, _, hentries⟩ := exists_mem_of_mapM hmarked hh
    exact ⟨entries, hentries, (hrec.mem_entries hfit hh hentries p).mpr hopens⟩

/-! ### Consecutive blocks -/

/-- Blocks that cut the offsets from zero up to `n` into consecutive stretches. -/
structure Partition (n : Offset) (blocks : Array Block) : Prop where
  nonempty : 0 < blocks.size
  id : ∀ i < blocks.size, (blocks.getD i default).id = i
  full : ∀ i < blocks.size, (blocks.getD i default).start < (blocks.getD i default).stop
  first : (blocks.getD 0 default).start = 0
  chain : ∀ i, i + 1 < blocks.size →
    (blocks.getD i default).stop = (blocks.getD (i + 1) default).start
  last : (blocks.getD (blocks.size - 1) default).stop = n

theorem getElem?_spans (n : Offset) (starts : List Offset) (i : Nat) :
    (spans n starts)[i]? = starts[i]?.map fun p => (p, starts[i + 1]?.getD n) := by
  fun_induction spans n starts generalizing i with
  | case1 => rfl
  | case2 p => cases i <;> rfl
  | case3 p q rest ih =>
    cases i with
    | zero => rfl
    | succ i => exact ih i

theorem getElem?_blocks (n : Offset) (starts : List Offset) (i : Nat) :
    (Layout.blocks n starts)[i]? = starts[i]?.map fun p =>
      ⟨i, p, starts[i + 1]?.getD n, [], false, false, false, false⟩ := by
  simp only [Layout.blocks, List.getElem?_toArray, List.getElem?_map, List.getElem?_zipIdx,
    getElem?_spans, Option.map_map, Nat.zero_add]
  rfl

theorem size_blocks (n : Offset) (starts : List Offset) :
    (Layout.blocks n starts).size = starts.length := by
  have hlength : ∀ l : List Offset, (spans n l).length = l.length := by
    intro l
    fun_induction spans n l with
    | case1 => rfl
    | case2 p => rfl
    | case3 p q rest ih => exact congrArg (· + 1) ih
  simp [Layout.blocks, hlength]

theorem getD_blocks {i : Nat} (hi : i < starts.length) :
    (Layout.blocks n starts).getD i default
      = ⟨i, starts[i], starts[i + 1]?.getD n, [], false, false, false, false⟩ := by
  rw [Array.getD_eq_getD_getElem?, getElem?_blocks, List.getElem?_eq_getElem hi, Option.map_some,
    Option.getD_some]

theorem partition_blocks (hasc : Ascending starts) (hzero : 0 ∈ starts)
    (hin : ∀ p ∈ starts, 0 ≤ p ∧ p < n) : Partition n (Layout.blocks n starts) := by
  have hpos : 0 < starts.length := List.length_pos_of_mem hzero
  have hsize := size_blocks n starts
  have hlt : ∀ i j (hi : i < starts.length) (hj : j < starts.length), i < j →
      starts[i] < starts[j] := List.pairwise_iff_getElem.mp hasc
  refine ⟨hsize.symm ▸ hpos, ?_, ?_, ?_, ?_, ?_⟩
  · intro i hi
    rw [getD_blocks (hsize ▸ hi)]
  · intro i hi
    rw [hsize] at hi
    rw [getD_blocks hi]
    by_cases hnext : i + 1 < starts.length
    · rw [List.getElem?_eq_getElem hnext]
      exact hlt i (i + 1) hi hnext (Nat.lt_succ_self i)
    · rw [List.getElem?_eq_none (Nat.le_of_not_lt hnext)]
      exact (hin _ (List.getElem_mem hi)).2
  · -- no start is below zero, and zero is one of them
    rw [getD_blocks hpos]
    obtain ⟨k, hk, hkzero⟩ := List.getElem_of_mem hzero
    cases k with
    | zero => exact hkzero
    | succ k =>
      have hless := hlt 0 (k + 1) hpos hk (Nat.succ_pos k)
      rw [hkzero] at hless
      exact absurd hless (Int64.not_lt.mpr (hin _ (List.getElem_mem hpos)).1)
  · intro i hi
    rw [hsize] at hi
    rw [getD_blocks hi, getD_blocks (Nat.lt_of_succ_lt hi), List.getElem?_eq_getElem hi]
    rfl
  · have hlast : starts.length - 1 < starts.length := Nat.sub_one_lt (Nat.ne_of_gt hpos)
    have hend : starts.length ≤ starts.length - 1 + 1 := by omega
    rw [hsize, getD_blocks hlast, List.getElem?_eq_none hend]
    rfl

theorem getD_map {blocks : Array Block} (φ : Block → Block) {i : Nat} (hi : i < blocks.size) :
    (blocks.map φ).getD i default = φ (blocks.getD i default) := by
  simp [hi]

/-- Edges and flags play no part in where blocks stand. -/
theorem Partition.map {blocks : Array Block} (h : Partition n blocks) {φ : Block → Block}
    (hφ : ∀ b, (φ b).id = b.id ∧ (φ b).start = b.start ∧ (φ b).stop = b.stop) :
    Partition n (blocks.map φ) := by
  have hlast : blocks.size - 1 < blocks.size := Nat.sub_one_lt (Nat.ne_of_gt h.nonempty)
  refine ⟨?_, ?_, ?_, ?_, ?_, ?_⟩
  · rw [Array.size_map]
    exact h.nonempty
  · intro i hi
    rw [Array.size_map] at hi
    rw [getD_map φ hi, (hφ _).1, h.id i hi]
  · intro i hi
    rw [Array.size_map] at hi
    rw [getD_map φ hi, (hφ _).2.1, (hφ _).2.2]
    exact h.full i hi
  · rw [getD_map φ h.nonempty, (hφ _).2.1, h.first]
  · intro i hi
    rw [Array.size_map] at hi
    rw [getD_map φ hi, getD_map φ (Nat.lt_of_succ_lt hi), (hφ _).2.1, (hφ _).2.2, h.chain i hi]
  · rw [Array.size_map, getD_map φ hlast, (hφ _).2.2, h.last]

section Search

variable {blocks : Array Block} {p : Offset}

theorem Partition.stop_le_start (h : Partition n blocks) {i j : Nat} (hij : i < j)
    (hj : j < blocks.size) : (blocks.getD i default).stop ≤ (blocks.getD j default).start := by
  induction j with
  | zero => omega
  | succ j ih =>
    rw [← h.chain j hj]
    by_cases heq : i = j
    · rw [heq]
      exact Int64.le_refl _
    · have hstop := ih (by omega) (by omega)
      exact Int64.le_trans hstop (Int64.le_of_lt (h.full j (by omega)))

theorem Partition.unique (h : Partition n blocks) {i j : Nat} (hi : i < blocks.size)
    (hj : j < blocks.size) (hpi : (blocks.getD i default).contains p = true)
    (hpj : (blocks.getD j default).contains p = true) : i = j := by
  simp only [Block.contains, Bool.and_eq_true, decide_eq_true_eq] at hpi hpj
  have hapart : ∀ i j, i < j → j < blocks.size → p < (blocks.getD i default).stop →
      ¬ (blocks.getD j default).start ≤ p := by
    intro i j hij hj hstop hstart
    have hle := Int64.le_trans (h.stop_le_start hij hj) hstart
    exact absurd hstop (Int64.not_lt.mpr hle)
  rcases Nat.lt_trichotomy i j with hij | hij | hij
  · exact absurd hpj.1 (hapart i j hij hj hpi.2)
  · exact hij
  · exact absurd hpi.1 (hapart j i hij hi hpj.2)

theorem Partition.bounds (h : Partition n blocks) {i : Nat} (hi : i < blocks.size) :
    0 ≤ (blocks.getD i default).start ∧ (blocks.getD i default).stop ≤ n := by
  constructor
  · rw [← h.first]
    by_cases heq : i = 0
    · rw [heq]
      exact Int64.le_refl _
    · have hstop := h.stop_le_start (Nat.pos_of_ne_zero heq) hi
      exact Int64.le_trans (Int64.le_of_lt (h.full 0 h.nonempty)) hstop
  · rw [← h.last]
    by_cases heq : i = blocks.size - 1
    · rw [heq]
      exact Int64.le_refl _
    · have hlast : blocks.size - 1 < blocks.size := by omega
      have hstop := h.stop_le_start (show i < blocks.size - 1 by omega) hlast
      exact Int64.le_trans hstop (Int64.le_of_lt (h.full _ hlast))

theorem Partition.blockAt_inside (h : Partition n blocks) (hlow : 0 ≤ p) (hhigh : p < n) :
    ∃ i < blocks.size, blockAt n blocks p = .ok (some i) ∧
      (blocks.getD i default).contains p = true := by
  have hup : Upward blocks.size fun i => decide (p < (blocks.getD i default).start) := by
    intro i j hij hj hhit
    simp only [decide_eq_true_eq] at hhit ⊢
    by_cases heq : i = j
    · exact heq ▸ hhit
    · have hstop := h.stop_le_start (show i < j by omega) hj
      have hfull := h.full i (by omega)
      exact Int64.lt_trans hhit (Int64.lt_of_lt_of_le hfull hstop)
  have hsplit : ∀ i < blocks.size, p < (blocks.getD i default).start ↔
      bisect blocks.size (fun i => decide (p < (blocks.getD i default).start)) ≤ i := by
    intro i hi
    rw [← bisect_splits hup hi, decide_eq_true_eq]
  have hle := bisect_le blocks.size fun i => decide (p < (blocks.getD i default).start)
  have hout : ¬ (p < 0 ∨ n ≤ p) := not_or.mpr ⟨Int64.not_lt.mpr hlow, Int64.not_le.mpr hhigh⟩
  unfold blockAt
  rw [if_neg hout]
  generalize bisect blocks.size (fun i => decide (p < (blocks.getD i default).start)) = k
    at hsplit hle
  cases k with
  | zero =>
    -- the first block starts at zero, so it is no hit
    have hhit := (hsplit 0 h.nonempty).mpr (Nat.le_refl 0)
    rw [h.first] at hhit
    exact absurd hhit (Int64.not_lt.mpr hlow)
  | succ i =>
    have hstart : (blocks.getD i default).start ≤ p := by
      rw [← Int64.not_lt, hsplit i hle]
      omega
    have hstop : p < (blocks.getD i default).stop := by
      by_cases hnext : i + 1 < blocks.size
      · rw [h.chain i hnext, hsplit (i + 1) hnext]
      · have hlast : i = blocks.size - 1 := by omega
        rw [hlast, h.last]
        exact hhigh
    refine ⟨i, hle, rfl, ?_⟩
    simp only [Block.contains, Bool.and_eq_true, decide_eq_true_eq]
    exact ⟨hstart, hstop⟩

theorem blockAt_outside (n : Offset) (blocks : Array Block) (h : ¬ (0 ≤ p ∧ p < n)) :
    blockAt n blocks p = .ok none := by
  have hout : p < 0 ∨ n ≤ p := by
    rwa [not_and_or, Int64.not_le, Int64.not_lt] at h
  unfold blockAt
  rw [if_pos hout]

end Search

end Layout

namespace Graph

variable {s : Settings} {code : Code} {n : Offset} {hints : List Hint} {g : Graph}

theorem build_zero (h : build s code 0 hints = .ok g) :
    hints = [] ∧ g = ⟨0, #[], default, [], []⟩ := by
  unfold build at h
  rw [if_pos rfl] at h
  split at h
  · rename_i hsort
    cases h
    refine ⟨List.eq_nil_iff_forall_not_mem.mpr ?_, rfl⟩
    intro hint hmem
    have hsorted := Hint.mem_sort.mpr hmem
    rw [hsort] at hsorted
    exact absurd hsorted List.not_mem_nil
  · cases h

def boundariesOf (hints : List Hint) : List Offset :=
  Ascending.ofList (((Hint.sort hints).filter fun h => h.kind == .boundary).map Hint.offset)

/-- The stages through which a section that is not empty gets its graph. -/
structure Stages (s : Settings) (code : Code) (n : Offset) (hints : List Hint) (g : Graph)
    (starts : List Offset) (transfers : List Transfer) : Prop where
  opened : Layout.starts s code n (Hint.sort hints) = .ok starts
  located : Transfer.ofHints n (Layout.blocks n starts) (Hint.sort hints) = .ok transfers
  graph : g = ofBlocks n (boundariesOf hints)
    (Layout.link (Layout.blocks n starts) (boundariesOf hints) transfers)

theorem exists_stages (h : build s code n hints = .ok g) (hn : n ≠ 0) :
    ∃ starts transfers, Stages s code n hints g starts transfers := by
  unfold build at h
  rw [if_neg hn] at h
  obtain ⟨starts, hstarts, h⟩ := bind_eq_ok.mp h
  obtain ⟨transfers, htransfers, h⟩ := bind_eq_ok.mp h
  cases h
  exact ⟨starts, transfers, hstarts, htransfers, rfl⟩

section Stages

variable {starts : List Offset} {transfers : List Transfer}

theorem Stages.length_eq (h : Stages s code n hints g starts transfers) : g.length = n := by
  rw [h.graph]
  rfl

theorem Stages.size_eq (h : Stages s code n hints g starts transfers) :
    g.size = starts.length := by
  rw [h.graph]
  simp only [size, ofBlocks, Layout.link, Array.size_map]
  exact Layout.size_blocks n starts

/-- The blocks are those of the layout, linked, with the roots marked. -/
theorem Stages.block_eq (h : Stages s code n hints g starts transfers) {i : Nat} (hi : i < g.size) :
    ∃ root, g.block i = { Layout.linkBlock (Layout.blocks n starts) (boundariesOf hints) transfers
      ((Layout.blocks n starts).getD i default) with root := root } := by
  have hblocks : i < (Layout.blocks n starts).size := by
    rw [Layout.size_blocks, ← h.size_eq]
    exact hi
  have hlink : i < (Layout.link (Layout.blocks n starts) (boundariesOf hints) transfers).size := by
    rw [Layout.link, Array.size_map]
    exact hblocks
  rw [h.graph]
  simp only [block, ofBlocks]
  rw [Layout.getD_map _ hlink, Layout.link, Layout.getD_map _ hblocks]
  exact ⟨_, rfl⟩

theorem Stages.start_eq (h : Stages s code n hints g starts transfers) {i : Nat}
    (hi : i < starts.length) : (g.block i).start = starts[i] := by
  obtain ⟨root, hblock⟩ := h.block_eq (h.size_eq ▸ hi)
  rw [hblock, Layout.getD_blocks hi]
  rfl

theorem Stages.partition (h : Stages s code n hints g starts transfers)
    (hfit : Hint.Fit s code n hints) (hn : 0 < n) :
    Layout.Partition n (Layout.blocks n starts) ∧ Layout.Partition n g.blocks := by
  obtain ⟨hasc, hin⟩ := Layout.starts_inside hfit.sort hn h.opened
  have hzero : 0 ∈ starts :=
    (Layout.mem_starts hfit.sort h.opened 0).mpr ⟨Int64.ne_of_lt hn, Or.inl rfl⟩
  have hlayout := Layout.partition_blocks hasc hzero hin
  refine ⟨hlayout, ?_⟩
  have hlink : Layout.Partition n
      (Layout.link (Layout.blocks n starts) (boundariesOf hints) transfers) :=
    hlayout.map fun _ => ⟨rfl, rfl, rfl⟩
  rw [h.graph]
  exact hlink.map fun _ => ⟨rfl, rfl, rfl⟩

theorem Stages.start_iff (h : Stages s code n hints g starts transfers)
    (hfit : Hint.Fit s code n hints) (p : Offset) :
    (∃ i < g.size, (g.block i).start = p) ↔
      p ≠ n ∧ (p = 0 ∨ ∃ h ∈ hints, h.Opens (Hint.sizeAt? s code hints) p) := by
  have hsizes : Hint.sizeAt? s code (Hint.sort hints) = Hint.sizeAt? s code hints :=
    funext (Hint.sizeAt?_sort s code hints)
  have hmem := Layout.mem_starts hfit.sort h.opened p
  simp only [hsizes, Hint.mem_sort] at hmem
  rw [← hmem]
  constructor
  · intro hi
    obtain ⟨i, hi, hp⟩ := hi
    rw [h.size_eq] at hi
    rw [← hp, h.start_eq hi]
    exact List.getElem_mem hi
  · intro hp
    obtain ⟨i, hi, hp⟩ := List.getElem_of_mem hp
    exact ⟨i, h.size_eq.symm ▸ hi, (h.start_eq hi).trans hp⟩

end Stages

/-- The blocks of a built graph cut the section into consecutive stretches, they start exactly where
the hints say, and the search for an offset finds the one block that holds it. -/
theorem build_partitions (hgraph : build s code n hints = .ok g) (hfit : Hint.Fit s code n hints) :
    (0 < n → Layout.Partition n g.blocks) ∧
    (∀ p, (∃ i < g.size, (g.block i).start = p) ↔
      p ≠ n ∧ (p = 0 ∨ ∃ h ∈ hints, h.Opens (Hint.sizeAt? s code hints) p)) ∧
    ∀ p, (0 ≤ p ∧ p < n → ∃ i < g.size, g.blockAt p = .ok (some i) ∧
        (g.block i).contains p = true ∧
        ∀ j < g.size, (g.block j).contains p = true → j = i) ∧
      (¬ (0 ≤ p ∧ p < n) → g.blockAt p = .ok none) := by
  by_cases hzero : n = 0
  · subst hzero
    obtain ⟨rfl, rfl⟩ := build_zero hgraph
    refine ⟨fun hn => absurd hn Int64.lt_irrefl, ?_, ?_⟩
    · intro p
      constructor
      · intro hi
        obtain ⟨i, hi, _⟩ := hi
        exact absurd hi (Nat.not_lt_zero i)
      · intro hp
        obtain ⟨hne, heq | ⟨h, hh, _⟩⟩ := hp
        · exact absurd heq hne
        · exact absurd hh List.not_mem_nil
    · intro p
      refine ⟨fun hp => ?_, fun hp => Layout.blockAt_outside _ _ hp⟩
      exact absurd hp.2 (Int64.not_lt.mpr hp.1)
  · obtain ⟨starts, transfers, hstages⟩ := exists_stages hgraph hzero
    refine ⟨fun hn => (hstages.partition hfit hn).2, hstages.start_iff hfit, ?_⟩
    intro p
    unfold blockAt
    rw [hstages.length_eq]
    refine ⟨?_, fun hp => Layout.blockAt_outside _ _ hp⟩
    intro hp
    have hn : 0 < n := Int64.lt_of_le_of_lt hp.1 hp.2
    have hpart := (hstages.partition hfit hn).2
    obtain ⟨i, hi, hat, hholds⟩ := hpart.blockAt_inside hp.1 hp.2
    exact ⟨i, hi, hat, hholds, fun j hj hj' => hpart.unique hj hi hj' hholds⟩

end Graph

/-! ### Hints of many kinds -/

namespace Medley

/-- Two calls of one routine, the second of them in a last act; a hint of an unknown kind; and an
instruction of two words behind a boundary. -/
def hints : List Hint :=
  [⟨16, .halt, [], 8⟩, ⟨0, .condJump, [8], 0⟩, ⟨4, .call, [24], 0⟩, ⟨8, .other 9, [16], 0⟩,
    ⟨12, .call, [24], 0⟩, ⟨12, .ret, [], 0⟩, ⟨16, .boundary, [], 0⟩, ⟨24, .ret, [], 0⟩]

def graph : Graph where
  length := 32
  blocks := #[⟨0, 0, 4, [⟨1, false⟩, ⟨2, false⟩], true, false, false, false⟩,
    ⟨1, 4, 8, [⟨2, false⟩, ⟨5, true⟩], false, true, false, false⟩,
    ⟨2, 8, 12, [⟨3, false⟩], false, false, false, false⟩,
    ⟨3, 12, 16, [⟨5, true⟩], false, true, true, false⟩,
    ⟨4, 16, 24, [], true, false, false, true⟩,
    ⟨5, 24, 28, [], false, false, true, false⟩,
    ⟨6, 28, 32, [], true, false, false, false⟩]
  preds := ⟨#[[], [⟨0, false⟩], [⟨0, false⟩, ⟨1, false⟩], [⟨2, false⟩], [],
    [⟨1, true⟩, ⟨3, true⟩], []]⟩
  routines := [⟨5, [5], [5], [], [1, 3], [2]⟩]
  boundaries := [16]

theorem builds : Graph.build (Settings.standard 1) #[] 32 hints = .ok graph := by
  cbv

theorem fits : Hint.Fit (Settings.standard 1) #[] 32 hints := by
  decide

/-- A block starts behind the last return, and the long instruction is found from its middle. -/
theorem partitioned : Layout.Partition 32 graph.blocks ∧
    (∃ i < graph.size, (graph.block i).start = 28) ∧
    (∃ i < graph.size, graph.blockAt 20 = .ok (some i) ∧ (graph.block i).contains 20 = true) ∧
    graph.blockAt 32 = .ok none := by
  obtain ⟨hpart, hstart, hat⟩ := Graph.build_partitions builds fits
  refine ⟨hpart (by decide), (hstart 28).mpr ⟨by decide, Or.inr ?_⟩, ?_, (hat 32).2 (by decide)⟩
  · exact ⟨⟨24, .ret, [], 0⟩, by decide, .next (by decide) (z := 4) (by decide) (by decide)⟩
  · obtain ⟨i, hi, hfound, hholds, _⟩ := (hat 20).1 (by decide)
    exact ⟨i, hi, hfound, hholds⟩

end Medley

end RegisterWeb
