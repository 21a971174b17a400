import Mathlib
import RegisterWeb.Proofs.CallSet
import RegisterWeb.Proofs.Place

/-!
Stages without faults. A block starts at zero wherever a section is not empty, also if the sizes of
instructions run over the end of the words and other blocks start before zero. So every offset of a
section has a block, every hint and target that passes the checks is located, and only a sizer can
make an analysis fault.
-/

namespace RegisterWeb

/-- A stage that ends with a result or with an error about its input. -/
def Faultless {α : Type} (x : Except Failure α) : Prop :=
  ∀ f, x ≠ .error (.fault f)

section Stages

variable {α β : Type}

theorem faultless_ok (a : α) : Faultless (.ok a : Except Failure α) := by
  intro f h
  cases h

theorem faultless_structural (p : Offset) (m : Misfit) :
    Faultless (.error (.structural p m) : Except Failure α) := by
  intro f h
  cases h

theorem Faultless.bind {x : Except Failure α} {k : α → Except Failure β} (hx : Faultless x)
    (hk : ∀ a, x = .ok a → Faultless (k a)) : Faultless (x >>= k) := by
  cases x with
  | error e =>
    intro f h
    cases h
    exact hx f rfl
  | ok a => exact hk a rfl

theorem Faultless.mapM {k : α → Except Failure β} {l : List α} (h : ∀ a ∈ l, Faultless (k a)) :
    Faultless (l.mapM k) := by
  induction l with
  | nil => exact faultless_ok []
  | cons a l ih =>
    obtain ⟨ha, hl⟩ := List.forall_mem_cons.mp h
    rw [List.mapM_cons]
    exact ha.bind fun b _ => (ih hl).bind fun bs _ => faultless_ok (b :: bs)

theorem Faultless.forM {k : α → Except Failure Unit} {l : List α} (h : ∀ a ∈ l, Faultless (k a)) :
    Faultless (l.forM k) := by
  induction l with
  | nil => exact faultless_ok ()
  | cons a l ih =>
    obtain ⟨ha, hl⟩ := List.forall_mem_cons.mp h
    exact ha.bind fun _ _ => ih hl

theorem Faultless.foldlM {k : β → α → Except Failure β} {l : List α}
    (h : ∀ s, ∀ a ∈ l, Faultless (k s a)) (s : β) : Faultless (l.foldlM k s) := by
  induction l generalizing s with
  | nil => exact faultless_ok s
  | cons a l ih =>
    rw [List.foldlM_cons]
    exact (h s a List.mem_cons_self).bind fun s' _ =>
      ih (fun s x hx => h s x (List.mem_cons_of_mem a hx)) s'

end Stages

/-! ### Every offset has a block -/

theorem exists_blockAt {n : Offset} {blocks : Array Block} {p : Offset}
    (hasc : ∀ i j, i < j → j < blocks.size →
      (blocks.getD i default).start < (blocks.getD j default).start)
    (hzero : ∃ i < blocks.size, (blocks.getD i default).start = 0) (hin : 0 ≤ p ∧ p < n) :
    ∃ b, blockAt n blocks p = .ok (some b) := by
  have hup : Upward blocks.size fun i => decide (p < (blocks.getD i default).start) := by
    intro i j hij hj hi
    rw [decide_eq_true_eq] at hi ⊢
    rcases Nat.lt_or_eq_of_le hij with hlt | rfl
    · exact Int64.lt_trans hi (hasc i j hlt hj)
    · exact hi
  have hout : ¬ (p < 0 ∨ n ≤ p) := not_or.mpr ⟨Int64.not_lt.mpr hin.1, Int64.not_le.mpr hin.2⟩
  unfold blockAt
  rw [if_neg hout]
  cases hfound : bisect blocks.size fun i => decide (p < (blocks.getD i default).start) with
  | zero =>
    -- the block at zero would start after an offset that is not negative
    obtain ⟨i, hi, hstart⟩ := hzero
    have hhit := bisect_splits hup hi
    rw [hfound, decide_eq_true_eq, hstart] at hhit
    exact absurd (hhit.mpr (Nat.zero_le i)) (Int64.not_lt.mpr hin.1)
  | succ i => exact ⟨i, rfl⟩

theorem faultless_blockAt {n : Offset} {blocks : Array Block}
    (h : ∀ p, 0 ≤ p ∧ p < n → ∃ b, blockAt n blocks p = .ok (some b)) (p : Offset) (f : Fault) :
    blockAt n blocks p ≠ .error f := by
  by_cases hin : 0 ≤ p ∧ p < n
  · obtain ⟨b, hb⟩ := h p hin
    rw [hb]
    exact fun heq => by cases heq
  · rw [Layout.blockAt_outside n blocks hin]
    exact fun heq => by cases heq

namespace Layout

variable {s : Settings} {code : Code} {n : Offset} {hints : List Hint} {starts : List Offset}

theorem zero_mem_starts (hok : Layout.starts s code n hints = .ok starts) (hn : n ≠ 0) :
    Ascending starts ∧ 0 ∈ starts := by
  obtain ⟨known, marked, _, _, rfl⟩ := starts_eq_ok hok
  refine ⟨(Ascending.ascending_ofList _).filter _, List.mem_filter.mpr ⟨?_, ?_⟩⟩
  · exact (Ascending.mem_ofList _ _).mpr List.mem_cons_self
  · exact bne_iff_ne.mpr (Ne.symm hn)

theorem exists_block (hok : Layout.starts s code n hints = .ok starts) (hn : n ≠ 0)
    {blocks : Array Block} (hsize : blocks.size = starts.length)
    (hstart : ∀ i (hi : i < starts.length), (blocks.getD i default).start = starts[i]) (p : Offset)
    (hin : 0 ≤ p ∧ p < n) : ∃ b, blockAt n blocks p = .ok (some b) := by
  obtain ⟨hasc, hzero⟩ := zero_mem_starts hok hn
  refine exists_blockAt ?_ ?_ hin
  · intro i j hij hj
    have hj' : j < starts.length := hsize ▸ hj
    rw [hstart i (Nat.lt_trans hij hj'), hstart j hj']
    exact List.pairwise_iff_getElem.mp hasc i j (Nat.lt_trans hij hj') hj' hij
  · obtain ⟨i, hi, hget⟩ := List.getElem_of_mem hzero
    exact ⟨i, hsize.symm ▸ hi, (hstart i hi).trans hget⟩

end Layout

namespace Graph

variable {s : Settings} {code : Code} {n : Offset} {hints : List Hint} {g : Graph}

/-- Looking for the block of an offset never faults in the graph of a section. -/
theorem blockAt_of_build (h : build s code n hints = .ok g) (p : Offset) (f : Fault) :
    g.blockAt p ≠ .error f := by
  by_cases hn : n = 0
  · subst hn
    rw [(build_zero h).2]
    refine faultless_blockAt (fun p hin => ?_) p f
    exact absurd (Int64.lt_of_le_of_lt hin.1 hin.2) Int64.lt_irrefl
  · obtain ⟨starts, transfers, hstages⟩ := exists_stages h hn
    refine faultless_blockAt (fun p hin => ?_) p f
    rw [hstages.length_eq] at hin ⊢
    exact Layout.exists_block hstages.opened hn hstages.size_eq
      (fun i hi => hstages.start_eq hi) p hin

end Graph

/-! ### Hints -/

/-- A sizer, if there is one, finds a size at every offset of the code. -/
def Settings.Answers (s : Settings) (code : Code) : Prop :=
  ∀ sizer, s.sizer = some sizer → ∀ p f, sizer code p ≠ .error f

section Hints

variable {s : Settings} {code : Code} {n : Offset} {hints : List Hint}

theorem faultless_sizeFor (h : s.Answers code) (hint : Hint) :
    Faultless (Instr.sizeFor s code hint) := by
  unfold Instr.sizeFor
  split
  · unfold Settings.sizeAt
    cases hsizer : s.sizer with
    | none => exact faultless_ok _
    | some sizer =>
      cases hsize : sizer code hint.offset with
      | error f => exact absurd hsize (h sizer hsizer hint.offset f)
      | ok z =>
        show Faultless (Except.mapError Failure.fault (sizer code hint.offset >>= _))
        rw [hsize]
        exact faultless_ok _
  · exact faultless_ok _

theorem faultless_record (h : s.Answers code) (known : List Instr) (hint : Hint) :
    Faultless (Instr.record s code n known hint) := by
  unfold Instr.record
  split
  · exact faultless_structural _ _
  · split
    · split
      · exact faultless_ok _
      · exact faultless_structural _ _
    · refine (faultless_sizeFor h hint).bind fun z _ => ?_
      split
      · exact faultless_structural _ _
      · split
        · exact faultless_structural _ _
        · exact faultless_ok _

theorem faultless_entriesOf (known : List Instr) (hint : Hint) :
    Faultless (Instr.entriesOf s n known hint) := by
  have hbranch : Faultless (do
      Instr.checkTargets s n known hint
      return hint.targets ++ [Instr.after known hint]) := by
    refine Faultless.bind (Faultless.forM fun t _ => ?_) fun _ _ => faultless_ok _
    cases Instr.targetFlaw? s n known t with
    | some flaw => exact faultless_structural _ _
    | none => exact faultless_ok _
  unfold Instr.entriesOf
  split
  · exact faultless_ok _
  · exact faultless_ok _
  · exact faultless_ok _
  · exact faultless_ok _
  · exact hbranch

theorem faultless_starts (h : s.Answers code) (hints : List Hint) :
    Faultless (Layout.starts s code n hints) := by
  refine (Faultless.foldlM (fun known hint _ => faultless_record h known hint) []).bind ?_
  intro known _
  exact (Faultless.mapM fun hint _ => faultless_entriesOf known hint).bind
    fun marked _ => faultless_ok _

/-- The hints and the targets that pass the checks lie in the section. -/
theorem located_inside {starts : List Offset} (hok : Layout.starts s code n hints = .ok starts)
    {hint : Hint} (hmem : hint ∈ hints) (hends : hint.kind.terminates = true) :
    (0 ≤ hint.offset ∧ hint.offset < n) ∧
      ∀ t ∈ (if hint.kind.isExit then [] else hint.targets), 0 ≤ t ∧ t < n := by
  obtain ⟨known, marked, hknown, hmarked, _⟩ := Layout.starts_eq_ok hok
  refine ⟨(Instr.recorded_of_ofHints hknown).inside hint hmem, ?_⟩
  obtain ⟨entries, _, hentries⟩ := exists_mem_of_mapM hmarked hmem
  split
  · exact fun t ht => absurd ht List.not_mem_nil
  · rename_i hexit
    intro t ht
    rcases Instr.entriesOf_cases hentries with ⟨hkind, _⟩ | ⟨hkind, _⟩ | ⟨_, _, htargets, _⟩
    · rcases hkind with hkind | hkind
      · rw [hkind] at hends
        cases hends
      · rw [hkind] at hends
        cases hends
    · rcases hkind with hkind | hkind
      · rw [hkind] at hexit
        exact absurd rfl hexit
      · rw [hkind] at hexit
        exact absurd rfl hexit
    · exact Instr.targets_inside htargets t ht

theorem faultless_locate {blocks : Array Block} {p : Offset}
    (h : ∃ b, blockAt n blocks p = .ok (some b)) : Faultless (Transfer.locate n blocks p) := by
  obtain ⟨b, hb⟩ := h
  unfold Transfer.locate
  rw [hb]
  exact faultless_ok b

theorem faultless_build (h : s.Answers code) (n : Offset) (hints : List Hint) :
    Faultless (Graph.build s code n hints) := by
  unfold Graph.build
  split
  · cases Hint.sort hints with
    | nil => exact faultless_ok _
    | cons hint rest => exact faultless_structural _ _
  · rename_i hn
    refine (faultless_starts h _).bind fun starts hstarts => ?_
    refine Faultless.bind (Faultless.mapM fun hint hmem => ?_) fun transfers _ => faultless_ok _
    have hmem := List.mem_filter.mp hmem
    obtain ⟨hin, htargets⟩ := located_inside hstarts hmem.1 hmem.2
    have hblock := Layout.exists_block hstarts hn (Layout.size_blocks n starts)
      fun i hi => by rw [Layout.getD_blocks hi]
    refine (faultless_locate (hblock _ hin)).bind fun source _ => ?_
    exact (Faultless.mapM fun t ht => faultless_locate (hblock t (htargets t ht))).bind
      fun targets _ => faultless_ok _

end Hints

/-! ### The stages after the graph -/

section Later

variable {g : Graph} {a : Analysis}

theorem faultless_ofUsages (h : ∀ p f, g.blockAt p ≠ .error f) (usages : List Usage) :
    Faultless (Analysis.ofUsages g usages) := by
  refine Faultless.bind (Faultless.mapM fun u _ => ?_) fun placed _ => faultless_ok _
  unfold Analysis.place
  split
  · exact faultless_ok _
  · exact faultless_structural _ _
  · rename_i f hf
    exact absurd hf (h u.offset f)

theorem faultless_settle (a : Analysis) : Faultless a.settle.outcome := by
  intro f h
  unfold Analysis.settle at h
  dsimp only at h
  split at h
  · rename_i e he
    obtain ⟨t, _, ht⟩ := List.exists_of_findSome?_eq_some he
    obtain ⟨b, _, rfl⟩ := Option.map_eq_some_iff.mp ht
    cases h
  · cases h

theorem faultless_indices? (is : List LiveInstance) (b : Nat) (p : Offset) (head : Register)
    (slots : List Register) : Faultless (SlotGroup.indices? a is b p head slots) := by
  induction slots with
  | nil => exact faultless_ok _
  | cons r rest ih =>
    unfold SlotGroup.indices?
    split
    · exact faultless_ok _
    · split
      · exact faultless_structural _ _
      · split
        · exact faultless_structural _ _
        · exact ih.bind fun found _ => faultless_ok _

theorem faultless_link (h : ∀ p f, a.graph.blockAt p ≠ .error f) (is : List LiveInstance)
    (ls : Links) (d : SlotGroup) : Faultless (SlotGroup.link a is ls d) := by
  unfold SlotGroup.link
  split
  · exact faultless_ok _
  · split
    · rename_i f hf
      exact absurd hf (h d.offset f)
    · exact faultless_structural _ _
    · refine (faultless_indices? is _ _ _ _).bind fun found _ => ?_
      split
      · exact faultless_ok _
      · exact faultless_ok _

theorem faultless_ofInstances (h : ∀ p f, a.graph.blockAt p ≠ .error f) (is : List LiveInstance)
    (groups : List SlotGroup) : Faultless (Live.ofInstances a is groups) := by
  refine Faultless.bind (Faultless.foldlM (fun ls d _ => faultless_link h is ls d) []) ?_
  intro links _
  refine Faultless.bind (Faultless.mapM fun i _ => ?_) fun placed _ => faultless_ok _
  refine Faultless.bind (Faultless.mapM fun r _ => ?_) fun blocks _ => faultless_ok _
  unfold Live.blocksOfRange
  split
  · rename_i f hf
    exact absurd hf (h r.start f)
  · exact faultless_ok _
  · exact faultless_ok _

end Later

/-- Only a sizer can make the analysis of a section fault. -/
theorem Section.faultless_analyze {settings : Settings} {s : Section}
    (h : settings.Answers s.code) : Faultless (s.analyze settings) := by
  rw [Section.analyze_eq]
  refine (faultless_build h s.size s.hints).bind fun g hg => ?_
  have hblock := Graph.blockAt_of_build hg
  refine (faultless_ofUsages hblock _).bind fun a ha => ?_
  have hgraph := (Analysis.fresh_of_ofUsages ha).graph
  refine (faultless_settle a).bind fun settled hsettled => ?_
  have hsame : settled.graph = g := by
    rw [(Analysis.outcome_settle hsettled).1]
    exact hgraph
  refine (faultless_ofInstances (hsame.symm ▸ hblock) _ _).bind fun live _ => faultless_ok _

end RegisterWeb
