import RegisterWeb.Proofs.Effect
import RegisterWeb.Proofs.Order

/-!
The versions that enter the blocks as the least solution of their equations. Whatever the order in
which blocks are looked at, no set ever holds more than the least family that is closed under what
comes into the blocks, and every block whose set may be too small is waiting. So when nothing waits,
the sets are that least family, and the webs are the classes of versions that meet at a read.
-/

namespace RegisterWeb

namespace Flow

open Relation

/-- A family of sets that holds all that comes into each block when these sets enter the blocks. -/
def Closed (g : Graph) (f : Flow) (sets : Table VersionSet) : Prop :=
  ∀ b < g.size, ({ f with entering := sets } : Flow).incoming g b ⊆ sets.get b

/-- Two versions meet if some block that reads the version on entry is entered with both. -/
def Meets (f : Flow) (x y : Version) : Prop :=
  ∃ b, f.reads.get b = true ∧ x ∈ f.entering.get b ∧ y ∈ f.entering.get b

/-- No set holds a version that does not come in, or that a closed family can do without; and
exactly the versions that meet are merged. -/
structure Sound (g : Graph) (f : Flow) : Prop where
  tidy : f.Tidy
  size : f.entering.size = g.size
  supported : ∀ b, f.entering.get b ⊆ f.incoming g b
  least : ∀ sets, f.Closed g sets → ∀ b, f.entering.get b ⊆ sets.get b
  webs : f.webs.Exact f.Meets

/-- Every block that lacks a version that comes in is waiting. -/
def Covered (g : Graph) (f : Flow) (waiting : Nat → Prop) : Prop :=
  ∀ b < g.size, ¬ waiting b → f.incoming g b ⊆ f.entering.get b

theorem closed_congr {g : Graph} {f f' : Flow} {sets : Table VersionSet}
    (hmade : f'.made = f.made) (heffects : f'.effects = f.effects) (h : f'.Closed g sets) :
    f.Closed g sets := by
  intro b hb v hv
  apply h b hb
  have hsame : ∀ v, v ∈ ({ f' with entering := sets } : Flow).incoming g b ↔
      v ∈ ({ f with entering := sets } : Flow).incoming g b :=
    incoming_congr heffects fun e _ => by simp only [leaving, hmade]
  exact (hsame v).mpr hv

theorem Sound.below_closed {g : Graph} {f : Flow} (h : f.Sound g) {sets : Table VersionSet}
    (hsets : f.Closed g sets) : f.Below { f with entering := sets } :=
  ⟨rfl, rfl, h.least sets hsets⟩

/-! ### Flows of the same equations -/

/-- Only the sets that enter the blocks and the webs may differ. -/
structure Alike (f f' : Flow) : Prop where
  versions : f'.versions = f.versions
  reads : f'.reads = f.reads
  made : f'.made = f.made
  effects : f'.effects = f.effects

theorem Alike.refl (f : Flow) : f.Alike f :=
  ⟨rfl, rfl, rfl, rfl⟩

theorem Alike.symm {f f' : Flow} (h : f.Alike f') : f'.Alike f :=
  ⟨h.versions.symm, h.reads.symm, h.made.symm, h.effects.symm⟩

theorem Alike.trans {f f' f'' : Flow} (h : f.Alike f') (h' : f'.Alike f'') : f.Alike f'' :=
  ⟨h'.versions.trans h.versions, h'.reads.trans h.reads, h'.made.trans h.made,
    h'.effects.trans h.effects⟩

theorem Summarized.congr {g : Graph} {f f' inner : Flow} {r : Routine}
    (h : Summarized g f r inner) (halike : f.Alike f') : Summarized g f' r inner := by
  refine ⟨h.made.trans halike.made.symm, h.effects.trans halike.effects.symm, h.entry, h.closed,
    ?_, ?_⟩
  · rw [halike.effects]
    exact h.returns
  · rw [halike.effects]
    exact h.tailCalls

/-! ### One step -/

/-- The step that both phases share: a block is given a larger set, within what comes in, and
merges. -/
def grow (f : Flow) (b : Nat) (s : VersionSet) : Flow :=
  (({ f with entering := f.entering.set b s } : Flow).merge b).2

section Grow

variable {g : Graph} {f : Flow} {b : Nat} {s : VersionSet}

theorem alike_grow (f : Flow) (b : Nat) (s : VersionSet) : f.Alike (f.grow b s) :=
  ⟨merge_versions _ _, merge_reads _ _, merge_made _ _, merge_effects _ _⟩

theorem grow_entering (c : Nat) :
    (f.grow b s).entering.get c = if b = c ∧ b < f.entering.size then s else f.entering.get c := by
  simp only [grow, merge_entering]
  exact Table.get_set ..

theorem below_grow (hs : f.entering.get b ⊆ s) : f.Below (f.grow b s) := by
  refine ⟨(alike_grow f b s).made, (alike_grow f b s).effects, ?_⟩
  intro c v hv
  rw [grow_entering]
  split
  · rename_i h
    exact hs (h.1 ▸ hv)
  · exact hv

theorem leaving_grow_of_ne {c : Nat} (hbc : b ≠ c) : (f.grow b s).leaving c = f.leaving c := by
  unfold leaving
  rw [grow_entering, (alike_grow f b s).made]
  simp [hbc]

theorem meets_grow (hs : f.entering.get b ⊆ s) (hb : b < f.entering.size) (x y : Version) :
    (f.grow b s).Meets x y ↔ f.Meets x y ∨ (f.reads.get b = true ∧ x ∈ s ∧ y ∈ s) := by
  unfold Meets
  simp only [(alike_grow f b s).reads, grow_entering]
  constructor
  · intro ⟨c, hreads, hx, hy⟩
    split at hx
    · rename_i h
      obtain ⟨rfl, _⟩ := h
      rw [if_pos ⟨rfl, hb⟩] at hy
      exact Or.inr ⟨hreads, hx, hy⟩
    · rename_i h
      rw [if_neg h] at hy
      exact Or.inl ⟨c, hreads, hx, hy⟩
  · intro h
    rcases h with ⟨c, hreads, hx, hy⟩ | ⟨hreads, hx, hy⟩
    · refine ⟨c, hreads, ?_, ?_⟩
      all_goals
        split
        · rename_i h
          obtain ⟨rfl, _⟩ := h
          first | exact hs hx | exact hs hy
        · assumption
    · refine ⟨b, hreads, ?_, ?_⟩
      all_goals
        rw [if_pos ⟨rfl, hb⟩]
        assumption

theorem Sound.grow (h : f.Sound g) (hb : b < g.size) (hasc : Ascending s)
    (hlow : f.entering.get b ⊆ s) (hhigh : s ⊆ f.incoming g b) : (f.grow b s).Sound g := by
  have hbelow := below_grow hlow
  have hbf : b < f.entering.size := h.size.symm ▸ hb
  refine ⟨((h.tidy.set b hasc).merge b).1, ?_, ?_, ?_, ?_⟩
  · simp only [Flow.grow, merge_entering, Table.size_set]
    exact h.size
  · intro c v hv
    apply hbelow.incoming g c
    rw [grow_entering] at hv
    split at hv
    · rename_i hbc
      exact hbc.1 ▸ hhigh hv
    · exact h.supported c hv
  · intro sets hsets c v hv
    have hclosed := closed_congr hbelow.made hbelow.effects hsets
    rw [grow_entering] at hv
    split at hv
    · rename_i hbc
      have hin := (h.below_closed hclosed).incoming g b (hhigh hv)
      exact hbc.1 ▸ hclosed b hb hin
    · exact h.least sets hclosed c hv
  · have hwebs : (f.grow b s).webs.Exact fun x y =>
        f.Meets x y ∨ (f.reads.get b = true ∧ x ∈ s ∧ y ∈ s) := by
      have hmerge := exact_merge (f := { f with entering := f.entering.set b s }) h.webs b
      simp only [Table.get_set, hbf, and_self, if_true] at hmerge
      exact hmerge
    refine hwebs.congr ?_ ?_
    · exact fun x y hxy => EqvGen.rel x y ((meets_grow hlow hbf x y).mpr hxy)
    · exact fun x y hxy => EqvGen.rel x y ((meets_grow hlow hbf x y).mp hxy)

end Grow

theorem process_snd_eq_grow (g : Graph) (f : Flow) (b : Nat) :
    (f.process g b).2 = f.grow b (VersionSet.union (f.entering.get b) (f.incoming g b)) :=
  rfl

section Process

variable {g : Graph} {f : Flow} {b : Nat}

theorem Sound.process (h : f.Sound g) (hb : b < g.size) : (f.process g b).2.Sound g := by
  rw [process_snd_eq_grow]
  apply h.grow hb
  · exact Ascending.ascending_union (h.tidy.entering b) (h.tidy.incoming g b)
  · intro v hv
    exact (VersionSet.mem_union _ _ v).mpr (Or.inl hv)
  · intro v hv
    rcases (VersionSet.mem_union _ _ v).mp hv with hv | hv
    · exact h.supported b hv
    · exact hv

/-- After a look at a block, the blocks after it must wait if it brought news, and it need not. -/
theorem Covered.process {waiting waiting' : Nat → Prop} (hg : g.WellFormed) (h : f.Sound g)
    (hcov : f.Covered g waiting) (hkeep : ∀ c, waiting c → c ≠ b → waiting' c)
    (hnews : hasNews f (f.process g b).2 (f.process g b).1 b = true →
      ∀ c ∈ g.targets b, waiting' c) : (f.process g b).2.Covered g waiting' := by
  intro c hc hfree
  -- what comes into a block that need not wait is what came into it before
  have hsame : ∀ v, v ∈ (f.process g b).2.incoming g c ↔ v ∈ f.incoming g c := by
    apply incoming_congr (process_effects g f b)
    intro e he
    by_cases hbe : b = e.block
    · cases hn : hasNews f (f.process g b).2 (f.process g b).1 b with
      | false => exact h.tidy.leaving_process hn _
      | true =>
        refine absurd (hnews hn c ?_) hfree
        have hnext := (hg.mem_preds c e).mp he
        rw [hbe]
        exact List.mem_map.mpr ⟨_, hnext, rfl⟩
    · exact leaving_process_of_ne hbe
  intro v hv
  rw [mem_process_entering]
  have hin := (hsame v).mp hv
  by_cases hbc : b = c
  · exact Or.inr ⟨hbc, by rw [h.size, hbc]; exact hc, hbc ▸ hin⟩
  · refine Or.inl (hcov c hc ?_ hin)
    exact fun hw => hfree (hkeep c hw (Ne.symm hbc))

end Process

/-! ### The pass in flow order -/

section Pass

variable {g : Graph} {f : Flow}

/-- The edges into a block from the blocks before it in flow order. -/
def known (g : Graph) (b : Nat) : List Edge :=
  (g.preds.get b).filter fun e => (FlowOrder.ofGraph g).isBefore e.block b

theorem enter_eq_grow (g : Graph) (f : Flow) (b : Nat) :
    Track.enter g (FlowOrder.ofGraph g) f b = f.grow b (f.arriving g b (known g b)) :=
  rfl

/-- Where the pass stands: the blocks done hold what comes from the blocks before them, and nothing
has entered the others. -/
structure Passed (g : Graph) (done : List Nat) (f : Flow) : Prop where
  sound : f.Sound g
  fresh : ∀ b, b ∉ done → f.entering.get b = []
  filled : ∀ b ∈ done, f.arriving g b (known g b) ⊆ f.entering.get b

theorem Passed.enter {done rest : List Nat} {b : Nat} (h : Passed g done f)
    (horder : (FlowOrder.ofGraph g).blocks = done ++ b :: rest) :
    Passed g (done ++ [b]) (Track.enter g (FlowOrder.ofGraph g) f b) := by
  have hnodup : (done ++ b :: rest).Nodup := horder ▸ Graph.nodup_order g
  have hbdone : b ∉ done := fun hb =>
    (List.nodup_append.mp hnodup).2.2 b hb b (List.mem_cons_self ..) rfl
  have hbg : b < g.size := by
    have hmem : b ∈ (FlowOrder.ofGraph g).blocks := by simp [horder]
    exact (Graph.mem_order g b).mp hmem
  have hempty : f.entering.get b ⊆ f.arriving g b (known g b) := by
    rw [h.fresh b hbdone]
    exact List.nil_subset _
  have hsound : (f.grow b (f.arriving g b (known g b))).Sound g :=
    h.sound.grow hbg (h.sound.tidy.arriving g b _) hempty
      (arriving_subset fun e he => (List.mem_filter.mp he).1)
  -- the blocks that the known edges come from are done, so they hand on what they did
  have hbefore : ∀ c ∈ done ++ [b], ∀ e ∈ known g c, b ≠ e.block := by
    intro c hc e he heq
    obtain ⟨hpred, hrank⟩ := List.mem_filter.mp he
    rw [← heq] at hrank
    rcases List.mem_append.mp hc with hc | hc
    · have hcg : c < g.size := by
        have hmem : c ∈ (FlowOrder.ofGraph g).blocks := by simp [horder, hc]
        exact (Graph.mem_order g c).mp hmem
      have hother := (FlowOrder.isBefore_iff g horder hcg).mpr hc
      simp only [FlowOrder.isBefore, decide_eq_true_eq] at hrank hother
      omega
    · have hcb : c = b := List.mem_singleton.mp hc
      simp [FlowOrder.isBefore, hcb] at hrank
  have hsame : ∀ c ∈ done ++ [b], ∀ v,
      v ∈ (f.grow b (f.arriving g b (known g b))).arriving g c (known g c) →
        v ∈ f.arriving g c (known g c) := by
    intro c hc v hv
    rw [mem_arriving] at hv ⊢
    rcases hv with hv | ⟨e, he, hv⟩
    · exact Or.inl hv
    · rw [along_congr (below_grow hempty).effects (leaving_grow_of_ne (hbefore c hc e he))] at hv
      exact Or.inr ⟨e, he, hv⟩
  rw [enter_eq_grow]
  refine ⟨hsound, ?_, ?_⟩
  · intro c hc
    rw [List.mem_append, List.mem_singleton, not_or] at hc
    rw [grow_entering, if_neg fun hbc => hc.2 hbc.1.symm]
    exact h.fresh c hc.1
  · intro c hc v hv
    have hold := hsame c hc v hv
    rw [grow_entering]
    split
    · rename_i hbc
      exact hbc.1.symm ▸ hold
    · rename_i hbc
      rcases List.mem_append.mp hc with hc | hc
      · exact h.filled c hc hold
      · exact absurd ⟨(List.mem_singleton.mp hc).symm, h.sound.size.symm ▸ hbg⟩ hbc

theorem Passed.foldl {done rest : List Nat} (h : Passed g done f)
    (horder : (FlowOrder.ofGraph g).blocks = done ++ rest) :
    Passed g (done ++ rest) (rest.foldl (Track.enter g (FlowOrder.ofGraph g)) f) := by
  induction rest generalizing done f with
  | nil => simpa using h
  | cons b rest ih =>
    have hstep := ih (h.enter horder) (by simpa using horder)
    simpa using hstep

theorem alike_foldl_enter (g : Graph) (o : FlowOrder) (l : List Nat) (f : Flow) :
    f.Alike (l.foldl (Track.enter g o) f) :=
  foldl_keeps (fun s b (hs : f.Alike s) => hs.trans (alike_grow s b _)) l f (Alike.refl f)

/-- After the pass only blocks that are entered from later ones may lack a version. -/
theorem Passed.covered (h : Passed g (FlowOrder.ofGraph g).blocks f) :
    f.Covered g fun b => b ∈ (FlowOrder.ofGraph g).late g := by
  intro b hb hlate
  have hmem : b ∈ (FlowOrder.ofGraph g).blocks := (Graph.mem_order g b).mpr hb
  have hall : known g b = g.preds.get b := by
    refine List.filter_eq_self.mpr ?_
    intro e he
    by_contra hbefore
    refine hlate (List.mem_filter.mpr ⟨hmem, List.any_eq_true.mpr ⟨e, he, ?_⟩⟩)
    simpa using hbefore
  have hfilled := h.filled b hmem
  rwa [hall] at hfilled

/-! ### The state before the pass -/

theorem tidy_initial (n : Nat) (numbering : Track.Numbering) :
    (Track.initial n numbering).Tidy := by
  refine ⟨?_, ?_, Webs.downward_empty⟩
  all_goals
    intro b
    simp only [Track.initial, Table.get_blank]
    exact List.Pairwise.nil

theorem passed_withEffects (g : Graph) (numbering : Track.Numbering) :
    Passed g [] ((Track.initial g.size numbering).withEffects g) := by
  obtain ⟨hlearns, _⟩ := (tidy_initial g.size numbering).withEffects g
  have hentering : ((Track.initial g.size numbering).withEffects g).entering
      = Table.blank g.size := by
    rw [hlearns.frame]
    rfl
  have hwebs : ((Track.initial g.size numbering).withEffects g).webs = Webs.empty := by
    rw [hlearns.frame]
    rfl
  have hnone : ∀ b, ((Track.initial g.size numbering).withEffects g).entering.get b = [] := by
    intro b
    rw [hentering, Table.get_blank]
    rfl
  refine ⟨⟨hlearns.tidy, ?_, ?_, ?_, ?_⟩, fun b _ => hnone b, ?_⟩
  · rw [hentering, Table.size_blank]
  · intro b
    rw [hnone]
    exact List.nil_subset _
  · intro sets _ b
    rw [hnone]
    exact List.nil_subset _
  · rw [hwebs]
    apply Webs.exact_empty
    intro x y ⟨b, _, hx, _⟩
    rw [hnone] at hx
    exact absurd hx List.not_mem_nil
  · exact fun b hb => absurd hb List.not_mem_nil

/-- The flow of a register variable before settling. -/
theorem ofVariable_flow (g : Graph) (r : Register) (uses : Table (Option Use)) :
    ∃ f, (Track.ofVariable g (FlowOrder.ofGraph g) r uses).flow = some f ∧
      ((Track.initial g.size
        (Track.Numbering.ofUses (FlowOrder.ofGraph g).blocks uses)).withEffects g).Alike f ∧
      f.Sound g ∧ f.Covered g fun b => b ∈ (FlowOrder.ofGraph g).late g := by
  have hpassed := (passed_withEffects g
    (Track.Numbering.ofUses (FlowOrder.ofGraph g).blocks uses)).foldl (List.nil_append _).symm
  rw [List.nil_append] at hpassed
  exact ⟨_, rfl, alike_foldl_enter g _ _ _, hpassed.sound, hpassed.covered⟩

end Pass

/-! ### When nothing waits -/

section Done

variable {g : Graph} {f f' : Flow}

theorem Sound.entering_eq_incoming (h : f.Sound g) (hcov : f.Covered g fun _ => False)
    {b : Nat} (hb : b < g.size) : f.entering.get b = f.incoming g b := by
  apply Ascending.eq_of_mem_iff (h.tidy.entering b) (h.tidy.incoming g b)
  intro v
  exact ⟨fun hv => h.supported b hv, fun hv => hcov b hb id hv⟩

theorem Covered.closed (hcov : f.Covered g fun _ => False) : f.Closed g f.entering :=
  fun b hb => hcov b hb id

/-- Two flows of the same equations end with the same sets and the same webs. -/
theorem Sound.unique (h : f.Sound g) (hcov : f.Covered g fun _ => False) (h' : f'.Sound g)
    (hcov' : f'.Covered g fun _ => False) (halike : f.Alike f') :
    f'.entering = f.entering ∧ ∀ v, f'.webs.root v = f.webs.root v := by
  have hentering : f'.entering = f.entering := by
    apply Table.ext_get (h'.size.trans h.size.symm)
    intro b _
    apply Ascending.eq_of_mem_iff (h'.tidy.entering b) (h.tidy.entering b)
    have hclosed : f'.Closed g f.entering :=
      closed_congr halike.made.symm halike.effects.symm hcov.closed
    have hclosed' : f.Closed g f'.entering := closed_congr halike.made halike.effects hcov'.closed
    exact fun v => ⟨fun hv => h'.least _ hclosed b hv, fun hv => h.least _ hclosed' b hv⟩
  have hmeets : f'.Meets = f.Meets := by
    unfold Meets
    rw [halike.reads, hentering]
  refine ⟨hentering, ?_⟩
  have hroots := h'.webs
  rw [hmeets] at hroots
  exact hroots.root_eq h.webs

end Done

end Flow

end RegisterWeb
