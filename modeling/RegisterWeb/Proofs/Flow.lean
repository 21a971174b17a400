import RegisterWeb.Proofs.Graph
import RegisterWeb.Proofs.Saturate
import RegisterWeb.Proofs.Web
import RegisterWeb.Track.Settle

/-!
What one look at a block does to the flow of a register. The versions that come into a block grow
with those that enter the blocks before it, and they depend on nothing but what those blocks hand
on. A look at a block lets the versions in and merges them where they are read; it uses up room
unless it changes nothing, and it brings news unless the block hands on what it handed on before.
-/

namespace RegisterWeb

namespace Flow

open Relation

/-! ### Membership -/

theorem mem_leaving {f : Flow} {b : Nat} {v : Version} :
    v ∈ f.leaving b ↔ f.made.get b = some v ∨ (f.made.get b = none ∧ v ∈ f.entering.get b) := by
  unfold leaving
  cases h : f.made.get b with
  | none => simp
  | some u => simp [eq_comm]

theorem getD_mem_leaving {f : Flow} {b : Nat} {v : Version} (h : v ∈ f.entering.get b) :
    (f.made.get b).getD v ∈ f.leaving b := by
  unfold leaving
  cases f.made.get b with
  | none => exact h
  | some u => exact List.mem_singleton.mpr rfl

theorem passing_of_not_calls {g : Graph} {f : Flow} {b : Nat} (h : (g.block b).calls = false) :
    f.passing g b = f.leaving b := by
  simp [passing, h]

theorem mem_passing_of_calls {g : Graph} {f : Flow} {b : Nat} {v : Version}
    (h : (g.block b).calls = true) :
    v ∈ f.passing g b ↔
      ∃ c ∈ (g.block b).callees, v ∈ VersionSet.resolve (f.effects.get c) (f.leaving b) := by
  simp [passing, h]

theorem mem_arriving {g : Graph} {f : Flow} {b : Nat} {edges : List Edge} {v : Version} :
    v ∈ f.arriving g b edges ↔
      ((g.block b).root = true ∧ v = Version.entry) ∨ ∃ e ∈ edges, v ∈ f.along g e := by
  have h := Ascending.mem_foldl_union edges (f.along g)
    (if (g.block b).root then [Version.entry] else []) v
  rw [arriving]
  refine h.trans (or_congr ?_ Iff.rfl)
  cases (g.block b).root <;> simp

theorem mem_incoming {g : Graph} {f : Flow} {b : Nat} {v : Version} :
    v ∈ f.incoming g b ↔
      ((g.block b).root = true ∧ v = Version.entry) ∨
        ∃ e ∈ g.preds.get b, v ∈ f.along g e :=
  mem_arriving

/-- What comes along some of the edges comes along all of them. -/
theorem arriving_subset {g : Graph} {f : Flow} {b : Nat} {edges : List Edge}
    (h : edges ⊆ g.preds.get b) : f.arriving g b edges ⊆ f.incoming g b := by
  intro v hv
  rw [mem_arriving] at hv
  rw [mem_incoming]
  rcases hv with hroot | ⟨e, he, hv⟩
  · exact Or.inl hroot
  · exact Or.inr ⟨e, h he, hv⟩

/-! ### Order of flows -/

/-- The same versions are made and left behind, and no fewer versions enter each block. -/
structure Below (f f' : Flow) : Prop where
  made : f'.made = f.made
  effects : f'.effects = f.effects
  entering : ∀ b, f.entering.get b ⊆ f'.entering.get b

theorem Below.refl (f : Flow) : f.Below f :=
  ⟨rfl, rfl, fun _ => List.Subset.refl _⟩

theorem Below.trans {f f' f'' : Flow} (h : f.Below f') (h' : f'.Below f'') : f.Below f'' :=
  ⟨h'.made.trans h.made, h'.effects.trans h.effects,
    fun b => List.Subset.trans (h.entering b) (h'.entering b)⟩

theorem Below.leaving {f f' : Flow} (h : f.Below f') (b : Nat) : f.leaving b ⊆ f'.leaving b := by
  intro v hv
  rw [mem_leaving] at hv ⊢
  rw [h.made]
  exact hv.imp id fun hv => ⟨hv.1, h.entering b hv.2⟩

theorem Below.passing {f f' : Flow} (h : f.Below f') (g : Graph) (b : Nat) :
    f.passing g b ⊆ f'.passing g b := by
  intro v hv
  cases hcalls : (g.block b).calls with
  | false =>
    rw [passing_of_not_calls hcalls] at hv ⊢
    exact h.leaving b hv
  | true =>
    rw [mem_passing_of_calls hcalls] at hv ⊢
    obtain ⟨c, hc, hv⟩ := hv
    refine ⟨c, hc, ?_⟩
    rw [VersionSet.mem_resolve] at hv ⊢
    rw [h.effects]
    exact hv.imp id fun hv => ⟨hv.1, h.leaving b hv.2⟩

theorem Below.along {f f' : Flow} (h : f.Below f') (g : Graph) (e : Edge) :
    f.along g e ⊆ f'.along g e := by
  unfold Flow.along
  split
  · exact h.leaving e.block
  · exact h.passing g e.block

theorem Below.incoming {f f' : Flow} (h : f.Below f') (g : Graph) (b : Nat) :
    f.incoming g b ⊆ f'.incoming g b := by
  intro v hv
  rw [mem_incoming] at hv ⊢
  exact hv.imp id fun ⟨e, he, hv⟩ => ⟨e, he, h.along g e hv⟩

/-! ### What a block hands on -/

theorem along_congr {g : Graph} {f f' : Flow} {e : Edge} (heffects : f'.effects = f.effects)
    (hleaving : f'.leaving e.block = f.leaving e.block) : f'.along g e = f.along g e := by
  unfold along passing
  rw [heffects, hleaving]

theorem incoming_congr {g : Graph} {f f' : Flow} {b : Nat} (heffects : f'.effects = f.effects)
    (hleaving : ∀ e ∈ g.preds.get b, f'.leaving e.block = f.leaving e.block) :
    ∀ v, v ∈ f'.incoming g b ↔ v ∈ f.incoming g b := by
  intro v
  rw [mem_incoming, mem_incoming]
  refine or_congr Iff.rfl (exists_congr fun e => and_congr_right fun he => ?_)
  rw [along_congr heffects (hleaving e he)]

/-! ### Sets kept in order -/

/-- All sets are ascending, and merged versions are linked downwards. -/
structure Tidy (f : Flow) : Prop where
  effects : ∀ b, Ascending (f.effects.get b)
  entering : ∀ b, Ascending (f.entering.get b)
  webs : f.webs.Downward

theorem Tidy.leaving {f : Flow} (h : f.Tidy) (b : Nat) : Ascending (f.leaving b) := by
  unfold Flow.leaving
  split
  · exact List.pairwise_singleton _ _
  · exact h.entering b

theorem Tidy.passing {f : Flow} (h : f.Tidy) (g : Graph) (b : Nat) :
    Ascending (f.passing g b) := by
  unfold Flow.passing
  split
  · exact Ascending.ascending_gather _ _ fun c _ =>
      VersionSet.ascending_resolve (h.effects c) (h.leaving b)
  · exact h.leaving b

theorem Tidy.along {f : Flow} (h : f.Tidy) (g : Graph) (e : Edge) : Ascending (f.along g e) := by
  unfold Flow.along
  split
  · exact h.leaving e.block
  · exact h.passing g e.block

theorem Tidy.arriving {f : Flow} (h : f.Tidy) (g : Graph) (b : Nat) (edges : List Edge) :
    Ascending (f.arriving g b edges) := by
  refine Ascending.foldl_union edges (f.along g) ?_ fun e _ => h.along g e
  split
  · exact List.pairwise_singleton _ _
  · exact List.Pairwise.nil

theorem Tidy.incoming {f : Flow} (h : f.Tidy) (g : Graph) (b : Nat) :
    Ascending (f.incoming g b) :=
  h.arriving g b _

theorem Tidy.set {f : Flow} (h : f.Tidy) (b : Nat) {s : VersionSet} (hs : Ascending s) :
    ({ f with entering := f.entering.set b s } : Flow).Tidy := by
  refine ⟨h.effects, ?_, h.webs⟩
  intro c
  rw [Table.get_set]
  split
  · exact hs
  · exact h.entering c

theorem Tidy.receive {f : Flow} (h : f.Tidy) (b : Nat) {s : VersionSet} (hs : Ascending s) :
    (f.receive b s).Tidy :=
  h.set b (Ascending.ascending_union (h.entering b) hs)

theorem Tidy.room_eq {f : Flow} (h : f.Tidy) :
    f.room + (f.entering.weight + f.webs.links.length)
      = UInt32.size * f.entering.size + UInt32.size := by
  have hweight := Table.weight_le h.entering
  have hlinks := h.webs.length_le
  unfold room
  omega

/-! ### Merging -/

@[simp] theorem merge_versions (f : Flow) (b : Nat) : (f.merge b).2.versions = f.versions := by
  unfold merge
  split <;> first | rfl | (split <;> rfl)

@[simp] theorem merge_reads (f : Flow) (b : Nat) : (f.merge b).2.reads = f.reads := by
  unfold merge
  split <;> first | rfl | (split <;> rfl)

@[simp] theorem merge_made (f : Flow) (b : Nat) : (f.merge b).2.made = f.made := by
  unfold merge
  split <;> first | rfl | (split <;> rfl)

@[simp] theorem merge_effects (f : Flow) (b : Nat) : (f.merge b).2.effects = f.effects := by
  unfold merge
  split <;> first | rfl | (split <;> rfl)

@[simp] theorem merge_entering (f : Flow) (b : Nat) : (f.merge b).2.entering = f.entering := by
  unfold merge
  split <;> first | rfl | (split <;> rfl)

theorem Tidy.merge {f : Flow} (h : f.Tidy) (b : Nat) :
    (f.merge b).2.Tidy ∧
      ((f.merge b).1 = true ↔ f.webs.links.length < (f.merge b).2.webs.links.length) := by
  refine ⟨⟨?_, ?_, ?_⟩, ?_⟩
  · rw [merge_effects]
    exact h.effects
  · rw [merge_entering]
    exact h.entering
  all_goals
    unfold Flow.merge
    split
    · split
      · simp [h.webs]
      · rename_i v vs _
        have hspec := h.webs.unionAll_spec v vs
        first | exact hspec.1 | exact hspec.2
    · simp [h.webs]

/-- Merging at a block joins the webs of all versions that enter it, if it reads them. -/
theorem exact_merge {f : Flow} {r : Version → Version → Prop} (h : f.webs.Exact r) (b : Nat) :
    (f.merge b).2.webs.Exact fun x y =>
      r x y ∨ (f.reads.get b = true ∧ x ∈ f.entering.get b ∧ y ∈ f.entering.get b) := by
  unfold merge
  split
  · rename_i hreads
    cases hset : f.entering.get b with
    | nil =>
      refine h.congr (fun x y hr => EqvGen.rel x y (Or.inl hr)) ?_
      intro x y hxy
      rcases hxy with hr | ⟨_, hx, _⟩
      · exact EqvGen.rel x y hr
      · exact absurd hx List.not_mem_nil
    | cons v vs =>
      refine (h.unionAll v vs).congr ?_ ?_
      · intro x y hxy
        rcases hxy with hr | ⟨hx, hy⟩
        · exact EqvGen.rel x y (Or.inl hr)
        · have hv : x ∈ v :: vs := hx ▸ List.mem_cons_self ..
          exact EqvGen.rel x y (Or.inr ⟨hreads, hv, List.mem_cons_of_mem v hy⟩)
      · -- every member is joined with the first one
        have hfirst : ∀ x ∈ v :: vs, EqvGen (fun x y => r x y ∨ (x = v ∧ y ∈ vs)) v x := by
          intro x hx
          rcases List.mem_cons.mp hx with rfl | hx
          · exact EqvGen.refl _
          · exact EqvGen.rel v x (Or.inr ⟨rfl, hx⟩)
        intro x y hxy
        rcases hxy with hr | ⟨_, hx, hy⟩
        · exact EqvGen.rel x y (Or.inl hr)
        · exact EqvGen.trans x v y (EqvGen.symm v x (hfirst x hx)) (hfirst y hy)
  · rename_i hreads
    refine h.congr (fun x y hr => EqvGen.rel x y (Or.inl hr)) ?_
    intro x y hxy
    rcases hxy with hr | ⟨hr, _⟩
    · exact EqvGen.rel x y hr
    · exact absurd hr hreads

/-! ### One look at a block -/

section Process

variable (g : Graph) (f : Flow) (b : Nat)

@[simp] theorem process_made : (f.process g b).2.made = f.made := by
  simp [process, receive]

@[simp] theorem process_effects : (f.process g b).2.effects = f.effects := by
  simp [process, receive]

theorem process_entering :
    (f.process g b).2.entering
      = f.entering.set b (VersionSet.union (f.entering.get b) (f.incoming g b)) := by
  simp [process, receive]

theorem mem_process_entering {c : Nat} {v : Version} :
    v ∈ (f.process g b).2.entering.get c ↔
      v ∈ f.entering.get c ∨ (b = c ∧ b < f.entering.size ∧ v ∈ f.incoming g b) := by
  rw [process_entering, Table.get_set]
  split
  · rename_i h
    obtain ⟨rfl, hb⟩ := h
    simp [hb]
  · rename_i h
    constructor
    · exact Or.inl
    · intro hv
      rcases hv with hv | ⟨hbc, hb, _⟩
      · exact hv
      · exact absurd ⟨hbc, hb⟩ h

end Process

section News

variable {g : Graph} {f : Flow} {b : Nat}

theorem Tidy.process (h : f.Tidy) (g : Graph) (b : Nat) : (f.process g b).2.Tidy :=
  ((h.receive b (h.incoming g b)).merge b).1

theorem Tidy.room_process (h : f.Tidy) (g : Graph) (b : Nat) :
    (f.process g b).2.room + (f.process g b).2.entering.weight
        + (f.process g b).2.webs.links.length
      = f.room + f.entering.weight + f.webs.links.length := by
  have hbefore := h.room_eq
  have hafter := (h.process g b).room_eq
  have hsize : (f.process g b).2.entering.size = f.entering.size := by
    rw [process_entering, Table.size_set]
  rw [hsize] at hafter
  omega

theorem Tidy.merged_iff (h : f.Tidy) (g : Graph) (b : Nat) :
    (f.process g b).1 = true ↔ f.webs.links.length < (f.process g b).2.webs.links.length :=
  ((h.receive b (h.incoming g b)).merge b).2

theorem weight_le_process (g : Graph) (f : Flow) (b : Nat) :
    f.entering.weight ≤ (f.process g b).2.entering.weight := by
  rw [process_entering]
  exact Table.weight_le_set (Ascending.length_le_union _ _)

theorem links_le_process (g : Graph) (f : Flow) (b : Nat) :
    f.webs.links.length ≤ (f.process g b).2.webs.links.length := by
  unfold process merge
  split
  · split
    · exact Nat.le_refl _
    · exact Webs.length_le_unionAll _ _ _
  · exact Nat.le_refl _

/-- A look that uses up no room changes nothing that enters. -/
theorem Tidy.entering_process (h : f.Tidy) (hroom : f.room ≤ (f.process g b).2.room) :
    (f.process g b).2.entering = f.entering ∧
      (b < f.entering.size → f.incoming g b ⊆ f.entering.get b) := by
  have hbalance := h.room_process g b
  have hlinks := links_le_process g f b
  have hweight : (f.process g b).2.entering.weight ≤ f.entering.weight := by omega
  rw [process_entering] at hweight ⊢
  exact Table.union_eq_of_weight_le (h.entering b) (h.incoming g b) hweight

/-- A look at a block brings news if it merges webs, or lets in more versions that are handed on. -/
theorem Tidy.hasNews_iff (h : f.Tidy) (hb : b < f.entering.size) :
    hasNews f (f.process g b).2 (f.process g b).1 b = true ↔
      (f.process g b).1 = true ∨
        (f.made.get b = none ∧ ¬ f.incoming g b ⊆ f.entering.get b) := by
  have hbalance := h.room_process g b
  have hlinks := links_le_process g f b
  have hweight := weight_le_process g f b
  have hmerged := h.merged_iff g b
  simp only [hasNews, Bool.and_eq_true, decide_eq_true_eq, Bool.or_eq_true,
    Option.isNone_iff_eq_none]
  constructor
  · intro ⟨hroom, hcause⟩
    by_cases hm : (f.process g b).1 = true
    · exact Or.inl hm
    · refine Or.inr ⟨hcause.resolve_left hm, ?_⟩
      intro hsub
      have hsame : (f.process g b).2.entering = f.entering := by
        rw [process_entering, VersionSet.union,
          Ascending.union_eq_left (h.entering b) (h.incoming g b) hsub, Table.set_get]
      rw [hsame] at hbalance
      have hnot := mt hmerged.mpr hm
      omega
  · intro hcause
    rcases hcause with hm | ⟨hmade, hnew⟩
    · have hlt := hmerged.mp hm
      exact ⟨by omega, Or.inl hm⟩
    · refine ⟨?_, Or.inr hmade⟩
      apply Nat.lt_of_not_le
      intro hroom
      exact hnew ((h.entering_process hroom).2 hb)

/-- Without news every block hands on what it handed on before. -/
theorem Tidy.leaving_process (h : f.Tidy)
    (hnews : hasNews f (f.process g b).2 (f.process g b).1 b = false) (c : Nat) :
    (f.process g b).2.leaving c = f.leaving c := by
  unfold Flow.leaving
  rw [process_made]
  cases hmade : f.made.get c with
  | some v => rfl
  | none =>
    by_cases hbc : b = c
    · subst hbc
      simp only [hasNews, hmade, Option.isNone_none, Bool.or_true, Bool.and_true,
        decide_eq_false_iff_not, Nat.not_lt] at hnews
      rw [(h.entering_process hnews).1]
    · simp only [process_entering, Table.get_set, hbc, false_and, if_false]

theorem leaving_process_of_ne {c : Nat} (hbc : b ≠ c) :
    (f.process g b).2.leaving c = f.leaving c := by
  unfold leaving
  simp only [process_made, process_entering, Table.get_set, hbc, false_and, if_false]

end News

end Flow

end RegisterWeb
