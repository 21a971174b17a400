import Mathlib.Data.List.Sort
import Mathlib.Order.Defs.Unbundled
import RegisterWeb.Ascending
import RegisterWeb.Graph.Basic
import RegisterWeb.Version.Set

/-!
Ascending lists as finite sets. Membership says what insertion, union and gathering do, ascending
lists with the same members are equal, and a union is as long as its first part exactly if it adds
nothing: that is how the solvers tell whether a set has grown.
-/

namespace RegisterWeb

/-! ### Strict orders of the types whose sets are kept as lists -/

instance : IsStrictTotalOrder Version (· < ·) where
  trichotomous := fun _ _ hab hba =>
    UInt32.le_antisymm (UInt32.not_lt.mp hba) (UInt32.not_lt.mp hab)
  irrefl := UInt32.lt_irrefl
  trans := fun _ _ _ => UInt32.lt_trans

theorem Edge.lt_iff (a b : Edge) :
    a < b ↔ a.block < b.block ∨ (a.block = b.block ∧ a.isCall = false ∧ b.isCall = true) :=
  Iff.rfl

instance : IsStrictTotalOrder Edge (· < ·) where
  trichotomous := by
    intro ⟨a, x⟩ ⟨b, y⟩ hab hba
    rw [Edge.lt_iff] at hab hba
    have hblock : a = b := by
      simp only at hab hba
      omega
    subst hblock
    cases x <;> cases y <;> simp_all
  irrefl := by
    intro a h
    rw [Edge.lt_iff] at h
    rcases h with h | ⟨_, h, h'⟩
    · exact Nat.lt_irrefl _ h
    · rw [h] at h'
      exact Bool.noConfusion h'
  trans := by
    intro a b c hab hbc
    rw [Edge.lt_iff] at hab hbc ⊢
    rcases hab with hab | ⟨hab, ha, hb⟩
    · rcases hbc with hbc | ⟨hbc, _, _⟩
      · exact Or.inl (Nat.lt_trans hab hbc)
      · exact Or.inl (hbc ▸ hab)
    · rcases hbc with hbc | ⟨_, hb', _⟩
      · exact Or.inl (hab ▸ hbc)
      · rw [hb] at hb'
        exact Bool.noConfusion hb'

/-! ### Sorted lists -/

theorem pairwise_mergeSort_key {α κ : Type} [LinearOrder κ] {key : α → κ} (l : List α) :
    (l.mergeSort fun a b => decide (key a ≤ key b)).Pairwise fun a b => key a ≤ key b := by
  refine (List.pairwise_mergeSort ?_ ?_ l).imp of_decide_eq_true
  · intro a b c hab hbc
    exact decide_eq_true (le_trans (of_decide_eq_true hab) (of_decide_eq_true hbc))
  · intro a b
    simpa using le_total (key a) (key b)

/-- Whatever order they come in, values with different keys are sorted in one way. -/
theorem mergeSort_eq_of_perm {α κ : Type} [LinearOrder κ] {key : α → κ} {l m : List α}
    (h : l.Perm m) (hm : m.Pairwise fun a b => key a < key b) :
    l.mergeSort (fun a b => decide (key a ≤ key b)) = m := by
  have hperm := (List.mergeSort_perm l fun a b => decide (key a ≤ key b)).trans h
  have hkeys : (m.map key).Nodup := List.pairwise_map.mpr (hm.imp fun hlt => ne_of_lt hlt)
  refine hperm.eq_of_pairwise ?_ (pairwise_mergeSort_key l) (hm.imp fun hlt => le_of_lt hlt)
  intro a b ha hb hab hba
  exact List.inj_on_of_nodup_map hkeys (hperm.mem_iff.mp ha) hb (le_antisymm hab hba)

theorem ascending_mergeSort {l : List Nat} (h : l.Nodup) : Ascending l.mergeSort := by
  have hsorted : l.mergeSort.Pairwise (· ≤ ·) := pairwise_mergeSort_key l
  have hnodup : l.mergeSort.Nodup := (List.mergeSort_perm l _).nodup_iff.mpr h
  exact (hsorted.and hnodup).imp fun hab => lt_of_le_of_ne hab.1 hab.2

theorem mergeSort_of_ascending {l : List Nat} (h : Ascending l) : l.mergeSort = l :=
  List.mergeSort_of_pairwise (h.imp fun hlt => decide_eq_true (le_of_lt hlt))

namespace Ascending

variable {α : Type} [LT α] [DecidableLT α] [IsStrictTotalOrder α (· < ·)]

omit [DecidableLT α] in
theorem nodup {l : List α} (h : Ascending l) : l.Nodup := by
  refine List.Pairwise.imp ?_ h
  intro a b hab heq
  subst heq
  exact irrefl_of (· < ·) a hab

omit [DecidableLT α] in
/-- A set has one ascending list. -/
theorem eq_of_mem_iff {l m : List α} (hl : Ascending l) (hm : Ascending m)
    (same : ∀ x, x ∈ l ↔ x ∈ m) : l = m :=
  have : Std.Antisymm (α := α) (· < ·) :=
    ⟨fun a _ hab hba => absurd (trans_of (· < ·) hab hba) (irrefl_of (· < ·) a)⟩
  List.Pairwise.eq_of_mem_iff hl hm same

/-! ### Insertion -/

theorem mem_insert (a x : α) (l : List α) : x ∈ insert a l ↔ x = a ∨ x ∈ l := by
  induction l with
  | nil => simp [insert]
  | cons b bs ih =>
    simp only [insert]
    split
    · simp
    · rename_i hab
      split
      · simp only [List.mem_cons, ih]
        tauto
      · rename_i hba
        have heq : a = b := Std.Trichotomous.trichotomous a b hab hba
        subst heq
        simp

theorem ascending_insert (a : α) {l : List α} (h : Ascending l) : Ascending (insert a l) := by
  induction l with
  | nil => exact List.pairwise_singleton _ _
  | cons b bs ih =>
    obtain ⟨hb, hbs⟩ := List.pairwise_cons.mp h
    simp only [insert]
    split
    · rename_i hab
      refine List.pairwise_cons.mpr ⟨?_, h⟩
      intro x hx
      rcases List.mem_cons.mp hx with rfl | hx
      · exact hab
      · exact trans_of (· < ·) hab (hb x hx)
    · split
      · rename_i hba
        refine List.pairwise_cons.mpr ⟨?_, ih hbs⟩
        intro x hx
        rcases (mem_insert a x bs).mp hx with rfl | hx
        · exact hba
        · exact hb x hx
      · exact h

/-- Inserting one element after another adds exactly those elements. -/
theorem foldl_insert (l : List α) {s : List α} (h : Ascending s) :
    Ascending (l.foldl (fun s a => insert a s) s) ∧
      ∀ x, x ∈ l.foldl (fun s a => insert a s) s ↔ x ∈ s ∨ x ∈ l := by
  induction l generalizing s with
  | nil => exact ⟨h, fun x => by simp⟩
  | cons a l ih =>
    obtain ⟨hasc, hmem⟩ := ih (ascending_insert a h)
    refine ⟨hasc, fun x => ?_⟩
    rw [List.foldl_cons, hmem, mem_insert, List.mem_cons]
    tauto

theorem ascending_ofList (l : List α) : Ascending (ofList l) :=
  (foldl_insert l List.Pairwise.nil).1

@[simp] theorem mem_ofList (l : List α) (x : α) : x ∈ ofList l ↔ x ∈ l := by
  have h := (foldl_insert l (s := []) List.Pairwise.nil).2 x
  simpa [ofList] using h

/-! ### Union -/

@[simp] theorem mem_union (as bs : List α) (x : α) : x ∈ union as bs ↔ x ∈ as ∨ x ∈ bs := by
  fun_induction union as bs with
  | case1 bs => simp
  | case2 as _ => simp
  | case3 a as b bs hab ih =>
    simp only [List.mem_cons, ih]
    tauto
  | case4 a as b bs hab hba ih =>
    simp only [List.mem_cons, ih]
    tauto
  | case5 a as b bs hab hba ih =>
    have heq : a = b := Std.Trichotomous.trichotomous a b hab hba
    subst heq
    simp only [List.mem_cons, ih]
    tauto

theorem ascending_union {as bs : List α} (ha : Ascending as) (hb : Ascending bs) :
    Ascending (union as bs) := by
  fun_induction union as bs with
  | case1 bs => exact hb
  | case2 as _ => exact ha
  | case3 a as b bs hab ih =>
    obtain ⟨ha', has⟩ := List.pairwise_cons.mp ha
    refine List.pairwise_cons.mpr ⟨?_, ih has hb⟩
    intro x hx
    rcases (mem_union as (b :: bs) x).mp hx with hx | hx
    · exact ha' x hx
    · rcases List.mem_cons.mp hx with rfl | hx
      · exact hab
      · exact trans_of (· < ·) hab ((List.pairwise_cons.mp hb).1 x hx)
  | case4 a as b bs hab hba ih =>
    obtain ⟨hb', hbs⟩ := List.pairwise_cons.mp hb
    refine List.pairwise_cons.mpr ⟨?_, ih ha hbs⟩
    intro x hx
    rcases (mem_union (a :: as) bs x).mp hx with hx | hx
    · rcases List.mem_cons.mp hx with rfl | hx
      · exact hba
      · exact trans_of (· < ·) hba ((List.pairwise_cons.mp ha).1 x hx)
    · exact hb' x hx
  | case5 a as b bs hab hba ih =>
    have heq : a = b := Std.Trichotomous.trichotomous a b hab hba
    subst heq
    obtain ⟨ha', has⟩ := List.pairwise_cons.mp ha
    obtain ⟨hb', hbs⟩ := List.pairwise_cons.mp hb
    refine List.pairwise_cons.mpr ⟨?_, ih has hbs⟩
    intro x hx
    rcases (mem_union as bs x).mp hx with hx | hx
    · exact ha' x hx
    · exact hb' x hx

/-- A union that adds nothing is the first part itself. -/
theorem union_eq_left {as bs : List α} (ha : Ascending as) (hb : Ascending bs)
    (h : ∀ x ∈ bs, x ∈ as) : union as bs = as := by
  apply eq_of_mem_iff (ascending_union ha hb) ha
  intro x
  rw [mem_union]
  exact ⟨fun hx => hx.elim id (h x), Or.inl⟩

/-- The length of a union tells whether it adds anything. -/
theorem length_union_eq_iff {as bs : List α} (ha : Ascending as) (hb : Ascending bs) :
    (union as bs).length = as.length ↔ ∀ x ∈ bs, x ∈ as := by
  constructor
  · intro hlen x hx
    have hsub : as ⊆ union as bs := fun y hy => (mem_union as bs y).mpr (Or.inl hy)
    have hperm : as.Perm (union as bs) :=
      (List.subperm_of_subset ha.nodup hsub).perm_of_length_le (Nat.le_of_eq hlen)
    exact hperm.mem_iff.mpr ((mem_union as bs x).mpr (Or.inr hx))
  · intro h
    rw [union_eq_left ha hb h]

/-! ### Gathering -/

theorem foldl_union {β : Type} (l : List β) (f : β → List α) {s : List α} (hs : Ascending s)
    (hf : ∀ b ∈ l, Ascending (f b)) : Ascending (l.foldl (fun s b => union s (f b)) s) := by
  induction l generalizing s with
  | nil => exact hs
  | cons b l ih =>
    have hb := ascending_union hs (hf b (List.mem_cons_self ..))
    exact ih hb fun c hc => hf c (List.mem_cons_of_mem _ hc)

theorem mem_foldl_union {β : Type} (l : List β) (f : β → List α) (s : List α) (x : α) :
    x ∈ l.foldl (fun s b => union s (f b)) s ↔ x ∈ s ∨ ∃ b ∈ l, x ∈ f b := by
  induction l generalizing s with
  | nil => simp
  | cons b l ih =>
    rw [List.foldl_cons, ih, mem_union, or_assoc, List.exists_mem_cons_iff]

theorem ascending_gather {β : Type} (l : List β) (f : β → List α)
    (hf : ∀ b ∈ l, Ascending (f b)) : Ascending (gather l f) :=
  foldl_union l f List.Pairwise.nil hf

@[simp] theorem mem_gather {β : Type} (l : List β) (f : β → List α) (x : α) :
    x ∈ gather l f ↔ ∃ b ∈ l, x ∈ f b := by
  rw [gather, mem_foldl_union]
  simp

end Ascending

/-! ### Sets of versions -/

namespace VersionSet

theorem has_iff (s : VersionSet) (v : Version) : has s v = true ↔ v ∈ s := by
  simp [has]

@[simp] theorem mem_union (s t : VersionSet) (v : Version) : v ∈ union s t ↔ v ∈ s ∨ v ∈ t :=
  Ascending.mem_union s t v

theorem mem_without (s : VersionSet) (v x : Version) : x ∈ without s v ↔ x ∈ s ∧ x ≠ v := by
  simp [without]

theorem ascending_without {s : VersionSet} (h : Ascending s) (v : Version) :
    Ascending (without s v) :=
  List.Pairwise.sublist List.filter_sublist h

/-- A call leaves behind what the routine makes, and what the caller had if that survives. -/
theorem mem_resolve (effect given : VersionSet) (x : Version) :
    x ∈ resolve effect given ↔
      (x ∈ effect ∧ x ≠ Version.inherited) ∨ (Version.inherited ∈ effect ∧ x ∈ given) := by
  simp only [resolve]
  split
  · rename_i h
    rw [has_iff] at h
    rw [mem_union, mem_without]
    tauto
  · rename_i h
    rw [has_iff] at h
    constructor
    · intro hx
      exact Or.inl ⟨hx, fun heq => h (heq ▸ hx)⟩
    · rintro (⟨hx, _⟩ | ⟨hi, _⟩)
      · exact hx
      · exact absurd hi h

theorem ascending_resolve {effect given : VersionSet} (he : Ascending effect)
    (hg : Ascending given) : Ascending (resolve effect given) := by
  simp only [resolve]
  split
  · exact Ascending.ascending_union (ascending_without he _) hg
  · exact he

/-- A list without repetitions holds no more versions than there are words. -/
theorem length_le_size {s : List Version} (h : s.Nodup) : s.length ≤ UInt32.size := by
  have hnodup : (s.map UInt32.toNat).Nodup := by
    refine List.Nodup.map ?_ h
    intro a b hab
    exact UInt32.toNat_inj.mp hab
  have hsub : s.map UInt32.toNat ⊆ List.range UInt32.size := by
    intro n hn
    obtain ⟨v, _, rfl⟩ := List.mem_map.mp hn
    exact List.mem_range.mpr v.toNat_lt_size
  have hlen := (List.subperm_of_subset hnodup hsub).length_le
  simpa using hlen

end VersionSet

end RegisterWeb
