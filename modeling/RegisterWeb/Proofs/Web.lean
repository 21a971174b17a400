import Mathlib.Logic.Relation
import RegisterWeb.Proofs.Ascending
import RegisterWeb.Version.Web

/-!
Webs as a partition of the versions. Links lead downwards, so following them ends at the lowest
version of a web. Looking a version up moves links but no version to another web, and merging joins
exactly the two webs that it is given. A partition is exact for a relation if two versions share a
web just when the equivalence generated by the relation joins them.
-/

namespace RegisterWeb

namespace Webs

open Relation

/-- No version has two links, and every link leads to a lower version. -/
structure Downward (w : Webs) : Prop where
  single : (w.links.map Prod.fst).Nodup
  lower : ∀ l ∈ w.links, l.2 < l.1

theorem downward_empty : Downward empty :=
  ⟨List.nodup_nil, fun _ h => absurd h List.not_mem_nil⟩

theorem Downward.length_le {w : Webs} (h : w.Downward) : w.links.length ≤ UInt32.size := by
  have hlen := VersionSet.length_le_size h.single
  rwa [List.length_map] at hlen

theorem mem_of_link? {w : Webs} {v p : Version} (h : w.link? v = some p) : (v, p) ∈ w.links := by
  rw [link?, List.lookup_eq_some_iff] at h
  obtain ⟨before, after, heq, _⟩ := h
  rw [heq]
  exact List.mem_append.mpr (Or.inr (List.mem_cons_self ..))

theorem Downward.lt_of_link? {w : Webs} (h : w.Downward) {v p : Version}
    (hp : w.link? v = some p) : p < v :=
  h.lower (v, p) (mem_of_link? hp)

theorem link?_eq_none_iff {w : Webs} {v : Version} :
    w.link? v = none ↔ v ∉ w.links.map Prod.fst := by
  rw [link?, List.lookup_eq_none_iff]
  simp only [List.mem_map, not_exists, not_and, bne_iff_ne]
  exact ⟨fun h l hl heq => h l hl heq.symm, fun h l hl heq => h l hl heq.symm⟩

/-! ### Representatives -/

theorem root_of_none {w : Webs} {v : Version} (h : w.link? v = none) : w.root v = v := by
  rw [root, h]

theorem Downward.root_of_some {w : Webs} (hw : w.Downward) {v p : Version}
    (h : w.link? v = some p) : w.root v = w.root p := by
  have hlt := hw.lt_of_link? h
  rw [root, h]
  simp only [hlt, if_true]

theorem root_le (w : Webs) (v : Version) : w.root v ≤ v := by
  fun_induction root w v with
  | case1 v p _ hlt ih => exact UInt32.le_trans ih (UInt32.le_of_lt hlt)
  | case2 v p _ _ => exact UInt32.le_refl v
  | case3 v _ => exact UInt32.le_refl v

theorem Downward.link?_root {w : Webs} (hw : w.Downward) (v : Version) :
    w.link? (w.root v) = none := by
  fun_induction root w v with
  | case1 v p _ _ ih => exact ih
  | case2 v p hp hge => exact absurd (hw.lt_of_link? hp) hge
  | case3 v hv => exact hv

theorem Downward.root_root {w : Webs} (hw : w.Downward) (v : Version) :
    w.root (w.root v) = w.root v :=
  root_of_none (hw.link?_root v)

theorem root_le_of_root_eq {w : Webs} {a b : Version} (h : w.root a = w.root b) : w.root a ≤ b :=
  h ▸ root_le w b

/-! ### Looking up -/

theorem lookup_relink (links : List (Version × Version)) (v r x : Version) :
    (links.map fun l => if l.1 == v then (v, r) else l).lookup x =
      if x = v then (links.lookup v).map fun _ => r else links.lookup x := by
  induction links with
  | nil => simp
  | cons l links ih =>
    obtain ⟨u, p⟩ := l
    rw [List.map_cons]
    by_cases huv : u = v
    · subst huv
      simp only [beq_self_eq_true, if_true, List.lookup_cons]
      by_cases hxu : x = u
      · simp [hxu]
      · have hne : (x == u) = false := by simpa using hxu
        simp only [hne, ih, hxu, if_false]
    · have hne : (u == v) = false := by simpa using huv
      simp only [hne, Bool.false_eq_true, if_false, List.lookup_cons]
      by_cases hxu : x = u
      · subst hxu
        simp [huv]
      · have hxne : (x == u) = false := by simpa using hxu
        have hvne : (v == u) = false := by simpa using Ne.symm huv
        simp only [hxne, hvne, ih]

theorem link?_relink (w : Webs) (v r x : Version) :
    (w.relink v r).link? x = if x = v then (w.link? v).map fun _ => r else w.link? x :=
  lookup_relink w.links v r x

theorem map_fst_relink (w : Webs) (v r : Version) :
    (w.relink v r).links.map Prod.fst = w.links.map Prod.fst := by
  simp only [relink, List.map_map]
  apply List.map_congr_left
  intro l _
  by_cases h : l.1 = v
  · simp [h]
  · simp [h]

theorem Downward.relink {w : Webs} (hw : w.Downward) {v r : Version} (hr : r < v) :
    (w.relink v r).Downward := by
  constructor
  · rw [map_fst_relink]
    exact hw.single
  · intro l hl
    obtain ⟨m, hm, rfl⟩ := List.mem_map.mp hl
    by_cases h : m.1 = v
    · simpa [h] using hr
    · simpa [h] using hw.lower m hm

theorem Downward.root_relink {w : Webs} (hw : w.Downward) {v : Version} (hv : w.root v < v)
    (x : Version) : (w.relink v (w.root v)).root x = w.root x := by
  have hw' := hw.relink hv
  fun_induction root w x with
  | case1 x p hp hlt ih =>
    by_cases hxv : x = v
    · subst hxv
      have hlink : (w.relink x (w.root x)).link? x = some (w.root x) := by
        rw [link?_relink, if_pos rfl, hp, Option.map_some]
      have hnone : (w.relink x (w.root x)).link? (w.root x) = none := by
        have hne : w.root x ≠ x := UInt32.ne_of_lt hv
        rw [link?_relink, if_neg hne]
        exact hw.link?_root x
      rw [hw'.root_of_some hlink, root_of_none hnone, hw.root_of_some hp]
    · have hlink : (w.relink v (w.root v)).link? x = some p := by
        rw [link?_relink, if_neg hxv, hp]
      rw [hw'.root_of_some hlink, ih]
  | case2 x p hp hge => exact absurd (hw.lt_of_link? hp) hge
  | case3 x hx =>
    have hlink : (w.relink v (w.root v)).link? x = none := by
      rw [link?_relink]
      by_cases hxv : x = v
      · rw [if_pos hxv, ← hxv, hx, Option.map_none]
      · rw [if_neg hxv, hx]
    exact root_of_none hlink

/-- Looking a version up gives its representative, and leaves all webs as they are. -/
theorem Downward.find_spec {w : Webs} (hw : w.Downward) (v : Version) :
    (w.find v).1 = w.root v ∧ (w.find v).2.Downward ∧ ∀ x, (w.find v).2.root x = w.root x := by
  fun_induction find w v with
  | case1 v p hp hlt found ih =>
    obtain ⟨hroot, hdown, hsame⟩ := ih
    have hv : w.root v = w.root p := hw.root_of_some hp
    have hfound : found.1 = found.2.root v := by rw [hsame, hroot, hv]
    have hless : found.2.root v < v := by
      rw [hsame, hv]
      exact UInt32.lt_of_le_of_lt (root_le w p) hlt
    refine ⟨hroot.trans hv.symm, ?_, fun x => ?_⟩
    · rw [hfound]
      exact hdown.relink hless
    · rw [hfound, hdown.root_relink hless, hsame]
  | case2 v p hp hge => exact absurd (hw.lt_of_link? hp) hge
  | case3 v hv => exact ⟨(root_of_none hv).symm, hw, fun _ => rfl⟩

/-! ### Merging -/

theorem link?_link (w : Webs) (v r x : Version) :
    (w.link v r).link? x = if x = v then some r else w.link? x := by
  simp only [link, link?, List.lookup_cons]
  by_cases h : x = v
  · simp [h]
  · have hne : (x == v) = false := by simpa using h
    simp [hne, h]

theorem Downward.link {w : Webs} (hw : w.Downward) {v r : Version} (hv : w.link? v = none)
    (hr : r < v) : (w.link v r).Downward := by
  constructor
  · exact List.nodup_cons.mpr ⟨link?_eq_none_iff.mp hv, hw.single⟩
  · intro l hl
    rcases List.mem_cons.mp hl with rfl | hl
    · exact hr
    · exact hw.lower l hl

/-- Linking one representative to a lower one takes its whole web along. -/
theorem Downward.root_link {w : Webs} (hw : w.Downward) {v r : Version} (hv : w.link? v = none)
    (hrr : w.link? r = none) (hr : r < v) (x : Version) :
    (w.link v r).root x = if w.root x = v then r else w.root x := by
  have hw' := hw.link hv hr
  have hrv : r ≠ v := fun h => UInt32.lt_irrefl v (h ▸ hr)
  have hroot : (w.link v r).root r = r := by
    apply root_of_none
    rw [link?_link, if_neg hrv, hrr]
  fun_induction root w x with
  | case1 x p hp hlt ih =>
    have hxv : x ≠ v := by
      intro h
      rw [h, hv] at hp
      simp at hp
    have hlink : (w.link v r).link? x = some p := by rw [link?_link, if_neg hxv, hp]
    rw [hw'.root_of_some hlink, ih]
  | case2 x p hp hge => exact absurd (hw.lt_of_link? hp) hge
  | case3 x hx =>
    by_cases hxv : x = v
    · subst hxv
      have hlink : (w.link x r).link? x = some r := by rw [link?_link, if_pos rfl]
      rw [hw'.root_of_some hlink, hroot, if_pos rfl]
    · have hlink : (w.link v r).link? x = none := by rw [link?_link, if_neg hxv, hx]
      rw [root_of_none hlink, if_neg hxv]

/-- What a merge of two versions does: the higher of their representatives gives way to the lower
one, in all versions that it represented. -/
structure Merges (w : Webs) (a b : Version) (apart : Bool) (w' : Webs) : Prop where
  downward : w'.Downward
  apart_iff : apart = true ↔ w.root a ≠ w.root b
  root_eq : ∀ x, w'.root x =
    if w.root x = w.root a ∨ w.root x = w.root b then
      if w.root a < w.root b then w.root a else w.root b
    else w.root x
  length_eq : w'.links.length = w.links.length + apart.toNat

theorem Downward.union_spec {w : Webs} (hw : w.Downward) (a b : Version) :
    w.Merges a b (w.union a b).1 (w.union a b).2 := by
  obtain ⟨hla, hda, hsa⟩ := hw.find_spec a
  obtain ⟨hlb, hdb, hsb⟩ := hda.find_spec b
  have hsame : ∀ x, ((w.find a).2.find b).2.root x = w.root x := fun x => (hsb x).trans (hsa x)
  have hb : ((w.find a).2.find b).1 = w.root b := hlb.trans (hsa b)
  have hlen : ((w.find a).2.find b).2.links.length = w.links.length := by simp
  have hnone : ∀ x, ((w.find a).2.find b).2.link? (w.root x) = none := by
    intro x
    rw [← hsame x]
    exact hdb.link?_root x
  simp only [union, hla, hb]
  by_cases heq : w.root a = w.root b
  · rw [if_pos heq]
    refine ⟨hdb, by simp [heq], fun x => ?_, by simp⟩
    have hlow : (if w.root a < w.root b then w.root a else w.root b) = w.root b := by simp [heq]
    rw [hsame, hlow]
    split
    · rename_i h
      rcases h with h | h
      · exact h.trans heq
      · exact h
    · rfl
  · rw [if_neg heq]
    by_cases hlt : w.root a < w.root b
    · rw [if_pos hlt]
      refine ⟨hdb.link (hnone b) hlt, by simp [heq], fun x => ?_, by simp [Webs.link]⟩
      rw [hdb.root_link (hnone b) (hnone a) hlt, hsame]
      simp only [hlt, if_true]
      by_cases hxb : w.root x = w.root b
      · simp [hxb]
      · by_cases hxa : w.root x = w.root a
        · simp [hxa]
        · simp [hxa, hxb]
    · rw [if_neg hlt]
      have hgt : w.root b < w.root a :=
        UInt32.lt_of_le_of_ne (UInt32.not_lt.mp hlt) (Ne.symm heq)
      refine ⟨hdb.link (hnone a) hgt, by simp [heq], fun x => ?_, by simp [Webs.link]⟩
      rw [hdb.root_link (hnone a) (hnone b) hgt, hsame]
      simp only [hlt, if_false]
      by_cases hxa : w.root x = w.root a
      · simp [hxa]
      · by_cases hxb : w.root x = w.root b
        · simp [hxb]
        · simp [hxa, hxb]

/-! ### Exact partitions -/

/-- Two versions share a web just when the equivalence that `r` generates joins them. -/
structure Exact (w : Webs) (r : Version → Version → Prop) : Prop where
  downward : w.Downward
  same_iff : ∀ a b, w.root a = w.root b ↔ EqvGen r a b

theorem exact_empty {r : Version → Version → Prop} (h : ∀ a b, ¬ r a b) : Exact empty r := by
  have hroot : ∀ a, empty.root a = a := fun a => root_of_none rfl
  refine ⟨downward_empty, fun a b => ?_⟩
  rw [hroot, hroot]
  constructor
  · rintro rfl
    exact EqvGen.refl a
  · intro hab
    induction hab with
    | rel a b hab => exact absurd hab (h a b)
    | refl a => rfl
    | symm a b _ ih => exact ih.symm
    | trans a b c _ _ hab hbc => exact hab.trans hbc

theorem Exact.congr {w : Webs} {r s : Version → Version → Prop} (h : w.Exact r)
    (hrs : ∀ a b, r a b → EqvGen s a b) (hsr : ∀ a b, s a b → EqvGen r a b) : w.Exact s := by
  refine ⟨h.downward, fun a b => (h.same_iff a b).trans ⟨fun hab => ?_, fun hab => ?_⟩⟩
  · exact (EqvGen.is_equivalence s).eqvGen_iff.mp (EqvGen.mono hrs a b hab)
  · exact (EqvGen.is_equivalence r).eqvGen_iff.mp (EqvGen.mono hsr a b hab)

theorem Exact.union {w : Webs} {r : Version → Version → Prop} (h : w.Exact r) (a b : Version) :
    (w.union a b).2.Exact fun x y => r x y ∨ (x = a ∧ y = b) := by
  have hm := h.downward.union_spec a b
  have hmono : ∀ x y, w.root x = w.root y → EqvGen (fun x y => r x y ∨ (x = a ∧ y = b)) x y :=
    fun x y hxy => EqvGen.mono (fun _ _ hr => Or.inl hr) x y ((h.same_iff x y).mp hxy)
  have hab : EqvGen (fun x y => r x y ∨ (x = a ∧ y = b)) a b := EqvGen.rel _ _ (Or.inr ⟨rfl, rfl⟩)
  -- whatever shares a web with one of the two is joined with the first of them
  have hjoin : ∀ x, w.root x = w.root a ∨ w.root x = w.root b →
      EqvGen (fun x y => r x y ∨ (x = a ∧ y = b)) x a := by
    rintro x (hx | hx)
    · exact hmono x a hx
    · exact EqvGen.trans _ _ _ (hmono x b hx) (EqvGen.symm _ _ hab)
  refine ⟨hm.downward, fun x y => ⟨fun hxy => ?_, fun hxy => ?_⟩⟩
  · rw [hm.root_eq, hm.root_eq] at hxy
    by_cases hx : w.root x = w.root a ∨ w.root x = w.root b
    · by_cases hy : w.root y = w.root a ∨ w.root y = w.root b
      · exact EqvGen.trans _ _ _ (hjoin x hx) (EqvGen.symm _ _ (hjoin y hy))
      · rw [if_pos hx, if_neg hy] at hxy
        refine absurd ?_ hy
        rw [← hxy]
        split
        · exact Or.inl rfl
        · exact Or.inr rfl
    · by_cases hy : w.root y = w.root a ∨ w.root y = w.root b
      · rw [if_neg hx, if_pos hy] at hxy
        refine absurd ?_ hx
        rw [hxy]
        split
        · exact Or.inl rfl
        · exact Or.inr rfl
      · rw [if_neg hx, if_neg hy] at hxy
        exact hmono x y hxy
  · induction hxy with
    | rel x y hr =>
      rcases hr with hr | ⟨rfl, rfl⟩
      · rw [hm.root_eq, hm.root_eq, (h.same_iff x y).mpr (EqvGen.rel _ _ hr)]
      · rw [hm.root_eq, hm.root_eq, if_pos (Or.inl rfl), if_pos (Or.inr rfl)]
    | refl x => rfl
    | symm x y _ ih => exact ih.symm
    | trans x y z _ _ hxy hyz => exact hxy.trans hyz

/-- Merging a list of versions with one makes a partition exact for all those pairs. -/
theorem Exact.unionAll {w : Webs} {r : Version → Version → Prop} (h : w.Exact r) (v : Version)
    (us : List Version) : (w.unionAll v us).2.Exact fun x y => r x y ∨ (x = v ∧ y ∈ us) := by
  induction us generalizing w r with
  | nil =>
    refine h.congr (fun a b hr => EqvGen.rel a b (Or.inl hr)) ?_
    rintro a b (hr | ⟨_, hb⟩)
    · exact EqvGen.rel a b hr
    · exact absurd hb List.not_mem_nil
  | cons u us ih =>
    refine (ih (h.union v u)).congr ?_ ?_
    · rintro a b ((hr | ⟨rfl, rfl⟩) | ⟨rfl, hb⟩)
      · exact EqvGen.rel a b (Or.inl hr)
      · exact EqvGen.rel a b (Or.inr ⟨rfl, List.mem_cons_self ..⟩)
      · exact EqvGen.rel a b (Or.inr ⟨rfl, List.mem_cons_of_mem _ hb⟩)
    · rintro a b (hr | ⟨rfl, hb⟩)
      · exact EqvGen.rel a b (Or.inl (Or.inl hr))
      · rcases List.mem_cons.mp hb with rfl | hb
        · exact EqvGen.rel a b (Or.inl (Or.inr ⟨rfl, rfl⟩))
        · exact EqvGen.rel a b (Or.inr ⟨rfl, hb⟩)

/-- Merging a list tells whether it brought new links. -/
theorem Downward.unionAll_spec {w : Webs} (hw : w.Downward) (v : Version) (us : List Version) :
    (w.unionAll v us).2.Downward ∧
      ((w.unionAll v us).1 = true ↔ w.links.length < (w.unionAll v us).2.links.length) := by
  induction us generalizing w with
  | nil => exact ⟨hw, by simp [unionAll]⟩
  | cons u us ih =>
    have hm := hw.union_spec v u
    obtain ⟨hdown, hiff⟩ := ih hm.downward
    have hlen := length_le_unionAll (w.union v u).2 v us
    have hfirst := hm.length_eq
    refine ⟨hdown, ?_⟩
    simp only [unionAll, Bool.or_eq_true, hiff]
    cases hfst : (w.union v u).1 with
    | true =>
      rw [hfst, Bool.toNat_true] at hfirst
      exact ⟨fun _ => by omega, fun _ => Or.inl rfl⟩
    | false =>
      rw [hfst, Bool.toNat_false] at hfirst
      constructor
      · rintro (h | h)
        · exact absurd h Bool.false_ne_true
        · omega
      · intro h
        right
        omega

theorem mem_canonical (w : Webs) (s : VersionSet) (v : Version) :
    v ∈ w.canonical s ↔ ∃ u ∈ s, w.root u = v := by
  simp [canonical]

theorem Exact.root_eq {w w' : Webs} {r : Version → Version → Prop} (h : w.Exact r)
    (h' : w'.Exact r) (v : Version) : w.root v = w'.root v := by
  have hiff : ∀ a b, w.root a = w.root b ↔ w'.root a = w'.root b :=
    fun a b => (h.same_iff a b).trans (h'.same_iff a b).symm
  apply UInt32.le_antisymm
  · exact root_le_of_root_eq ((hiff _ _).mpr (h'.downward.root_root v)).symm
  · exact root_le_of_root_eq ((hiff _ _).mp (h.downward.root_root v)).symm

theorem canonical_eq_singleton {w : Webs} {s : VersionSet} {v : Version} (hv : v ∈ s)
    (same : ∀ u ∈ s, w.root u = w.root v) : w.canonical s = [w.root v] := by
  apply Ascending.eq_of_mem_iff (Ascending.ascending_ofList _) (List.pairwise_singleton _ _)
  intro x
  rw [List.mem_singleton, ← canonical, mem_canonical]
  constructor
  · rintro ⟨u, hu, rfl⟩
    exact same u hu
  · rintro rfl
    exact ⟨v, hv, rfl⟩

end Webs

end RegisterWeb
