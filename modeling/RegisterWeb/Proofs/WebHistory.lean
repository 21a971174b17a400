import Mathlib.Order.Bounds.Defs
import RegisterWeb.Proofs.Web

/-!
Webs after any history of look-ups and merges. The versions of a web are those that the merges of
the history join, and a look-up gives the lowest of them. Since links lead downwards, a look-up that
just follows them comes to an end; it moves links, but no version to another web.
-/

namespace RegisterWeb

namespace Webs

open Relation

/-- What can be done with webs: look a version up, or merge the webs of two versions. -/
inductive Op where
  | find (v : Version)
  | union (a b : Version)

/-- The webs that an operation leaves behind. -/
def perform (w : Webs) : Op → Webs
  | .find v => (w.find v).2
  | .union a b => (w.union a b).2

/-- The webs after operations in turn, from the webs in which nothing is merged. -/
def after (ops : List Op) : Webs :=
  ops.foldl perform empty

/-- The equivalence that the merges among the operations generate. -/
def Joined (ops : List Op) : Version → Version → Prop :=
  EqvGen fun a b => Op.union a b ∈ ops

/-- Looking a version up by following the links, wherever they lead, and moving the link of each
version on the way to the version at the end. -/
inductive Chases (w : Webs) : Version → Version → Webs → Prop where
  | stop {v : Version} (h : w.link? v = none ∨ w.link? v = some v) : Chases w v v w
  | follow {w' : Webs} {v p r : Version} (hp : w.link? v = some p) (hne : p ≠ v)
      (h : Chases w p r w') : Chases w v r (w'.relink v r)

/-! ### Looking up -/

theorem Downward.chases_find {w : Webs} (hw : w.Downward) (v : Version) :
    Chases w v (w.find v).1 (w.find v).2 := by
  fun_induction find w v with
  | case1 v p hp hlt found ih => exact Chases.follow hp (UInt32.ne_of_lt hlt) ih
  | case2 v p hp hge => exact absurd (hw.lt_of_link? hp) hge
  | case3 v hv => exact Chases.stop (Or.inl hv)

theorem Chases.eq_find {w w' : Webs} {v r : Version} (h : Chases w v r w') (hw : w.Downward) :
    w.find v = (r, w') := by
  induction h with
  | stop hstop =>
    rw [find]
    rcases hstop with hnone | hself
    · rw [hnone]
    · exact absurd (hw.lt_of_link? hself) (UInt32.lt_irrefl _)
  | follow hp _ _ ih =>
    have hlt := hw.lt_of_link? hp
    rw [find, hp]
    simp only [hlt, if_true, ih]

/-- Where links lead downwards, following them gives one answer. -/
theorem Downward.chases_iff {w : Webs} (hw : w.Downward) (v r : Version) (w' : Webs) :
    Chases w v r w' ↔ w.find v = (r, w') := by
  constructor
  · exact fun h => h.eq_find hw
  · intro h
    have hchases := hw.chases_find v
    rwa [h] at hchases

theorem Downward.find_find {w : Webs} (hw : w.Downward) (v x : Version) :
    ((w.find v).2.find x).1 = (w.find x).1 := by
  obtain ⟨_, hdown, hsame⟩ := hw.find_spec v
  rw [(hdown.find_spec x).1, hsame, (hw.find_spec x).1]

/-! ### Histories -/

theorem Exact.find {w : Webs} {r : Version → Version → Prop} (h : w.Exact r) (v : Version) :
    (w.find v).2.Exact r := by
  obtain ⟨_, hdown, hsame⟩ := h.downward.find_spec v
  refine ⟨hdown, fun a b => ?_⟩
  rw [hsame, hsame]
  exact h.same_iff a b

/-- An operation keeps webs exact, for one more pair if it is a merge. -/
theorem Exact.perform {w : Webs} {r : Version → Version → Prop} (h : w.Exact r) (op : Op) :
    (w.perform op).Exact fun x y => r x y ∨ Op.union x y = op := by
  cases op with
  | find v =>
    refine (h.find v).congr (fun a b hr => EqvGen.rel a b (Or.inl hr)) ?_
    intro a b hab
    rcases hab with hr | hop
    · exact EqvGen.rel a b hr
    · cases hop
  | union a b =>
    refine (h.union a b).congr ?_ ?_
    · intro x y hxy
      rcases hxy with hr | ⟨rfl, rfl⟩
      · exact EqvGen.rel x y (Or.inl hr)
      · exact EqvGen.rel x y (Or.inr rfl)
    · intro x y hxy
      rcases hxy with hr | hop
      · exact EqvGen.rel x y (Or.inl hr)
      · cases hop
        exact EqvGen.rel a b (Or.inr ⟨rfl, rfl⟩)

theorem Exact.foldl_perform {w : Webs} {r : Version → Version → Prop} (h : w.Exact r)
    (ops : List Op) :
    (ops.foldl Webs.perform w).Exact fun x y => r x y ∨ Op.union x y ∈ ops := by
  induction ops generalizing w r with
  | nil => simpa using h
  | cons op ops ih => simpa only [List.foldl_cons, List.mem_cons, or_assoc] using ih (h.perform op)

theorem exact_after (ops : List Op) : (after ops).Exact fun a b => Op.union a b ∈ ops := by
  have hempty : Exact empty fun _ _ => False := exact_empty fun _ _ => id
  simpa only [after, false_or] using hempty.foldl_perform ops

/-- After any operations, following the links from a version comes to an end, and it gives the lowest
of the versions that the merges so far join with it. A merge tells whether they did not join its two
versions before. Looking one version up changes the representative of none, and two versions have
one representative just when they are joined. -/
theorem find_least_joined (ops : List Op) :
    (∀ v r w, Chases (after ops) v r w ↔ (after ops).find v = (r, w)) ∧
    (∀ v, IsLeast {u | Joined ops v u} ((after ops).find v).1) ∧
    (∀ a b, ((after ops).union a b).1 = true ↔ ¬ Joined ops a b) ∧
    (∀ v u, (((after ops).find v).2.find u).1 = ((after ops).find u).1) ∧
    ∀ a b, ((after ops).find a).1 = ((after ops).find b).1 ↔ Joined ops a b := by
  have hexact := exact_after ops
  have hdown := hexact.downward
  have hroot : ∀ v, ((after ops).find v).1 = (after ops).root v := fun v => (hdown.find_spec v).1
  refine ⟨hdown.chases_iff, fun v => ⟨?_, fun u hu => ?_⟩, fun a b => ?_, hdown.find_find,
    fun a b => ?_⟩
  · rw [hroot]
    exact (hexact.same_iff v _).mp (hdown.root_root v).symm
  · rw [hroot]
    exact root_le_of_root_eq ((hexact.same_iff v u).mpr hu)
  · exact (hdown.union_spec a b).apart_iff.trans (not_congr (hexact.same_iff a b))
  · rw [hroot, hroot]
    exact hexact.same_iff a b

end Webs

end RegisterWeb
