import RegisterWeb.Version.Set

/-!
Webs: versions that have been merged because they meet at a read. The versions of a web are linked
downwards to its lowest member, which represents it. Looking a version up shortens the chain that
was followed.
-/

namespace RegisterWeb

/-- The merged versions, each with a lower version of the same web. -/
structure Webs where
  links : List (Version × Version) := []
  deriving DecidableEq, Repr, Inhabited

namespace Webs

def empty : Webs := {}

/-- The lower version that `v` is linked to, unless it represents its web. -/
def link? (w : Webs) (v : Version) : Option Version :=
  w.links.lookup v

/-- Moves the link of `v` to `r`. -/
def relink (w : Webs) (v r : Version) : Webs :=
  ⟨w.links.map fun l => if l.1 == v then (v, r) else l⟩

/-- Links `v`, which represents its web, to the lower version `r`. -/
def link (w : Webs) (v r : Version) : Webs :=
  ⟨(v, r) :: w.links⟩

/-- The version that represents the web of `v`. -/
def root (w : Webs) (v : Version) : Version :=
  match w.link? v with
  | some p => if p < v then w.root p else v
  | none => v
termination_by v.toNat
decreasing_by exact UInt32.lt_iff_toNat_lt.mp (by assumption)

/-- The version that represents the web of `v`; every version on the way is linked to it. -/
def find (w : Webs) (v : Version) : Version × Webs :=
  match w.link? v with
  | some p =>
    if p < v then
      let found := w.find p
      (found.1, found.2.relink v found.1)
    else (v, w)
  | none => (v, w)
termination_by v.toNat
decreasing_by exact UInt32.lt_iff_toNat_lt.mp (by assumption)

/-- Merges two webs under the lower of their representatives; tells whether they were apart. -/
def union (w : Webs) (a b : Version) : Bool × Webs :=
  let left := w.find a
  let right := left.2.find b
  if left.1 = right.1 then (false, right.2)
  else if left.1 < right.1 then (true, right.2.link right.1 left.1)
  else (true, right.2.link left.1 right.1)

/-- The representatives of a set of versions. -/
def canonical (w : Webs) (s : VersionSet) : VersionSet :=
  Ascending.ofList (s.map w.root)

/-- Merges all versions of a list with `v`; tells whether any two webs were apart. -/
def unionAll (w : Webs) (v : Version) : List Version → Bool × Webs
  | [] => (false, w)
  | u :: us =>
    let first := w.union v u
    let rest := first.2.unionAll v us
    (first.1 || rest.1, rest.2)

/-! ### The number of links -/

@[simp] theorem length_relink (w : Webs) (v r : Version) :
    (w.relink v r).links.length = w.links.length := by
  simp [relink]

@[simp] theorem length_find (w : Webs) (v : Version) :
    (w.find v).2.links.length = w.links.length := by
  fun_induction find w v with
  | case1 v p hp hlt found ih => simpa [found] using ih
  | case2 v p hp hge => rfl
  | case3 v hp => rfl

theorem length_le_union (w : Webs) (a b : Version) :
    w.links.length ≤ (w.union a b).2.links.length := by
  simp only [union]
  split
  · simp
  · split <;> simp [link]

theorem length_le_unionAll (w : Webs) (v : Version) (us : List Version) :
    w.links.length ≤ (w.unionAll v us).2.links.length := by
  induction us generalizing w with
  | nil => simp [unionAll]
  | cons u us ih => exact Nat.le_trans (length_le_union w v u) (ih _)

end Webs

end RegisterWeb
