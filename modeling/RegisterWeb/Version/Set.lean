import RegisterWeb.Ascending
import RegisterWeb.Version.Basic

/-!
Sets of versions, and the effect of a call on them: a set that holds the inherited version stands
for its other members together with the versions that the caller had.
-/

namespace RegisterWeb

/-- A set of versions, as an ascending list. -/
abbrev VersionSet := List Version

namespace VersionSet

def has (s : VersionSet) (v : Version) : Bool :=
  s.contains v

def union (s t : VersionSet) : VersionSet :=
  Ascending.union s t

def add (s : VersionSet) (v : Version) : VersionSet :=
  union s [v]

def without (s : VersionSet) (v : Version) : VersionSet :=
  s.filter (fun w => w != v)

/-- What a call leaves behind: the caller's versions stand in for the inherited one. -/
def resolve (effect given : VersionSet) : VersionSet :=
  if has effect Version.inherited then union (without effect Version.inherited) given else effect

end VersionSet

end RegisterWeb
