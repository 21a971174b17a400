import RegisterWeb.Bisect
import RegisterWeb.Version.Basic

/-!
Replacements of versions. A list of them is meant to be ascending in the replaced version, and it is
searched by halving.
-/

namespace RegisterWeb

/-- Every `old` becomes `new`. -/
structure Replace where
  old : Version
  new : Version
  deriving DecidableEq, Repr

namespace Replace

def text (r : Replace) : String :=
  r.old.text ++ " -> " ++ r.new.text

/-- What becomes of a version under a list of replacements. -/
def rename (rs : List Replace) (v : Version) : Version :=
  let i := bisect rs.length fun i =>
    match rs[i]? with
    | some r => decide (v ≤ r.old)
    | none => true
  match rs[i]? with
  | some r => if r.old = v then r.new else v
  | none => v

end Replace

end RegisterWeb
