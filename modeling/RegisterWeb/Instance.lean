import RegisterWeb.Register
import RegisterWeb.Version.Basic

/-!
An instance is one version of one register: the thing that is live, and that gets a place.
-/

namespace RegisterWeb

/-- One version of a register. -/
structure Instance where
  register : Register
  version : Version
  deriving DecidableEq, Repr, Inhabited

namespace Instance

/-- The order of instances: by register, and by version within one register. -/
def precedes (a b : Instance) : Bool :=
  if a.register ≠ b.register then a.register.precedes b.register
  else decide (a.version < b.version)

def text (i : Instance) : String :=
  i.register.text ++ i.version.text

end Instance

end RegisterWeb
