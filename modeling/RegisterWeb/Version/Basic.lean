/-!
Versions of a register. Version 0 is the value that a register holds when control first enters the
code; each write makes a new version.
-/

namespace RegisterWeb

/-- The number of a version: an unsigned 32-bit word. -/
abbrev Version := UInt32

namespace Version

/-- The value held on entry to the code. -/
def entry : Version := 0

/-- Stands for whatever value the caller had. It occurs in the effects of routines only. -/
def inherited : Version := 4294967294

/-- The word that is written where no version is known. -/
def unknown : Version := 4294967295

def text (v : Version) : String :=
  if v = unknown then "?" else if v = inherited then "<entry>" else "'" ++ toString v.toNat

/-- The text of a version that may not be known. -/
def text? (v : Option Version) : String :=
  (v.getD unknown).text

end Version

end RegisterWeb
