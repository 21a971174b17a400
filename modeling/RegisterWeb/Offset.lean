/-!
Positions and distances in a code section. Both are signed 64-bit words, so sums wrap around at the
ends of the range, and a length may be negative.
-/

namespace RegisterWeb

/-- A position in a section, a distance between two of them, or a count of bytes. -/
abbrev Offset := Int64

/-- The bytes of a section. -/
abbrev Code := Array UInt8

namespace Offset

/-- The decimal numeral of a word, with a sign if it is negative. -/
def text (p : Offset) : String :=
  toString p.toInt

end Offset

end RegisterWeb
