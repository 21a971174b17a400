/-!
Unsigned numerals of at most 64 bits. A numeral is decimal unless it begins with `0x`, `0b` or `0o`,
in either case, or with a plain `0`, which makes it octal. Single underscores may stand between
digits and after the mark of the base.
-/

namespace RegisterWeb

namespace Numeral

/-- The base that a letter after a leading zero marks. -/
def markedBase? (c : Char) : Option Nat :=
  if c = 'x' || c = 'X' then some 16
  else if c = 'b' || c = 'B' then some 2
  else if c = 'o' || c = 'O' then some 8
  else none

/-- The value of a digit or letter. -/
def digit? (c : Char) : Option Nat :=
  if '0' ≤ c ∧ c ≤ '9' then some (c.toNat - '0'.toNat)
  else if 'a' ≤ c ∧ c ≤ 'z' then some (c.toNat - 'a'.toNat + 10)
  else if 'A' ≤ c ∧ c ≤ 'Z' then some (c.toNat - 'A'.toNat + 10)
  else none

/-- Reads digits after the value `n`; `closed` says that an underscore or the end may follow. -/
def digits (base : Nat) (closed : Bool) (n : Nat) : List Char → Option Nat
  | [] => if closed then some n else none
  | c :: cs =>
    if c = '_' then
      if closed then digits base false n cs else none
    else
      match digit? c with
      | none => none
      | some d =>
        if d < base ∧ n * base + d < 2 ^ 64 then digits base true (n * base + d) cs else none

/-- The value of a numeral. -/
def read? : List Char → Option Nat
  | '0' :: mark :: c :: cs =>
    match markedBase? mark with
    | some base => digits base true 0 (c :: cs)
    | none => digits 8 true 0 (mark :: c :: cs)
  | '0' :: cs => digits 8 true 0 cs
  | cs => digits 10 false 0 cs

end Numeral

end RegisterWeb
