import RegisterWeb.Offset

/-!
Hints: what is known about the instructions that steer control. A hint of a kind that is not known
still has targets that must be sound, but it ends no block.
-/

namespace RegisterWeb

/-- What an instruction does to control. -/
inductive HintKind where
  | label
  | jump
  | condJump
  | indirectJump
  | call
  | indirectCall
  | ret
  | halt
  | boundary
  | other (code : UInt8)
  deriving DecidableEq, Repr

namespace HintKind

/-- The kind with a given number; numbers from 9 on are unknown kinds. -/
def ofCode (code : UInt8) : HintKind :=
  match code.toNat with
  | 0 => label
  | 1 => jump
  | 2 => condJump
  | 3 => indirectJump
  | 4 => call
  | 5 => indirectCall
  | 6 => ret
  | 7 => halt
  | 8 => boundary
  | _ => other code

def text : HintKind → String
  | label => "label"
  | jump => "jump"
  | condJump => "condjump"
  | indirectJump => "indirectjump"
  | call => "call"
  | indirectCall => "indirectcall"
  | ret => "return"
  | halt => "end"
  | boundary => "boundary"
  | other code => "HintKind(" ++ toString code.toNat ++ ")"

def isJump : HintKind → Bool
  | jump | condJump | indirectJump => true
  | _ => false

def isCall : HintKind → Bool
  | call | indirectCall => true
  | _ => false

def isExit : HintKind → Bool
  | ret | halt => true
  | _ => false

/-- Whether an instruction of this kind is the last of its block. -/
def terminates (k : HintKind) : Bool :=
  k.isJump || k.isCall || k.isExit

end HintKind

/-- A fact about the instruction at `offset`. A `size` of zero leaves the size open. -/
structure Hint where
  offset : Offset
  kind : HintKind
  targets : List Offset
  size : Offset
  deriving DecidableEq, Repr

namespace Hint

def text (h : Hint) : String :=
  let head := h.offset.text ++ ": " ++ h.kind.text
  if h.targets.isEmpty then head
  else head ++ " [" ++ " ".intercalate (h.targets.map Offset.text) ++ "]"

/-- Sorts by offset; hints at one offset keep their order. -/
def sort (hs : List Hint) : List Hint :=
  hs.mergeSort (fun a b => decide (a.offset ≤ b.offset))

end Hint

end RegisterWeb
