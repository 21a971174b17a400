import RegisterWeb.Hint
import RegisterWeb.Register

/-!
Why an analysis does not give a result. A structural error says that the facts about a section do
not fit together, a consistency error that a value is read which nothing defines, and a fault that
the analysis was used in a way that it does not allow.
-/

namespace RegisterWeb

/-- The numbers among the settings. -/
inductive Parameter where
  | instrSize
  | instrAlign
  | maxWorkers
  deriving DecidableEq, Repr

namespace Parameter

def text : Parameter → String
  | instrSize => "instruction size"
  | instrAlign => "instruction alignment"
  | maxWorkers => "worker count"

end Parameter

/-- A use that the analysis does not allow. -/
inductive Fault where
  | missingVariable
  | notPositive (parameter : Parameter) (value : Offset)
  | malformedNumber (key : String)
  | numberTooSmall (key : String)
  | noBlock (offset : Offset)
  | sizer (offset : Offset)
  | missingSection
  | outOfRange (index : Int) (count : Nat)
  deriving DecidableEq, Repr

namespace Fault

def message : Fault → String
  | missingVariable => "regflow: nil register variable"
  | notPositive p n => "regflow: invalid " ++ p.text ++ ": " ++ n.text
  | malformedNumber key => "regflow: invalid value for " ++ key
  | numberTooSmall key => "regflow: value too small for " ++ key
  | noBlock p => "regflow: no block contains offset " ++ p.text
  | sizer p => "sizer at " ++ p.text
  | missingSection => "runtime error: invalid memory address or nil pointer dereference"
  | outOfRange i n =>
    "runtime error: index out of range [" ++ toString i ++ "]"
      ++ (if i < 0 then "" else " with length " ++ toString n)

end Fault

/-- What is wrong with a branch target. -/
inductive TargetFlaw where
  | outside
  | misaligned
  | insideInstruction
  deriving DecidableEq, Repr

namespace TargetFlaw

def text : TargetFlaw → String
  | outside => "outside of section"
  | misaligned => "misaligned"
  | insideInstruction => "not an instruction boundary"

end TargetFlaw

/-- What does not fit together. -/
inductive Misfit where
  | hintOutside (kind : HintKind) (length : Offset)
  | hintInEmptySection
  | sizeConflict (recorded given : Offset)
  | badSize (size : Offset)
  | crossesEnd
  | badTarget (target : Offset) (flaw : TargetFlaw)
  | usageOutside (register : Register)
  | groupOutside
  | groupMixes (first other : Register)
  | groupUnused (slot : Register)
  deriving DecidableEq, Repr

namespace Misfit

def reason : Misfit → String
  | hintOutside kind length => kind.text ++ " hint outside of section [0, " ++ length.text ++ ")"
  | hintInEmptySection => "hint in an empty section"
  | sizeConflict recorded given =>
    "conflicting instruction sizes " ++ recorded.text ++ " and " ++ given.text
  | badSize size => "invalid instruction size " ++ size.text
  | crossesEnd => "instruction crosses the end of section"
  | badTarget target flaw => "invalid branch target " ++ target.text ++ ": " ++ flaw.text
  | usageOutside r => "usage of " ++ r.text ++ " outside of any block"
  | groupOutside => "linear dependency outside of any block"
  | groupMixes first other => "linear dependency mixes " ++ first.text ++ " and " ++ other.text
  | groupUnused slot =>
    "linear dependency on " ++ slot.text ++ ", which is not used by the instruction"

end Misfit

/-- Why there is no result. -/
inductive Failure where
  | structural (offset : Offset) (misfit : Misfit)
  | unreached (block : Nat) (register : Register)
  | fault (fault : Fault)
  deriving DecidableEq, Repr

namespace Failure

/-- What the error says apart from its place. -/
def reason : Failure → String
  | structural _ misfit => misfit.reason
  | unreached _ _ => "value read before any write, but no definition reaches this block"
  | fault f => f.message

def message : Failure → String
  | structural p misfit => "Structural error at offset " ++ p.text ++ ": " ++ misfit.reason
  | unreached b r =>
    "Consistency error at block " ++ toString b ++ " (" ++ r.text ++ "): "
      ++ reason (unreached b r)
  | fault f => f.message

end Failure

end RegisterWeb
