import RegisterWeb.Failure
import RegisterWeb.Settings.Numeral

/-!
Settings of an analysis: the size of instructions, the alignment of branch targets, how many
sections may be worked on at a time, and a sizer that looks at the code. Numbers that are chosen must
be positive; the defaults under them are taken as they are.
-/

namespace RegisterWeb

/-- Finds the size of the instruction at an offset; a size that is not positive leaves it open. -/
abbrev Sizer := Code → Offset → Except Fault Offset

namespace Sizer

/-- Every instruction has the same size. -/
def constant (n : Offset) : Sizer :=
  fun _ _ => .ok n

/-- The byte at the offset, as a signed number, is the size; outside of the code it is zero. -/
def signedByte : Sizer := fun code p =>
  if 0 ≤ p then
    match code[p.toNatClampNeg]? with
    | some byte => .ok byte.toInt8.toInt64
    | none => .ok 0
  else .ok 0

/-- Refuses to look. -/
def refusing : Sizer :=
  fun _ p => .error (.sizer p)

end Sizer

/-- How sections are analysed. -/
structure Settings where
  instrSize : Offset
  instrAlign : Offset
  maxWorkers : Offset
  sizer : Option Sizer

namespace Settings

/-- Instructions of one 32-bit word, and a number of workers that fits the machine. -/
def standard (workers : Offset) : Settings :=
  ⟨4, 4, workers, none⟩

/-- The size of the instruction at an offset, where no hint gives one. -/
def sizeAt (s : Settings) (code : Code) (p : Offset) : Except Fault Offset :=
  match s.sizer with
  | none => .ok s.instrSize
  | some sizer => do
    let n ← sizer code p
    return if 0 < n then n else s.instrSize

/-- Whether a branch target may stand at an offset. -/
def isAligned (s : Settings) (p : Offset) : Bool :=
  decide (s.instrAlign ≤ 1) || p % s.instrAlign == 0

def get (s : Settings) : Parameter → Offset
  | .instrSize => s.instrSize
  | .instrAlign => s.instrAlign
  | .maxWorkers => s.maxWorkers

def put (s : Settings) (p : Parameter) (n : Offset) : Settings :=
  match p with
  | .instrSize => { s with instrSize := n }
  | .instrAlign => { s with instrAlign := n }
  | .maxWorkers => { s with maxWorkers := n }

end Settings

/-- A choice that overrides a default. -/
inductive Choice where
  | number (parameter : Parameter) (value : Offset)
  | sizer (sizer : Option Sizer)

namespace Choice

/-- Numbers must be positive. -/
def check : Choice → Except Fault Unit
  | number p n => if 0 < n then .ok () else .error (.notPositive p n)
  | sizer _ => .ok ()

def apply (s : Settings) : Choice → Settings
  | number p n => s.put p n
  | sizer f => { s with sizer := f }

end Choice

/-- A step in setting up an analysis: a choice, or a new default for what is not chosen. -/
inductive Directive where
  | choose (choice : Choice)
  | setDefault (parameter : Parameter) (value : Offset)

/-- The defaults so far and the choices, in order, that will override them. -/
structure Configuration where
  defaults : Settings
  choices : List Choice

namespace Configuration

/-- Takes one step; a new default answers with the old one. -/
def step (c : Configuration) : Directive → Except Fault (Option Offset × Configuration)
  | .choose choice => do
    choice.check
    return (none, { c with choices := c.choices ++ [choice] })
  | .setDefault p n => .ok (some (c.defaults.get p), { c with defaults := c.defaults.put p n })

def settings (c : Configuration) : Settings :=
  c.choices.foldl Choice.apply c.defaults

end Configuration

namespace Settings

/-- The settings that a list of steps leads to; the first step that is refused ends it. -/
def configure (defaults : Settings) (steps : List Directive) : Except Fault Settings := do
  let c ← steps.foldlM (fun c d => return (← c.step d).2) (⟨defaults, []⟩ : Configuration)
  return c.settings

/-- A default taken from the environment: the value given for `key`, unless it is empty. -/
def ofEnvironment (key value : String) (default least : Offset) : Except Fault Offset :=
  if value.isEmpty then .ok default
  else match Numeral.read? value.toList with
    | none => .error (.malformedNumber key)
    | some n => if least < Int64.ofNat n then .ok (Int64.ofNat n) else .error (.numberTooSmall key)

end Settings

end RegisterWeb
