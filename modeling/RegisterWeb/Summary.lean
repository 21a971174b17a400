import RegisterWeb.Usage
import RegisterWeb.Version.Basic

/-!
Block summaries: what the instructions of one block do to each register. The usages at one offset
are one instruction; it reads a register before it writes it, and only a write that does not look at
the old value makes a new version. Within a block the versions are numbered from 1.
-/

namespace RegisterWeb

/-- An instruction that touches a register; `write` is the version that it makes. -/
structure Access where
  offset : Offset
  reads : Bool
  write : Option Version
  deriving DecidableEq, Repr, Inhabited

/-- The versions of a register in a block: on entry, at the first write and at the end, how many are
made, and whether the one on entry is read. -/
structure Info where
  before : Option Version
  first : Option Version
  last : Option Version
  changes : Nat
  readsFirst : Bool
  deriving DecidableEq, Repr, Inhabited

namespace Info

def isWritten (i : Info) : Bool :=
  i.changes != 0

def text (i : Info) : String :=
  "\x7bbefore=" ++ Version.text? i.before ++ " first=" ++ Version.text? i.first
    ++ " last=" ++ Version.text? i.last ++ " changes=" ++ toString i.changes
    ++ " rbw=" ++ (if i.readsFirst then "true" else "false") ++ "\x7d"

end Info

/-- What a block does to a register. -/
structure Use where
  info : Info
  accesses : List Access
  deriving DecidableEq, Repr, Inhabited

/-- Whether one instruction reads a register and whether it makes a new version of it. -/
structure Touch where
  offset : Offset
  reads : Bool
  writes : Bool
  deriving DecidableEq, Repr

namespace Touch

/-- What an instruction, given by its usages, does to a register, if it does anything. -/
def of? (r : Register) (instr : List Usage) : Option Touch :=
  let mine := instr.filter fun u => u.register == r
  let reads := mine.any Usage.reads
  let writes := mine.any Usage.isPureWrite
  match mine with
  | [] => none
  | u :: _ => if reads || writes then some ⟨u.offset, reads, writes⟩ else none

/-- Numbers the versions that a block makes, after the first `made` of them. -/
def number (made : Nat) : List Touch → List Access
  | [] => []
  | t :: ts =>
    if t.writes then ⟨t.offset, t.reads, some (UInt32.ofNat (made + 1))⟩ :: number (made + 1) ts
    else ⟨t.offset, t.reads, none⟩ :: number made ts

end Touch

namespace Use

/-- The use that consists of the given accesses. -/
def ofAccesses (accesses : List Access) : Use :=
  let made := accesses.filterMap Access.write
  { info :=
      { before := none
        first := made.head?
        last := made.getLast?
        changes := made.length
        readsFirst := (accesses.head?.map Access.reads).getD false }
    accesses }

/-- Applies a function to every version that is made. -/
def mapWrites (f : Version → Version) (u : Use) : Use :=
  { info := { u.info with first := u.info.first.map f, last := u.info.last.map f }
    accesses := u.accesses.map fun a => { a with write := a.write.map f } }

end Use

/-- What a block does to each register that it touches, in the order of the registers. -/
structure Summary where
  uses : List (Register × Use)
  deriving DecidableEq, Repr, Inhabited

namespace Summary

/-- Cuts a list of usages into instructions. -/
def instructions (usages : List Usage) : List (List Usage) :=
  usages.splitBy fun a b => a.offset == b.offset

/-- The registers that an instruction touches, in order of their first usage. -/
def touched (instr : List Usage) : List Register :=
  (instr.map Usage.register).eraseDups.filter fun r => (Touch.of? r instr).isSome

/-- The summary of a block with the given usages, in the order in which they stand. -/
def ofUsages (usages : List Usage) : Summary :=
  let instrs := instructions usages
  let registers := Register.sort (instrs.flatMap touched).eraseDups
  ⟨registers.map fun r => (r, Use.ofAccesses (Touch.number 0 (instrs.filterMap (Touch.of? r))))⟩

def registers (s : Summary) : List Register :=
  s.uses.map Prod.fst

def use? (s : Summary) (r : Register) : Option Use :=
  s.uses.lookup r

/-- Whether the block makes a new version of a register. -/
def isWritten (s : Summary) (r : Register) : Bool :=
  (s.use? r).any fun u => u.info.isWritten

/-- Whether the block reads the value that a register has on entry. -/
def readsFirst (s : Summary) (r : Register) : Bool :=
  (s.use? r).any fun u => u.info.readsFirst

/-- The text of the summary of the block with a given number. -/
def text (s : Summary) (block : Int) : String :=
  let line := fun (r, u) => "    " ++ Register.text r ++ ": " ++ Info.text (Use.info u)
  "\n".intercalate (("bb_" ++ toString block ++ ":") :: s.uses.map line)

end Summary

end RegisterWeb
