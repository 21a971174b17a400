import RegisterWeb.Offset

/-!
Registers: the physical registers of a bank and the slots of register variables. Registers are
ordered by bank, physical ones before slots, slots by the name of their variable, and then by index.
Variables that differ but share a name are not told apart by the order.
-/

namespace RegisterWeb

/-- A register file. Banks 0 and 1 are the scalar and the vector registers. -/
abbrev Bank := UInt8

namespace Bank

/-- The bank of scalar registers. -/
def scalar : Bank := 0

/-- The bank of vector registers. -/
def vector : Bank := 1

def text (b : Bank) : String :=
  if b = scalar then "s" else if b = vector then "v" else "t" ++ toString b.toNat

end Bank

/-- A register variable. Variables are told apart by `tag`; a name may be given twice. -/
structure Variable where
  tag : Nat
  name : String
  bank : Bank
  deriving DecidableEq, Repr, Inhabited

/-- A physical register, or one slot of the variable that owns it. -/
structure Register where
  owner : Option Variable
  bank : Bank
  index : Offset
  deriving DecidableEq, Repr, Inhabited

namespace Register

def physical (bank : Bank) (index : Offset) : Register :=
  ⟨none, bank, index⟩

/-- A slot lies in the bank of its variable. -/
def slot (v : Variable) (index : Offset) : Register :=
  ⟨some v, v.bank, index⟩

def isSlot (r : Register) : Bool :=
  r.owner.isSome

/-- The register `n` places further on. -/
def next (r : Register) (n : Offset) : Register :=
  { r with index := r.index + n }

/-- The order of registers: bank, physical before slots, name, index. -/
def precedes (a b : Register) : Bool :=
  if a.bank ≠ b.bank then decide (a.bank < b.bank)
  else match a.owner, b.owner with
    | none, some _ => true
    | some _, none => false
    | none, none => decide (a.index < b.index)
    | some v, some w =>
      if v.name ≠ w.name then decide (v.name < w.name) else decide (a.index < b.index)

def text (r : Register) : String :=
  match r.owner with
  | none => r.bank.text ++ r.index.text
  | some v => v.name ++ "[" ++ r.index.text ++ "]"

/-- Sorts by `precedes`; registers that it does not tell apart keep their order. -/
def sort (rs : List Register) : List Register :=
  rs.mergeSort (fun a b => !b.precedes a)

end Register

end RegisterWeb
