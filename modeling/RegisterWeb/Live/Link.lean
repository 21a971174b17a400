import RegisterWeb.Live.Instance

/-!
Links between instances. A group of slots that an instruction needs side by side links the instances
that it works on: each one to its neighbours, and the first one to an alignment. Groups with a
physical register in them are not linked.
-/

namespace RegisterWeb

/-- What an instance needs of its place: an alignment, and the instances right before and after. -/
structure Link where
  bank : Bank
  index : Nat
  align : Offset
  prev : List Nat
  next : List Nat
  deriving DecidableEq, Repr, Inhabited

/-- Links in ascending order of bank and index. -/
abbrev Links := List Link

namespace Links

/-- Changes the link of an instance; it has no demands before. -/
def update (bank : Bank) (index : Nat) (change : Link → Link) : Links → Links
  | [] => [change ⟨bank, index, 0, [], []⟩]
  | l :: ls =>
    if bank < l.bank ∨ (bank = l.bank ∧ index < l.index) then
      change ⟨bank, index, 0, [], []⟩ :: l :: ls
    else if l.bank = bank ∧ l.index = index then change l :: ls
    else l :: update bank index change ls

/-- Aligns an instance at least as strictly as given. -/
def align (ls : Links) (bank : Bank) (index : Nat) (n : Offset) : Links :=
  ls.update bank index fun l => { l with align := max l.align n }

/-- Puts one instance right before another. -/
def join (ls : Links) (bank : Bank) (prev next : Nat) : Links :=
  (ls.update bank prev fun l => { l with next := Ascending.insert next l.next }).update bank next
    fun l => { l with prev := Ascending.insert prev l.prev }

/-- Puts instances side by side. -/
def chain (ls : Links) (bank : Bank) : List Nat → Links
  | [] => ls
  | [_] => ls
  | i :: j :: rest => (ls.join bank i j).chain bank (j :: rest)

/-- Links a group of instances. -/
def bind (ls : Links) (bank : Bank) (n : Offset) (indices : List Nat) : Links :=
  match indices with
  | [] => ls
  | first :: _ => (ls.align bank first n).chain bank indices

end Links

namespace SlotGroup

/-- The version of a register that the instruction at an offset works on: the one that it makes, or
else the one before it. There is none unless the instruction accesses the register. -/
def versionAt? (a : Analysis) (b : Nat) (r : Register) (p : Offset) : Option Version :=
  let accesses := ((a.use? b r).map Use.accesses).getD []
  let upTo := accesses.takeWhile fun x => decide (x.offset ≤ p)
  if upTo.any fun x => x.offset == p then
    match (upTo.filterMap Access.write).getLast? with
    | some v => some v
    | none => (a.entering b r).head?
  else none

/-- The number of the instance of a slot at an instruction. -/
def indexAt? (a : Analysis) (is : List LiveInstance) (b : Nat) (r : Register) (p : Offset) :
    Option Nat :=
  (versionAt? a b r p).bind fun v => LiveInstance.index? is ⟨r, v⟩

/-- The numbers of the instances of slots, in order; none if a physical register is among them. -/
def indices? (a : Analysis) (is : List LiveInstance) (b : Nat) (p : Offset) (first : Register) :
    List Register → Except Failure (Option (List Nat))
  | [] => .ok (some [])
  | r :: rest =>
    if !r.isSlot then .ok none
    else if r.bank ≠ first.bank then .error (.structural p (.groupMixes first r))
    else
      match indexAt? a is b r p with
      | none => .error (.structural p (.groupUnused r))
      | some i => do
        let found ← indices? a is b p first rest
        return found.map fun is => i :: is

/-- Links the instances of a group. -/
def link (a : Analysis) (is : List LiveInstance) (ls : Links) (d : SlotGroup) :
    Except Failure Links :=
  match d.slots with
  | [] => .ok ls
  | first :: _ =>
    match a.graph.blockAt d.offset with
    | .error f => .error (.fault f)
    | .ok none => .error (.structural d.offset .groupOutside)
    | .ok (some b) => do
      match ← indices? a is b d.offset first d.slots with
      | none => return ls
      | some found => return ls.bind first.bank d.align found

/-- Links the instances of all groups in turn. -/
def linkAll (a : Analysis) (is : List LiveInstance) (ds : List SlotGroup) : Except Failure Links :=
  ds.foldlM (link a is) []

end SlotGroup

end RegisterWeb
