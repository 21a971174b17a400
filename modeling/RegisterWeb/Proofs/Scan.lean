import Mathlib
import RegisterWeb.Proofs.Touches

/-!
Summaries in one pass. The instructions of a block are taken one after the other, and each notes the
registers that it reads or writes; what is noted goes into the use of the register, which is there
from the first access on. A pass over the instructions that keeps the uses of all registers side by
side does to each of them what a pass for this register alone would do.
-/

namespace RegisterWeb

/-! ### One register -/

namespace Use

/-- The use of a register before its first access goes in. -/
def opened (reads : Bool) : Use :=
  ⟨⟨none, none, none, 0, reads⟩, []⟩

/-- Adds an access; each write makes a new version. -/
def add (u : Use) (t : Touch) : Use :=
  if t.writes then
    let v : Version := UInt32.ofNat (u.info.changes + 1)
    { info := { u.info with
        first := u.info.first.or (some v), last := some v, changes := u.info.changes + 1 }
      accesses := u.accesses ++ [⟨t.offset, t.reads, some v⟩] }
  else { u with accesses := u.accesses ++ [⟨t.offset, t.reads, none⟩] }

theorem add_ofAccesses {xs : List Access} (hxs : xs ≠ []) (t : Touch) :
    (ofAccesses xs).add t
      = ofAccesses (xs ++ Touch.number (xs.filterMap Access.write).length [t]) := by
  have hhead : ∀ y : Access, (xs ++ [y]).head? = xs.head? := fun y =>
    List.head?_append_of_ne_nil xs hxs
  have hmade : ∀ y : Access, (xs ++ [y]).filterMap Access.write
      = xs.filterMap Access.write ++ y.write.toList := by
    intro y
    cases hy : y.write <;> simp [List.filterMap_append, hy]
  cases hw : t.writes with
  | true =>
    simp only [add, ofAccesses, Touch.number, hw, if_true, hmade, hhead, Option.toList_some,
      List.head?_append, List.head?_cons, List.getLast?_concat, List.length_append,
      List.length_singleton]
  | false =>
    simp only [add, ofAccesses, Touch.number, hw, Bool.false_eq_true, if_false, hmade, hhead,
      Option.toList_none, List.append_nil]

theorem add_opened (t : Touch) : (opened t.reads).add t = ofAccesses (Touch.number 0 [t]) := by
  cases hw : t.writes with
  | true => simp [add, opened, ofAccesses, Touch.number, hw]
  | false => simp [add, opened, ofAccesses, Touch.number, hw]

theorem isSome_ofTouches? {ts : List Touch} : (ofTouches? ts).isSome = true ↔ ts ≠ [] := by
  rw [ofTouches?]
  split <;> simpa

/-- A touch that follows others goes into the use that they make. -/
theorem ofTouches?_append (ts : List Touch) (t : Touch) :
    ofTouches? (ts ++ [t]) = some (((ofTouches? ts).getD (opened t.reads)).add t) := by
  rw [ofTouches?, if_neg (List.append_ne_nil_of_right_ne_nil ts (List.cons_ne_nil t [])),
    ofTouches?, Touch.number_append, Nat.zero_add]
  split
  · rename_i hnil
    rw [hnil, Option.getD_none, add_opened]
    rfl
  · rename_i hne
    have hnumbered : Touch.number 0 ts ≠ [] := by
      obtain ⟨t', ts', rfl⟩ := List.exists_cons_of_ne_nil hne
      cases hw : t'.writes <;> simp [Touch.number, hw]
    rw [Option.getD_some, add_ofAccesses hnumbered, Touch.length_write_number]

end Use

/-! ### One instruction -/

theorem eraseDups_concat {α : Type} [DecidableEq α] (l : List α) (a : α) :
    (l ++ [a]).eraseDups = l.eraseDups ++ if a ∈ l then [] else [a] := by
  rw [List.eraseDups_append, List.removeAll, List.filter_cons, List.filter_nil]
  by_cases ha : a ∈ l <;> simp [ha, List.eraseDups_cons]

/-- What the usages of an instruction say so far about a register. -/
structure Note where
  register : Register
  reads : Bool
  writes : Bool

namespace Note

/-- Adds a usage to the note of its register, which is made if there is none. -/
def add (u : Usage) : List Note → List Note
  | [] => [⟨u.register, u.reads, u.isPureWrite⟩]
  | n :: ns =>
    if n.register = u.register then
      ⟨n.register, n.reads || u.reads, n.writes || u.isPureWrite⟩ :: ns
    else n :: add u ns

def ofInstruction (instr : List Usage) : List Note :=
  instr.foldl (fun ns u => add u ns) []

/-- What some usages say together about a register. -/
def sum (instr : List Usage) (r : Register) : Note :=
  ⟨r, instr.any fun u => u.register == r && u.reads,
    instr.any fun u => u.register == r && u.isPureWrite⟩

variable {instr : List Usage} {u : Usage} {r : Register}

theorem sum_append_of_ne (h : u.register ≠ r) : sum (instr ++ [u]) r = sum instr r := by
  simp [sum, h]

theorem add_sum (instr : List Usage) (u : Usage) {l : List Register} (hl : l.Nodup)
    (hseen : (∃ v ∈ instr, v.register = u.register) → u.register ∈ l) :
    add u (l.map (sum instr)) =
      (l ++ if u.register ∈ l then [] else [u.register]).map (sum (instr ++ [u])) := by
  induction l with
  | nil =>
    have hnew : ∀ v ∈ instr, ¬ v.register = u.register := fun v hv heq =>
      absurd (hseen ⟨v, hv, heq⟩) List.not_mem_nil
    have hreads : (instr.any fun v => v.register == u.register && v.reads) = false := by
      simpa using fun v hv heq => absurd heq (hnew v hv)
    have hwrites : (instr.any fun v => v.register == u.register && v.isPureWrite) = false := by
      simpa using fun v hv heq => absurd heq (hnew v hv)
    simp [add, sum, hreads, hwrites]
  | cons a l ih =>
    obtain ⟨ha, hl⟩ := List.nodup_cons.mp hl
    rw [List.map_cons, add]
    by_cases hau : a = u.register
    · subst hau
      have hrest : l.map (sum instr) = l.map (sum (instr ++ [u])) := by
        refine List.map_congr_left fun b hb => (sum_append_of_ne ?_).symm
        rintro rfl
        exact ha hb
      rw [hrest]
      simp [sum]
    · have hother : u.register ∈ a :: l ↔ u.register ∈ l :=
        List.mem_cons.trans (or_iff_right fun heq => hau heq.symm)
      have hrest := ih hl fun hv => hother.mp (hseen hv)
      have hkeep : (sum instr a).register ≠ u.register := hau
      rw [if_neg hkeep, hrest, List.cons_append, List.map_cons,
        sum_append_of_ne fun heq => hau heq.symm]
      simp only [hother]

/-- The notes of an instruction are those of its registers, in order of their first usage. -/
theorem ofInstruction_eq (instr : List Usage) :
    ofInstruction instr = (instr.map Usage.register).eraseDups.map (sum instr) := by
  induction instr using List.reverseRecOn with
  | nil => rfl
  | append_singleton instr u ih =>
    have hseen : (∃ v ∈ instr, v.register = u.register) →
        u.register ∈ (instr.map Usage.register).eraseDups := fun hv =>
      List.mem_eraseDups.mpr (List.mem_map.mpr hv)
    have hgrow : ((instr ++ [u]).map Usage.register).eraseDups
        = (instr.map Usage.register).eraseDups ++
          if u.register ∈ (instr.map Usage.register).eraseDups then [] else [u.register] := by
      rw [List.map_append, List.map_singleton, eraseDups_concat]
      simp only [List.mem_eraseDups]
    rw [ofInstruction, List.foldl_append, List.foldl_cons, List.foldl_nil, ← ofInstruction, ih,
      add_sum instr u (nodup_eraseDups _) hseen, hgrow]

theorem of?_eq {p : Offset} (hp : ∀ u ∈ instr, u.offset = p) :
    Touch.of? r instr = if (sum instr r).reads || (sum instr r).writes then
      some ⟨p, (sum instr r).reads, (sum instr r).writes⟩ else none :=
  Touch.of?_eq hp

end Note

/-! ### All instructions -/

/-- The usages of each instruction stand at one offset. -/
def Summary.Uniform (instrs : List (List Usage)) : Prop :=
  ∀ instr ∈ instrs, ∃ p, ∀ u ∈ instr, u.offset = p

/-- What a pass has found: the registers in the order of their first accesses, and their uses. -/
structure Scan where
  keys : List Register
  uses : Register → Option Use

namespace Scan

def empty : Scan :=
  ⟨[], fun _ => none⟩

/-- Adds an access to a register. -/
def access (s : Scan) (r : Register) (t : Touch) : Scan :=
  match s.uses r with
  | some u => { s with uses := Function.update s.uses r (some (u.add t)) }
  | none => ⟨s.keys ++ [r], Function.update s.uses r (some ((Use.opened t.reads).add t))⟩

/-- Adds the accesses of an instruction. -/
def step (s : Scan) (instr : List Usage) : Scan :=
  let p := (instr.head?.map Usage.offset).getD 0
  (Note.ofInstruction instr).foldl
    (fun s n => if n.reads || n.writes then s.access n.register ⟨p, n.reads, n.writes⟩ else s) s

/-- The summary of a block from a pass over its instructions. -/
def summary (instrs : List (List Usage)) : Summary :=
  let s := instrs.foldl step empty
  ⟨(Register.sort s.keys).filterMap fun r => (s.uses r).map fun u => (r, u)⟩

section Access

variable (s : Scan) (q r : Register) (t : Touch)

theorem uses_access : (s.access r t).uses q
    = if q = r then some (((s.uses r).getD (Use.opened t.reads)).add t) else s.uses q := by
  rw [access]
  cases hr : s.uses r <;> simp [Function.update_apply]

theorem keys_access :
    (s.access r t).keys = s.keys ++ if (s.uses r).isSome then [] else [r] := by
  rw [access]
  cases hr : s.uses r <;> simp

end Access

/-- The accesses of all registers, one after the other. -/
def accesses (hits : List (Register × Touch)) : Scan :=
  hits.foldl (fun s hit => s.access hit.1 hit.2) empty

/-- Each register has the use that its own accesses make, and has a place in the order from the
first of them on. -/
theorem accesses_eq (hits : List (Register × Touch)) :
    (∀ r, (accesses hits).uses r
      = Use.ofTouches? ((hits.filter fun hit => hit.1 == r).map Prod.snd)) ∧
    (accesses hits).keys = (hits.map Prod.fst).eraseDups := by
  induction hits using List.reverseRecOn with
  | nil => exact ⟨fun _ => rfl, rfl⟩
  | append_singleton hits hit ih =>
    obtain ⟨q, t⟩ := hit
    obtain ⟨huses, hkeys⟩ := ih
    have hnext : accesses (hits ++ [(q, t)]) = (accesses hits).access q t := by
      rw [accesses, List.foldl_append]
      rfl
    have hseen : ((accesses hits).uses q).isSome = true ↔ q ∈ hits.map Prod.fst := by
      rw [huses, Use.isSome_ofTouches?, Ne, List.map_eq_nil_iff, List.filter_eq_nil_iff]
      push Not
      simp only [beq_iff_eq, List.mem_map]
    rw [hnext]
    refine ⟨fun r => ?_, ?_⟩
    · rw [uses_access, List.filter_append, List.map_append, List.filter_cons, List.filter_nil]
      by_cases hrq : r = q
      · subst hrq
        rw [if_pos rfl, if_pos (beq_self_eq_true r), huses]
        exact (Use.ofTouches?_append _ t).symm
      · rw [if_neg hrq, if_neg (by simpa using fun h => hrq h.symm), huses, List.map_nil,
          List.append_nil]
    · rw [keys_access, hkeys, List.map_append, List.map_singleton, eraseDups_concat]
      simp only [hseen]

/-- What an instruction does to each register, in order of the first usages. -/
def hits (instr : List Usage) : List (Register × Touch) :=
  (instr.map Usage.register).eraseDups.filterMap fun r =>
    (Touch.of? r instr).map fun t => (r, t)

variable {instr : List Usage} {instrs : List (List Usage)}

theorem step_eq {p : Offset} (hp : ∀ u ∈ instr, u.offset = p) (s : Scan) :
    s.step instr = (hits instr).foldl (fun s hit => s.access hit.1 hit.2) s := by
  cases instr with
  | nil => rfl
  | cons u instr =>
    have hoffset : u.offset = p := hp u List.mem_cons_self
    rw [step, Note.ofInstruction_eq, List.foldl_map, hits, List.foldl_filterMap]
    congr 1
    funext s r
    rw [Note.of?_eq hp, List.head?_cons, Option.map_some, Option.getD_some, hoffset]
    split <;> rfl

theorem foldl_step (h : Summary.Uniform instrs) :
    instrs.foldl step empty = accesses (instrs.flatMap hits) := by
  rw [accesses, List.foldl_flatMap]
  refine List.foldl_ext _ _ _ fun s instr hinstr => ?_
  obtain ⟨p, hp⟩ := h instr hinstr
  exact step_eq hp s

theorem map_fst_hits (instr : List Usage) : (hits instr).map Prod.fst = Summary.touched instr := by
  rw [hits, List.map_filterMap, Summary.touched, ← List.filterMap_eq_filter]
  refine List.filterMap_congr fun r _ => ?_
  cases hr : Touch.of? r instr <;> simp [Option.guard, hr]

theorem hits_of_register (instr : List Usage) (r : Register) :
    ((hits instr).filter fun hit => hit.1 == r).map Prod.snd = (Touch.of? r instr).toList := by
  have hown : ((hits instr).filter fun hit => hit.1 == r).map Prod.snd
      = ((instr.map Usage.register).eraseDups.filter (· == r)).filterMap (Touch.of? · instr) := by
    rw [hits, List.filter_filterMap, List.map_filterMap, List.filterMap_filter]
    refine List.filterMap_congr fun q _ => ?_
    cases Touch.of? q instr <;> by_cases hq : q = r <;> simp [hq]
  rw [hown, List.filter_beq, (nodup_eraseDups _).count]
  split
  next =>
    rw [List.replicate_one, List.filterMap_cons, List.filterMap_nil]
    cases Touch.of? r instr <;> rfl
  next hnot =>
    have hnone : Touch.of? r instr = none := by
      rw [← Option.not_isSome_iff_eq_none, ← Summary.mem_touched]
      exact fun hr => hnot (List.mem_of_mem_filter hr)
    rw [hnone]
    rfl

/-- The pass makes the summary of a block. -/
theorem summary_eq {us : List Usage} (h : Summary.Uniform (Summary.instructions us)) :
    summary (Summary.instructions us) = Summary.ofUsages us := by
  obtain ⟨huses, hkeys⟩ := accesses_eq ((Summary.instructions us).flatMap hits)
  have htouches : ∀ r, (((Summary.instructions us).flatMap hits).filter fun hit =>
      hit.1 == r).map Prod.snd = Summary.touches us r := by
    intro r
    rw [List.filter_flatMap, List.map_flatMap, Summary.touches, List.filterMap_eq_flatMap_toList]
    exact List.flatMap_congr fun instr _ => hits_of_register instr r
  rw [List.map_flatMap] at hkeys
  simp only [map_fst_hits] at hkeys
  simp only [htouches] at huses
  rw [summary, foldl_step h, Summary.ofUsages]
  simp only [hkeys, huses]
  congr 1
  rw [← List.filterMap_eq_map]
  refine List.filterMap_congr fun r hr => ?_
  have hne : Summary.touches us r ≠ [] :=
    Summary.mem_flatMap_touched.mp (Register.mem_sort.mp hr)
  rw [Use.ofTouches?, if_neg hne]
  rfl

end Scan

end RegisterWeb
