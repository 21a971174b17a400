import RegisterWeb.Track.Basic

/-!
Settling a track. The blocks that are entered from later ones are looked at again, and whenever that
brings news for the blocks after them, those are looked at again, until nothing is left to do. Then
every block that reads a version on entry must have one, and each version is replaced by the lowest
of its web.
-/

namespace RegisterWeb

namespace Flow

/-- Appends the blocks that are not waiting yet. -/
def enqueue (queue blocks : List Nat) : List Nat :=
  blocks.foldl (fun q b => if q.contains b then q else q ++ [b]) queue

/-- Whether a look at a block brought news for the blocks after it: a merge, or more versions in a
block that hands them on. -/
def hasNews (before after : Flow) (merged : Bool) (b : Nat) : Bool :=
  decide (after.room < before.room) && (merged || (before.made.get b).isNone)

/-- Looks at the waiting blocks in turn; counts how often it looked. -/
def drain (g : Graph) (f : Flow) (queue : List Nat) (tasks : Nat) : Flow × Nat :=
  match queue with
  | [] => (f, tasks)
  | b :: rest =>
    let look := f.process g b
    if hasNews f look.2 look.1 b then
      drain g look.2 (enqueue rest ((g.block b).next.map Edge.block)) (tasks + 1)
    else drain g look.2 rest (tasks + 1)
termination_by (f.room, queue.length)
decreasing_by
  · rename_i h
    simp only [hasNews, Bool.and_eq_true, decide_eq_true_eq] at h
    exact Prod.Lex.left _ _ h.1
  · rcases Nat.lt_or_eq_of_le (room_process_le g f b) with h | h
    · exact Prod.Lex.left _ _ h
    · rw [h]
      exact Prod.Lex.right _ (by simp)

end Flow

namespace Track

/-- Looks at all blocks that are still open; counts how often it looked. -/
def settle (g : Graph) (t : Track) : Track × Nat :=
  match t.flow with
  | none => (t, 0)
  | some f =>
    let settled := f.drain g (Flow.enqueue [] t.late) 0
    ({ t with flow := some settled.1 }, settled.2)

/-- The lowest block that reads a version on entry although none enters. -/
def unreached? (t : Track) : Option Nat :=
  t.flow.bind fun f =>
    (List.range f.entering.size).find? fun b => t.readsFirst b && (f.entering.get b).isEmpty

/-- The versions that are merged into lower ones, in ascending order. -/
def merged (f : Flow) : List Replace :=
  (List.range f.versions.toNat).filterMap fun i =>
    let v := UInt32.ofNat i
    if f.webs.root v = v then none else some ⟨v, f.webs.root v⟩

/-- A use with canonical versions. The version on entry is known if it is read or if there is only
one; a block that makes none ends with it. -/
def renameUse (w : Webs) (entering : VersionSet) (u : Use) : Use :=
  let u := u.mapWrites w.root
  let before :=
    if u.info.readsFirst || entering.length == 1 then entering.head? else u.info.before
  let last := if u.info.isWritten then u.info.last else before
  { u with info := { u.info with before, last } }

/-- The track with canonical versions. -/
def rename (t : Track) : Track :=
  match t.flow with
  | none => t
  | some f =>
    { t with
      uses := Table.tabulate t.uses.size fun b =>
        (t.uses.get b).map (renameUse f.webs (t.entering b))
      replaces := merged f }

end Track

end RegisterWeb
