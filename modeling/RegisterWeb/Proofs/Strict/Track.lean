import Mathlib
import RegisterWeb.Proofs.Analysis
import RegisterWeb.Proofs.Strict.Flow

/-!
Tracks by strict evaluation. A track has a use for each block, and only a track with a flow has
blocks that wait. A block that reads a version on entry gets the first of those that enter; there is
one, because a track that lacks it fails before any track is renamed.
-/

namespace RegisterWeb

namespace Track

/-- A track that can be read at each block of a graph. -/
structure Fits (g : Graph) (t : Track) : Prop where
  uses : t.uses.size = g.size
  flow : ∀ f, t.flow = some f → f.Sized g.size
  late : ∀ b ∈ t.late, b < g.size
  idle : t.flow = none → t.late = []

variable {g : Graph} {t : Track}

theorem Fits.settle (h : t.Fits g) : (t.settle g).1.Fits g := by
  unfold Track.settle
  split
  · exact h
  · rename_i f hf
    refine ⟨h.uses, ?_, h.late, fun hnone => by cases hnone⟩
    intro f' hf'
    cases hf'
    exact (h.flow f hf).drain g _ 0

theorem Fits.rename (h : t.Fits g) : t.rename.Fits g := by
  unfold Track.rename
  split
  · exact h
  · exact ⟨(Table.size_tabulate ..).trans h.uses, h.flow, h.late, h.idle⟩

theorem readsFirst_imp_entering (h : t.Fits g) (hreached : t.unreached? = none) {f : Flow}
    (hf : t.flow = some f) {b : Nat} (hb : b < g.size) (hreads : t.readsFirst b = true) :
    f.entering.get b ≠ [] := by
  intro hnone
  rw [unreached?, hf, Option.bind_some, List.find?_eq_none] at hreached
  refine hreached b (List.mem_range.mpr ((h.flow f hf).entering.symm ▸ hb)) ?_
  rw [hreads, hnone]
  rfl

end Track

namespace Strict

/-! ### Numbering and the first pass -/

def isBefore (o : FlowOrder) (p b : Nat) : Except Trap Bool := do
  return decide ((← fetch o.rank.cells p) < (← fetch o.rank.cells b))

def late (g : Graph) (o : FlowOrder) : Except Trap (List Nat) :=
  filter (fun b => do
    any (fun e => do return !(← isBefore o e.block b)) (← fetch g.preds.cells b)) o.blocks

def enter (g : Graph) (o : FlowOrder) (f : Flow) (b : Nat) : Except Trap Flow := do
  let known ← filter (fun e => isBefore o e.block b) (← fetch g.preds.cells b)
  let entering ← store f.entering b (← arriving g f b known)
  return (← merge { f with entering } b).2

def visitUse (n : Track.Numbering) (b : Nat) : Except Trap Track.Numbering := do
  match ← fetch n.uses.cells b with
  | some u =>
    if u.info.isWritten then
      let uses ← store n.uses b (some (u.mapWrites fun v => v + (n.versions - 1)))
      return ⟨n.versions + UInt32.ofNat u.info.changes, uses⟩
    else return n
  | none => return n

def initial (n : Nat) (numbering : Track.Numbering) : Except Trap Flow := do
  let reads ← tabulate n fun b => do
    return (← fetch numbering.uses.cells b).any fun u => u.info.readsFirst
  let made ← tabulate n fun b => do
    return (← fetch numbering.uses.cells b).bind fun u =>
      u.info.last.filter fun v => v != Version.unknown
  return {
    versions := numbering.versions
    reads
    made
    effects := Table.blank n
    entering := Table.blank n
    webs := Webs.empty }

def ofVariable (g : Graph) (o : FlowOrder) (r : Register) (uses : Table (Option Use)) :
    Except Trap Track := do
  let numbering ← o.blocks.foldlM visitUse ⟨1, uses⟩
  let flow ← withEffects g (← initial g.size numbering)
  let flow ← o.blocks.foldlM (enter g o) flow
  return {
    register := r
    uses := numbering.uses
    flow := some flow
    late := ← late g o
    replaces := [] }

def trackOf (g : Graph) (o : FlowOrder) (summaries : Table Summary) (r : Register) :
    Except Trap Track := do
  let uses ← tabulate g.size fun b => do return (← fetch summaries.cells b).use? r
  if r.isSlot then ofVariable g o r uses else return Track.ofPhysical r uses

section Tracks

variable {g : Graph}

theorem size_rank (g : Graph) : (FlowOrder.ofGraph g).rank.size = g.size := by
  have hsize : ∀ (l : List (Nat × Nat)) (t : Table Nat),
      (l.foldl (fun t p => t.set p.1 p.2) t).size = t.size := by
    intro l
    induction l with
    | nil => exact fun t => rfl
    | cons p l ih =>
      intro t
      rw [List.foldl_cons, ih, Table.size_set]
  exact (hsize _ _).trans (Table.size_blank g.size)

theorem isBefore_eq {p b : Nat} (hp : p < g.size) (hb : b < g.size) :
    isBefore (FlowOrder.ofGraph g) p b = .ok ((FlowOrder.ofGraph g).isBefore p b) := by
  have hsize := size_rank g
  rw [isBefore, fetch_cells (hsize.symm ▸ hp), ok_bind, fetch_cells (hsize.symm ▸ hb)]
  rfl

theorem late_eq (hg : g.Whole) :
    late g (FlowOrder.ofGraph g) = .ok ((FlowOrder.ofGraph g).late g) := by
  refine filter_eq fun b hb => ?_
  have hlt := (Graph.mem_order g b).mp hb
  rw [fetch_cells (hg.preds_size.symm ▸ hlt), ok_bind]
  refine any_eq fun e he => ?_
  rw [isBefore_eq (hg.pred_lt he) hlt]
  rfl

theorem enter_eq {f : Flow} {b : Nat} (hg : g.Whole) (h : f.Sized g.size) (hb : b < g.size) :
    enter g (FlowOrder.ofGraph g) f b = .ok (Track.enter g (FlowOrder.ofGraph g) f b)
      ∧ (Track.enter g (FlowOrder.ofGraph g) f b).Sized g.size := by
  have hknown : filter (fun e => isBefore (FlowOrder.ofGraph g) e.block b) (g.preds.get b)
      = .ok ((g.preds.get b).filter fun e => (FlowOrder.ofGraph g).isBefore e.block b) :=
    filter_eq fun e he => isBefore_eq (hg.pred_lt he) hb
  have hset : ∀ s, ({ f with entering := f.entering.set b s } : Flow).Sized g.size :=
    fun s => ⟨h.reads, h.made, h.effects, by rw [Table.size_set, h.entering]⟩
  rw [enter, fetch_cells (hg.preds_size.symm ▸ hb), ok_bind, hknown, ok_bind,
    arriving_eq hg h hb fun e he => hg.pred_lt (List.mem_filter.mp he).1, ok_bind,
    store_eq (h.entering.symm ▸ hb), ok_bind, merge_eq (hset _) hb]
  exact ⟨rfl, (hset _).merge b⟩

theorem visitUse_eq {n : Track.Numbering} {b : Nat} (h : n.uses.size = g.size) (hb : b < g.size) :
    visitUse n b = .ok (n.visit b) ∧ (n.visit b).uses.size = g.size := by
  have hb' : b < n.uses.size := h.symm ▸ hb
  rw [visitUse, fetch_cells hb', ok_bind, Track.Numbering.visit]
  cases n.uses.get b with
  | none => exact ⟨rfl, h⟩
  | some u =>
    by_cases hwritten : u.info.isWritten = true
    · simp only [hwritten, if_true, store_eq hb', ok_bind]
      exact ⟨rfl, by rw [Table.size_set, h]⟩
    · simp only [hwritten]
      exact ⟨rfl, h⟩

theorem initial_eq {numbering : Track.Numbering} (h : numbering.uses.size = g.size) :
    initial g.size numbering = .ok (Track.initial g.size numbering) := by
  have hreads : tabulate g.size (fun b => do
        return (← fetch numbering.uses.cells b).any fun u => u.info.readsFirst)
      = .ok (Track.initial g.size numbering).reads := by
    refine tabulate_eq fun b hb => ?_
    rw [fetch_cells (h.symm ▸ hb)]
    rfl
  have hmade : tabulate g.size (fun b => do
        return (← fetch numbering.uses.cells b).bind fun u =>
          u.info.last.filter fun v => v != Version.unknown)
      = .ok (Track.initial g.size numbering).made := by
    refine tabulate_eq fun b hb => ?_
    rw [fetch_cells (h.symm ▸ hb)]
    rfl
  rw [initial, hreads, ok_bind, hmade]
  rfl

theorem ofVariable_eq (hg : g.Whole) (r : Register) {uses : Table (Option Use)}
    (huses : uses.size = g.size) :
    ofVariable g (FlowOrder.ofGraph g) r uses
        = .ok (Track.ofVariable g (FlowOrder.ofGraph g) r uses)
      ∧ (Track.ofVariable g (FlowOrder.ofGraph g) r uses).Fits g := by
  have hin : ∀ b ∈ (FlowOrder.ofGraph g).blocks, b < g.size := fun b => (Graph.mem_order g b).mp
  obtain ⟨hnumber, hsize⟩ := foldlM_eq (f := visitUse) (F := Track.Numbering.visit)
    (fun n => n.uses.size = g.size) (l := (FlowOrder.ofGraph g).blocks) (s := ⟨1, uses⟩)
    (fun n hn b hb => visitUse_eq hn (hin b hb)) huses
  obtain ⟨heffects, hsized⟩ := withEffects_eq hg
    (Flow.sized_initial g.size (Track.Numbering.ofUses (FlowOrder.ofGraph g).blocks uses))
  obtain ⟨hpass, hpassed⟩ := foldlM_eq (f := enter g (FlowOrder.ofGraph g))
    (F := Track.enter g (FlowOrder.ofGraph g)) (Flow.Sized g.size)
    (l := (FlowOrder.ofGraph g).blocks) (fun f hf b hb => enter_eq hg hf (hin b hb)) hsized
  refine ⟨?_, hsize, ?_, ?_, fun hnone => by cases hnone⟩
  · rw [ofVariable, hnumber, ok_bind, initial_eq hsize, ok_bind]
    change (withEffects g (Track.initial g.size
      (Track.Numbering.ofUses (FlowOrder.ofGraph g).blocks uses)) >>= _) = _
    rw [heffects, ok_bind, hpass, ok_bind, late_eq hg]
    rfl
  · intro f hf
    cases hf
    exact hpassed
  · intro b hb
    exact hin b (List.mem_filter.mp hb).1

theorem trackOf_eq (hg : g.Whole) {summaries : Table Summary} (h : summaries.size = g.size)
    (r : Register) : trackOf g (FlowOrder.ofGraph g) summaries r
        = .ok (Analysis.trackOf g (FlowOrder.ofGraph g) summaries r)
      ∧ (Analysis.trackOf g (FlowOrder.ofGraph g) summaries r).Fits g := by
  have huses : tabulate g.size (fun b => do return (← fetch summaries.cells b).use? r)
      = .ok (Table.tabulate g.size fun b => (summaries.get b).use? r) := by
    refine tabulate_eq fun b hb => ?_
    rw [fetch_cells (h.symm ▸ hb)]
    rfl
  rw [trackOf, huses, ok_bind, Analysis.trackOf, Track.ofRegister]
  split
  · exact ofVariable_eq hg r (Table.size_tabulate ..)
  · refine ⟨rfl, ?_, ?_, fun b hb => absurd hb List.not_mem_nil, fun _ => rfl⟩
    case refine_2 =>
      intro f hf
      cases hf
    rw [Track.ofPhysical, Table.size, Array.size_map]
    exact Table.size_tabulate ..

end Tracks

/-! ### Settling and renaming -/

def settleTrack (g : Graph) (t : Track) : Except Trap (Track × Nat) :=
  match t.flow with
  | none => if t.late.isEmpty then .ok (t, 0) else .error (.noFlow t.register)
  | some f => do
    let settled ← drain g f (Flow.enqueue [] t.late) 0
    return ({ t with flow := some settled.1 }, settled.2)

def unreached? (t : Track) : Except Trap (Option Nat) :=
  match t.flow with
  | none => .ok none
  | some f => find? (fun b => do
      let reads := (← fetch t.uses.cells b).any fun u => u.info.readsFirst
      return reads && (← fetch f.entering.cells b).isEmpty) (List.range f.entering.size)

def renameUse (w : Webs) (entering : VersionSet) (u : Use) : Except Trap Use := do
  let u := u.mapWrites w.root
  let before ← if u.info.readsFirst || entering.length == 1 then (first entering).map some
    else .ok u.info.before
  let last := if u.info.isWritten then u.info.last else before
  return { u with info := { u.info with before, last } }

def renameAt (t : Track) (f : Flow) (b : Nat) : Except Trap (Option Use) := do
  match ← fetch t.uses.cells b with
  | some u => return some (← renameUse f.webs (f.webs.canonical (← fetch f.entering.cells b)) u)
  | none => return none

def rename (t : Track) : Except Trap Track :=
  match t.flow with
  | none => .ok t
  | some f => do
    let uses ← tabulate t.uses.size (renameAt t f)
    return { t with uses, replaces := Track.merged f }

section Settle

variable {g : Graph} {t : Track}

theorem settleTrack_eq (hg : g.Whole) (h : t.Fits g) : settleTrack g t = .ok (t.settle g) := by
  unfold settleTrack Track.settle
  cases hf : t.flow with
  | none => rw [h.idle hf]; rfl
  | some f =>
    have hqueue : ∀ b ∈ Flow.enqueue [] t.late, b < g.size := by
      intro b hb
      rcases (Flow.mem_enqueue _ _ b).mp hb with hb | hb
      · exact absurd hb List.not_mem_nil
      · exact h.late b hb
    show (drain g f (Flow.enqueue [] t.late) 0 >>= _) = _
    rw [drain_eq hg (h.flow f hf) hqueue]
    rfl

theorem unreached?_eq (h : t.Fits g) : unreached? t = .ok t.unreached? := by
  unfold unreached? Track.unreached?
  cases hf : t.flow with
  | none => rfl
  | some f =>
    have hsize := (h.flow f hf).entering
    refine find?_eq fun b hb => ?_
    have hlt := List.mem_range.mp hb
    rw [fetch_cells (h.uses.symm ▸ hsize ▸ hlt), ok_bind, fetch_cells hlt]
    rfl

theorem first_eq {α : Type} {l : List α} (h : l ≠ []) : (first l).map some = .ok l.head? := by
  cases l with
  | nil => exact absurd rfl h
  | cons a l => rfl

theorem renameUse_eq {w : Webs} {entering : VersionSet} {u : Use}
    (h : u.info.readsFirst = true → entering ≠ []) :
    renameUse w entering u = .ok (Track.renameUse w entering u) := by
  unfold renameUse Track.renameUse
  by_cases hone : ((u.mapWrites w.root).info.readsFirst || entering.length == 1) = true
  · have hsome : entering ≠ [] := by
      rcases Bool.or_eq_true_iff.mp hone with hreads | hone
      · exact h hreads
      · intro hnone
        rw [hnone] at hone
        cases hone
    simp only [hone, if_true, first_eq hsome, ok_bind]
    rfl
  · simp only [hone]
    rfl

theorem canonical_ne_nil {w : Webs} {s : VersionSet} (h : s ≠ []) : w.canonical s ≠ [] := by
  obtain ⟨v, hv⟩ := List.exists_mem_of_ne_nil s h
  exact List.ne_nil_of_mem ((Ascending.mem_ofList _ _).mpr (List.mem_map_of_mem hv))

theorem renameAt_eq (h : t.Fits g) (hreached : t.unreached? = none) {f : Flow}
    (hf : t.flow = some f) {b : Nat} (hb : b < g.size) : renameAt t f b
      = .ok ((t.uses.get b).map (Track.renameUse f.webs (t.entering b))) := by
  rw [renameAt, fetch_cells (h.uses.symm ▸ hb), ok_bind]
  cases hu : t.uses.get b with
  | none => rfl
  | some u =>
    have hcanonical : f.webs.canonical (f.entering.get b) = t.entering b := by
      rw [Track.entering, hf]
    have hread : u.info.readsFirst = true → t.entering b ≠ [] := by
      intro hreads
      rw [← hcanonical]
      refine canonical_ne_nil (Track.readsFirst_imp_entering h hreached hf hb ?_)
      rw [Track.readsFirst, hu]
      exact hreads
    show (fetch f.entering.cells b >>= _) = _
    rw [fetch_cells ((h.flow f hf).entering.symm ▸ hb), ok_bind, hcanonical, renameUse_eq hread]
    rfl

theorem rename_eq (h : t.Fits g) (hreached : t.unreached? = none) : rename t = .ok t.rename := by
  unfold rename Track.rename
  cases hf : t.flow with
  | none => rfl
  | some f =>
    have huses := tabulate_eq fun b (hb : b < t.uses.size) =>
      renameAt_eq h hreached hf (h.uses ▸ hb)
    show (tabulate t.uses.size _ >>= _) = _
    rw [huses]
    rfl

end Settle

/-! ### Analyses -/

/-- The block that holds a usage is looked at. -/
def place (g : Graph) (u : Usage) : Except Trap (Nat × Usage) := do
  match ← blockAt g.length g.blocks u.offset with
  | some b => do
    let _ ← fetch g.blocks b
    return (b, u)
  | none => .error (.failed (.structural u.offset (.usageOutside u.register)))

def ofUsages (g : Graph) (usages : List Usage) : Except Trap Analysis := do
  let placed ← (Usage.sort usages).mapM (place g)
  let summaries := Analysis.summarize g placed
  let order ← flowOrder g
  let tracks ← (Analysis.registersOf summaries).mapM (trackOf g order summaries)
  return ⟨g, order, summaries, tracks⟩

/-- All tracks are checked before any is renamed. -/
def finish (a : Analysis) : Except Trap Analysis := do
  let found ← a.tracks.mapM fun t => do
    return (← unreached? t).map fun b => Failure.unreached b t.register
  match found.findSome? id with
  | some e => .error (.failed e)
  | none => do return { a with tracks := ← a.tracks.mapM rename }

def settle (a : Analysis) : Except Trap Analysis := do
  let settled ← a.tracks.mapM (settleTrack a.graph)
  finish { a with tracks := settled.map Prod.fst }

section Analyses

variable {g : Graph} {a s : Analysis}

theorem place_eq (g : Graph) (u : Usage) : place g u = lift (Analysis.place g u) := by
  unfold place Analysis.place Graph.blockAt
  rw [blockAt_eq]
  cases hb : RegisterWeb.blockAt g.length g.blocks u.offset with
  | error e => rfl
  | ok found =>
    cases found with
    | none => rfl
    | some b =>
      show (fetch g.blocks b >>= fun _ => .ok (b, u)) = .ok (b, u)
      rw [fetch_eq (Graph.lt_size_of_blockAt hb)]
      rfl

theorem size_summarize (g : Graph) (placed : List (Nat × Usage)) :
    (Analysis.summarize g placed).size = g.size :=
  Table.size_tabulate ..

theorem ofUsages_eq (hg : g.Whole) (usages : List Usage) :
    ofUsages g usages = lift (Analysis.ofUsages g usages) := by
  rw [ofUsages, Analysis.ofUsages, lift_bind, mapM_lift fun u _ => place_eq g u]
  congr 1
  funext placed
  have htracks := mapM_eq (l := Analysis.registersOf (Analysis.summarize g placed))
    fun r _ => (trackOf_eq hg (size_summarize g placed) r).1
  simp only [flowOrder_eq hg, ok_bind, htracks]
  rfl

theorem fits_of_ofUsages (hg : g.Whole) {usages : List Usage}
    (h : Analysis.ofUsages g usages = .ok a) : a.graph = g ∧ ∀ t ∈ a.tracks, t.Fits g := by
  obtain ⟨placed, _, h⟩ := bind_eq_ok.mp h
  cases h
  refine ⟨rfl, fun t ht => ?_⟩
  obtain ⟨r, _, rfl⟩ := List.mem_map.mp ht
  exact (trackOf_eq hg (size_summarize g placed) r).2

theorem finish_eq (h : ∀ t ∈ a.tracks, t.Fits g) :
    finish a = lift (a.unreached?.elim (.ok { a with tracks := a.tracks.map Track.rename })
      .error) := by
  have hfound := mapM_eq (l := a.tracks)
    (f := fun t => do return (← unreached? t).map fun b => Failure.unreached b t.register)
    (F := fun t => t.unreached?.map fun b => Failure.unreached b t.register)
    fun t ht => by rw [unreached?_eq (h t ht)]; rfl
  have hfirst : (a.tracks.map fun t => t.unreached?.map fun b =>
      Failure.unreached b t.register).findSome? id = a.unreached? := List.findSome?_map
  rw [finish, hfound, ok_bind, hfirst]
  cases hnone : a.unreached? with
  | some e => rfl
  | none =>
    have hrenamed := mapM_eq (l := a.tracks) (f := rename) (F := Track.rename)
      fun t ht => rename_eq (h t ht)
        (Option.map_eq_none_iff.mp (List.findSome?_eq_none_iff.mp hnone t ht))
    show (a.tracks.mapM rename >>= _) = _
    rw [hrenamed]
    rfl

theorem fits_settled (h : ∀ t ∈ a.tracks, t.Fits a.graph) :
    ∀ t ∈ (a.tracks.map (Track.settle a.graph)).map Prod.fst, t.Fits a.graph := by
  intro t ht
  rw [List.map_map] at ht
  obtain ⟨start, hstart, rfl⟩ := List.mem_map.mp ht
  exact (h start hstart).settle

theorem settle_eq (hg : a.graph.Whole) (h : ∀ t ∈ a.tracks, t.Fits a.graph) :
    settle a = lift a.settle.outcome := by
  have hsettled := mapM_eq (l := a.tracks) (f := settleTrack a.graph) (F := Track.settle a.graph)
    fun t ht => settleTrack_eq hg (h t ht)
  rw [settle, hsettled, ok_bind, finish_eq (fits_settled h), Analysis.settle]
  cases ({ a with tracks := (a.tracks.map (Track.settle a.graph)).map Prod.fst }
    : Analysis).unreached? with
  | some e => rfl
  | none => rfl

theorem fits_of_settle (h : ∀ t ∈ a.tracks, t.Fits a.graph) (hok : a.settle.outcome = .ok s) :
    s.graph = a.graph ∧ s.order = a.order ∧ ∀ t ∈ s.tracks, t.Fits a.graph := by
  unfold Analysis.settle at hok
  dsimp only at hok
  split at hok
  · cases hok
  · cases hok
    refine ⟨rfl, rfl, fun t ht => ?_⟩
    obtain ⟨settled, hsettled, rfl⟩ := List.mem_map.mp ht
    exact (fits_settled h settled hsettled).rename

end Analyses

end Strict

end RegisterWeb
