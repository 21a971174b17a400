import Mathlib
import RegisterWeb.Proofs.CallSet
import RegisterWeb.Proofs.Least

/-!
Backward liveness as the least solution of its equations. A visit to a block never takes a mark
back, and every mark has a reason, so visits in any order come to an end. Where they end no visit
changes anything; that is a solution, and each mark in it is forced in every other one. So the order
of the visits does not matter.
-/

namespace RegisterWeb

open Relation

namespace LiveFlow

variable {g : Graph} {t : Track} {touched : Table Bool} {l m : LiveFlow}

/-- Liveness nowhere, with which the visits begin. -/
def blank (g : Graph) : LiveFlow :=
  ⟨Table.blank g.size, Table.blank g.size⟩

/-- A visit to a block that changes something. -/
def Moves (g : Graph) (t : Track) (touched : Table Bool) (l m : LiveFlow) : Prop :=
  ∃ b < g.size, m = l.visit g t touched b ∧ m ≠ l

theorem Beneath.antisymm (hlm : l.Beneath m) (hml : m.Beneath l)
    (henters : l.enters.size = m.enters.size) (hleaves : l.leaves.size = m.leaves.size) :
    l = m := by
  have hin : l.enters = m.enters := by
    refine Table.ext_get henters fun b _ => ?_
    exact Bool.eq_iff_iff.mpr ⟨hlm.enters b, hml.enters b⟩
  have hout : l.leaves = m.leaves := by
    refine Table.ext_get hleaves fun b _ => ?_
    exact Bool.eq_iff_iff.mpr ⟨hlm.leaves b, hml.leaves b⟩
  cases l
  cases m
  rw [mk.injEq]
  exact ⟨hin, hout⟩

theorem beneath_blank (g : Graph) (m : LiveFlow) : (blank g).Beneath m := by
  refine ⟨fun b hb => ?_, fun b hb => ?_⟩
  all_goals
    rw [blank, Table.get_blank] at hb
    exact absurd hb Bool.false_ne_true

/-- Two solutions that are each forced in all others are the same. -/
theorem Solves.unique (hl : l.Solves g t touched) (hm : m.Solves g t touched) (hlm : l.Beneath m)
    (hml : m.Beneath l) : l = m :=
  hlm.antisymm hml (hl.entersSize.trans hm.entersSize.symm) (hl.leavesSize.trans hm.leavesSize.symm)

/-! ### Rounds -/

theorem room_blank (g : Graph) : (blank g).room = 2 * g.size := by
  have hcount : (Table.blank g.size : Table Bool).cells.count false = g.size :=
    Array.count_replicate_self
  rw [room, blank, hcount]
  omega

/-- A round visits blocks in turn. -/
def round (g : Graph) (t : Track) (touched : Table Bool) (visits : List Nat) (l : LiveFlow) :
    LiveFlow :=
  visits.foldl (visit g t touched) l

/-- Rounds of visits change something until they end, and then change nothing. -/
theorem solve_rounds (g : Graph) (t : Track) (touched : Table Bool) (visits : List Nat) :
    ∃ k ≤ 2 * g.size, solve g t touched visits = (round g t touched visits)^[k] (blank g) ∧
      round g t touched visits (solve g t touched visits) = solve g t touched visits ∧
      ∀ j < k, (round g t touched visits)^[j + 1] (blank g)
        ≠ (round g t touched visits)^[j] (blank g) := by
  obtain ⟨k, hk, heq, hrooms⟩ := saturate_eq_iterate room (round g t touched visits) (blank g)
  rw [room_blank] at hk
  refine ⟨k, hk, heq, ?_, ?_⟩
  · refine List.foldlRecOn (motive := fun l => l = solve g t touched visits) visits _ rfl ?_
    intro l hl b hb
    rw [hl]
    exact (solve_still g t touched visits).2 b hb
  · intro j hj hsame
    have hless := hrooms j hj
    rw [hsame] at hless
    exact Nat.lt_irrefl _ hless

/-- Rounds over all blocks have the same end, whatever the order in a round. -/
theorem solve_eq_solve {visits visits' : List Nat} (h : ∀ b, b ∈ visits ↔ b < g.size)
    (h' : ∀ b, b ∈ visits' ↔ b < g.size) :
    solve g t touched visits = solve g t touched visits' := by
  have hsolves : (solve g t touched visits).Solves g t touched :=
    solve_solves fun b hb => (h b).mpr hb
  have hsolves' : (solve g t touched visits').Solves g t touched :=
    solve_solves fun b hb => (h' b).mpr hb
  exact hsolves.unique hsolves' (hsolves'.closed.solve_beneath fun b hb => (h b).mp hb)
    (hsolves.closed.solve_beneath fun b hb => (h' b).mp hb)

/-! ### Visits in any order -/

theorem Supported.acc (h : Supported g t touched l) :
    Acc (fun m l => Moves g t touched l m) l := by
  induction hroom : l.room using Nat.strong_induction_on generalizing l with
  | _ n ih =>
    refine Acc.intro l fun m hm => ?_
    obtain ⟨b, _, rfl, hne⟩ := hm
    obtain ⟨_, hstill⟩ := h.room_visit b
    have hless : (l.visit g t touched b).room < l.room := by
      by_contra hnot
      exact hne (hstill (Nat.not_lt.mp hnot))
    exact ih _ (hroom ▸ hless) (h.visit b) rfl

/-- What visits in any order lead to is supported, and forced in every solution. -/
theorem supported_of_moves (h : ReflTransGen (Moves g t touched) (blank g) l) :
    Supported g t touched l ∧ ∀ m : LiveFlow, m.Solves g t touched → l.Beneath m := by
  induction h with
  | refl => exact ⟨supported_blank g t touched, fun m _ => beneath_blank g m⟩
  | tail _ hstep ih =>
    obtain ⟨b, hb, rfl, _⟩ := hstep
    exact ⟨ih.1.visit b, fun m hm => hm.closed.visit (ih.2 m hm) hb⟩

/-- Visits end only with the solution that is forced in every other one. -/
theorem eq_of_moves (h : ReflTransGen (Moves g t touched) (blank g) l)
    (hend : ∀ m, ¬ Moves g t touched l m) (hm : m.Solves g t touched)
    (hleast : ∀ m' : LiveFlow, m'.Solves g t touched → m.Beneath m') : l = m := by
  obtain ⟨hsupported, hbeneath⟩ := supported_of_moves h
  have hstill : ∀ b < g.size, l.visit g t touched b = l := by
    intro b hb
    by_contra hne
    exact hend _ ⟨b, hb, rfl, hne⟩
  have hsolves := hsupported.solves hstill
  exact hsolves.unique hm (hbeneath m hm) (hleast l hsolves)

end LiveFlow

namespace Analysis

/-- The track of a register; one that is not used has a track without uses. -/
def course (a : Analysis) (r : Register) : Track :=
  (a.track? r).getD default

/-- Which routines touch a register. -/
def touched (a : Analysis) (r : Register) : Table Bool :=
  Table.tabulate a.graph.size (a.touches r)

/-- The backward liveness of a register, whether it is used or not. -/
def backward (a : Analysis) (r : Register) : LiveFlow :=
  LiveInstance.liveness a.graph a.order.blocks a.graph.scopes (a.course r)

variable {g : Graph} {a s : Analysis}

theorem touches_course (a : Analysis) (r : Register) :
    (a.course r).touches a.graph a.graph.scopes = a.touches r := by
  funext c
  rw [course, touches]
  cases a.track? r with
  | some t => rfl
  | none =>
    have hunused : ∀ b, (default : Track).uses.get b = none :=
      fun b => Table.get_of_size_le (Nat.zero_le b)
    rw [Option.getD_none, Option.any_none, Track.touches, List.any_eq_false]
    intro b _
    rw [hunused, Option.isSome_none, Bool.and_false]
    exact Bool.false_ne_true

theorem Fresh.backward_eq (h : a.Fresh g) (hs : a.settle.outcome = .ok s) (r : Register) :
    s.backward r = LiveFlow.solve g (s.course r) (s.touched r) g.order.reverse := by
  rw [backward, LiveInstance.liveness, touches_course, h.order_outcome hs, ← touched,
    h.graph_outcome hs]

/-- Backward liveness is the least solution of its equations. Rounds that visit all blocks, in any
order, lead to it in the end, after at most two for each block; and so do single visits, however
they are chosen, as soon as none changes anything. -/
theorem backward_least {usages : List Usage} (ha : ofUsages g usages = .ok a)
    (hs : a.settle.outcome = .ok s) (r : Register) :
    (s.backward r).Solves g (s.course r) (s.touched r) ∧
    (∀ m : LiveFlow, m.Solves g (s.course r) (s.touched r) → (s.backward r).Beneath m) ∧
    (∀ visits : List Nat, (∀ b, b ∈ visits ↔ b < g.size) → ∃ k ≤ 2 * g.size,
      s.backward r
        = (LiveFlow.round g (s.course r) (s.touched r) visits)^[k] (LiveFlow.blank g) ∧
      LiveFlow.round g (s.course r) (s.touched r) visits (s.backward r) = s.backward r ∧
      ∀ j < k, (LiveFlow.round g (s.course r) (s.touched r) visits)^[j + 1] (LiveFlow.blank g)
        ≠ (LiveFlow.round g (s.course r) (s.touched r) visits)^[j] (LiveFlow.blank g)) ∧
    Acc (fun m l => LiveFlow.Moves g (s.course r) (s.touched r) l m) (LiveFlow.blank g) ∧
    ∀ l, ReflTransGen (LiveFlow.Moves g (s.course r) (s.touched r)) (LiveFlow.blank g) l →
      (∀ m, ¬ LiveFlow.Moves g (s.course r) (s.touched r) l m) → l = s.backward r := by
  have horder : ∀ b, b ∈ g.order.reverse ↔ b < g.size := by
    intro b
    rw [List.mem_reverse, Graph.mem_order]
  rw [(fresh_of_ofUsages ha).backward_eq hs]
  have hsolves : (LiveFlow.solve g (s.course r) (s.touched r) g.order.reverse).Solves g
      (s.course r) (s.touched r) := LiveFlow.solve_solves fun b hb => (horder b).mpr hb
  have hleast : ∀ m : LiveFlow, m.Solves g (s.course r) (s.touched r) →
      (LiveFlow.solve g (s.course r) (s.touched r) g.order.reverse).Beneath m :=
    fun m hm => hm.closed.solve_beneath fun b hb => (horder b).mp hb
  refine ⟨hsolves, hleast, ?_, (LiveFlow.supported_blank g _ _).acc, ?_⟩
  · intro visits hvisits
    rw [LiveFlow.solve_eq_solve horder hvisits]
    exact LiveFlow.solve_rounds g _ _ visits
  · intro l hl hend
    exact LiveFlow.eq_of_moves hl hend hsolves hleast

end Analysis

namespace Carousel

def p : Register := Register.physical Bank.vector 0

def q : Register := Register.physical Bank.vector 1

/-- A call of a routine that touches nothing, and then a loop. -/
def graph : Graph where
  length := 24
  blocks := #[⟨0, 0, 8, [⟨1, false⟩, ⟨3, true⟩], true, true, false, false⟩,
    ⟨1, 8, 16, [⟨1, false⟩, ⟨2, false⟩], false, false, false, false⟩,
    ⟨2, 16, 20, [], false, false, false, true⟩,
    ⟨3, 20, 24, [], false, false, true, false⟩]
  preds := ⟨#[[], [⟨0, false⟩, ⟨1, false⟩], [⟨1, false⟩], [⟨0, true⟩]]⟩
  routines := [⟨3, [3], [3], [], [0], [1]⟩]
  boundaries := []

/-- One register is written before the call and never read, the other one is read in the loop. -/
def usages : List Usage :=
  [⟨0, p, 1, 0, false, true⟩, ⟨8, q, 1, 0, true, false⟩]

def start : Analysis := (Analysis.ofUsages graph usages).toOption.getD default

def settled : Analysis := start.settle.outcome.toOption.getD default

/-- Marks all the way round the loop, without a read. -/
def marks : LiveFlow :=
  ⟨⟨#[false, true, false, false]⟩, ⟨#[true, true, false, false]⟩⟩

theorem evaluates : Analysis.ofUsages graph usages = .ok start ∧
    start.settle.outcome = .ok settled ∧
    (settled.backward q).enters = ⟨#[true, true, false, false]⟩ ∧
    (settled.backward p).enters = ⟨#[false, false, false, false]⟩ := by
  cbv

theorem marks_solve : marks.Solves graph (settled.course p) (settled.touched p) := by
  have hmarks : ((List.range graph.size).all fun b =>
      marks.enters.get b == ((settled.course p).readsFirst b ||
        (marks.leaves.get b && !(settled.course p).isWritten b)) &&
      marks.leaves.get b == marks.isLiveOut graph (settled.touched p) b) = true := by
    cbv
  simp only [List.all_eq_true, List.mem_range, Bool.and_eq_true, beq_iff_eq] at hmarks
  refine ⟨rfl, rfl, fun b hb => (hmarks b hb).1, fun b hb => ?_⟩
  rw [(hmarks b hb).2, LiveFlow.isLiveOut_iff]

/-- Rounds in ascending order find what is read, past the call. Marks around the loop alone solve
the equations too, but they are not forced. -/
theorem marks_not_forced : Analysis.ofUsages graph usages = .ok start ∧
    start.settle.outcome = .ok settled ∧
    (∃ k ≤ 8, settled.backward q = (LiveFlow.round graph (settled.course q) (settled.touched q)
      [0, 1, 2, 3])^[k] (LiveFlow.blank graph)) ∧
    (settled.backward q).enters.get 0 = true ∧
    marks.Solves graph (settled.course p) (settled.touched p) ∧ (settled.backward p).Beneath marks ∧
    settled.backward p ≠ marks := by
  obtain ⟨ha, hs, hq, hp⟩ := evaluates
  have hall : ∀ b, b ∈ [0, 1, 2, 3] ↔ b < graph.size := by
    intro b
    simp [graph, Graph.size]
    omega
  obtain ⟨k, hk, hrounds, _⟩ := (Analysis.backward_least ha hs q).2.2.1 [0, 1, 2, 3] hall
  obtain ⟨_, hleast, _⟩ := Analysis.backward_least ha hs p
  refine ⟨ha, hs, ⟨k, hk, hrounds⟩, ?_, marks_solve, hleast marks marks_solve, ?_⟩
  · rw [hq]
    rfl
  · intro heq
    rw [heq] at hp
    exact absurd hp (by decide)

end Carousel

end RegisterWeb
