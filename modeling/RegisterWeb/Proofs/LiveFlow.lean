import RegisterWeb.Live.Flow
import RegisterWeb.Proofs.Saturate

/-!
Backward liveness at the end of its rounds. The end of a block is live exactly if one of the blocks
where control may go on with the register untouched starts live, and the start of a block is live if
the block reads the register first, or leaves it live and does not write it.
-/

namespace RegisterWeb

namespace Table

/-- A mark that never turns back uses up room unless it was there. -/
theorem count_set {t : Table Bool} {b : Nat} {x : Bool} (h : t.get b = true → x = true) :
    (t.set b x).cells.count false ≤ t.cells.count false ∧
      (t.cells.count false ≤ (t.set b x).cells.count false → t.set b x = t) := by
  by_cases hsame : t.get b = x
  · rw [← hsame, set_get]
    exact ⟨Nat.le_refl _, fun _ => rfl⟩
  · by_cases hb : b < t.size
    · cases x with
      | false =>
        have htrue : t.get b = true := by simpa using hsame
        exact absurd (h htrue) (by simp)
      | true =>
        have hfalse : t.cells[b]? = some false := by
          rw [cells_getElem? hb]
          simpa using hsame
        have hlt : (t.set b true).cells.count false < t.cells.count false := count_mark_lt hfalse
        exact ⟨Nat.le_of_lt hlt, fun hle => absurd hle (Nat.not_le_of_lt hlt)⟩
    · have hout : t.set b x = t := by
        refine ext_get (size_set t b x) ?_
        intro j _
        rw [get_set, if_neg fun hj => hb hj.2]
      rw [hout]
      exact ⟨Nat.le_refl _, fun _ => rfl⟩

end Table

namespace LiveFlow

/-- Where control goes on after a block, as liveness sees it: by its edges, past a call of a routine
that does not touch the register, or back out of a routine that does. -/
inductive Follows (g : Graph) (touched : Table Bool) (b : Nat) : Nat → Prop
  | edge {e : Edge} (next : e ∈ (g.block b).next)
      (direct : e.isCall = true ∨ (g.block b).calls = false) :
      Follows g touched b e.block
  | past {c k : Nat} (calls : (g.block b).calls = true) (callee : c ∈ (g.block b).callees)
      (free : touched.get c = false) (resumes : k ∈ resumptions g b c) : Follows g touched b k
  | back {r : Routine} {k : Nat} (routine : r ∈ g.routines) (returns : b ∈ r.returns)
      (touches : touched.get r.entry = true) (resumes : k ∈ r.conts) : Follows g touched b k

section Closed

variable {g : Graph} {t : Track} {touched : Table Bool} {l l' : LiveFlow} {b : Nat}

theorem anyEnters_iff (blocks : List Nat) :
    l.anyEnters blocks = true ↔ ∃ c ∈ blocks, l.enters.get c = true := by
  simp [anyEnters]

theorem isLiveOut_iff :
    l.isLiveOut g touched b = true ↔ ∃ c, Follows g touched b c ∧ l.enters.get c = true := by
  simp only [isLiveOut, Bool.or_eq_true, Bool.and_eq_true, List.any_eq_true, List.mem_filter,
    anyEnters_iff, List.mem_map, Bool.not_eq_true', List.contains_iff_mem]
  constructor
  · intro h
    rcases h with (⟨c, ⟨e, ⟨he, hdirect⟩, rfl⟩, hc⟩ | ⟨hcalls, c, ⟨hcallee, hfree⟩, k, hk, hin⟩) |
      ⟨r, ⟨hr, hret⟩, htouch, k, hk, hin⟩
    · exact ⟨e.block, Follows.edge he hdirect, hc⟩
    · exact ⟨k, Follows.past hcalls hcallee hfree hk, hin⟩
    · exact ⟨k, Follows.back hr hret htouch hk, hin⟩
  · intro ⟨c, hfollows, hc⟩
    cases hfollows with
    | edge he hdirect => exact Or.inl (Or.inl ⟨_, ⟨_, ⟨he, hdirect⟩, rfl⟩, hc⟩)
    | past hcalls hcallee hfree hk =>
      exact Or.inl (Or.inr ⟨hcalls, _, ⟨hcallee, hfree⟩, _, hk, hc⟩)
    | back hr hret htouch hk => exact Or.inr ⟨_, ⟨hr, hret⟩, htouch, _, hk, hc⟩

theorem isLiveOut_mono (h : ∀ c, l.enters.get c = true → l'.enters.get c = true)
    (hl : l.isLiveOut g touched b = true) : l'.isLiveOut g touched b = true := by
  rw [isLiveOut_iff] at hl ⊢
  obtain ⟨c, hfollows, hc⟩ := hl
  exact ⟨c, hfollows, h c hc⟩

/-- Whether the value on entry is needed, if it is known whether the value at the end is. -/
def wanted (t : Track) (b : Nat) (out : Bool) : Bool :=
  t.readsFirst b || (out && !t.isWritten b)

theorem wanted_mono {out out' : Bool} (h : out = true → out' = true)
    (hw : wanted t b out = true) : wanted t b out' = true := by
  simp only [wanted, Bool.or_eq_true, Bool.and_eq_true] at hw ⊢
  exact hw.imp id fun hw => ⟨h hw.1, hw.2⟩

/-- What a round keeps: every mark has a reason. -/
structure Supported (g : Graph) (t : Track) (touched : Table Bool) (l : LiveFlow) : Prop where
  entersSize : l.enters.size = g.size
  leavesSize : l.leaves.size = g.size
  enters : ∀ b, l.enters.get b = true → wanted t b (l.isLiveOut g touched b) = true
  leaves : ∀ b, l.leaves.get b = true → l.isLiveOut g touched b = true

theorem supported_blank (g : Graph) (t : Track) (touched : Table Bool) :
    Supported g t touched ⟨Table.blank g.size, Table.blank g.size⟩ := by
  refine ⟨Table.size_blank _, Table.size_blank _, ?_, ?_⟩
  all_goals
    intro b hb
    rw [Table.get_blank] at hb
    exact absurd hb (by decide)

theorem Supported.enters_visit (h : Supported g t touched l) (b : Nat) {c : Nat}
    (hc : l.enters.get c = true) : (l.visit g t touched b).enters.get c = true := by
  simp only [visit, Table.get_set]
  split
  · rename_i hbc
    rw [← hbc.1] at hc
    exact h.enters b hc
  · exact hc

theorem Supported.visit (h : Supported g t touched l) (b : Nat) :
    Supported g t touched (l.visit g t touched b) := by
  have hmono : ∀ c, l.isLiveOut g touched c = true →
      (l.visit g t touched b).isLiveOut g touched c = true :=
    fun c => isLiveOut_mono fun d => h.enters_visit b
  refine ⟨(Table.size_set ..).trans h.entersSize, (Table.size_set ..).trans h.leavesSize, ?_, ?_⟩
  · intro c hc
    simp only [LiveFlow.visit, Table.get_set] at hc
    split at hc
    · rename_i hbc
      rw [← hbc.1]
      exact wanted_mono (hmono b) hc
    · exact wanted_mono (hmono c) (h.enters c hc)
  · intro c hc
    simp only [LiveFlow.visit, Table.get_set] at hc
    split at hc
    · rename_i hbc
      rw [← hbc.1]
      exact hmono b hc
    · exact hmono c (h.leaves c hc)

theorem Supported.room_visit (h : Supported g t touched l) (b : Nat) :
    (l.visit g t touched b).room ≤ l.room ∧
      (l.room ≤ (l.visit g t touched b).room → l.visit g t touched b = l) := by
  obtain ⟨hentersLe, hentersSame⟩ := Table.count_set (h.enters b)
  obtain ⟨hleavesLe, hleavesSame⟩ := Table.count_set (h.leaves b)
  simp only [room, LiveFlow.visit]
  simp only [wanted] at hentersLe hentersSame
  refine ⟨by omega, ?_⟩
  intro hroom
  rw [hentersSame (by omega), hleavesSame (by omega)]

/-- Liveness at every block follows from that of the blocks where control goes on. -/
structure Closed (g : Graph) (t : Track) (touched : Table Bool) (l : LiveFlow) : Prop where
  leaves : ∀ b < g.size, ∀ c, Follows g touched b c → l.enters.get c = true →
    l.leaves.get b = true
  passes : ∀ b < g.size, l.leaves.get b = true → t.isWritten b = false → l.enters.get b = true
  reads : ∀ b < g.size, t.readsFirst b = true → l.enters.get b = true

/-- The equations of backward liveness. The value on entry is live if the block reads it first, or
leaves it live and does not write it. The value at the end is live if it is live on entry to some
block where control goes on with it. -/
structure Solves (g : Graph) (t : Track) (touched : Table Bool) (l : LiveFlow) : Prop where
  entersSize : l.enters.size = g.size
  leavesSize : l.leaves.size = g.size
  enters : ∀ b < g.size, l.enters.get b = (t.readsFirst b || (l.leaves.get b && !t.isWritten b))
  leaves : ∀ b < g.size, l.leaves.get b = true ↔
    ∃ c, Follows g touched b c ∧ l.enters.get c = true

theorem Solves.closed (h : l.Solves g t touched) : l.Closed g t touched := by
  refine ⟨fun b hb c hfollows hc => (h.leaves b hb).mpr ⟨c, hfollows, hc⟩, ?_, ?_⟩
  · intro b hb hleaves hquiet
    rw [h.enters b hb, hleaves, hquiet, Bool.not_false, Bool.and_true, Bool.or_true]
  · intro b hb hreads
    rw [h.enters b hb, hreads, Bool.true_or]

/-- Where no visit changes anything, the equations hold. -/
theorem Supported.solves (h : Supported g t touched l)
    (hstill : ∀ b < g.size, l.visit g t touched b = l) : l.Solves g t touched := by
  have hleaves : ∀ b < g.size, l.leaves.get b = l.isLiveOut g touched b := by
    intro b hb
    have hcell := congrArg (fun l : LiveFlow => l.leaves.get b) (hstill b hb)
    simp only [LiveFlow.visit, Table.get_set, h.leavesSize, hb, and_self, if_true] at hcell
    exact hcell.symm
  have henters : ∀ b < g.size, l.enters.get b
      = (t.readsFirst b || (l.isLiveOut g touched b && !t.isWritten b)) := by
    intro b hb
    have hcell := congrArg (fun l : LiveFlow => l.enters.get b) (hstill b hb)
    simp only [LiveFlow.visit, Table.get_set, h.entersSize, hb, and_self, if_true] at hcell
    exact hcell.symm
  refine ⟨h.entersSize, h.leavesSize, fun b hb => ?_, fun b hb => ?_⟩
  · rw [henters b hb, hleaves b hb]
  · rw [hleaves b hb, isLiveOut_iff]

/-- At the end of the rounds no visit of a round changes anything. -/
theorem solve_still (g : Graph) (t : Track) (touched : Table Bool) (visits : List Nat) :
    Supported g t touched (solve g t touched visits) ∧
      ∀ b ∈ visits, (solve g t touched visits).visit g t touched b = solve g t touched visits :=
  saturate_still
    (fun l b (h : Supported g t touched l) => h.visit b)
    (fun l b (h : Supported g t touched l) => (h.room_visit b).1)
    (fun l b (h : Supported g t touched l) hroom => (h.room_visit b).2 hroom) visits _
    (supported_blank g t touched)

/-- Rounds in which every block is visited end with a solution. -/
theorem solve_solves {visits : List Nat} (hvisits : ∀ b < g.size, b ∈ visits) :
    (solve g t touched visits).Solves g t touched := by
  obtain ⟨hsupported, hstill⟩ := solve_still g t touched visits
  exact hsupported.solves fun b hb => hstill b (hvisits b hb)

theorem solve_closed {visits : List Nat} (hvisits : ∀ b < g.size, b ∈ visits) :
    (solve g t touched visits).Closed g t touched :=
  (solve_solves hvisits).closed

end Closed

end LiveFlow

end RegisterWeb
