import Mathlib
import RegisterWeb.Proofs.Replay
import RegisterWeb.Proofs.Unwind

/-!
Consecutive numbers for the versions of a register variable. In flow order each write gets the next
number, so that the numbers have no gap. What enters a block, what a routine leaves behind and what
is merged has one of these numbers: the word for an unknown version is never reached, and the
inherited version does not get out of the effects of routines.
-/

namespace RegisterWeb

open Relation

/-! ### Numbers of writes -/

/-- The blocks that follow some others in flow order go on with the numbers of these. -/
theorem Track.Numbering.made_ofUses {uses : Table (Option Use)} {T : Nat → List Touch}
    (huses : ∀ b, uses.get b = Use.ofTouches? (T b)) (done rest : List Nat)
    (hnodup : (done ++ rest).Nodup) :
    (rest.flatMap fun b =>
        ((((ofUses (done ++ rest) uses).uses.get b).map Use.accesses).getD []).filterMap
          Access.write)
      = (List.range' (total (fun b => Touch.writeCount (T b)) done + 1)
          (total (fun b => Touch.writeCount (T b)) rest)).map UInt32.ofNat := by
  induction rest generalizing done with
  | nil => rfl
  | cons c rest ih =>
    -- `c` takes the numbers behind those of `done`, and the rest goes on behind both
    have hsplit : done ++ [c] ++ rest = done ++ c :: rest := by simp
    have hrest := ih (done ++ [c]) (hsplit ▸ hnodup)
    rw [hsplit] at hrest
    rw [List.flatMap_cons, accesses_ofUses huses hnodup, Touch.made_number, hrest, total_append,
      ← List.map_append]
    simp only [total, Nat.add_zero, Nat.add_right_comm, List.range'_append_1]

theorem map_toNat_ofNat {n : Nat} (h : n < UInt32.size) :
    ((List.range' 1 n).map UInt32.ofNat).map UInt32.toNat = List.range' 1 n := by
  rw [List.map_map, List.map_congr_left, List.map_id]
  intro i hi
  have hlt : i < UInt32.size := by
    have hle := List.mem_range'_1.mp hi
    omega
  exact UInt32.toNat_ofNat_of_lt' hlt

/-! ### Merged versions -/

/-- Different versions are merged only if they enter blocks. -/
theorem Flow.Sound.enters_of_root_eq {g : Graph} {f : Flow} (h : f.Sound g) {v w : Version}
    (heq : f.webs.root v = f.webs.root w) :
    v = w ∨ (∃ b, v ∈ f.entering.get b) ∧ ∃ b, w ∈ f.entering.get b := by
  have hjoined := (h.webs.same_iff v w).mp heq
  clear heq
  induction hjoined with
  | rel v w hmeet =>
    obtain ⟨b, _, hv, hw⟩ := hmeet
    exact Or.inr ⟨⟨b, hv⟩, ⟨b, hw⟩⟩
  | refl v => exact Or.inl rfl
  | symm v w _ ih => exact ih.imp Eq.symm And.symm
  | trans u v w _ _ ih ih' =>
    rcases ih with rfl | huv
    · exact ih'
    · rcases ih' with rfl | hvw
      · exact Or.inr huv
      · exact Or.inr ⟨huv.1, hvw.2⟩

namespace Analysis

variable {g : Graph} {us : List Usage} {a : Analysis} {r : Register}

/-- The writes of a register have the numbers from 1 on in flow order, and a block knows those of its
first and its last write. Any version that enters a block, that a routine defines or that is merged
with another one has such a number, or is the entry version. -/
structure Consecutive (a : Analysis) (r : Register) : Prop where
  versions : a.versions r = a.writes r + 1
  numbered : (a.graph.order.flatMap fun b => (a.accesses b r).filterMap Access.write).map UInt32.toNat
    = List.range' 1 (a.versions r - 1)
  uses : ∀ b u, a.use? b r = some u → u.info.first = u.made.head? ∧
    u.info.last = u.made.getLast? ∧ u.info.changes = u.made.length
  entering : ∀ b, ∀ v ∈ a.entering b r, v.toNat < a.versions r
  raw : ∀ f, a.flow? r = some f → ∀ b, ∀ v ∈ f.entering.get b,
    v.toNat < a.versions r ∧ v ≠ Version.inherited ∧ v ≠ Version.unknown
  definitions : ∀ entry, ∀ v ∈ a.definitions r entry, v.toNat < a.versions r
  merged : ∀ v w, v ≠ w → a.canonical r v = a.canonical r w →
    v.toNat < a.versions r ∧ w.toNat < a.versions r

theorem made_order (ha : ofUsages g us = .ok a) (hr : r ∈ a.registers) (hslot : r.isSlot = true)
    (hwrites : a.writes r < UInt32.size - 2) :
    (g.order.flatMap fun b => (a.accesses b r).filterMap Access.write).map UInt32.toNat
      = List.range' 1 (a.writes r) := by
  have hfresh := fresh_of_ofUsages ha
  choose T hT using fun b => exists_touches ha b r
  have huses : ∀ b, (Table.tabulate g.size fun b => (a.summaries.get b).use? r).get b
      = Use.ofTouches? (T b) := fun b => (hfresh.get_uses r b).trans (hT b).1
  have hcount : a.writes r = total (fun b => Touch.writeCount (T b)) g.order := by
    rw [hfresh.writes_eq hr hslot, ← total_perm (Graph.order_perm g)]
    congr 1
    funext b
    rw [Track.Numbering.changesAt, huses, Use.changes_ofTouches?]
  have hmade := Track.Numbering.made_ofUses huses [] g.order (Graph.nodup_order g)
  have haccesses : ∀ b, a.accesses b r = (((Track.Numbering.ofUses ([] ++ g.order)
      (Table.tabulate g.size fun b => (a.summaries.get b).use? r)).uses.get b).map
        Use.accesses).getD [] := by
    intro b
    rw [accesses, hfresh.use?_eq hr hslot]
    rfl
  simp only [haccesses]
  rw [hmade, ← hcount]
  exact map_toNat_ofNat (by omega)

theorem consecutive_unused (hr : r ∉ a.registers) : a.Consecutive r := by
  have htrack := track?_eq_none hr
  have huse : ∀ b, a.use? b r = none := by
    intro b
    rw [use?, htrack, Option.bind_none]
  have hwrites : a.writes r = 0 := by
    simp only [writes, huse, Option.map_none, Option.getD_none]
    have hnone := total_le (fun _ => 0) 0 (List.range a.graph.size) fun _ _ => Nat.le_refl 0
    omega
  have hversions : a.versions r = 1 := by simp only [versions, htrack]
  refine ⟨by omega, ?_, ?_, ?_, ?_, ?_, ?_⟩
  · simp [accesses, huse, hversions]
  · intro b u hu
    rw [huse] at hu
    cases hu
  · intro b v hv
    simp only [entering, htrack, List.mem_singleton] at hv
    rw [hv, hversions]
    exact Nat.zero_lt_one
  · intro f hf
    rw [flow?, htrack] at hf
    cases hf
  · intro entry v hv
    simp only [definitions, htrack, List.not_mem_nil] at hv
  · intro v w hne heq
    simp only [canonical, htrack] at heq
    exact absurd heq hne

theorem consecutive_used (ha : ofUsages g us = .ok a) (hr : r ∈ a.registers)
    (hslot : r.isSlot = true) (hwrites : a.writes r < UInt32.size - 2) : a.Consecutive r := by
  have hfresh := fresh_of_ofUsages ha
  obtain ⟨f, hflow, hsound, _, halike⟩ := hfresh.exists_flow hr hslot
  obtain ⟨t, ht, htf⟩ := Option.bind_eq_some_iff.mp hflow
  have hdraws := hfresh.draws hr hslot hwrites hsound halike
  have hversions : a.versions r = f.versions.toNat := by
    simp only [versions, ht, Track.versions, htf]
  have hcount := hversions.trans (hfresh.versions_of_alike hr hslot hwrites halike)
  have hentering : ∀ b, ∀ v ∈ f.entering.get b, v.toNat < a.versions r := by
    intro b v hv
    rw [hversions]
    exact VersionSet.mem_below.mp (hdraws.entering b hv)
  have hroot : ∀ v, v.toNat < a.versions r → (f.webs.root v).toNat < a.versions r := by
    rw [hversions]
    exact fun v => Track.root_lt
  refine ⟨hcount, ?_, ?_, ?_, ?_, ?_, ?_⟩
  · rw [hcount, hfresh.graph, Nat.add_sub_cancel]
    exact made_order ha hr hslot hwrites
  · intro b u hu
    have hcoherent := hfresh.coherent_use? hr hslot hu
    exact ⟨(hfresh.unentered_use? hr hslot hu).first, hcoherent.last, hcoherent.changes⟩
  · intro b v hv
    simp only [entering, ht, Track.entering, htf] at hv
    obtain ⟨u, hu, rfl⟩ := (Webs.mem_canonical _ _ _).mp hv
    exact hroot u (hentering b u hu)
  · intro f' hf' b v hv
    cases hflow.symm.trans hf'
    have hlt := hentering b v hv
    refine ⟨hlt, ?_, ?_⟩
    · rintro rfl
      have hword : Version.inherited.toNat = UInt32.size - 2 := rfl
      omega
    · rintro rfl
      have hword : Version.unknown.toNat = UInt32.size - 1 := rfl
      omega
  · intro entry v hv
    simp only [definitions, ht, Track.definitions, htf] at hv
    obtain ⟨u, hu, rfl⟩ := (Webs.mem_canonical _ _ _).mp hv
    obtain ⟨hu, hne⟩ := (VersionSet.mem_without _ _ _).mp hu
    refine hroot u ?_
    rw [hversions]
    exact VersionSet.mem_below.mp (hdraws.effects entry u hu hne)
  · intro v w hne heq
    simp only [canonical, ht, Track.canonical, htf] at heq
    rcases hsound.enters_of_root_eq heq with heq | ⟨⟨b, hv⟩, ⟨c, hw⟩⟩
    · exact absurd heq hne
    · exact ⟨hentering b v hv, hentering c w hw⟩

/-- The versions of a register variable are numbered without a gap in flow order, and only numbered
versions reach a block, whatever the graph. -/
theorem consecutive_of_ofUsages (ha : ofUsages g us = .ok a) (hslot : r.isSlot = true)
    (hwrites : a.writes r < UInt32.size - 2) : a.Consecutive r := by
  by_cases hr : r ∈ a.registers
  · exact consecutive_used ha hr hslot hwrites
  · exact consecutive_unused hr

end Analysis

/-- The inherited version goes through two routines that call each other, and the two versions of the
variable are merged behind the call; they are numbered 1 and 2. -/
theorem Rally.consecutive_calls : Analysis.ofUsages graph usages = .ok start ∧
    x.isSlot = true ∧ start.writes x < UInt32.size - 2 ∧ start.Consecutive x ∧
    start.versions x = 3 ∧ start.canonical x ⟨2#32⟩ = ⟨1#32⟩ ∧
    (start.graph.order.flatMap fun b => (start.accesses b x).filterMap Access.write).map
      UInt32.toNat = [1, 2] := by
  obtain ⟨ha, _, hwrites, _⟩ := evaluates
  have hfew : start.writes x < UInt32.size - 2 := by
    rw [hwrites]
    decide
  have hconsecutive := Analysis.consecutive_of_ofUsages ha rfl hfew
  have hversions : start.versions x = 3 := by rw [hconsecutive.versions, hwrites]
  have hmerged : start.canonical x ⟨2#32⟩ = ⟨1#32⟩ := by
    cbv
  refine ⟨ha, rfl, hfew, hconsecutive, hversions, hmerged, ?_⟩
  rw [hconsecutive.numbered, hversions]
  rfl

end RegisterWeb
