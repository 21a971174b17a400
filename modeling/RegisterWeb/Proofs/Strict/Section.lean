import Mathlib
import RegisterWeb.Proofs.Faultless
import RegisterWeb.Proofs.Strict.Live

/-!
The analysis of a section by strict evaluation. It stops nowhere but where the analysis fails, and
the analysis fails only because of what it is told about the section.
-/

namespace RegisterWeb

namespace Strict

def analyze (settings : Settings) (s : Section) : Except Trap Result := do
  let g ← build settings s.code s.size s.hints
  let start ← ofUsages g (Usage.expand s.usages).1
  let settled ← settle start
  let is ← instances settled
  let live ← ofInstances settled is ((Usage.expand s.usages).2 ++ s.groups)
  return ⟨settled, live⟩

/-- Each stage leaves tables that the next one can read. -/
theorem analyze_eq (settings : Settings) (s : Section) :
    analyze settings s = lift (s.analyze settings) := by
  rw [analyze, Section.analyze_eq, build_eq, lift_bind]
  cases hgraph : Graph.build settings s.code s.size s.hints with
  | error e => rfl
  | ok g =>
    have hg := Graph.whole_of_build hgraph
    rw [lift_ok, ok_bind, ok_bind, ofUsages_eq hg, lift_bind]
    cases hstart : Analysis.ofUsages g (Usage.expand s.usages).1 with
    | error e => rfl
    | ok a =>
      obtain ⟨hsame, hfits⟩ := fits_of_ofUsages hg hstart
      have horder := (Analysis.fresh_of_ofUsages hstart).order
      subst hsame
      rw [lift_ok, ok_bind, ok_bind, settle_eq hg hfits, lift_bind]
      cases hsettled : a.settle.outcome with
      | error e => rfl
      | ok settled =>
        obtain ⟨hgraph', horder', hfits'⟩ := fits_of_settle hfits hsettled
        have hlisted : ∀ b ∈ settled.order.blocks, b < settled.graph.size := by
          intro b hb
          rw [horder', horder] at hb
          exact hgraph'.symm ▸ (Graph.mem_order a.graph b).mp hb
        rw [← hgraph'] at hg hfits'
        rw [lift_ok, ok_bind, ok_bind, instances_eq hg hfits' hlisted, ok_bind,
          ofInstances_eq hg hfits', lift_bind]
        rfl

end Strict

/-- No section makes the analysis read outside of a table, take the first of no items, miss a block, a
routine or a flow, or divide by zero: it ends with a result, a structural error or a consistency
error. -/
theorem Section.analyze_never_traps {settings : Settings} {s : Section}
    (hsizer : settings.Answers s.code) :
    (∃ result, Strict.analyze settings s = .ok result ∧ s.analyze settings = .ok result) ∨
      (∃ p misfit, Strict.analyze settings s = .error (.failed (.structural p misfit)) ∧
        s.analyze settings = .error (.structural p misfit)) ∨
      ∃ b r, Strict.analyze settings s = .error (.failed (.unreached b r)) ∧
        s.analyze settings = .error (.unreached b r) := by
  have hfault := Section.faultless_analyze hsizer
  rw [Strict.analyze_eq]
  cases hend : s.analyze settings with
  | ok result => exact Or.inl ⟨result, rfl, rfl⟩
  | error e =>
    cases e with
    | structural p misfit => exact Or.inr (Or.inl ⟨p, misfit, rfl, rfl⟩)
    | unreached b r => exact Or.inr (Or.inr ⟨b, r, rfl, rfl⟩)
    | fault f => exact absurd hend (hfault f)

namespace Wrapped

/-- The sizer reads bytes as signed numbers, and finds nothing behind the end of the code. -/
def settings : Settings := { Settings.standard 1 with sizer := some Sizer.signedByte }

def x : Register := Register.slot ⟨0, "x", Bank.scalar⟩ 0

/-- The return is so long that the offset after it is negative, and one hint is of no known kind. -/
def source : Section where
  code := #[4, 0, 0, 0, 255]
  length := 16
  hints := [⟨8, .ret, [], 9223372036854775807⟩, ⟨4, .call, [8], 0⟩, ⟨0, .other 200, [4], 0⟩]
  usages := [⟨0, x, 0, 0, false, true⟩, ⟨8, x, 2, 4, true, false⟩]
  groups := [⟨0, 4, []⟩]

theorem answers : settings.Answers source.code := by
  intro sizer hsizer p f
  cases hsizer
  unfold Sizer.signedByte
  split
  · split
    · exact fun h => by cases h
    · exact fun h => by cases h
  · exact fun h => by cases h

/-- A block starts before zero, and the analysis of the section still ends. -/
theorem ends_without_trap :
    ((Graph.build settings source.code source.size source.hints).toOption.map fun g =>
      g.blocks.toList.map Block.start) = some [-9223372036854775801, 0, 4, 8] ∧
    settings.Answers source.code ∧
    ((∃ result, Strict.analyze settings source = .ok result ∧
        source.analyze settings = .ok result) ∨
      (∃ p misfit, Strict.analyze settings source = .error (.failed (.structural p misfit)) ∧
        source.analyze settings = .error (.structural p misfit)) ∨
      ∃ b r, Strict.analyze settings source = .error (.failed (.unreached b r)) ∧
        source.analyze settings = .error (.unreached b r)) := by
  refine ⟨?_, answers, Section.analyze_never_traps answers⟩
  cbv

end Wrapped

end RegisterWeb
