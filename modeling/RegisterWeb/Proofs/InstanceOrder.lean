import Mathlib
import RegisterWeb.Instance
import RegisterWeb.Proofs.Instructions

/-!
How far registers and instances can be sorted. The order of registers is that of their ranks, so it
is a strict weak order: what it does not tell apart falls into classes. Those are the slots with one
index of variables that share a bank and a name. The order of instances looks at versions within one
register only. It is irreflexive and transitive, but each version of a register is tied with every
version of a namesake, also those that it comes before itself; so there are classes only where there
are no namesakes.
-/

namespace RegisterWeb

namespace Register

/-- Slots of one bank and index whose variables differ and share a name. -/
def Namesakes (r q : Register) : Prop :=
  r ≠ q ∧ r.bank = q.bank ∧ r.index = q.index ∧ ∃ v ∈ r.owner, ∃ w ∈ q.owner, v.name = w.name

theorem Namesakes.symm {r q : Register} (h : r.Namesakes q) : q.Namesakes r := by
  obtain ⟨hne, hbank, hindex, v, hv, w, hw, hname⟩ := h
  exact ⟨hne.symm, hbank.symm, hindex.symm, w, hw, v, hv, hname.symm⟩

theorem rank_eq_iff (r q : Register) : r.rank = q.rank ↔ r = q ∨ r.Namesakes q := by
  constructor
  · intro hrank
    refine or_iff_not_imp_left.mpr fun hne => ?_
    by_contra hnone
    refine hne (eq_of_rank hrank fun v hv w hw hname => absurd ?_ hnone)
    exact ⟨hne, bank_eq_of_rank hrank, index_eq_of_rank hrank, v, hv, w, hw, hname⟩
  · rintro (rfl | ⟨_, hbank, hindex, v, hv, w, hw, hname⟩)
    · rfl
    · rw [rank, rank, hbank, hindex, Option.mem_def.mp hv, Option.mem_def.mp hw, Option.elim_some,
        Option.elim_some, hname]

theorem precedes_eq_preimage :
    (fun r q : Register => r.precedes q = true) = Order.Preimage rank (· < ·) :=
  funext₂ fun r q => propext (precedes_iff r q)

/-- Neither of two registers precedes the other. -/
abbrev Tied (r q : Register) : Prop :=
  IncompRel (fun r q => r.precedes q = true) r q

theorem tied_iff (r q : Register) : r.Tied q ↔ r = q ∨ r.Namesakes q := by
  rw [← rank_eq_iff, Tied, precedes_eq_preimage]
  exact ⟨fun h => le_antisymm (not_lt.mp h.2) (not_lt.mp h.1),
    fun h => ⟨not_lt_of_ge h.ge, not_lt_of_ge h.le⟩⟩

theorem isStrictWeakOrder_precedes :
    IsStrictWeakOrder Register fun r q => r.precedes q = true := by
  have hranks : IsStrictWeakOrder (Nat ×ₗ WithBot String ×ₗ Int) (· < ·) :=
    isStrictWeakOrder_of_isOrderConnected
  rw [precedes_eq_preimage]
  infer_instance

end Register

namespace Instance

theorem precedes_iff (i j : Instance) : i.precedes j = true ↔
    i.register.rank < j.register.rank ∨ (i.register = j.register ∧ i.version < j.version) := by
  by_cases hsame : i.register = j.register
  · rw [precedes, if_neg (not_not.mpr hsame), decide_eq_true_eq, hsame]
    simp only [lt_self_iff_false, true_and, false_or]
  · rw [precedes, if_pos hsame, Register.precedes_iff]
    simp only [hsame, false_and, or_false]

theorem isStrictOrder_precedes :
    IsStrictOrder Instance fun i j => i.precedes j = true where
  irrefl i := by
    rw [precedes_iff]
    rintro (hrank | ⟨_, hversion⟩)
    · exact lt_irrefl _ hrank
    · exact UInt32.lt_irrefl _ hversion
  trans i j k hij hjk := by
    rw [precedes_iff] at hij hjk ⊢
    rcases hij with hij | ⟨hij, hversion⟩
    · rcases hjk with hjk | ⟨hjk, _⟩
      · exact Or.inl (hij.trans hjk)
      · exact Or.inl (hjk ▸ hij)
    · rcases hjk with hjk | ⟨hjk, hversion'⟩
      · exact Or.inl (hij ▸ hjk)
      · exact Or.inr ⟨hij.trans hjk, UInt32.lt_trans hversion hversion'⟩

/-! ### Ties -/

/-- Neither of two instances precedes the other. -/
abbrev Tied (i j : Instance) : Prop :=
  IncompRel (fun i j => i.precedes j = true) i j

variable {i j k : Instance}

theorem tied_iff_rank : i.Tied j ↔
    i.register.rank = j.register.rank ∧ (i.register = j.register → i.version = j.version) := by
  rw [Tied, IncompRel, precedes_iff, precedes_iff, not_or, not_or, not_and, not_and, not_lt, not_lt]
  constructor
  · intro h
    obtain ⟨⟨hge, hversion⟩, hle, hversion'⟩ := h
    refine ⟨le_antisymm hle hge, fun hsame => ?_⟩
    exact UInt32.le_antisymm (UInt32.not_lt.mp (hversion' hsame.symm))
      (UInt32.not_lt.mp (hversion hsame))
  · intro h
    obtain ⟨hrank, hversion⟩ := h
    refine ⟨⟨hrank.ge, fun hsame => ?_⟩, hrank.le, fun hsame => ?_⟩
    · rw [hversion hsame]
      exact UInt32.lt_irrefl _
    · rw [hversion hsame.symm]
      exact UInt32.lt_irrefl _

theorem tied_iff : i.Tied j ↔ i = j ∨ i.register.Namesakes j.register := by
  rw [tied_iff_rank, Register.rank_eq_iff]
  constructor
  · intro h
    obtain ⟨hsame | hnamesakes, hversion⟩ := h
    · left
      cases i
      cases j
      rw [mk.injEq]
      exact ⟨hsame, hversion hsame⟩
    · exact Or.inr hnamesakes
  · rintro (rfl | hnamesakes)
    · exact ⟨Or.inl rfl, fun _ => rfl⟩
    · exact ⟨Or.inr hnamesakes, fun hsame => absurd hsame hnamesakes.1⟩

/-- Instances that are tied with the same one are tied with each other, unless they are two versions
of one register. -/
theorem tied_trans_iff (hij : i.Tied j) (hjk : j.Tied k) :
    i.Tied k ↔ (i.register = k.register → i.version = k.version) := by
  have hrank := (tied_iff_rank.mp hij).1.trans (tied_iff_rank.mp hjk).1
  rw [tied_iff_rank]
  exact and_iff_right hrank

/-- Ties between the instances of some registers are classes exactly if there are no namesakes among
the registers. -/
theorem tied_trans_on_iff (registers : Set Register) :
    (∀ i j k : Instance, i.register ∈ registers → j.register ∈ registers →
      k.register ∈ registers → i.Tied j → j.Tied k → i.Tied k) ↔
      ∀ r ∈ registers, ∀ q ∈ registers, ¬ r.Namesakes q := by
  constructor
  · intro htrans r hr q hq hnamesakes
    -- the first two versions of a register are both tied with any version of its namesake
    have htied := htrans ⟨r, 0⟩ ⟨q, 0⟩ ⟨r, 1⟩ hr hq hr (tied_iff.mpr (Or.inr hnamesakes))
      (tied_iff.mpr (Or.inr hnamesakes.symm))
    have hversion : (0 : Version) = 1 := (tied_iff_rank.mp htied).2 rfl
    exact absurd hversion (by decide)
  · intro hnone i j k hi hj hk hij hjk
    have hsame : i = j := (tied_iff.mp hij).resolve_right (hnone _ hi _ hj)
    rwa [hsame]

/-- The order of registers is a strict weak order that ties namesakes and nothing else. The order of
instances is a strict order. Its ties are transitive, apart from versions of one register that are
tied with the same instance: so it is a strict weak order on the instances of some registers exactly
if there are no namesakes among them. -/
theorem weakly_ordered_unless_namesakes (registers : Set Register) :
    IsStrictWeakOrder Register (fun r q => r.precedes q = true) ∧
    (∀ r q : Register, r.Tied q ↔ r = q ∨ r.Namesakes q) ∧
    IsStrictOrder Instance (fun i j => i.precedes j = true) ∧
    (∀ i j : Instance, i.Tied j ↔ i = j ∨ i.register.Namesakes j.register) ∧
    (∀ i j k : Instance, i.Tied j → j.Tied k →
      (i.Tied k ↔ (i.register = k.register → i.version = k.version))) ∧
    ((∀ i j k : Instance, i.register ∈ registers → j.register ∈ registers →
      k.register ∈ registers → i.Tied j → j.Tied k → i.Tied k) ↔
      ∀ r ∈ registers, ∀ q ∈ registers, ¬ r.Namesakes q) :=
  ⟨Register.isStrictWeakOrder_precedes, Register.tied_iff, isStrictOrder_precedes,
    fun _ _ => tied_iff, fun _ _ _ => tied_trans_iff, tied_trans_on_iff registers⟩

end Instance

namespace SameName

/-- Two variables of one name. -/
def x : Register := Register.slot ⟨0, "x", Bank.vector⟩ 0

def y : Register := Register.slot ⟨1, "x", Bank.vector⟩ 0

/-- A version of one variable is tied with two versions of the other, of which one precedes the
other. So no instance of the list precedes the one before it, although the last one precedes the
first. -/
theorem tied_with_both :
    Instance.Tied ⟨x, 0⟩ ⟨y, 0⟩ ∧ Instance.Tied ⟨y, 0⟩ ⟨x, 1⟩ ∧ ¬ Instance.Tied ⟨x, 0⟩ ⟨x, 1⟩ ∧
    List.IsChain (fun i j => Instance.precedes j i = false) [⟨x, 1⟩, ⟨y, 0⟩, ⟨x, 0⟩] ∧
    Instance.precedes ⟨x, 0⟩ ⟨x, 1⟩ = true := by
  decide

end SameName

end RegisterWeb
