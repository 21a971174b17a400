import Mathlib
import RegisterWeb.Proofs.Layout

/-!
The edges and flags of a built graph, read off the hints. A transfer is a hint with blocks in place
of offsets: its targets are the blocks that start there. So an edge of either kind is there exactly
if some hint in the block declares it, or if control may go on to the next block; and the lists of
predecessors are the edges turned around, in order.
-/

namespace RegisterWeb

open RegisterWeb.Layout

namespace Transfer

variable {n : Offset} {blocks : Array Block} {p : Offset} {b : Nat}

theorem locate_eq_ok : locate n blocks p = .ok b ↔ blockAt n blocks p = .ok (some b) := by
  unfold locate
  cases blockAt n blocks p with
  | error f => simp
  | ok found =>
    cases found with
    | none => simp
    | some c => simp

theorem locate_iff (h : Partition n blocks) :
    locate n blocks p = .ok b ↔
      b < blocks.size ∧ (blocks.getD b default).contains p = true := by
  rw [locate_eq_ok]
  constructor
  · intro hat
    have hin : 0 ≤ p ∧ p < n := by
      by_contra hout
      rw [blockAt_outside n blocks hout] at hat
      cases hat
    obtain ⟨i, hi, hfound, hholds⟩ := h.blockAt_inside hin.1 hin.2
    rw [hat] at hfound
    cases hfound
    exact ⟨hi, hholds⟩
  · intro hb
    obtain ⟨hb, hholds⟩ := hb
    have hbounds := h.bounds hb
    have hp := hholds
    simp only [Block.contains, Bool.and_eq_true, decide_eq_true_eq] at hp
    obtain ⟨i, hi, hfound, hi'⟩ := h.blockAt_inside (Int64.le_trans hbounds.1 hp.1)
      (Int64.lt_of_lt_of_le hp.2 hbounds.2)
    rw [hfound, h.unique hi hb hi' hholds]

/-! ### Transfers and their hints -/

/-- A transfer says what its hint says, of the blocks that start at its targets. -/
structure Renders (blocks : Array Block) (hints : List Hint) (h : Hint) (t : Transfer) : Prop where
  source : ∀ b < blocks.size, t.source = b ↔ (blocks.getD b default).contains h.offset = true
  kind : t.kind = h.kind
  targets : h.kind.isExit = false →
    ∀ c, c ∈ t.targets ↔ c < blocks.size ∧ (blocks.getD c default).start ∈ h.targets
  aimless : h.kind.isExit = false → (t.targets = [] ↔ h.targets = [])
  final : t.final = true ↔ ∃ h' ∈ hints, h'.kind.isExit = true ∧ h'.offset = h.offset

/-- Each target of a hint that does not leave for good is the start of a block. -/
def Aimed (n : Offset) (blocks : Array Block) (h : Hint) : Prop :=
  h.kind.terminates = true → h.kind.isExit = false → ∀ p ∈ h.targets, p < n →
    ∃ c < blocks.size, (blocks.getD c default).start = p

theorem contains_start (h : Partition n blocks) (hb : b < blocks.size) :
    (blocks.getD b default).contains (blocks.getD b default).start = true := by
  simp only [Block.contains, Bool.and_eq_true, decide_eq_true_eq]
  exact ⟨Int64.le_refl _, h.full b hb⟩

theorem Aimed.start_eq (hpart : Partition n blocks) {h : Hint} (haimed : Aimed n blocks h)
    (hends : h.kind.terminates = true) (hstays : h.kind.isExit = false) (hp : p ∈ h.targets)
    (hb : locate n blocks p = .ok b) :
    b < blocks.size ∧ (blocks.getD b default).start = p := by
  obtain ⟨hlt, hholds⟩ := (locate_iff hpart).mp hb
  have hinside := hholds
  simp only [Block.contains, Bool.and_eq_true, decide_eq_true_eq] at hinside
  obtain ⟨c, hc, hstart⟩ := haimed hends hstays p hp
    (Int64.lt_of_lt_of_le hinside.2 (hpart.bounds hlt).2)
  have hholds' := contains_start hpart hc
  rw [hstart] at hholds'
  rw [hpart.unique hlt hc hholds hholds']
  exact ⟨hc, hstart⟩

theorem renders_of_ofHint (hpart : Partition n blocks) {hints : List Hint} {h : Hint}
    (hends : h.kind.terminates = true) (haimed : Aimed n blocks h) {t : Transfer}
    (hok : ofHint n blocks ((hints.filter fun h => h.kind.isExit).map Hint.offset) h = .ok t) :
    Renders blocks hints h t := by
  obtain ⟨source, hsource, hok⟩ := bind_eq_ok.mp hok
  obtain ⟨targets, htargets, hok⟩ := bind_eq_ok.mp hok
  cases hok
  obtain ⟨hlt, hholds⟩ := (locate_iff hpart).mp hsource
  have hlocated : h.kind.isExit = false → h.targets.mapM (locate n blocks) = .ok targets := by
    intro hstays
    rwa [hstays, if_neg (by decide)] at htargets
  refine ⟨?_, rfl, ?_, ?_, ?_⟩
  -- the search finds one block, and no other holds the offset
  · intro b hb
    constructor
    · rintro rfl
      exact hholds
    · exact hpart.unique hlt hb hholds
  · intro hstays c
    constructor
    · intro hc
      obtain ⟨p, hp, hfound⟩ := exists_of_mem_mapM (hlocated hstays) hc
      obtain ⟨hlt, rfl⟩ := haimed.start_eq hpart hends hstays hp hfound
      exact ⟨hlt, hp⟩
    · intro hc
      obtain ⟨c', hc', hfound⟩ := exists_mem_of_mapM (hlocated hstays) hc.2
      obtain ⟨hlt, hholds⟩ := (locate_iff hpart).mp hfound
      rwa [hpart.unique hlt hc.1 hholds (contains_start hpart hc.1)] at hc'
  · intro hstays
    have hlength := (forall₂_of_mapM (hlocated hstays)).length_eq
    rw [← List.length_eq_zero_iff, ← List.length_eq_zero_iff, hlength]
  · simp only [List.contains_iff_mem, List.mem_map, List.mem_filter, and_assoc]

/-! ### The edges of a transfer -/

/-- Whether a transfer itself leads along an edge. -/
def LeadsTo (t : Transfer) (e : Edge) : Prop :=
  (t.kind.isJump = true ∧ e.isCall = false ∨ t.kind.isCall = true ∧ e.isCall = true) ∧
    e.block ∈ t.targets

/-- Whether control may go on to the next block after a transfer. -/
def GoesOn (t : Transfer) : Prop :=
  t.kind = .condJump ∨ (t.kind.isCall = true ∧ t.targets ≠ [] ∧ t.final = false)

theorem mem_edges (t : Transfer) (through : List Edge) (e : Edge) :
    e ∈ t.edges through ↔ t.LeadsTo e ∨ (t.GoesOn ∧ e ∈ through) := by
  obtain ⟨source, kind, targets, final⟩ := t
  obtain ⟨c, isCall⟩ := e
  have hmap : ∀ called : Bool, (⟨c, isCall⟩ : Edge) ∈ targets.map (fun b => ⟨b, called⟩) ↔
      isCall = called ∧ c ∈ targets := by
    intro called
    simp [eq_comm, and_comm]
  have hcall : (⟨c, isCall⟩ : Edge) ∈ (if targets.isEmpty then []
      else targets.map (fun b => ⟨b, true⟩) ++ (if final then [] else through)) ↔
      (isCall = true ∧ c ∈ targets) ∨
        ((targets ≠ [] ∧ final = false) ∧ (⟨c, isCall⟩ : Edge) ∈ through) := by
    by_cases hempty : targets = []
    · simp [hempty]
    · rw [if_neg (by simpa using hempty), List.mem_append, hmap]
      cases final <;> simp [hempty]
  cases kind with
  | jump => simp [edges, LeadsTo, GoesOn, HintKind.isJump, HintKind.isCall, hmap]
  | condJump => simp [edges, LeadsTo, GoesOn, HintKind.isJump, HintKind.isCall, hmap]
  | indirectJump => simp [edges, LeadsTo, GoesOn, HintKind.isJump, HintKind.isCall, hmap]
  | call =>
    refine hcall.trans ?_
    simp [LeadsTo, GoesOn, HintKind.isJump, HintKind.isCall]
  | indirectCall =>
    refine hcall.trans ?_
    simp [LeadsTo, GoesOn, HintKind.isJump, HintKind.isCall]
  | label => simp [edges, LeadsTo, GoesOn, HintKind.isJump, HintKind.isCall]
  | ret => simp [edges, LeadsTo, GoesOn, HintKind.isJump, HintKind.isCall]
  | halt => simp [edges, LeadsTo, GoesOn, HintKind.isJump, HintKind.isCall]
  | boundary => simp [edges, LeadsTo, GoesOn, HintKind.isJump, HintKind.isCall]
  | other code => simp [edges, LeadsTo, GoesOn, HintKind.isJump, HintKind.isCall]

theorem ends_iff (t : Transfer) :
    t.ends = true ↔ t.kind = .halt ∨ t.kind = .jump ∨ t.kind = .indirectJump := by
  unfold ends
  cases t.kind <;> simp

/-! ### All transfers together -/

/-- The transfers are those of the hints that end a block. -/
structure Rendered (blocks : Array Block) (hints : List Hint) (transfers : List Transfer) :
    Prop where
  of_transfer : ∀ t ∈ transfers, ∃ h ∈ hints, h.kind.terminates = true ∧ Renders blocks hints h t
  of_hint : ∀ h ∈ hints, h.kind.terminates = true → ∃ t ∈ transfers, Renders blocks hints h t

variable {hints : List Hint} {transfers : List Transfer}

theorem rendered_of_ofHints (hpart : Partition n blocks) (haimed : ∀ h ∈ hints, Aimed n blocks h)
    (hok : ofHints n blocks hints = .ok transfers) : Rendered blocks hints transfers := by
  constructor
  · intro t ht
    obtain ⟨h, hh, hofHint⟩ := exists_of_mem_mapM hok ht
    obtain ⟨hh, hends⟩ := List.mem_filter.mp hh
    exact ⟨h, hh, hends, renders_of_ofHint hpart hends (haimed h hh) hofHint⟩
  · intro h hh hends
    obtain ⟨t, ht, hofHint⟩ := exists_mem_of_mapM hok (List.mem_filter.mpr ⟨hh, hends⟩)
    exact ⟨t, ht, renders_of_ofHint hpart hends (haimed h hh) hofHint⟩

/-- What some transfer of a block satisfies, some hint in the block does. -/
theorem Rendered.exists_iff (hrendered : Rendered blocks hints transfers)
    (hb : b < blocks.size) {P : Transfer → Prop} {Q : Hint → Prop}
    (hPQ : ∀ h t, h.kind.terminates = true → Renders blocks hints h t → (P t ↔ Q h))
    (hQ : ∀ h, Q h → h.kind.terminates = true) :
    (∃ t ∈ transfers, t.source = b ∧ P t) ↔
      ∃ h ∈ hints, (blocks.getD b default).contains h.offset = true ∧ Q h := by
  constructor
  · intro ht
    obtain ⟨t, ht, hsource, hP⟩ := ht
    obtain ⟨h, hh, hends, hr⟩ := hrendered.of_transfer t ht
    exact ⟨h, hh, (hr.source b hb).mp hsource, (hPQ h t hends hr).mp hP⟩
  · intro hh
    obtain ⟨h, hh, hholds, hq⟩ := hh
    obtain ⟨t, ht, hr⟩ := hrendered.of_hint h hh (hQ h hq)
    exact ⟨t, ht, (hr.source b hb).mpr hholds, (hPQ h t (hQ h hq) hr).mpr hq⟩

end Transfer

namespace HintKind

theorem isExit_of_isJump {k : HintKind} (h : k.isJump = true) : k.isExit = false := by
  cases k <;> simp_all [isJump, isExit]

theorem isExit_of_isCall {k : HintKind} (h : k.isCall = true) : k.isExit = false := by
  cases k <;> simp_all [isCall, isExit]

end HintKind

namespace Transfer

variable {blocks : Array Block} {hints : List Hint} {h : Hint} {t : Transfer}

theorem Renders.leadsTo_iff (hr : Renders blocks hints h t) (c : Nat) (isCall : Bool) :
    t.LeadsTo ⟨c, isCall⟩ ↔
      (h.kind.isJump = true ∧ isCall = false ∨ h.kind.isCall = true ∧ isCall = true) ∧
        c < blocks.size ∧ (blocks.getD c default).start ∈ h.targets := by
  unfold LeadsTo
  rw [hr.kind]
  refine and_congr_right fun hkind => hr.targets ?_ c
  rcases hkind with ⟨hjump, _⟩ | ⟨hcall, _⟩
  · exact HintKind.isExit_of_isJump hjump
  · exact HintKind.isExit_of_isCall hcall

theorem Renders.goesOn_iff (hr : Renders blocks hints h t) :
    t.GoesOn ↔ h.kind = .condJump ∨ (h.kind.isCall = true ∧ h.targets ≠ [] ∧
      ∀ h' ∈ hints, h'.offset = h.offset → h'.kind.isExit = false) := by
  unfold GoesOn
  rw [hr.kind]
  refine or_congr_right (and_congr_right fun hcall => and_congr ?_ ?_)
  · exact not_congr (hr.aimless (HintKind.isExit_of_isCall hcall))
  · rw [← Bool.not_eq_true, hr.final]
    constructor
    · intro hfinal h' hh' hoffset
      rw [← Bool.not_eq_true]
      exact fun hexit => hfinal ⟨h', hh', hexit, hoffset⟩
    · intro hfree hfinal
      obtain ⟨h', hh', hexit, hoffset⟩ := hfinal
      rw [hfree h' hh' hoffset] at hexit
      exact absurd hexit (by decide)

end Transfer

/-! ### Linked blocks -/

namespace Layout

variable {blocks : Array Block} {boundaries : List Offset} {transfers : List Transfer} {b : Block}
  {e : Edge}

theorem mem_through {i : Nat} : e ∈ through blocks boundaries i ↔
    e = ⟨i + 1, false⟩ ∧ i + 1 < blocks.size ∧
      (blocks.getD (i + 1) default).start ∉ boundaries := by
  unfold through
  by_cases hi : i + 1 < blocks.size
  · have hget : blocks.getD (i + 1) default = blocks[i + 1] := by simp [hi]
    rw [Array.getElem?_eq_getElem hi, hget]
    by_cases hmem : blocks[i + 1].start ∈ boundaries
    · simp [hmem]
    · simp [hmem, hi]
  · rw [Array.getElem?_eq_none (Nat.le_of_not_lt hi)]
    simp [hi]

theorem mem_next : e ∈ (linkBlock blocks boundaries transfers b).next ↔
    (∃ t ∈ transfers, t.source = b.id ∧ t.LeadsTo e) ∨
      (e ∈ through blocks boundaries b.id ∧
        ((¬ ∃ t ∈ transfers, t.source = b.id) ∨
          ∃ t ∈ transfers, t.source = b.id ∧ t.GoesOn)) := by
  unfold linkBlock
  simp only [Ascending.mem_ofList]
  split
  · rename_i hnone
    have hmine : ¬ ∃ t ∈ transfers, t.source = b.id := by
      intro ht
      obtain ⟨t, ht, hsource⟩ := ht
      rw [List.isEmpty_iff, List.filter_eq_nil_iff] at hnone
      exact hnone t ht (by simpa using hsource)
    constructor
    · exact fun he => Or.inr ⟨he, Or.inl hmine⟩
    · intro he
      rcases he with ⟨t, ht, hsource, _⟩ | ⟨he, _⟩
      · exact absurd ⟨t, ht, hsource⟩ hmine
      · exact he
  · rename_i hsome
    have hmine : ∃ t ∈ transfers, t.source = b.id := by
      by_contra hnone
      refine hsome (List.isEmpty_iff.mpr (List.filter_eq_nil_iff.mpr ?_))
      intro t ht hsource
      exact hnone ⟨t, ht, by simpa using hsource⟩
    simp only [List.mem_flatMap, List.mem_filter, beq_iff_eq, Transfer.mem_edges]
    constructor
    · intro he
      obtain ⟨t, ⟨ht, hsource⟩, hleads | ⟨hgoes, he⟩⟩ := he
      · exact Or.inl ⟨t, ht, hsource, hleads⟩
      · exact Or.inr ⟨he, Or.inr ⟨t, ht, hsource, hgoes⟩⟩
    · intro he
      rcases he with ⟨t, ht, hsource, hleads⟩ | ⟨he, hnone | ⟨t, ht, hsource, hgoes⟩⟩
      · exact ⟨t, ⟨ht, hsource⟩, Or.inl hleads⟩
      · exact absurd hmine hnone
      · exact ⟨t, ⟨ht, hsource⟩, Or.inr ⟨hgoes, he⟩⟩

theorem calls_iff : (linkBlock blocks boundaries transfers b).calls = true ↔
    ∃ c, (⟨c, true⟩ : Edge) ∈ (linkBlock blocks boundaries transfers b).next := by
  have hcalls : (linkBlock blocks boundaries transfers b).calls = true ↔
      ∃ t ∈ transfers, t.source = b.id ∧ t.kind.isCall = true ∧ t.targets ≠ [] := by
    simp only [linkBlock, List.any_eq_true, List.mem_filter, beq_iff_eq, Transfer.calls,
      Bool.and_eq_true, Bool.not_eq_true', List.isEmpty_eq_false_iff, and_assoc]
  rw [hcalls]
  constructor
  · intro ht
    obtain ⟨t, ht, hsource, hcall, hne⟩ := ht
    obtain ⟨c, hc⟩ := List.exists_mem_of_ne_nil _ hne
    exact ⟨c, mem_next.mpr (Or.inl ⟨t, ht, hsource, Or.inr ⟨hcall, rfl⟩, hc⟩)⟩
  · intro hc
    obtain ⟨c, hc⟩ := hc
    rcases mem_next.mp hc with ⟨t, ht, hsource, hkind, hmem⟩ | ⟨hthrough, _⟩
    · rcases hkind with ⟨_, hfalse⟩ | ⟨hcall, _⟩
      · cases hfalse
      · exact ⟨t, ht, hsource, hcall, List.ne_nil_of_mem hmem⟩
    · cases (mem_through.mp hthrough).1

end Layout

/-! ### The edges that hints declare -/

namespace Graph

def Holds (g : Graph) (b : Nat) (h : Hint) : Prop :=
  (g.block b).contains h.offset = true

/-- The hints let control run on from a block into the one behind it. -/
def FallsThrough (g : Graph) (hints : List Hint) (b : Nat) : Prop :=
  (∀ h ∈ hints, h.kind = .boundary → h.offset ≠ (g.block (b + 1)).start) ∧
    ((∀ h ∈ hints, g.Holds b h → h.kind.terminates = false) ∨
      (∃ h ∈ hints, g.Holds b h ∧ h.kind = .condJump) ∨
      ∃ h ∈ hints, g.Holds b h ∧ h.kind.isCall = true ∧ h.targets ≠ [] ∧
        ∀ h' ∈ hints, h'.offset = h.offset → h'.kind.isExit = false)

/-- The edges and flags of a block are those that the hints declare. -/
structure Declared (g : Graph) (hints : List Hint) (b : Nat) : Prop where
  call : ∀ c, (⟨c, true⟩ : Edge) ∈ (g.block b).next ↔ c < g.size ∧
    ∃ h ∈ hints, g.Holds b h ∧ h.kind.isCall = true ∧ (g.block c).start ∈ h.targets
  plain : ∀ c, (⟨c, false⟩ : Edge) ∈ (g.block b).next ↔ c < g.size ∧
    ((∃ h ∈ hints, g.Holds b h ∧ h.kind.isJump = true ∧ (g.block c).start ∈ h.targets) ∨
      (c = b + 1 ∧ g.FallsThrough hints b))
  sorted : Ascending (g.block b).next
  calls : (g.block b).calls = true ↔ ∃ c, (⟨c, true⟩ : Edge) ∈ (g.block b).next
  returns : (g.block b).returns = true ↔ ∃ h ∈ hints, g.Holds b h ∧ h.kind = .ret
  ends : (g.block b).ends = true ↔ ∃ h ∈ hints, g.Holds b h ∧
    (h.kind = .halt ∨ h.kind = .jump ∨ h.kind = .indirectJump)

variable {s : Settings} {code : Code} {n : Offset} {hints : List Hint} {g : Graph}
  {starts : List Offset} {transfers : List Transfer}

theorem mem_boundariesOf {p : Offset} :
    p ∈ boundariesOf hints ↔ ∃ h ∈ hints, h.kind = .boundary ∧ h.offset = p := by
  simp only [boundariesOf, Ascending.mem_ofList, List.mem_map, List.mem_filter, Hint.mem_sort,
    beq_iff_eq, and_assoc]

theorem Stages.aimed (hstages : Stages s code n hints g starts transfers)
    (hfit : Hint.Fit s code n hints) (h : Hint) (hh : h ∈ Hint.sort hints) :
    Transfer.Aimed n (Layout.blocks n starts) h := by
  intro hends hstays p hp hlt
  have hmark : h.kind ≠ .label ∧ h.kind ≠ .boundary := by
    constructor <;> (intro hkind; rw [hkind] at hends; exact absurd hends (by decide))
  have hexit : h.kind ≠ .ret ∧ h.kind ≠ .halt := by
    constructor <;> (intro hkind; rw [hkind] at hstays; exact absurd hstays (by decide))
  have hstart := (Layout.mem_starts hfit.sort hstages.opened p).mpr
    ⟨Int64.ne_of_lt hlt, Or.inr ⟨h, hh, .target hmark hexit hp⟩⟩
  obtain ⟨i, hi, hp⟩ := List.getElem_of_mem hstart
  refine ⟨i, by rwa [Layout.size_blocks], ?_⟩
  rw [Layout.getD_blocks hi, hp]

theorem Stages.positive (hstages : Stages s code n hints g starts transfers) {h : Hint}
    (hh : h ∈ Hint.sort hints) : 0 < n := by
  obtain ⟨known, _, hknown, _, _⟩ := Layout.starts_eq_ok hstages.opened
  have hin := (Instr.recorded_of_ofHints hknown).inside h hh
  exact Int64.lt_of_le_of_lt hin.1 hin.2

theorem Stages.rendered (hstages : Stages s code n hints g starts transfers)
    (hfit : Hint.Fit s code n hints) :
    Transfer.Rendered (Layout.blocks n starts) (Hint.sort hints) transfers := by
  -- a section without hints may have a negative length, and then its blocks are no partition
  by_cases hnone : Hint.sort hints = []
  · have hlocated := hstages.located
    rw [hnone] at hlocated ⊢
    cases hlocated
    exact ⟨fun t ht => absurd ht List.not_mem_nil, fun h hh => absurd hh List.not_mem_nil⟩
  · obtain ⟨h, hh⟩ := List.exists_mem_of_ne_nil _ hnone
    exact Transfer.rendered_of_ofHints (hstages.partition hfit (hstages.positive hh)).1
      (hstages.aimed hfit) hstages.located

theorem Stages.place_eq (hstages : Stages s code n hints g starts transfers) {b : Nat}
    (hb : b < g.size) :
    b < (Layout.blocks n starts).size ∧ ((Layout.blocks n starts).getD b default).id = b ∧
      (g.block b).start = ((Layout.blocks n starts).getD b default).start ∧
      (g.block b).stop = ((Layout.blocks n starts).getD b default).stop := by
  obtain ⟨root, hblock⟩ := hstages.block_eq hb
  have hlt : b < starts.length := hstages.size_eq ▸ hb
  refine ⟨by rwa [Layout.size_blocks], ?_, ?_, ?_⟩
  · rw [Layout.getD_blocks hlt]
  · rw [hblock]
    rfl
  · rw [hblock]
    rfl

theorem Stages.exists_iff (hstages : Stages s code n hints g starts transfers)
    (hfit : Hint.Fit s code n hints) {b : Nat} (hb : b < g.size) {P : Transfer → Prop}
    {Q : Hint → Prop}
    (hPQ : ∀ h t, h.kind.terminates = true →
      Transfer.Renders (Layout.blocks n starts) (Hint.sort hints) h t → (P t ↔ Q h))
    (hQ : ∀ h, Q h → h.kind.terminates = true) :
    (∃ t ∈ transfers, t.source = b ∧ P t) ↔ ∃ h ∈ hints, g.Holds b h ∧ Q h := by
  obtain ⟨hlt, _, hstart, hstop⟩ := hstages.place_eq hb
  rw [(hstages.rendered hfit).exists_iff hlt hPQ hQ]
  simp only [Hint.mem_sort, Holds, Block.contains, hstart, hstop]

theorem Stages.leads_iff (hstages : Stages s code n hints g starts transfers)
    (hfit : Hint.Fit s code n hints) {b : Nat} (hb : b < g.size) (c : Nat) (isCall : Bool) :
    (∃ t ∈ transfers, t.source = b ∧ t.LeadsTo ⟨c, isCall⟩) ↔ c < g.size ∧
      ∃ h ∈ hints, g.Holds b h ∧ (h.kind.isJump = true ∧ isCall = false ∨
        h.kind.isCall = true ∧ isCall = true) ∧ (g.block c).start ∈ h.targets := by
  have hsize : (Layout.blocks n starts).size = g.size := by
    rw [Layout.size_blocks, hstages.size_eq]
  rw [hstages.exists_iff hfit hb (fun h t _ hr => hr.leadsTo_iff c isCall)]
  · rw [hsize]
    constructor
    · intro hh
      obtain ⟨h, hh, hholds, hkind, hc, htarget⟩ := hh
      refine ⟨hc, h, hh, hholds, hkind, ?_⟩
      rwa [(hstages.place_eq hc).2.2.1]
    · intro hh
      obtain ⟨hc, h, hh, hholds, hkind, htarget⟩ := hh
      refine ⟨h, hh, hholds, hkind, hc, ?_⟩
      rwa [(hstages.place_eq hc).2.2.1] at htarget
  · intro h hh
    rcases hh.1 with ⟨hjump, _⟩ | ⟨hcall, _⟩
    · simp [HintKind.terminates, hjump]
    · simp [HintKind.terminates, hcall]

theorem Stages.goes_iff (hstages : Stages s code n hints g starts transfers)
    (hfit : Hint.Fit s code n hints) {b : Nat} (hb : b < g.size) :
    (∃ t ∈ transfers, t.source = b ∧ t.GoesOn) ↔
      (∃ h ∈ hints, g.Holds b h ∧ h.kind = .condJump) ∨
        ∃ h ∈ hints, g.Holds b h ∧ h.kind.isCall = true ∧ h.targets ≠ [] ∧
          ∀ h' ∈ hints, h'.offset = h.offset → h'.kind.isExit = false := by
  rw [hstages.exists_iff hfit hb (fun h t _ hr => hr.goesOn_iff)]
  · simp only [Hint.mem_sort, and_or_left, exists_or]
  · intro h hh
    rcases hh with hcond | ⟨hcall, _⟩
    · simp [HintKind.terminates, HintKind.isJump, hcond]
    · simp [HintKind.terminates, hcall]

theorem Stages.still_iff (hstages : Stages s code n hints g starts transfers)
    (hfit : Hint.Fit s code n hints) {b : Nat} (hb : b < g.size) :
    (¬ ∃ t ∈ transfers, t.source = b) ↔
      ∀ h ∈ hints, g.Holds b h → h.kind.terminates = false := by
  have hexists := hstages.exists_iff hfit hb (P := fun _ => True)
    (Q := fun h => h.kind.terminates = true) (fun h t hends _ => by simp [hends])
    (fun h hends => hends)
  simp only [and_true] at hexists
  rw [hexists]
  simp only [not_exists, not_and, Bool.not_eq_true]

theorem Stages.mem_next (hstages : Stages s code n hints g starts transfers)
    (hfit : Hint.Fit s code n hints) {b : Nat} (hb : b < g.size) (c : Nat) (isCall : Bool) :
    (⟨c, isCall⟩ : Edge) ∈ (g.block b).next ↔
      (∃ t ∈ transfers, t.source = b ∧ t.LeadsTo ⟨c, isCall⟩) ∨
        (isCall = false ∧ c = b + 1 ∧ c < g.size ∧ g.FallsThrough hints b) := by
  obtain ⟨root, hblock⟩ := hstages.block_eq hb
  have hsize : (Layout.blocks n starts).size = g.size := by
    rw [Layout.size_blocks, hstages.size_eq]
  rw [hblock, Layout.mem_next, (hstages.place_eq hb).2.1]
  -- what is left is the edge to the next block, said of the hints
  refine or_congr_right ?_
  rw [Layout.mem_through, hsize, Edge.mk.injEq, hstages.still_iff hfit hb,
    hstages.goes_iff hfit hb, mem_boundariesOf]
  constructor
  · intro hthrough
    obtain ⟨⟨⟨rfl, rfl⟩, hlt, hfree⟩, hgoes⟩ := hthrough
    refine ⟨rfl, rfl, hlt, ?_, hgoes⟩
    intro h hh hkind hoffset
    rw [(hstages.place_eq hlt).2.2.1] at hoffset
    exact hfree ⟨h, hh, hkind, hoffset⟩
  · intro hfalls
    obtain ⟨rfl, rfl, hlt, hfree, hgoes⟩ := hfalls
    refine ⟨⟨⟨rfl, rfl⟩, hlt, ?_⟩, hgoes⟩
    intro hh
    obtain ⟨h, hh, hkind, hoffset⟩ := hh
    rw [← (hstages.place_eq hlt).2.2.1] at hoffset
    exact hfree h hh hkind hoffset

theorem Stages.declared (hstages : Stages s code n hints g starts transfers)
    (hfit : Hint.Fit s code n hints) {b : Nat} (hb : b < g.size) : g.Declared hints b := by
  obtain ⟨root, hblock⟩ := hstages.block_eq hb
  have hid := (hstages.place_eq hb).2.1
  constructor
  case call =>
    intro c
    rw [hstages.mem_next hfit hb, hstages.leads_iff hfit hb]
    simp
  case plain =>
    intro c
    rw [hstages.mem_next hfit hb, hstages.leads_iff hfit hb]
    simp only [Bool.false_eq_true, and_true, and_false, or_false, true_and]
    constructor
    · intro he
      rcases he with ⟨hc, hjump⟩ | ⟨hc, hlt, hfalls⟩
      · exact ⟨hc, Or.inl hjump⟩
      · exact ⟨hlt, Or.inr ⟨hc, hfalls⟩⟩
    · intro he
      rcases he with ⟨hc, hjump | ⟨heq, hfalls⟩⟩
      · exact Or.inl ⟨hc, hjump⟩
      · exact Or.inr ⟨heq, hc, hfalls⟩
  case sorted =>
    rw [hblock]
    exact Ascending.ascending_ofList _
  case calls =>
    rw [hblock]
    exact Layout.calls_iff
  case returns =>
    have hreturns : (g.block b).returns = true ↔
        ∃ t ∈ transfers, t.source = b ∧ t.kind = .ret := by
      rw [hblock]
      simp only [Layout.linkBlock, List.any_eq_true, List.mem_filter, beq_iff_eq, hid, and_assoc]
    rw [hreturns]
    exact hstages.exists_iff hfit hb (fun h t _ hr => by rw [hr.kind])
      (fun h hkind => by rw [hkind]; rfl)
  case ends =>
    have hends : (g.block b).ends = true ↔ ∃ t ∈ transfers, t.source = b ∧
        (t.kind = .halt ∨ t.kind = .jump ∨ t.kind = .indirectJump) := by
      rw [hblock]
      simp only [Layout.linkBlock, List.any_eq_true, List.mem_filter, beq_iff_eq, hid, and_assoc,
        Transfer.ends_iff]
    rw [hends]
    refine hstages.exists_iff hfit hb (fun h t _ hr => by rw [hr.kind]) ?_
    intro h hkind
    rcases hkind with hkind | hkind | hkind <;> (rw [hkind]; rfl)

/-! ### Edges turned around -/

theorem ascending_edgesInto {blocks : Array Block} (hid : Numbered blocks)
    (hnext : ∀ b ∈ blocks, Ascending b.next) (b : Nat) : Ascending (edgesInto blocks b) := by
  unfold Ascending edgesInto
  rw [List.pairwise_flatMap]
  constructor
  · intro source hsource
    rw [List.pairwise_map]
    have hsorted := (hnext source (Array.mem_toList_iff.mp hsource)).filter fun e => e.block == b
    refine hsorted.imp_of_mem ?_
    intro e e' he he' hlt
    have hb : e.block = b := by simpa using (List.mem_filter.mp he).2
    have hb' : e'.block = b := by simpa using (List.mem_filter.mp he').2
    rw [Edge.lt_iff, hb, hb'] at hlt
    rw [Edge.lt_iff]
    exact hlt.imp (fun h => absurd h (Nat.lt_irrefl b)) (fun h => ⟨rfl, h.2⟩)
  · rw [List.pairwise_iff_getElem]
    intro i j hi hj hij e he e' he'
    rw [Array.length_toList] at hi hj
    obtain ⟨_, _, rfl⟩ := List.mem_map.mp he
    obtain ⟨_, _, rfl⟩ := List.mem_map.mp he'
    rw [Edge.lt_iff, Array.getElem_toList, Array.getElem_toList, hid i hi, hid j hj]
    exact Or.inl hij

theorem Stages.ascending_preds (hstages : Stages s code n hints g starts transfers) (b : Nat) :
    Ascending (g.preds.get b) := by
  have hid := numbered_link (numbered_layout n starts) (boundariesOf hints) transfers
  rw [hstages.graph]
  simp only [ofBlocks, predecessors, Table.get_tabulate]
  split
  · refine ascending_edgesInto hid ?_ b
    intro block hblock
    obtain ⟨_, _, rfl⟩ := Array.mem_map.mp hblock
    exact Ascending.ascending_ofList _
  · exact List.Pairwise.nil

/-- A built graph has the edges and flags that the hints declare and no others, in order, and its
lists of predecessors are these edges turned around. -/
theorem build_links (hgraph : build s code n hints = .ok g) (hfit : Hint.Fit s code n hints) :
    (∀ b < g.size, g.Declared hints b) ∧
    (∀ b e, e ∈ g.preds.get b ↔ (⟨b, e.isCall⟩ : Edge) ∈ (g.block e.block).next) ∧
    ∀ b, Ascending (g.preds.get b) := by
  have hpreds := (wellFormed_of_build hgraph).mem_preds
  by_cases hzero : n = 0
  · subst hzero
    obtain ⟨_, rfl⟩ := build_zero hgraph
    refine ⟨fun b hb => absurd hb (Nat.not_lt_zero b), hpreds, fun b => ?_⟩
    have hnone : (default : Table (List Edge)).get b = [] := rfl
    rw [hnone]
    exact List.Pairwise.nil
  · obtain ⟨starts, transfers, hstages⟩ := exists_stages hgraph hzero
    exact ⟨fun b hb => hstages.declared hfit hb, hpreds, hstages.ascending_preds⟩

end Graph

/-- The two callers of the routine, and a call that the return at its offset keeps from going on. -/
theorem Medley.linked : Medley.graph.Declared Medley.hints 1 ∧
    Medley.graph.Declared Medley.hints 3 ∧
    (⟨3, true⟩ : Edge) ∈ Medley.graph.preds.get 5 ∧
    (⟨3, false⟩ : Edge) ∉ Medley.graph.preds.get 4 ∧
    Ascending (Medley.graph.preds.get 5) := by
  obtain ⟨hdeclared, hpreds, hsorted⟩ := Graph.build_links Medley.builds Medley.fits
  refine ⟨hdeclared 1 (by decide), hdeclared 3 (by decide), ?_, ?_, hsorted 5⟩
  · exact (hpreds 5 ⟨3, true⟩).mpr (by decide)
  · exact fun hmem => absurd ((hpreds 4 ⟨3, false⟩).mp hmem) (by decide)

end RegisterWeb
