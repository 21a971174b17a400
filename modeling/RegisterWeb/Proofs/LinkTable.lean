import Mathlib
import RegisterWeb.Proofs.InstanceTable
import RegisterWeb.Proofs.Shuffle

/-!
What the links of instances say. Groups share instances, repeat slots and may have several slots
with one instance, and each group adds its demands to the links so far. In the end the links hold
exactly the demands of all groups: two instances are linked to each other, and from both sides, if
they stand side by side in some group, and the alignment of an instance is the largest that a group
asks of its first.
-/

namespace RegisterWeb

/-! ### Links hold demands -/

namespace Links

/-- One link stands before another. -/
def Before (l l' : Link) : Prop :=
  l.bank < l'.bank ∨ l.bank = l'.bank ∧ l.index < l'.index

/-- The link of an instance; without an entry it has no demands. -/
def get (ls : Links) (bank : Bank) (index : Nat) : Link :=
  (ls.find? fun l => l.bank == bank && l.index == index).getD ⟨bank, index, 0, [], []⟩

variable {ls : Links} {bank : Bank} {i : Nat} {change : Link → Link}

theorem mem_update {l : Link} (h : l ∈ ls.update bank i change) :
    (∃ l', l = change l' ∧ l'.bank = bank ∧ l'.index = i) ∨ l ∈ ls := by
  induction ls with
  | nil => exact Or.inl ⟨_, List.mem_singleton.mp h, rfl, rfl⟩
  | cons k ls ih =>
    unfold update at h
    split at h
    · rcases List.mem_cons.mp h with rfl | h
      · exact Or.inl ⟨_, rfl, rfl, rfl⟩
      · exact Or.inr h
    · split at h
      · rename_i hplace
        rcases List.mem_cons.mp h with rfl | h
        · exact Or.inl ⟨k, rfl, hplace⟩
        · exact Or.inr (List.mem_cons_of_mem k h)
      · rcases List.mem_cons.mp h with rfl | h
        · exact Or.inr List.mem_cons_self
        · exact (ih h).imp id (List.mem_cons_of_mem k)

theorem Before.trans {l l' l'' : Link} (h : Before l l') (h' : Before l' l'') : Before l l'' := by
  simp only [Before, UInt8.lt_iff_toNat_lt, ← UInt8.toNat_inj] at *
  omega

theorem pairwise_update (h : ls.Pairwise Before)
    (hchange : ∀ l, (change l).bank = l.bank ∧ (change l).index = l.index) :
    (ls.update bank i change).Pairwise Before := by
  induction ls with
  | nil => exact List.pairwise_singleton ..
  | cons k ls ih =>
    obtain ⟨hk, hls⟩ := List.pairwise_cons.mp h
    unfold update
    split
    · rename_i hfirst
      have hnew : Before (change ⟨bank, i, 0, [], []⟩) k := by
        rw [Before, (hchange _).1, (hchange _).2]
        exact hfirst
      refine List.pairwise_cons.mpr ⟨?_, h⟩
      intro l hl
      rcases List.mem_cons.mp hl with rfl | hl
      · exact hnew
      · exact hnew.trans (hk l hl)
    · rename_i hnot
      split
      · refine List.pairwise_cons.mpr ⟨fun l hl => ?_, hls⟩
        rw [Before, (hchange _).1, (hchange _).2]
        exact hk l hl
      · rename_i hne
        refine List.pairwise_cons.mpr ⟨fun l hl => ?_, ih hls⟩
        rcases mem_update hl with ⟨l', rfl, hbank, hindex⟩ | hl
        · rw [Before, (hchange _).1, (hchange _).2, hbank, hindex]
          simp only [UInt8.lt_iff_toNat_lt, ← UInt8.toNat_inj] at hnot hne ⊢
          omega
        · exact hk l hl

theorem exists_update (hchange : ∀ l, (change l).bank = l.bank ∧ (change l).index = l.index)
    (c : Bank) (j : Nat) : (∃ l ∈ ls.update bank i change, l.bank = c ∧ l.index = j) ↔
      (∃ l ∈ ls, l.bank = c ∧ l.index = j) ∨ bank = c ∧ i = j := by
  induction ls with
  | nil => simp [update, hchange]
  | cons k ls ih =>
    unfold update
    split
    · simp only [List.exists_mem_cons_iff, hchange]
      exact or_comm
    · split
      · rename_i hsame
        obtain ⟨rfl, rfl⟩ := hsame
        simp only [List.exists_mem_cons_iff, hchange]
        exact (or_iff_left_of_imp Or.inl).symm
      · simp only [List.exists_mem_cons_iff, ih, or_assoc]

theorem get_cons (l : Link) (ls : Links) (bank : Bank) (i : Nat) :
    get (l :: ls) bank i = if l.bank = bank ∧ l.index = i then l else get ls bank i := by
  unfold get
  rw [List.find?_cons]
  by_cases h : l.bank = bank ∧ l.index = i
  · rw [if_pos h]
    simp [h.1, h.2]
  · rw [if_neg h]
    have hfalse : (l.bank == bank && l.index == i) = false := by
      rw [← Bool.not_eq_true, Bool.and_eq_true, beq_iff_eq, beq_iff_eq]
      exact h
    rw [hfalse]

/-- Links that stand behind a place say nothing about it. -/
theorem get_of_before (h : ∀ l ∈ ls, Before ⟨bank, i, 0, [], []⟩ l) :
    ls.get bank i = ⟨bank, i, 0, [], []⟩ := by
  induction ls with
  | nil => rfl
  | cons l ls ih =>
    have hl := h l List.mem_cons_self
    rw [get_cons, if_neg, ih fun l hl => h l (List.mem_cons_of_mem _ hl)]
    simp only [Before, UInt8.lt_iff_toNat_lt, ← UInt8.toNat_inj] at hl ⊢
    omega

/-- An update changes the link of one instance. -/
theorem get_update (h : ls.Pairwise Before)
    (hchange : ∀ l, (change l).bank = l.bank ∧ (change l).index = l.index) (c : Bank) (j : Nat) :
    (ls.update bank i change).get c j
      = if bank = c ∧ i = j then change (ls.get bank i) else ls.get c j := by
  induction ls with
  | nil =>
    rw [update, get_cons, (hchange _).1, (hchange _).2]
    rfl
  | cons k ls ih =>
    obtain ⟨hk, hls⟩ := List.pairwise_cons.mp h
    unfold update
    split
    · rename_i hfirst
      have hnone : get (k :: ls) bank i = ⟨bank, i, 0, [], []⟩ := by
        have hnew : Before ⟨bank, i, 0, [], []⟩ k := hfirst
        refine get_of_before fun l hl => ?_
        rcases List.mem_cons.mp hl with rfl | hl
        · exact hnew
        · exact hnew.trans (hk l hl)
      rw [get_cons, (hchange _).1, (hchange _).2, hnone]
    · split
      · rename_i hsame
        obtain ⟨rfl, rfl⟩ := hsame
        have hself : get (k :: ls) k.bank k.index = k := by rw [get_cons, if_pos ⟨rfl, rfl⟩]
        rw [get_cons, (hchange _).1, (hchange _).2, hself, get_cons k ls c]
        split
        · rfl
        · rfl
      · rename_i hne
        rw [get_cons, ih hls, get_cons k ls bank i, if_neg hne, get_cons k ls c j]
        by_cases hplace : bank = c ∧ i = j
        · obtain ⟨rfl, rfl⟩ := hplace
          rw [if_neg hne, if_pos ⟨rfl, rfl⟩, if_pos ⟨rfl, rfl⟩]
        · rw [if_neg hplace, if_neg hplace]

/-- Links that stand in order and hold exactly the demands of the tasks that are given. -/
structure Keep (asked : Task → Prop) (ls : Links) : Prop where
  ordered : ls.Pairwise Before
  entry : ∀ bank u, (∃ l ∈ ls, l.bank = bank ∧ l.index = u) ↔ ∃ d, asked ⟨bank, u, d⟩
  next : ∀ bank u v, v ∈ (ls.get bank u).next ↔ asked ⟨bank, u, .next v⟩
  prev : ∀ bank u v, v ∈ (ls.get bank u).prev ↔ asked ⟨bank, u, .prev v⟩
  align : ∀ bank u, IsGreatest (insert 0 {n | asked ⟨bank, u, .align n⟩}) (ls.get bank u).align
  ascending : ∀ bank u, Ascending (ls.get bank u).next ∧ Ascending (ls.get bank u).prev

theorem keep_nil : Keep (fun _ => False) [] where
  ordered := List.Pairwise.nil
  entry := by simp
  next := by simp [get]
  prev := by simp [get]
  align bank u := by
    refine ⟨Or.inl rfl, fun n hn => ?_⟩
    rcases hn with rfl | hn
    · exact Int64.le_refl _
    · exact hn.elim
  ascending bank u := ⟨List.Pairwise.nil, List.Pairwise.nil⟩

theorem Demand.mem_next_meet (d : Demand) (l : Link) (v : Nat) :
    v ∈ (d.meet l).next ↔ v ∈ l.next ∨ .next v = d := by
  cases d with
  | align n => simp [meet]
  | next i => simp [meet, Ascending.mem_insert, or_comm]
  | prev i => simp [meet]

theorem Demand.mem_prev_meet (d : Demand) (l : Link) (v : Nat) :
    v ∈ (d.meet l).prev ↔ v ∈ l.prev ∨ .prev v = d := by
  cases d with
  | align n => simp [meet]
  | next i => simp [meet]
  | prev i => simp [meet, Ascending.mem_insert, or_comm]

theorem Demand.ascending_meet (d : Demand) {l : Link} (h : Ascending l.next ∧ Ascending l.prev) :
    Ascending (d.meet l).next ∧ Ascending (d.meet l).prev := by
  cases d with
  | align n => exact h
  | next i => exact ⟨Ascending.ascending_insert i h.1, h.2⟩
  | prev i => exact ⟨h.1, Ascending.ascending_insert i h.2⟩

theorem Demand.align_meet (d : Demand) {l : Link} {s : Set Offset} (h : IsGreatest s l.align) :
    IsGreatest {n | n ∈ s ∨ .align n = d} (d.meet l).align := by
  obtain ⟨hin, hle⟩ := h
  cases d with
  | align m =>
    have hmax : max l.align m = l.align ∨ max l.align m = m := by
      simp only [← Int64.toInt_inj, Offset.toInt_max]
      omega
    refine ⟨?_, fun n hn => ?_⟩
    · rcases hmax with heq | heq
      · refine Or.inl ?_
        rw [meet, heq]
        exact hin
      · exact Or.inr (congrArg Demand.align heq)
    · simp only [meet, Int64.le_iff_toInt_le, Offset.toInt_max]
      rcases hn with hn | hn
      · have hold := Int64.le_iff_toInt_le.mp (hle hn)
        omega
      · cases hn
        omega
  | next i => exact ⟨Or.inl hin, fun n hn => hle (hn.resolve_right (by simp))⟩
  | prev i => exact ⟨Or.inl hin, fun n hn => hle (hn.resolve_right (by simp))⟩

variable {asked : Task → Prop}

theorem get_perform (h : ls.Pairwise Before) (t : Task) (bank : Bank) (u : Nat) :
    (ls.perform t).get bank u = if t.bank = bank ∧ t.index = u then t.demand.meet (ls.get bank u)
      else ls.get bank u := by
  rw [perform, get_update h t.demand.place_meet]
  split
  · rename_i hplace
    rw [hplace.1, hplace.2]
  · rfl

/-- A task adds its demand. -/
theorem Keep.perform (h : Keep asked ls) (t : Task) :
    Keep (fun s => asked s ∨ s = t) (ls.perform t) := by
  obtain ⟨b, i, d⟩ := t
  have hget := get_perform h.ordered ⟨b, i, d⟩
  have hother : ∀ {bank u}, ¬ (b = bank ∧ i = u) → ∀ e, (⟨bank, u, e⟩ : Task) ≠ ⟨b, i, d⟩ := by
    intro bank u hne e heq
    cases heq
    exact hne ⟨rfl, rfl⟩
  refine ⟨pairwise_update h.ordered d.place_meet, ?_, ?_, ?_, ?_, ?_⟩
  · intro bank u
    rw [exists_or, ← h.entry, Links.perform, exists_update d.place_meet]
    refine or_congr_right ⟨fun hplace => ?_, fun hsame => ?_⟩
    · obtain ⟨rfl, rfl⟩ := hplace
      exact ⟨d, rfl⟩
    · obtain ⟨e, hsame⟩ := hsame
      cases hsame
      exact ⟨rfl, rfl⟩
  · intro bank u v
    rw [hget]
    split
    · rename_i hplace
      obtain ⟨rfl, rfl⟩ := hplace
      rw [Demand.mem_next_meet, h.next]
      simp
    · rename_i hplace
      rw [h.next, or_iff_left (hother hplace _)]
  · intro bank u v
    rw [hget]
    split
    · rename_i hplace
      obtain ⟨rfl, rfl⟩ := hplace
      rw [Demand.mem_prev_meet, h.prev]
      simp
    · rename_i hplace
      rw [h.prev, or_iff_left (hother hplace _)]
  · intro bank u
    rw [hget]
    split
    · rename_i hplace
      obtain ⟨rfl, rfl⟩ := hplace
      have hset : insert 0 {n | asked ⟨b, i, .align n⟩ ∨ (⟨b, i, .align n⟩ : Task) = ⟨b, i, d⟩}
          = {n | n ∈ insert 0 {n | asked ⟨b, i, .align n⟩} ∨ .align n = d} := by
        ext n
        simp [or_assoc]
      rw [hset]
      exact d.align_meet (h.align b i)
    · rename_i hplace
      simpa only [or_iff_left (hother hplace _)] using h.align bank u
  · intro bank u
    rw [hget]
    split
    · exact d.ascending_meet (h.ascending bank u)
    · exact h.ascending bank u

theorem Keep.foldl (h : Keep asked ls) (ts : List Task) :
    Keep (fun s => asked s ∨ s ∈ ts) (ts.foldl Links.perform ls) := by
  induction ts generalizing asked ls with
  | nil => simpa using h
  | cons t ts ih => simpa [or_assoc] using ih (h.perform t)

/-! ### What a group asks for -/

/-- The demands of a group of instances. -/
def groupTasks (bank : Bank) (n : Offset) : List Nat → List Task
  | [] => []
  | first :: rest => ⟨bank, first, .align n⟩ :: chainTasks bank (first :: rest)

theorem bind_eq_groupTasks (ls : Links) (bank : Bank) (n : Offset) (indices : List Nat) :
    ls.bind bank n indices = (groupTasks bank n indices).foldl perform ls := by
  cases indices with
  | nil => rfl
  | cons first rest => exact chain_eq bank (first :: rest) _

variable {n : Offset} {indices : List Nat} {t : Task}

/-- A chain asks each two neighbours for each other. -/
theorem mem_chainTasks : t ∈ chainTasks bank indices ↔ ∃ u v, [u, v] <:+: indices ∧
    (t = ⟨bank, u, .next v⟩ ∨ t = ⟨bank, v, .prev u⟩) := by
  fun_induction chainTasks bank indices with
  | case1 => simp
  | case2 x =>
    refine iff_of_false List.not_mem_nil fun h => ?_
    obtain ⟨u, v, hin, _⟩ := h
    have hlength := hin.length_le
    simp at hlength
  | case3 i j rest ih =>
    have hinfix : ∀ u v, [u, v] <:+: i :: j :: rest ↔ u = i ∧ v = j ∨ [u, v] <:+: j :: rest := by
      intro u v
      rw [List.infix_cons_iff, List.cons_prefix_cons, List.cons_prefix_cons]
      simp only [List.nil_prefix, and_true]
    simp only [List.mem_cons, ih, hinfix, or_and_right, exists_or, ← or_assoc]
    simp

theorem mem_groupTasks : t ∈ groupTasks bank n indices ↔
    (∃ u, indices.head? = some u ∧ t = ⟨bank, u, .align n⟩) ∨
      ∃ u v, [u, v] <:+: indices ∧ (t = ⟨bank, u, .next v⟩ ∨ t = ⟨bank, v, .prev u⟩) := by
  cases indices with
  | nil => simp [groupTasks]
  | cons first rest =>
    rw [groupTasks, List.mem_cons, mem_chainTasks]
    simp

theorem next_mem_groupTasks {c : Bank} {u v : Nat} :
    ⟨c, u, .next v⟩ ∈ groupTasks bank n indices ↔ c = bank ∧ [u, v] <:+: indices := by
  rw [mem_groupTasks]
  simp only [Task.mk.injEq, reduceCtorEq, Demand.next.injEq, and_false, exists_false, or_false,
    false_or]
  constructor
  · intro h
    obtain ⟨_, _, hin, rfl, rfl, rfl⟩ := h
    exact ⟨rfl, hin⟩
  · intro h
    exact ⟨u, v, h.2, h.1, rfl, rfl⟩

theorem prev_mem_groupTasks {c : Bank} {u v : Nat} :
    ⟨c, v, .prev u⟩ ∈ groupTasks bank n indices ↔ c = bank ∧ [u, v] <:+: indices := by
  rw [mem_groupTasks]
  simp only [Task.mk.injEq, reduceCtorEq, Demand.prev.injEq, and_false, exists_false, false_or]
  constructor
  · intro h
    obtain ⟨_, _, hin, rfl, rfl, rfl⟩ := h
    exact ⟨rfl, hin⟩
  · intro h
    exact ⟨u, v, h.2, h.1, rfl, rfl⟩

theorem align_mem_groupTasks {c : Bank} {u : Nat} {m : Offset} :
    ⟨c, u, .align m⟩ ∈ groupTasks bank n indices ↔ c = bank ∧ n = m ∧ indices.head? = some u := by
  rw [mem_groupTasks]
  simp only [Task.mk.injEq, reduceCtorEq, Demand.align.injEq, and_false, exists_false, or_false,
    or_self]
  constructor
  · intro h
    obtain ⟨_, hhead, rfl, rfl, rfl⟩ := h
    exact ⟨rfl, rfl, hhead⟩
  · intro h
    exact ⟨u, h.2.2, h.1, rfl, h.2.1.symm⟩

/-- A group asks something of each of its instances. -/
theorem exists_mem_groupTasks {c : Bank} {u : Nat} :
    (∃ d, ⟨c, u, d⟩ ∈ groupTasks bank n indices) ↔ c = bank ∧ u ∈ indices := by
  constructor
  · intro h
    obtain ⟨d, hd⟩ := h
    cases d with
    | align m =>
      obtain ⟨hc, _, hhead⟩ := align_mem_groupTasks.mp hd
      exact ⟨hc, List.mem_of_head? hhead⟩
    | next v =>
      obtain ⟨hc, hin⟩ := next_mem_groupTasks.mp hd
      exact ⟨hc, hin.subset List.mem_cons_self⟩
    | prev v =>
      obtain ⟨hc, hin⟩ := prev_mem_groupTasks.mp hd
      exact ⟨hc, hin.subset (List.mem_cons_of_mem v List.mem_cons_self)⟩
  · intro h
    obtain ⟨rfl, hu⟩ := h
    obtain ⟨before, after, rfl⟩ := List.append_of_mem hu
    -- the first has an alignment to meet, and every other one follows its neighbour
    rcases List.eq_nil_or_concat before with rfl | ⟨before, v, rfl⟩
    · exact ⟨.align n, align_mem_groupTasks.mpr ⟨rfl, rfl, rfl⟩⟩
    · refine ⟨.prev v, prev_mem_groupTasks.mpr ⟨rfl, before, after, ?_⟩⟩
      simp

end Links

namespace SlotGroup

variable {a : Analysis} {is : List LiveInstance} {d : SlotGroup}

/-- A group that is linked if it can be: it has slots, and all of them are slots of variables. -/
def Effective (d : SlotGroup) : Prop :=
  d.slots ≠ [] ∧ ∀ r ∈ d.slots, r.isSlot = true

/-- The number of the instance that a group has for a slot. -/
def slotIndex? (a : Analysis) (is : List LiveInstance) (d : SlotGroup) (r : Register) :
    Option Nat :=
  match a.graph.blockAt d.offset with
  | .ok (some b) => indexAt? a is b r d.offset
  | _ => none

/-- A group with slots of one bank, and the instances of its slots. -/
structure Finds (a : Analysis) (is : List LiveInstance) (d : SlotGroup) (bank : Bank)
    (found : List Nat) : Prop where
  effective : d.Effective
  bank : ∀ r ∈ d.slots, r.bank = bank
  found : d.slots.map (slotIndex? a is d) = found.map some

theorem Finds.unique {bank bank' : Bank} {found found' : List Nat} (h : Finds a is d bank found)
    (h' : Finds a is d bank' found') : bank = bank' ∧ found = found' := by
  obtain ⟨r, hr⟩ := List.exists_mem_of_ne_nil d.slots h.effective.1
  refine ⟨(h.bank r hr).symm.trans (h'.bank r hr), ?_⟩
  have hfound := h.found.symm.trans h'.found
  exact List.map_injective_iff.mpr (Option.some_injective Nat) hfound

theorem indices?_eq_ok {b : Nat} {p : Offset} {first : Register} {slots : List Register}
    {found : Option (List Nat)} (h : indices? a is b p first slots = .ok found) :
    (found = none ∧ ∃ r ∈ slots, r.isSlot = false) ∨
      ∃ indices, found = some indices ∧ (∀ r ∈ slots, r.isSlot = true ∧ r.bank = first.bank) ∧
        slots.map (fun r => indexAt? a is b r p) = indices.map some := by
  induction slots generalizing found with
  | nil =>
    cases h
    exact Or.inr ⟨[], rfl, by simp, rfl⟩
  | cons r rest ih =>
    unfold indices? at h
    split at h
    · rename_i hslot
      cases h
      refine Or.inl ⟨rfl, r, List.mem_cons_self, by simpa using hslot⟩
    · rename_i hslot
      split at h
      · cases h
      · rename_i hbank
        split at h
        · cases h
        · rename_i i hi
          obtain ⟨more, hmore, hok⟩ := bind_eq_ok.mp h
          cases hok
          rcases ih hmore with ⟨rfl, q, hq, hphysical⟩ | ⟨indices, rfl, hall, hmap⟩
          · exact Or.inl ⟨rfl, q, List.mem_cons_of_mem r hq, hphysical⟩
          · refine Or.inr ⟨i :: indices, rfl, ?_, ?_⟩
            · intro q hq
              rcases List.mem_cons.mp hq with rfl | hq
              · exact ⟨by simpa using hslot, not_not.mp hbank⟩
              · exact hall q hq
            · rw [List.map_cons, hi, hmap, List.map_cons]

/-- Linking a group binds the instances of its slots, unless it has none or a physical register is
among them. -/
theorem link_eq_ok {ls ls' : Links} (h : link a is ls d = .ok ls') :
    (∃ bank found, Finds a is d bank found ∧ ls' = ls.bind bank d.align found) ∨
      ¬ d.Effective ∧ ls' = ls := by
  unfold link at h
  split at h
  · rename_i hslots
    cases h
    exact Or.inr ⟨fun heff => heff.1 hslots, rfl⟩
  · rename_i first rest hslots
    split at h
    · cases h
    · cases h
    · rename_i b hb
      have hindex : slotIndex? a is d = fun r => indexAt? a is b r d.offset := by
        funext r
        simp only [slotIndex?, hb]
      obtain ⟨found, hfound, hok⟩ := bind_eq_ok.mp h
      rcases indices?_eq_ok hfound with ⟨rfl, r, hr, hphysical⟩ | ⟨indices, rfl, hall, hmap⟩
      · cases hok
        refine Or.inr ⟨fun heff => ?_, rfl⟩
        rw [heff.2 r hr] at hphysical
        cases hphysical
      · cases hok
        refine Or.inl ⟨first.bank, indices, ⟨⟨?_, fun r hr => (hall r hr).1⟩,
          fun r hr => (hall r hr).2, hindex ▸ hmap⟩, rfl⟩
        rw [hslots]
        exact List.cons_ne_nil first rest

/-- What a group asks of the links. -/
def Asks (a : Analysis) (is : List LiveInstance) (d : SlotGroup) (t : Links.Task) : Prop :=
  ∃ bank found, Finds a is d bank found ∧ t ∈ Links.groupTasks bank d.align found

theorem Asks.effective {t : Links.Task} (h : d.Asks a is t) : d.Effective := by
  obtain ⟨_, _, hfinds, _⟩ := h
  exact hfinds.effective

theorem Finds.asks_iff {bank : Bank} {found : List Nat} (h : Finds a is d bank found)
    {t : Links.Task} : d.Asks a is t ↔ t ∈ Links.groupTasks bank d.align found := by
  refine ⟨fun ht => ?_, fun ht => ⟨bank, found, h, ht⟩⟩
  obtain ⟨bank', found', h', ht⟩ := ht
  obtain ⟨rfl, rfl⟩ := h.unique h'
  exact ht

theorem keep_link {ls ls' : Links} {asked : Links.Task → Prop} (hkeep : Links.Keep asked ls)
    (h : link a is ls d = .ok ls') : Links.Keep (fun t => asked t ∨ d.Asks a is t) ls' := by
  rcases link_eq_ok h with ⟨bank, found, hfinds, rfl⟩ | ⟨hnot, rfl⟩
  · simp only [hfinds.asks_iff, Links.bind_eq_groupTasks]
    exact hkeep.foldl _
  · have hnone : ∀ t, ¬ d.Asks a is t := fun t ht => hnot ht.effective
    simpa only [hnone, or_false] using hkeep

theorem keep_foldlM {ds : List SlotGroup} {ls ls' : Links} {asked : Links.Task → Prop}
    (hkeep : Links.Keep asked ls) (h : ds.foldlM (link a is) ls = .ok ls') :
    Links.Keep (fun t => asked t ∨ ∃ d ∈ ds, d.Asks a is t) ls' := by
  induction ds generalizing asked ls with
  | nil =>
    cases h
    simpa using hkeep
  | cons d ds ih =>
    rw [List.foldlM_cons] at h
    obtain ⟨mid, hmid, h⟩ := bind_eq_ok.mp h
    simpa [or_assoc] using ih (keep_link hkeep hmid) h

/-- The links of all groups hold what the groups ask for. -/
theorem keep_linkAll {ds : List SlotGroup} {ls : Links} (h : linkAll a is ds = .ok ls) :
    Links.Keep (fun t => ∃ d ∈ ds, d.Asks a is t) ls := by
  simpa using keep_foldlM Links.keep_nil h

/-- The groups that were linked have found the instances of all their slots. -/
theorem finds_of_foldlM {ds : List SlotGroup} {ls ls' : Links}
    (h : ds.foldlM (link a is) ls = .ok ls') (hd : d ∈ ds) (heff : d.Effective) :
    ∃ bank found, Finds a is d bank found := by
  induction ds generalizing ls with
  | nil => exact absurd hd List.not_mem_nil
  | cons e ds ih =>
    rw [List.foldlM_cons] at h
    obtain ⟨mid, hmid, h⟩ := bind_eq_ok.mp h
    rcases List.mem_cons.mp hd with rfl | hd
    · rcases link_eq_ok hmid with ⟨bank, found, hfinds, _⟩ | ⟨hnot, _⟩
      · exact ⟨bank, found, hfinds⟩
      · exact absurd heff hnot
    · exact ih h hd

/-! ### From instances to slots -/

variable {bank : Bank} {found : List Nat} {u v : Nat}

theorem Finds.mem_iff (h : Finds a is d bank found) :
    u ∈ found ↔ ∃ r ∈ d.slots, slotIndex? a is d r = some u := by
  rw [← List.mem_map (f := slotIndex? a is d), h.found]
  simp

theorem Finds.head_iff (h : Finds a is d bank found) :
    found.head? = some u ↔ ∃ r, d.slots.head? = some r ∧ slotIndex? a is d r = some u := by
  have hhead := congrArg List.head? h.found
  rw [List.head?_map, List.head?_map] at hhead
  rw [← Option.map_eq_some_iff, hhead]
  cases found.head? with
  | none => simp
  | some v => simp

theorem Finds.infix_iff (h : Finds a is d bank found) : [u, v] <:+: found ↔
    ∃ r q, [r, q] <:+: d.slots ∧ slotIndex? a is d r = some u ∧ slotIndex? a is d q = some v := by
  constructor
  · intro hin
    have hmap := hin.map some
    rw [← h.found, List.infix_map_iff] at hmap
    obtain ⟨slots, hslots, heq⟩ := hmap
    obtain ⟨r, rest, rfl, hr, hrest⟩ := List.map_eq_cons_iff.mp heq.symm
    obtain ⟨q, rest, rfl, hq, hnil⟩ := List.map_eq_cons_iff.mp hrest
    rw [List.map_eq_nil_iff.mp hnil] at hslots
    exact ⟨r, q, hslots, hr, hq⟩
  · intro hin
    obtain ⟨r, q, hin, hr, hq⟩ := hin
    have hmap := hin.map (slotIndex? a is d)
    rw [h.found, List.infix_map_iff] at hmap
    obtain ⟨indices, hindices, heq⟩ := hmap
    have hsame : [u, v] = indices := by
      refine List.map_injective_iff.mpr (Option.some_injective Nat) (Eq.trans ?_ heq)
      simp [hr, hq]
    exact hsame ▸ hindices

/-- A group of a bank has two instances side by side, each the instance of one of its slots. -/
def SideBySide (a : Analysis) (is : List LiveInstance) (d : SlotGroup) (bank : Bank) (u v : Nat) :
    Prop :=
  d.Effective ∧ (∀ r ∈ d.slots, r.bank = bank) ∧ ∃ r q, [r, q] <:+: d.slots ∧
    slotIndex? a is d r = some u ∧ slotIndex? a is d q = some v

/-- A group of a bank has an instance for one of its slots. -/
def Holds (a : Analysis) (is : List LiveInstance) (d : SlotGroup) (bank : Bank) (u : Nat) : Prop :=
  d.Effective ∧ ∃ r ∈ d.slots, r.bank = bank ∧ slotIndex? a is d r = some u

/-- A group of a bank has an instance for its first slot. -/
def StartsWith (a : Analysis) (is : List LiveInstance) (d : SlotGroup) (bank : Bank) (u : Nat) :
    Prop :=
  d.Effective ∧ ∃ r, d.slots.head? = some r ∧ r.bank = bank ∧ slotIndex? a is d r = some u

theorem Finds.sideBySide_iff {c : Bank} (h : Finds a is d bank found) :
    d.SideBySide a is c u v ↔ c = bank ∧ [u, v] <:+: found := by
  rw [SideBySide, h.infix_iff, and_iff_right h.effective]
  refine and_congr_left fun _ => ⟨fun hbank => ?_, fun heq => heq ▸ h.bank⟩
  obtain ⟨r, hr⟩ := List.exists_mem_of_ne_nil d.slots h.effective.1
  exact (hbank r hr).symm.trans (h.bank r hr)

theorem Finds.holds_iff {c : Bank} (h : Finds a is d bank found) :
    d.Holds a is c u ↔ c = bank ∧ u ∈ found := by
  rw [Holds, h.mem_iff, and_iff_right h.effective]
  constructor
  · intro hslot
    obtain ⟨r, hr, hbank, hindex⟩ := hslot
    exact ⟨hbank.symm.trans (h.bank r hr), r, hr, hindex⟩
  · intro hslot
    obtain ⟨rfl, r, hr, hindex⟩ := hslot
    exact ⟨r, hr, h.bank r hr, hindex⟩

theorem Finds.startsWith_iff {c : Bank} (h : Finds a is d bank found) :
    d.StartsWith a is c u ↔ c = bank ∧ found.head? = some u := by
  rw [StartsWith, h.head_iff, and_iff_right h.effective]
  constructor
  · intro hslot
    obtain ⟨r, hr, hbank, hindex⟩ := hslot
    exact ⟨hbank.symm.trans (h.bank r (List.mem_of_head? hr)), r, hr, hindex⟩
  · intro hslot
    obtain ⟨rfl, r, hr, hindex⟩ := hslot
    exact ⟨r, hr, h.bank r (List.mem_of_head? hr), hindex⟩

section Linked

variable (hfinds : d.Effective → ∃ bank found, Finds a is d bank found)

include hfinds

theorem asks_next_iff : d.Asks a is ⟨bank, u, .next v⟩ ↔ d.SideBySide a is bank u v := by
  by_cases heff : d.Effective
  · obtain ⟨c, found, h⟩ := hfinds heff
    rw [h.asks_iff, Links.next_mem_groupTasks, h.sideBySide_iff]
  · exact iff_of_false (fun h => heff h.effective) fun h => heff h.1

theorem asks_prev_iff : d.Asks a is ⟨bank, v, .prev u⟩ ↔ d.SideBySide a is bank u v := by
  by_cases heff : d.Effective
  · obtain ⟨c, found, h⟩ := hfinds heff
    rw [h.asks_iff, Links.prev_mem_groupTasks, h.sideBySide_iff]
  · exact iff_of_false (fun h => heff h.effective) fun h => heff h.1

theorem asks_align_iff {n : Offset} :
    d.Asks a is ⟨bank, u, .align n⟩ ↔ d.StartsWith a is bank u ∧ d.align = n := by
  by_cases heff : d.Effective
  · obtain ⟨c, found, h⟩ := hfinds heff
    rw [h.asks_iff, Links.align_mem_groupTasks, h.startsWith_iff]
    tauto
  · exact iff_of_false (fun h => heff h.effective) fun h => heff h.1.1

theorem exists_asks_iff : (∃ e, d.Asks a is ⟨bank, u, e⟩) ↔ d.Holds a is bank u := by
  by_cases heff : d.Effective
  · obtain ⟨c, found, h⟩ := hfinds heff
    simp only [h.asks_iff, Links.exists_mem_groupTasks, h.holds_iff]
  · refine iff_of_false (fun h => ?_) fun h => heff h.1
    obtain ⟨e, h⟩ := h
    exact heff h.effective

end Linked

/-- Every number that is found for an instance is one of its bank. -/
theorem index?_lt {i : Instance} (h : LiveInstance.index? (LiveInstance.ofAnalysis a) i = some u) :
    u < ((LiveInstance.ofAnalysis a).filter fun e => e.bank == i.register.bank).length := by
  rw [LiveInstance.index?, Option.map_eq_some_iff] at h
  obtain ⟨e, hfind, rfl⟩ := h
  have hinst : e.inst = i := by simpa using List.find?_some hfind
  have hmem : e ∈ (LiveInstance.ofAnalysis a).filter fun e => e.bank == i.register.bank :=
    List.mem_filter.mpr ⟨List.mem_of_find?_eq_some hfind, by simp [LiveInstance.bank, hinst]⟩
  have hindex := List.mem_map_of_mem (f := LiveInstance.index) hmem
  rw [LiveInstance.ofAnalysis, LiveInstance.index_number] at hindex
  have hrange := List.mem_range'_1.mp hindex
  rw [List.count_nil, Nat.zero_add] at hrange
  exact hrange.2

theorem slotIndex?_lt {r : Register}
    (h : slotIndex? a (LiveInstance.ofAnalysis a) d r = some u) :
    u < ((LiveInstance.ofAnalysis a).filter fun e => e.bank == r.bank).length := by
  unfold slotIndex? at h
  split at h
  · obtain ⟨v, _, hindex⟩ := Option.bind_eq_some_iff.mp h
    exact index?_lt hindex
  · cases h

theorem SideBySide.lt {bank : Bank} {v : Nat}
    (h : d.SideBySide a (LiveInstance.ofAnalysis a) bank u v) :
    u < ((LiveInstance.ofAnalysis a).filter fun i => i.bank == bank).length ∧
      v < ((LiveInstance.ofAnalysis a).filter fun i => i.bank == bank).length := by
  obtain ⟨_, hbank, r, q, hin, hr, hq⟩ := h
  have hu := slotIndex?_lt hr
  have hv := slotIndex?_lt hq
  rw [hbank r (hin.subset List.mem_cons_self)] at hu
  rw [hbank q (hin.subset (List.mem_cons_of_mem r List.mem_cons_self))] at hv
  exact ⟨hu, hv⟩

/-- The links of groups. Every group with slots, all of variables, has an instance for each slot,
and its slots have one bank. One instance is linked to come right after another exactly if the other is
linked to come right before it, and exactly if the two stand side by side in some group; these lists
are ascending and name instances of the bank. An instance has an entry exactly if some group holds
it, and its alignment is the largest of those of the groups that it starts, but not below 0. -/
theorem links_of_groups {ds : List SlotGroup} {ls : Links}
    (h : linkAll a (LiveInstance.ofAnalysis a) ds = .ok ls) :
    (∀ d ∈ ds, d.Effective → ∃ bank, ∀ r ∈ d.slots, r.bank = bank ∧
      ∃ u, slotIndex? a (LiveInstance.ofAnalysis a) d r = some u) ∧
    ls.Pairwise Links.Before ∧
    ∀ bank u,
      (∀ v, (v ∈ (ls.get bank u).next ↔ u ∈ (ls.get bank v).prev) ∧
        (v ∈ (ls.get bank u).next ↔
          ∃ d ∈ ds, d.SideBySide a (LiveInstance.ofAnalysis a) bank u v)) ∧
      Ascending (ls.get bank u).next ∧ Ascending (ls.get bank u).prev ∧
      (∀ v ∈ (ls.get bank u).next ++ (ls.get bank u).prev,
        v < ((LiveInstance.ofAnalysis a).filter fun i => i.bank == bank).length) ∧
      ((∃ l ∈ ls, l.bank = bank ∧ l.index = u) ↔
        ∃ d ∈ ds, d.Holds a (LiveInstance.ofAnalysis a) bank u) ∧
      IsGreatest (insert 0 {n | ∃ d ∈ ds, d.StartsWith a (LiveInstance.ofAnalysis a) bank u ∧
        d.align = n}) (ls.get bank u).align := by
  have hkeep := keep_linkAll h
  have hfinds := fun d hd => finds_of_foldlM (d := d) h hd
  have hnext : ∀ bank u v, v ∈ (ls.get bank u).next ↔
      ∃ d ∈ ds, d.SideBySide a (LiveInstance.ofAnalysis a) bank u v := by
    intro bank u v
    rw [hkeep.next]
    exact exists_congr fun d => and_congr_right fun hd => asks_next_iff (hfinds d hd)
  have hprev : ∀ bank u v, u ∈ (ls.get bank v).prev ↔
      ∃ d ∈ ds, d.SideBySide a (LiveInstance.ofAnalysis a) bank u v := by
    intro bank u v
    rw [hkeep.prev]
    exact exists_congr fun d => and_congr_right fun hd => asks_prev_iff (hfinds d hd)
  refine ⟨?_, hkeep.ordered, fun bank u => ⟨?_, (hkeep.ascending bank u).1,
    (hkeep.ascending bank u).2, ?_, ?_, ?_⟩⟩
  · intro d hd heff
    obtain ⟨bank, found, hfound⟩ := hfinds d hd heff
    refine ⟨bank, fun r hr => ⟨hfound.bank r hr, ?_⟩⟩
    have hmem := List.mem_map_of_mem (f := slotIndex? a (LiveInstance.ofAnalysis a) d) hr
    rw [hfound.found] at hmem
    obtain ⟨u, _, hu⟩ := List.mem_map.mp hmem
    exact ⟨u, hu.symm⟩
  · exact fun v => ⟨(hnext bank u v).trans (hprev bank u v).symm, hnext bank u v⟩
  · intro v hv
    rcases List.mem_append.mp hv with hv | hv
    · obtain ⟨d, _, hside⟩ := (hnext bank u v).mp hv
      exact hside.lt.2
    · obtain ⟨d, _, hside⟩ := (hprev bank v u).mp hv
      exact hside.lt.1
  · rw [hkeep.entry]
    constructor
    · intro hasked
      obtain ⟨e, d, hd, hasks⟩ := hasked
      exact ⟨d, hd, (exists_asks_iff (hfinds d hd)).mp ⟨e, hasks⟩⟩
    · intro hheld
      obtain ⟨d, hd, hholds⟩ := hheld
      obtain ⟨e, hasks⟩ := (exists_asks_iff (hfinds d hd)).mpr hholds
      exact ⟨e, d, hd, hasks⟩
  · have hset : {n | ∃ d ∈ ds, d.Asks a (LiveInstance.ofAnalysis a) ⟨bank, u, .align n⟩}
        = {n | ∃ d ∈ ds, d.StartsWith a (LiveInstance.ofAnalysis a) bank u ∧ d.align = n} := by
      ext n
      exact exists_congr fun d => and_congr_right fun hd => asks_align_iff (hfinds d hd)
    rw [← hset]
    exact hkeep.align bank u

end SlotGroup

namespace Operands

/-- Groups that share slots, come back to a slot, or hold a physical register. -/
def shared : List SlotGroup :=
  [⟨8, 2, [x 0, y]⟩, ⟨8, 8, [y, x 1]⟩, ⟨8, 4, [x 0, x 1, x 0]⟩, ⟨0, 16, [x 0, x 1]⟩,
    ⟨0, 32, [x 0, Register.physical Bank.vector 3]⟩]

/-- Two instances that stand next to each other in either order are linked in either direction, and
the larger alignment counts. -/
theorem shared_links : ∃ ls, SlotGroup.linkAll result.analysis
      (LiveInstance.ofAnalysis result.analysis) shared = .ok ls ∧
    (ls.get Bank.vector 1).next = [2, 3] ∧ (ls.get Bank.vector 1).align = 4 ∧
    (∀ v, v ∈ [2, 3] ↔ ∃ d ∈ shared,
      d.SideBySide result.analysis (LiveInstance.ofAnalysis result.analysis) Bank.vector 1 v) ∧
    (∃ d ∈ shared,
      d.SideBySide result.analysis (LiveInstance.ofAnalysis result.analysis) Bank.vector 2 1) ∧
    ∀ d ∈ shared, d.StartsWith result.analysis (LiveInstance.ofAnalysis result.analysis)
      Bank.vector 1 → d.align ≤ 4 := by
  have hlinks : SlotGroup.linkAll result.analysis (LiveInstance.ofAnalysis result.analysis) shared
      = .ok [⟨Bank.vector, 0, 16, [], [2]⟩, ⟨Bank.vector, 1, 4, [2], [2, 3]⟩,
        ⟨Bank.vector, 2, 0, [0, 1, 3], [1]⟩, ⟨Bank.vector, 3, 8, [1], [2]⟩] := by
    cbv
  obtain ⟨_, _, htable⟩ := SlotGroup.links_of_groups hlinks
  obtain ⟨hnext, _, _, _, _, halign⟩ := htable Bank.vector 1
  have hback := ((htable Bank.vector 2).1 1).2
  refine ⟨_, hlinks, rfl, rfl, fun v => (hnext v).2, hback.mp (by decide), ?_⟩
  intro d hd hstarts
  exact halign.2 (Or.inr ⟨d, hd, hstarts, rfl⟩)

end Operands

end RegisterWeb
