import Mathlib
import RegisterWeb.Proofs.CallSet
import RegisterWeb.Proofs.Instructions

/-!
The order in which facts are listed. The usages of an instruction are merged whatever their order,
registers are sorted, and the demands of slot groups commute; so a section gives the same result when
its usages and groups are listed in another order, unless two variables share a name.
-/

namespace RegisterWeb

/-! ### Usages in another order -/

variable {us vs : List Usage}

theorem Usage.offsets_perm (h : us.Perm vs) : offsets us = offsets vs := by
  refine Ascending.eq_of_mem_iff (ascending_offsets us) (ascending_offsets vs) fun p => ?_
  simp only [mem_offsets, h.mem_iff]

theorem Touch.of?_perm {r : Register} {instr instr' : List Usage} {p : Offset}
    (h : instr.Perm instr') (hp : ∀ u ∈ instr, u.offset = p) : of? r instr = of? r instr' := by
  rw [of?_eq hp, of?_eq fun u hu => hp u (h.mem_iff.mpr hu), h.any_eq, h.any_eq]

namespace Summary

theorem touches_perm (h : us.Perm vs) (hus : us.Pairwise fun a b => a.offset.toInt ≤ b.offset.toInt)
    (hvs : vs.Pairwise fun a b => a.offset.toInt ≤ b.offset.toInt) (r : Register) :
    (instructions us).filterMap (Touch.of? r) = (instructions vs).filterMap (Touch.of? r) := by
  rw [instructions_eq hus, instructions_eq hvs, Usage.offsets_perm h, List.filterMap_map,
    List.filterMap_map]
  refine List.filterMap_congr fun p _ => ?_
  exact Touch.of?_perm (h.filter _) fun u hu => beq_iff_eq.mp (List.mem_filter.mp hu).2

theorem exists_usage_of_touched {r : Register} (h : r ∈ ((instructions us).flatMap touched).eraseDups) :
    ∃ u ∈ us, u.register = r := by
  obtain ⟨instr, hinstr, hr⟩ := List.mem_flatMap.mp (List.mem_eraseDups.mp h)
  obtain ⟨u, hu, rfl⟩ := List.mem_map.mp (List.mem_eraseDups.mp (List.mem_filter.mp hr).1)
  exact ⟨u, mem_of_mem_instructions hinstr hu, rfl⟩

end Summary

/-- The registers of usages are told apart by the order of registers. -/
def Usage.Told (us : List Usage) : Prop :=
  ∀ u ∈ us, ∀ v ∈ us, u.register.rank = v.register.rank → u.register = v.register

theorem Register.sort_perm {rs qs : List Register} (h : rs.Perm qs)
    (hties : ∀ r ∈ rs, ∀ q ∈ rs, r.rank = q.rank → r = q) : sort rs = sort qs := by
  have hperm : (sort rs).Perm (sort qs) :=
    ((List.mergeSort_perm _ _).trans h).trans (List.mergeSort_perm _ _).symm
  refine List.Perm.eq_of_pairwise ?_ (pairwise_sort rs) (pairwise_sort qs) hperm
  intro r q hr hq hle hge
  exact hties r (mem_sort.mp hr) q (h.mem_iff.mpr (mem_sort.mp hq)) (le_antisymm hle hge)

theorem Summary.ofUsages_perm (h : us.Perm vs)
    (hus : us.Pairwise fun a b => a.offset.toInt ≤ b.offset.toInt)
    (hvs : vs.Pairwise fun a b => a.offset.toInt ≤ b.offset.toInt) (htold : Usage.Told us) :
    ofUsages us = ofUsages vs := by
  have hregisters : Register.sort ((instructions us).flatMap touched).eraseDups
      = Register.sort ((instructions vs).flatMap touched).eraseDups := by
    refine Register.sort_perm ?_ ?_
    · refine (List.perm_ext_iff_of_nodup (nodup_eraseDups _) (nodup_eraseDups _)).mpr fun r => ?_
      rw [mem_flatMap_touched, mem_flatMap_touched, touches_perm h hus hvs]
    · intro r hr q hq hrank
      obtain ⟨u, hu, rfl⟩ := exists_usage_of_touched hr
      obtain ⟨v, hv, rfl⟩ := exists_usage_of_touched hq
      exact htold u hu v hv hrank
  unfold ofUsages
  simp only [hregisters, touches_perm h hus hvs]

theorem mapM_perm {ε α β : Type} {f : α → Except ε β} {l m : List α} (h : l.Perm m) {l' : List β}
    (hok : l.mapM f = .ok l') : ∃ m', m.mapM f = .ok m' ∧ l'.Perm m' := by
  induction h generalizing l' with
  | nil => exact ⟨l', hok, List.Perm.refl _⟩
  | cons a _ ih =>
    rw [List.mapM_cons] at hok
    obtain ⟨b, hb, hok⟩ := bind_eq_ok.mp hok
    obtain ⟨bs, hbs, hok⟩ := bind_eq_ok.mp hok
    cases hok
    obtain ⟨m', hm', hperm⟩ := ih hbs
    refine ⟨b :: m', ?_, hperm.cons b⟩
    rw [List.mapM_cons, hb, hm']
    rfl
  | swap a b l =>
    rw [List.mapM_cons, List.mapM_cons] at hok
    obtain ⟨y, hy, hok⟩ := bind_eq_ok.mp hok
    obtain ⟨xs, hxs, hok⟩ := bind_eq_ok.mp hok
    obtain ⟨x, hx, hxs⟩ := bind_eq_ok.mp hxs
    obtain ⟨zs, hzs, hxs⟩ := bind_eq_ok.mp hxs
    cases hxs
    cases hok
    refine ⟨x :: y :: zs, ?_, List.Perm.swap x y zs⟩
    rw [List.mapM_cons, List.mapM_cons, hx, hy, hzs]
    rfl
  | trans _ _ ih₁ ih₂ =>
    obtain ⟨m₁, hm₁, h₁⟩ := ih₁ hok
    obtain ⟨m₂, hm₂, h₂⟩ := ih₂ hm₁
    exact ⟨m₂, hm₂, h₁.trans h₂⟩

namespace Analysis

variable {g : Graph}

/-- The analysis does not depend on the order of the usages. -/
theorem ofUsages_perm (h : us.Perm vs) (htold : Usage.Told us) {a : Analysis}
    (hok : ofUsages g us = .ok a) : ofUsages g vs = .ok a := by
  have hsort : (Usage.sort us).Perm (Usage.sort vs) :=
    ((Usage.sort_perm us).trans h).trans (Usage.sort_perm vs).symm
  obtain ⟨placed, hplaced, hok⟩ := bind_eq_ok.mp hok
  obtain ⟨placed', hplaced', hperm⟩ := mapM_perm hsort hplaced
  have hsummaries : summarize g placed = summarize g placed' := by
    unfold summarize
    congr 1
    funext b
    have hmem : ∀ u ∈ (placed.filter fun p => p.1 == b).map Prod.snd, u ∈ us := by
      intro u hu
      have hu' := (List.filter_sublist.map Prod.snd).subset hu
      rw [map_snd_of_place hplaced] at hu'
      exact (Usage.sort_perm us).mem_iff.mp hu'
    exact Summary.ofUsages_perm ((hperm.filter _).map _) (pairwise_placed hplaced _)
      (pairwise_placed hplaced' _)
      fun u hu v hv => htold u (hmem u hu) v (hmem v hv)
  unfold ofUsages
  rw [hplaced', ← hok]
  show Except.ok _ = Except.ok _
  rw [hsummaries]

end Analysis

/-! ### Groups in another order -/

namespace Ascending

theorem insert_comm (i j : Nat) (l : List Nat) : insert i (insert j l) = insert j (insert i l) := by
  induction l with
  | nil =>
    simp only [insert]
    split <;> split <;> grind
  | cons k l ih =>
    simp only [insert]
    grind [insert]

end Ascending

namespace Links

/-- What a group asks of one of its instances: an alignment, or a neighbour. -/
inductive Demand where
  | align (n : Offset)
  | next (index : Nat)
  | prev (index : Nat)

/-- A link that also meets a demand. -/
def Demand.meet : Demand → Link → Link
  | align n, l => { l with align := max l.align n }
  | next i, l => { l with next := Ascending.insert i l.next }
  | prev i, l => { l with prev := Ascending.insert i l.prev }

theorem Demand.place_meet (d : Demand) (l : Link) :
    (d.meet l).bank = l.bank ∧ (d.meet l).index = l.index := by
  cases d <;> exact ⟨rfl, rfl⟩

theorem max_right_comm (a m n : Offset) : max (max a m) n = max (max a n) m := by
  rw [← Int64.toInt_inj]
  simp only [Offset.toInt_max]
  omega

theorem Demand.meet_comm (d d' : Demand) (l : Link) : d.meet (d'.meet l) = d'.meet (d.meet l) := by
  cases d <;> cases d' <;> simp only [meet, max_right_comm, Ascending.insert_comm]

/-- A demand on the instance with a number. -/
structure Task where
  bank : Bank
  index : Nat
  demand : Demand

def perform (ls : Links) (t : Task) : Links :=
  ls.update t.bank t.index t.demand.meet

theorem perform_comm (ls : Links) (s t : Task) :
    (ls.perform s).perform t = (ls.perform t).perform s := by
  obtain ⟨b, i, d⟩ := s
  obtain ⟨c, j, e⟩ := t
  simp only [perform]
  have hd := d.place_meet
  have he := e.place_meet
  have hcomm := Demand.meet_comm d e
  generalize d.meet = f at *
  generalize e.meet = g at *
  induction ls with
  | nil =>
    simp only [update, UInt8.lt_iff_toNat_lt, ← UInt8.toNat_inj, (hd _).1, (hd _).2, (he _).1,
      (he _).2]
    grind [UInt8.toNat_inj]
  | cons l ls ih =>
    simp only [update, UInt8.lt_iff_toNat_lt, ← UInt8.toNat_inj]
    grind [update, UInt8.toNat_inj, UInt8.lt_iff_toNat_lt]

/-- The demands of a chain. -/
def chainTasks (bank : Bank) : List Nat → List Task
  | [] => []
  | [_] => []
  | i :: j :: rest => ⟨bank, i, .next j⟩ :: ⟨bank, j, .prev i⟩ :: chainTasks bank (j :: rest)

theorem chain_eq (bank : Bank) (indices : List Nat) (ls : Links) :
    ls.chain bank indices = (chainTasks bank indices).foldl perform ls := by
  fun_induction chainTasks bank indices generalizing ls with
  | case1 => rfl
  | case2 => rfl
  | case3 i j rest ih => exact ih _

theorem bind_eq (bank : Bank) (n : Offset) (indices : List Nat) :
    ∃ ts : List Task, ∀ ls : Links, ls.bind bank n indices = ts.foldl perform ls := by
  cases indices with
  | nil => exact ⟨[], fun _ => rfl⟩
  | cons i rest =>
    refine ⟨⟨bank, i, .align n⟩ :: chainTasks bank (i :: rest), fun ls => ?_⟩
    exact chain_eq bank (i :: rest) _

theorem foldl_comm (ss ts : List Task) (ls : Links) :
    ts.foldl perform (ss.foldl perform ls) = ss.foldl perform (ts.foldl perform ls) := by
  rw [← List.foldl_append, ← List.foldl_append]
  exact List.perm_append_comm.foldl_eq' (fun s _ t _ ls => perform_comm ls s t) ls

end Links

namespace SlotGroup

variable {a : Analysis} {is : List LiveInstance}

/-- Whether a group can be linked, and what it asks for, does not depend on the links so far. -/
theorem link_cases (a : Analysis) (is : List LiveInstance) (d : SlotGroup) :
    (∃ ts : List Links.Task, ∀ ls, link a is ls d = .ok (ts.foldl Links.perform ls)) ∨
      ∃ e, ∀ ls, link a is ls d = .error e := by
  unfold link
  split
  · exact .inl ⟨[], fun _ => rfl⟩
  · rename_i first _ _
    split
    · exact .inr ⟨_, fun _ => rfl⟩
    · exact .inr ⟨_, fun _ => rfl⟩
    · rename_i b _
      cases indices? a is b d.offset first d.slots with
      | error e => exact .inr ⟨e, fun _ => rfl⟩
      | ok found =>
        cases found with
        | none => exact .inl ⟨[], fun _ => rfl⟩
        | some found =>
          obtain ⟨ts, hts⟩ := Links.bind_eq first.bank d.align found
          exact .inl ⟨ts, fun ls => congrArg Except.ok (hts ls)⟩

/-- Two groups can be linked in either order. -/
theorem link_swap {d e : SlotGroup} {ls ls₁ ls₂ : Links} (h₁ : link a is ls d = .ok ls₁)
    (h₂ : link a is ls₁ e = .ok ls₂) :
    ∃ ls', link a is ls e = .ok ls' ∧ link a is ls' d = .ok ls₂ := by
  obtain ⟨ss, hd⟩ | ⟨f, hd⟩ := link_cases a is d
  · obtain ⟨ts, he⟩ | ⟨f, he⟩ := link_cases a is e
    · cases (hd ls).symm.trans h₁
      cases (he _).symm.trans h₂
      refine ⟨_, he ls, ?_⟩
      rw [hd, Links.foldl_comm]
    · cases (he _).symm.trans h₂
  · cases (hd _).symm.trans h₁

theorem foldlM_link_perm {ds es : List SlotGroup} (h : ds.Perm es) {ls ls' : Links}
    (hok : ds.foldlM (link a is) ls = .ok ls') : es.foldlM (link a is) ls = .ok ls' := by
  induction h generalizing ls with
  | nil => exact hok
  | cons d _ ih =>
    rw [List.foldlM_cons] at hok ⊢
    obtain ⟨ls₁, h₁, hok⟩ := bind_eq_ok.mp hok
    exact bind_eq_ok.mpr ⟨ls₁, h₁, ih hok⟩
  | swap d e l =>
    simp only [List.foldlM_cons] at hok ⊢
    obtain ⟨ls₁, h₁, hok⟩ := bind_eq_ok.mp hok
    obtain ⟨ls₂, h₂, hok⟩ := bind_eq_ok.mp hok
    obtain ⟨ls₃, h₃, h₄⟩ := link_swap h₁ h₂
    exact bind_eq_ok.mpr ⟨ls₃, h₃, bind_eq_ok.mpr ⟨ls₂, h₄, hok⟩⟩
  | trans _ _ ih₁ ih₂ => exact ih₂ (ih₁ hok)

end SlotGroup

theorem Live.ofInstances_perm {a : Analysis} {is : List LiveInstance} {ds es : List SlotGroup}
    (h : ds.Perm es) {live : Live} (hok : ofInstances a is ds = .ok live) :
    ofInstances a is es = .ok live := by
  obtain ⟨links, hlinks, hok⟩ := bind_eq_ok.mp hok
  exact bind_eq_ok.mpr ⟨links, SlotGroup.foldlM_link_perm h hlinks, hok⟩

/-! ### Sections -/

namespace Usage

theorem register_of_mem_split {u w : Usage} (h : w ∈ u.split) :
    w.register.owner = u.register.owner ∧ w.register.bank = u.register.bank := by
  unfold split at h
  split at h
  · obtain ⟨r, hr, rfl⟩ := List.mem_map.mp h
    obtain ⟨i, _, rfl⟩ := List.mem_map.mp hr
    exact ⟨rfl, rfl⟩
  · rw [List.mem_singleton.mp h]
    exact ⟨rfl, rfl⟩

end Usage

/-- No two variables used in a section with the same bank share a name. -/
def Section.NamesApart (sec : Section) : Prop :=
  ∀ u ∈ sec.usages, ∀ u' ∈ sec.usages, u.register.bank = u'.register.bank →
    ∀ v ∈ u.register.owner, ∀ v' ∈ u'.register.owner, v.name = v'.name → v = v'

instance : DecidablePred Section.NamesApart := fun sec =>
  inferInstanceAs (Decidable (∀ u ∈ sec.usages, ∀ u' ∈ sec.usages, _))

theorem Section.told_expand {sec : Section} (h : sec.NamesApart) :
    Usage.Told (Usage.expand sec.usages).1 := by
  have hmem : ∀ {w : Usage}, w ∈ (Usage.expand sec.usages).1 →
      ∃ u ∈ sec.usages, w.register.owner = u.register.owner ∧
        w.register.bank = u.register.bank := by
    intro w hw
    obtain ⟨u, hu, hw⟩ := List.mem_flatMap.mp ((Usage.sort_perm _).mem_iff.mp hw)
    exact ⟨u, hu, Usage.register_of_mem_split hw⟩
  intro w hw w' hw' hrank
  obtain ⟨u, hu, howner, hbank⟩ := hmem hw
  obtain ⟨u', hu', howner', hbank'⟩ := hmem hw'
  have hbanks := Register.bank_eq_of_rank hrank
  refine Register.eq_of_rank hrank ?_
  intro v hv v' hv' hname
  exact h u hu u' hu' (hbank ▸ hbank' ▸ hbanks) v (howner ▸ hv) v' (howner' ▸ hv') hname

theorem Section.analyze_of_perm {settings : Settings} (sec sec' : Section)
    (hcode : sec'.code = sec.code) (hlength : sec'.length = sec.length)
    (hhints : sec'.hints = sec.hints) (husages : sec.usages.Perm sec'.usages)
    (hgroups : sec.groups.Perm sec'.groups) (hnames : sec.NamesApart) {result : Result}
    (hok : sec.analyze settings = .ok result) : sec'.analyze settings = .ok result := by
  have hsize : sec'.size = sec.size := by rw [size, size, hcode, hlength]
  have hsorted : (Usage.expand sec.usages).1.Perm (Usage.expand sec'.usages).1 :=
    ((Usage.sort_perm _).trans (husages.flatMap_right _)).trans (Usage.sort_perm _).symm
  have hall : ((Usage.expand sec.usages).2 ++ sec.groups).Perm
      ((Usage.expand sec'.usages).2 ++ sec'.groups) := (husages.filterMap _).append hgroups
  rw [analyze_eq] at hok ⊢
  obtain ⟨g, hg, hok⟩ := bind_eq_ok.mp hok
  obtain ⟨a, ha, hok⟩ := bind_eq_ok.mp hok
  obtain ⟨s, hs, hok⟩ := bind_eq_ok.mp hok
  obtain ⟨live, hlive, hok⟩ := bind_eq_ok.mp hok
  rw [hcode, hsize, hhints]
  refine bind_eq_ok.mpr ⟨g, hg, bind_eq_ok.mpr ⟨a, ?_, bind_eq_ok.mpr ⟨s, hs, ?_⟩⟩⟩
  · exact Analysis.ofUsages_perm hsorted (told_expand hnames) ha
  · exact bind_eq_ok.mpr ⟨live, Live.ofInstances_perm hall hlive, hok⟩

/-- The order in which usages and groups are listed does not matter, neither to whether a section can
be analysed nor to what comes out. -/
theorem Section.analyze_reordered {settings : Settings} {sec : Section} {us : List Usage}
    {ds : List SlotGroup} (husages : us.Perm sec.usages) (hgroups : ds.Perm sec.groups)
    (hnames : sec.NamesApart) (result : Result) :
    ({ sec with usages := us, groups := ds } : Section).analyze settings = .ok result ↔
      sec.analyze settings = .ok result := by
  have hnames' : ({ sec with usages := us, groups := ds } : Section).NamesApart := by
    intro u hu u' hu'
    exact hnames u (husages.mem_iff.mp hu) u' (husages.mem_iff.mp hu')
  constructor
  · exact analyze_of_perm { sec with usages := us, groups := ds } sec rfl rfl rfl husages hgroups
      hnames'
  · exact analyze_of_perm sec { sec with usages := us, groups := ds } rfl rfl rfl husages.symm
      hgroups.symm hnames

namespace Operands

def x (i : Offset) : Register := Register.slot ⟨0, "x", Bank.vector⟩ i

def y : Register := Register.slot ⟨1, "y", Bank.vector⟩ 0

/-- One instruction both reads and overwrites a slot, and three groups share slots. -/
def source : Section where
  code := #[]
  length := 12
  hints := [⟨8, .halt, [], 0⟩]
  usages := [⟨0, x 0, 2, 2, false, true⟩, ⟨4, y, 1, 0, false, true⟩, ⟨4, x 0, 1, 0, true, false⟩,
    ⟨4, x 0, 1, 0, false, true⟩, ⟨8, y, 1, 0, true, false⟩, ⟨8, x 0, 2, 4, true, false⟩]
  groups := [⟨8, 2, [x 0, y]⟩, ⟨8, 8, [y, x 1]⟩]

def result : Result := ((source.analyze (Settings.standard 1)).toOption).getD default

theorem evaluates : source.analyze (Settings.standard 1) = .ok result ∧
    result.live.links = [⟨Bank.vector, 0, 2, [], [2]⟩, ⟨Bank.vector, 1, 4, [], [2, 3]⟩,
      ⟨Bank.vector, 2, 0, [0, 1, 3], []⟩, ⟨Bank.vector, 3, 8, [1], [2]⟩] := by
  cbv

/-- The facts listed backwards give the same result. -/
theorem analyze_backwards : source.NamesApart ∧ source.usages.reverse ≠ source.usages ∧
    source.groups.reverse ≠ source.groups ∧
    ({ source with usages := source.usages.reverse, groups := source.groups.reverse } :
      Section).analyze (Settings.standard 1) = .ok result :=
  ⟨by decide, by decide, by decide, (Section.analyze_reordered (List.reverse_perm _)
    (List.reverse_perm _) (by decide) result).mpr evaluates.1⟩

end Operands

end RegisterWeb
