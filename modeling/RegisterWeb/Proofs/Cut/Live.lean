import Mathlib
import RegisterWeb.Proofs.Cut.Flow
import RegisterWeb.Proofs.Cut.Order

/-!
Liveness in a graph in which a block was cut. A register is live where the second part starts if it
is read there first, or passes through to the end; exactly then it is live at the end of the first
part. So the extents in the two parts add up to the extent in the whole block.
-/

namespace RegisterWeb

open RegisterWeb.Seam

namespace Track

/-- What a track says about a block follows from the accesses there. -/
structure Regular (t : Track) : Prop where
  readsFirst : ∀ b, t.readsFirst b = ((t.accesses b).head?.map Access.reads).getD false
  isWritten : ∀ b, t.isWritten b = (t.accesses b).any fun x => x.write.isSome
  isSome : ∀ b, (t.uses.get b).isSome = true ↔ t.accesses b ≠ []
  acts : ∀ b, ∀ x ∈ t.accesses b, x.reads = true ∨ x.write ≠ none

end Track

namespace Walk

/-- The versions that are current after some accesses. -/
def after (current : VersionSet) (l : List Access) : VersionSet :=
  match (l.filterMap Access.write).getLast? with
  | some w => [w]
  | none => current

theorem after_cons_write {current : VersionSet} {x : Access} {w : Version} (hx : x.write = some w)
    (l : List Access) : after current (x :: l) = after [w] l := by
  rw [after, after, List.filterMap_cons, hx]
  show (match (w :: l.filterMap Access.write).getLast? with
    | some w => [w]
    | none => current) = _
  rw [List.getLast?_cons]
  cases (l.filterMap Access.write).getLast? with
  | none => rfl
  | some u => rfl

theorem after_cons_none {current : VersionSet} {x : Access} (hx : x.write = none)
    (l : List Access) : after current (x :: l) = after current l := by
  rw [after, after, List.filterMap_cons, hx]

/-- Whether the versions at the start of some accesses are needed: one of them is read first, or
they pass through to an end where the register is live. -/
def Needs (leaves : Bool) (l : List Access) : Prop :=
  (l.head?.map Access.reads).getD false = true ∨ (leaves = true ∧ ∀ x ∈ l, x.write = none)

section Extent

variable {leaves : Bool} {stop s p since : Offset} {v : Version} {current : VersionSet}
  {l first second : List Access}

theorem Extends.split (h : Extends leaves stop v p current since l) :
    (v ∈ current ∧ since ≤ p ∧ p < s) ∨ Extends leaves stop v p current s l := by
  induction l with
  | nil =>
    obtain ⟨hleaves, hv, hlow, hhigh⟩ := h
    by_cases hps : p < s
    · exact Or.inl ⟨hv, hlow, hps⟩
    · exact Or.inr ⟨hleaves, hv, Int64.not_lt.mp hps, hhigh⟩
  | cons x l ih =>
    rcases h with ⟨hreads, hv, hlow, hhigh⟩ | hrest
    · by_cases hps : p < s
      · exact Or.inl ⟨hv, hlow, hps⟩
      · exact Or.inr (Or.inl ⟨hreads, hv, Int64.not_lt.mp hps, hhigh⟩)
    · cases hx : x.write with
      | some w =>
        simp only [hx] at hrest
        refine Or.inr (Or.inr ?_)
        simp only [hx]
        exact hrest
      | none =>
        simp only [hx] at hrest
        refine (ih hrest).imp_right fun hrest => Or.inr ?_
        simp only [hx]
        exact hrest

theorem Extends.earlier (h : Extends leaves stop v p current s l) (hsince : since ≤ s) :
    Extends leaves stop v p current since l := by
  induction l with
  | nil =>
    obtain ⟨hleaves, hv, hlow, hhigh⟩ := h
    exact ⟨hleaves, hv, Int64.le_trans hsince hlow, hhigh⟩
  | cons x l ih =>
    refine h.imp (fun h => ⟨h.1, h.2.1, Int64.le_trans hsince h.2.2.1, h.2.2.2⟩) fun hrest => ?_
    cases hx : x.write with
    | some w =>
      simp only [hx] at hrest ⊢
      exact hrest
    | none =>
      simp only [hx] at hrest ⊢
      exact ih hrest

theorem Needs.extends (h : Needs leaves l) (hl : ∀ x ∈ l, s ≤ x.offset ∧ x.offset < stop)
    (hs : s ≤ stop) (hv : v ∈ current) (hlow : since ≤ p) (hhigh : p < s) :
    Extends leaves stop v p current since l := by
  induction l with
  | nil =>
    rcases h with hreads | ⟨hleaves, _⟩
    · exact absurd hreads Bool.false_ne_true
    · exact ⟨hleaves, hv, hlow, Int64.lt_of_lt_of_le hhigh hs⟩
  | cons x l ih =>
    have hx := hl x List.mem_cons_self
    rcases h with hreads | ⟨hleaves, hquiet⟩
    · refine Or.inl ⟨hreads, hv, hlow, ?_⟩
      have hnext := Offset.toInt_add_one hx.2
      rw [Int64.lt_iff_toInt_lt] at hhigh ⊢
      rw [Int64.le_iff_toInt_le] at hx
      omega
    · refine Or.inr ?_
      simp only [hquiet x List.mem_cons_self]
      exact ih (Or.inr ⟨hleaves, fun y hy => hquiet y (List.mem_cons_of_mem x hy)⟩)
        fun y hy => hl y (List.mem_cons_of_mem x hy)

/-- Versions that are not needed leave no trace. -/
theorem Extends.of_not_needs (h : Extends leaves stop v p current since l)
    (hneeds : ¬ Needs leaves l) (hacts : ∀ x ∈ l, x.reads = true ∨ x.write ≠ none)
    (current' : VersionSet) (since' : Offset) : Extends leaves stop v p current' since' l := by
  cases l with
  | nil => exact absurd (Or.inr ⟨h.1, fun x hx => absurd hx List.not_mem_nil⟩) hneeds
  | cons x l =>
    have hreads : ¬ x.reads = true := fun hreads => hneeds (Or.inl hreads)
    obtain ⟨w, hw⟩ := Option.ne_none_iff_exists'.mp
      ((hacts x List.mem_cons_self).resolve_left hreads)
    refine Or.inr ?_
    have hrest := h.resolve_left fun h => hreads h.1
    simp only [hw] at hrest ⊢
    exact hrest

/-- The extents in two parts of a block add up to the extent in the whole. -/
theorem extends_append (hfirst : ∀ x ∈ first, x.offset < s)
    (hsecond : ∀ x ∈ second, s ≤ x.offset ∧ x.offset < stop) (hs : s ≤ stop)
    (hacts : ∀ x ∈ second, x.reads = true ∨ x.write ≠ none) (hsince : since ≤ s) {needed : Bool}
    (hneeded : needed = true ↔ Needs leaves second) :
    Extends leaves stop v p current since (first ++ second) ↔
      Extends needed s v p current since first ∨
        Extends leaves stop v p (if needed then after current first else []) s second := by
  induction first generalizing current since with
  | nil =>
    show Extends leaves stop v p current since second ↔
      (needed = true ∧ v ∈ current ∧ since ≤ p ∧ p < s) ∨
        Extends leaves stop v p (if needed then current else []) s second
    cases needed with
    | true =>
      have hneeds := hneeded.mp rfl
      constructor
      · intro h
        exact h.split.imp_left fun h => ⟨rfl, h⟩
      · rintro (⟨_, hv, hlow, hhigh⟩ | h)
        · exact hneeds.extends hsecond hs hv hlow hhigh
        · exact h.earlier hsince
    | false =>
      have hneeds : ¬ Needs leaves second := fun h => Bool.false_ne_true (hneeded.mpr h)
      constructor
      · intro h
        exact Or.inr (h.of_not_needs hneeds hacts _ _)
      · rintro (⟨h, _⟩ | h)
        · exact absurd h Bool.false_ne_true
        · exact h.of_not_needs hneeds hacts _ _
  | cons x first ih =>
    have hx := hfirst x List.mem_cons_self
    have hnext : x.offset + 1 ≤ s := by
      have hnext := Offset.toInt_add_one hx
      rw [Int64.lt_iff_toInt_lt] at hx
      rw [Int64.le_iff_toInt_le]
      omega
    have hfirst' : ∀ y ∈ first, y.offset < s := fun y hy => hfirst y (List.mem_cons_of_mem x hy)
    rw [List.cons_append]
    cases hw : x.write with
    | some w =>
      rw [after_cons_write hw]
      simp only [Extends, hw, ih hfirst' hnext, or_assoc]
    | none =>
      rw [after_cons_none hw]
      simp only [Extends, hw, ih hfirst' hsince, or_assoc]

end Extent

end Walk

namespace Track

/-- In the parts of block `i` a track does what another one does in the whole block. -/
structure Cut (i : Nat) (t t' : Track) : Prop where
  regular : t.Regular
  regular' : t'.Regular
  other : ∀ b, b ≠ i → t'.accesses (head i b) = t.accesses b
  self : t.accesses i = t'.accesses i ++ t'.accesses (i + 1)
  entering : ∀ b, t'.entering (head i b) = t.entering b
  enteringSucc : t'.entering (i + 1) = Walk.after (t.entering i) (t'.accesses i)

namespace Cut

variable {g g' : Graph} {i b : Nat} {t t' : Track}

theorem readsFirst_head (h : t.Cut i t') (hb : b ≠ i) :
    t'.readsFirst (head i b) = t.readsFirst b := by
  rw [h.regular'.readsFirst, h.regular.readsFirst, h.other b hb]

theorem isWritten_head (h : t.Cut i t') (hb : b ≠ i) :
    t'.isWritten (head i b) = t.isWritten b := by
  rw [h.regular'.isWritten, h.regular.isWritten, h.other b hb]

theorem isWritten_self (h : t.Cut i t') :
    t.isWritten i = (t'.isWritten i || t'.isWritten (i + 1)) := by
  rw [h.regular.isWritten, h.self, List.any_append, h.regular'.isWritten, h.regular'.isWritten]

theorem readsFirst_self (h : t.Cut i t') :
    t.readsFirst i = true ↔
      t'.readsFirst i = true ∨ (t'.accesses i = [] ∧ t'.readsFirst (i + 1) = true) := by
  rw [h.regular.readsFirst, h.self, h.regular'.readsFirst, h.regular'.readsFirst]
  cases t'.accesses i with
  | nil => simp
  | cons x l => simp

/-- A first part that does not read on entry writes, or does nothing. -/
theorem readsFirst_of_quiet (h : t.Cut i t') (hquiet : t'.isWritten i = false)
    (hne : t'.accesses i ≠ []) : t'.readsFirst i = true := by
  rw [h.regular'.readsFirst]
  rw [h.regular'.isWritten, List.any_eq_false] at hquiet
  have hacts := h.regular'.acts i
  cases hacc : t'.accesses i with
  | nil => exact absurd hacc hne
  | cons x l =>
    rw [hacc] at hquiet hacts
    have hx := hquiet x List.mem_cons_self
    refine (hacts x List.mem_cons_self).resolve_right fun hw => hx ?_
    exact Option.isSome_iff_ne_none.mpr hw

theorem quiet_iff (h : t.Regular) (b : Nat) :
    t.isWritten b = false ↔ ∀ x ∈ t.accesses b, x.write = none := by
  rw [h.isWritten, List.any_eq_false]
  simp only [Option.not_isSome_iff_eq_none]

/-! ### Scopes -/

theorem touches_iff (hg : g.WellFormed) (h : t.Regular) {q : Routine} (hq : q ∈ g.routines) :
    t.touches g g.scopes q.entry = true ↔
      ∃ b < g.size, g.Reaches q.entry b ∧ t.accesses b ≠ [] := by
  simp only [touches, List.any_eq_true, List.mem_range, Bool.and_eq_true, hg.inScope_iff hq,
    h.isSome]

theorem touches_head (h : t.Cut i t') (hcut : g.Cut g' i) (hg : g.WellFormed) (hg' : g'.WellFormed)
    {q q' : Routine} (hq : q ∈ g.routines) (hq' : q' ∈ g'.routines)
    (hentry : q'.entry = head i q.entry) :
    t'.touches g' g'.scopes q'.entry = t.touches g g.scopes q.entry := by
  rw [Bool.eq_iff_iff, touches_iff hg' h.regular' hq', touches_iff hg h.regular hq, hentry,
    hcut.size]
  constructor
  · rintro ⟨x, hx, hpath, hacc⟩
    obtain ⟨b, hpath, hb⟩ := (hcut.reaches_iff x).mp hpath
    refine ⟨b, Leads.lt_of_path (hg.entry_lt hq) hpath, hpath, ?_⟩
    by_cases hbi : b = i
    · subst hbi
      rw [h.self]
      intro hnil
      obtain ⟨hfirst, hsecond⟩ := List.append_eq_nil_iff.mp hnil
      rcases mem_parts.mp hb with rfl | rfl
      · exact hacc (by rw [head_self, hfirst])
      · exact hacc (by rw [tail_self, hsecond])
    · rw [parts_of_ne hbi, List.mem_singleton] at hb
      rwa [hb, h.other b hbi] at hacc
  · rintro ⟨b, hb, hpath, hacc⟩
    by_cases hbi : b = i
    · subst hbi
      rw [h.self, Ne, List.append_eq_nil_iff, not_and_or] at hacc
      rcases hacc with hacc | hacc
      · exact ⟨b, Nat.lt_succ_of_lt hb, hcut.reaches_self.mpr hpath, hacc⟩
      · exact ⟨b + 1, Nat.succ_lt_succ hb, hcut.reaches_succ.mpr hpath, hacc⟩
    · refine ⟨head i b, (head_lt hcut.lt).mpr hb, hcut.reaches_head.mpr hpath, ?_⟩
      rwa [h.other b hbi]

/-- Calls of a routine pass a register by with the cut if they do without it. -/
theorem get_touches_head (h : t.Cut i t') (hcut : g.Cut g' i) (hg : g.WellFormed)
    (hg' : g'.WellFormed) {q : Routine} (hq : q ∈ g.routines) :
    (Table.tabulate g'.size (t'.touches g' g'.scopes)).get (head i q.entry)
      = (Table.tabulate g.size (t.touches g g.scopes)).get q.entry := by
  obtain ⟨q', hq', hmates⟩ := hcut.exists_mate hg hg' hq
  rw [get_touches, get_touches, ← hmates.entry, h.touches_head hcut hg hg' hq hq' hmates.entry]

/-! ### Where liveness comes from -/

theorem mem_resumptions (hcut : g.Cut g' i) (hg : g.WellFormed) (hg' : g'.WellFormed) {c : Nat}
    (hc : c ∈ (g.block b).callees) (x : Nat) :
    x ∈ LiveFlow.resumptions g' (tail i b) (head i c) ↔
      ∃ k ∈ LiveFlow.resumptions g b c, x = head i k := by
  unfold LiveFlow.resumptions
  rw [hcut.continuation?_tail]
  cases (g.block b).continuation? with
  | some k => simp
  | none =>
    obtain ⟨q, hq, rfl⟩ := hg.exists_routine hc
    obtain ⟨q', hq', hmates⟩ := hcut.exists_mate hg hg' hq
    rw [← hmates.entry, hg.routine?_entry hq, hg'.routine?_entry hq']
    exact hmates.conts x

theorem follows_tail (h : t.Cut i t') (hcut : g.Cut g' i) (hg : g.WellFormed)
    (hg' : g'.WellFormed) (x : Nat) :
    LiveFlow.Follows g' (Table.tabulate g'.size (t'.touches g' g'.scopes)) (tail i b) x ↔
      ∃ c, LiveFlow.Follows g (Table.tabulate g.size (t.touches g g.scopes)) b c ∧
        x = head i c := by
  constructor
  · intro hfollows
    cases hfollows with
    | edge hnext hdirect =>
      rw [hcut.next] at hnext
      obtain ⟨e, he, rfl⟩ := List.mem_map.mp hnext
      rw [hcut.calls] at hdirect
      exact ⟨e.block, .edge he hdirect, rfl⟩
    | past hcalls hcallee hfree hresumes =>
      rw [hcut.callees_tail] at hcallee
      obtain ⟨c, hc, rfl⟩ := List.mem_map.mp hcallee
      obtain ⟨q, hq, rfl⟩ := hg.exists_routine hc
      obtain ⟨k, hk, rfl⟩ := (mem_resumptions hcut hg hg' hc x).mp hresumes
      rw [h.get_touches_head hcut hg hg' hq] at hfree
      exact ⟨k, .past (hcut.calls b ▸ hcalls) hc hfree hk, rfl⟩
    | @back q' _ hq' hreturns htouches hconts =>
      obtain ⟨q, hq, hmates⟩ := hcut.exists_mate' hg hg' hq'
      obtain ⟨c, hc, hbc⟩ := (hmates.returns _).mp hreturns
      obtain rfl := tail_inj.mp hbc
      obtain ⟨k, hk, rfl⟩ := (hmates.conts x).mp hconts
      rw [hmates.entry, h.get_touches_head hcut hg hg' hq] at htouches
      exact ⟨k, .back hq hc htouches hk, rfl⟩
  · rintro ⟨c, hfollows, rfl⟩
    cases hfollows with
    | @edge e hnext hdirect =>
      refine .edge (e := ⟨head i e.block, e.isCall⟩) ?_ (hcut.calls b ▸ hdirect)
      rw [hcut.next]
      exact List.mem_map_of_mem hnext
    | past hcalls hcallee hfree hresumes =>
      obtain ⟨q, hq, rfl⟩ := hg.exists_routine hcallee
      rw [← h.get_touches_head hcut hg hg' hq] at hfree
      exact .past (hcut.calls b ▸ hcalls) (hcut.head_mem_callees.mpr hcallee) hfree
        ((mem_resumptions hcut hg hg' hcallee _).mpr ⟨c, hresumes, rfl⟩)
    | @back q _ hq hreturns htouches hconts =>
      obtain ⟨q', hq', hmates⟩ := hcut.exists_mate hg hg' hq
      rw [← h.get_touches_head hcut hg hg' hq, ← hmates.entry] at htouches
      exact .back hq' ((hmates.returns _).mpr ⟨b, hreturns, rfl⟩) htouches
        ((hmates.conts _).mpr ⟨c, hconts, rfl⟩)

theorem follows_first (hcut : g.Cut g' i) (hg' : g'.WellFormed) (touched : Table Bool) (x : Nat) :
    LiveFlow.Follows g' touched i x ↔ x = i + 1 := by
  constructor
  · intro hfollows
    cases hfollows with
    | edge hnext _ =>
      rw [hcut.inner, List.mem_singleton] at hnext
      rw [hnext]
    | past hcalls _ _ _ =>
      rw [hcut.still.1] at hcalls
      exact absurd hcalls Bool.false_ne_true
    | back hq hreturns _ _ =>
      have hret := ((hg'.mem_returns hq i).mp hreturns).2.2
      rw [hcut.still.2] at hret
      exact absurd hret Bool.false_ne_true
  · rintro rfl
    refine .edge (e := ⟨i + 1, false⟩) ?_ (Or.inr hcut.still.1)
    rw [hcut.inner]
    exact List.mem_singleton_self _

/-! ### Liveness -/

section Closed

variable {l l' : LiveFlow}

/-- An account of liveness for the graph without the cut. -/
def narrowLive (i n : Nat) (l : LiveFlow) : LiveFlow :=
  ⟨narrow i n l.enters, Table.tabulate n fun b => l.leaves.get (tail i b)⟩

/-- An account of liveness for the graph with the cut; `mid` tells whether the register is live at
the seam. -/
def widenLive (i n : Nat) (l : LiveFlow) (mid : Bool) : LiveFlow :=
  ⟨widen i n l.enters mid, Table.tabulate (n + 1) fun x =>
    if x = i then mid else l.leaves.get (if x < i then x else x - 1)⟩

theorem leaves_narrow {n : Nat} (hb : b < n) (l : LiveFlow) :
    (narrowLive i n l).leaves.get b = l.leaves.get (tail i b) := by
  rw [narrowLive, Table.get_tabulate, if_pos hb]

theorem leaves_widen_tail {n : Nat} (hi : i < n) (hb : b < n) (l : LiveFlow) (mid : Bool) :
    (widenLive i n l mid).leaves.get (tail i b) = l.leaves.get b := by
  have hback : (if tail i b < i then tail i b else tail i b - 1) = b := by
    by_cases hbi : b < i
    · rw [tail, if_pos hbi, if_pos hbi]
    · rw [tail, if_neg hbi, if_neg (by omega), Nat.add_sub_cancel]
  rw [widenLive, Table.get_tabulate, if_pos ((tail_lt hi).mpr hb), if_neg tail_ne, hback]

theorem leaves_widen_self {n : Nat} (hi : i < n) (l : LiveFlow) (mid : Bool) :
    (widenLive i n l mid).leaves.get i = mid := by
  rw [widenLive, Table.get_tabulate, if_pos (Nat.lt_succ_of_lt hi), if_pos rfl]

theorem closed_narrow (h : t.Cut i t') (hcut : g.Cut g' i) (hg : g.WellFormed)
    (hg' : g'.WellFormed)
    (hl' : l'.Closed g' t' (Table.tabulate g'.size (t'.touches g' g'.scopes))) :
    (narrowLive i g.size l').Closed g t (Table.tabulate g.size (t.touches g g.scopes)) := by
  have hlt : ∀ b, b < g.size → head i b < g'.size ∧ tail i b < g'.size := by
    intro b hb
    rw [hcut.size]
    exact ⟨(head_lt hcut.lt).mpr hb, (tail_lt hcut.lt).mpr hb⟩
  -- Live at the start of the second part is live at the end of the first.
  have hback : l'.enters.get (i + 1) = true → l'.leaves.get i = true :=
    hl'.leaves i hcut.first_lt (i + 1) ((follows_first hcut hg' _ _).mpr rfl)
  refine ⟨?_, ?_, ?_⟩
  · intro b hb c hfollows hc
    have hcsize : c < g.size := by
      by_contra hge
      rw [narrowLive, narrow, Table.get_tabulate, if_neg hge] at hc
      exact Bool.false_ne_true hc
    rw [leaves_narrow hb]
    refine hl'.leaves _ (hlt b hb).2 (head i c)
      ((h.follows_tail hcut hg hg' _).mpr ⟨c, hfollows, rfl⟩) ?_
    rwa [narrowLive, get_narrow hcsize] at hc
  · intro b hb hleaves hquiet
    rw [leaves_narrow hb] at hleaves
    rw [narrowLive, get_narrow hb]
    by_cases hbi : b = i
    · subst hbi
      rw [h.isWritten_self, Bool.or_eq_false_iff] at hquiet
      rw [tail_self] at hleaves
      rw [head_self]
      exact hl'.passes b hcut.first_lt (hback (hl'.passes _ hcut.second_lt hleaves hquiet.2))
        hquiet.1
    · rw [tail_of_ne hbi] at hleaves
      exact hl'.passes _ (hlt b hb).1 hleaves (by rw [h.isWritten_head hbi, hquiet])
  · intro b hb hreads
    rw [narrowLive, get_narrow hb]
    by_cases hbi : b = i
    · subst hbi
      rw [head_self]
      rcases h.readsFirst_self.mp hreads with hreads | ⟨hnil, hreads⟩
      · exact hl'.reads b hcut.first_lt hreads
      · refine hl'.passes b hcut.first_lt (hback (hl'.reads _ hcut.second_lt hreads)) ?_
        rw [h.regular'.isWritten, hnil]
        rfl
    · exact hl'.reads _ (hlt b hb).1 (by rw [h.readsFirst_head hbi, hreads])

/-- A block is live where it starts if its second part is and its first part does not write. -/
theorem enters_of_wanted (h : t.Cut i t') (hcut : g.Cut g' i) {touched : Table Bool}
    (hl : l.Closed g t touched) (hwanted : LiveFlow.wanted t' (i + 1) (l.leaves.get i) = true)
    (hquiet : t'.isWritten i = false) : l.enters.get i = true := by
  rw [LiveFlow.wanted, Bool.or_eq_true, Bool.and_eq_true, Bool.not_eq_true'] at hwanted
  rcases hwanted with hreads | ⟨hleaves, hquiet'⟩
  · refine hl.reads i hcut.lt (h.readsFirst_self.mpr ?_)
    by_cases hnil : t'.accesses i = []
    · exact Or.inr ⟨hnil, hreads⟩
    · exact Or.inl (h.readsFirst_of_quiet hquiet hnil)
  · exact hl.passes i hcut.lt hleaves (by rw [h.isWritten_self, hquiet, hquiet', Bool.or_self])

theorem closed_widen (h : t.Cut i t') (hcut : g.Cut g' i) (hg : g.WellFormed)
    (hg' : g'.WellFormed)
    (hl : l.Closed g t (Table.tabulate g.size (t.touches g g.scopes))) :
    (widenLive i g.size l (LiveFlow.wanted t' (i + 1) (l.leaves.get i))).Closed g' t'
      (Table.tabulate g'.size (t'.touches g' g'.scopes)) := by
  set mid := LiveFlow.wanted t' (i + 1) (l.leaves.get i) with hmid
  have hhead : ∀ b < g.size, (widenLive i g.size l mid).enters.get (head i b) = l.enters.get b :=
    fun b hb => get_widen_head hcut.lt hb _ _
  have hsucc : (widenLive i g.size l mid).enters.get (i + 1) = mid := get_widen_succ hcut.lt _ _
  have hself : (widenLive i g.size l mid).enters.get i = l.enters.get i := by
    simpa using hhead i hcut.lt
  refine ⟨?_, ?_, ?_⟩
  · intro x hx y hfollows hy
    by_cases hxi : x = i
    · subst hxi
      rw [(follows_first hcut hg' _ y).mp hfollows, hsucc] at hy
      rw [leaves_widen_self hcut.lt, hy]
    · obtain ⟨b, rfl⟩ := exists_tail hxi
      have hb : b < g.size := (tail_lt hcut.lt).mp (hcut.size ▸ hx)
      obtain ⟨c, hfollows', rfl⟩ := (h.follows_tail hcut hg hg' y).mp hfollows
      have hc : c < g.size := by
        by_contra hge
        rw [widenLive, widen, Table.get_tabulate,
          if_neg fun hlt => hge ((head_lt hcut.lt).mp hlt)] at hy
        exact Bool.false_ne_true hy
      rw [leaves_widen_tail hcut.lt hb]
      rw [hhead c hc] at hy
      exact hl.leaves b hb c hfollows' hy
  · intro x hx hleaves hquiet
    by_cases hxi : x = i
    · subst hxi
      rw [leaves_widen_self hcut.lt] at hleaves
      rw [hself]
      exact h.enters_of_wanted hcut hl hleaves hquiet
    · obtain ⟨b, rfl⟩ := exists_tail hxi
      have hb : b < g.size := (tail_lt hcut.lt).mp (hcut.size ▸ hx)
      rw [leaves_widen_tail hcut.lt hb] at hleaves
      by_cases hbi : b = i
      · subst hbi
        rw [tail_self] at hquiet ⊢
        rw [hsucc, hmid, LiveFlow.wanted, hleaves, hquiet]
        simp
      · rw [tail_of_ne hbi] at hquiet ⊢
        rw [hhead b hb]
        exact hl.passes b hb hleaves (h.isWritten_head hbi ▸ hquiet)
  · intro x hx hreads
    by_cases hxi : x = i + 1
    · subst hxi
      rw [hsucc, hmid, LiveFlow.wanted, hreads, Bool.true_or]
    · obtain ⟨b, rfl⟩ := exists_head hxi
      have hb : b < g.size := (head_lt hcut.lt).mp (hcut.size ▸ hx)
      rw [hhead b hb]
      refine hl.reads b hb ?_
      by_cases hbi : b = i
      · subst hbi
        rw [head_self] at hreads
        exact h.readsFirst_self.mpr (Or.inl hreads)
      · rwa [← h.readsFirst_head hbi]

end Closed

/-- How liveness changes when a block is cut. -/
structure LiveParts (g : Graph) (i : Nat) (t' : Track) (l l' : LiveFlow) : Prop where
  enters : ∀ b < g.size, l'.enters.get (head i b) = l.enters.get b
  leaves : ∀ b < g.size, l'.leaves.get (tail i b) = l.leaves.get b
  between : l'.leaves.get i = l'.enters.get (i + 1)
  entersSucc : l'.enters.get (i + 1) = LiveFlow.wanted t' (i + 1) (l.leaves.get i)
  passes : l'.leaves.get i = true → t'.isWritten i = false → l'.enters.get i = true

theorem liveness_parts (h : t.Cut i t') (hcut : g.Cut g' i) (hg : g.WellFormed)
    (hg' : g'.WellFormed) :
    LiveParts g i t' (LiveInstance.liveness g g.order g.scopes t)
      (LiveInstance.liveness g' g'.order g'.scopes t') := by
  have hclosed := Analysis.liveness_closed g t
  have hclosed' := Analysis.liveness_closed g' t'
  have hbeneath : (LiveInstance.liveness g g.order g.scopes t).Beneath _ :=
    (h.closed_narrow hcut hg hg' hclosed').solve_beneath
      fun b hb => (g.mem_order b).mp (List.mem_reverse.mp hb)
  have hbeneath' : (LiveInstance.liveness g' g'.order g'.scopes t').Beneath _ :=
    (h.closed_widen hcut hg hg' hclosed).solve_beneath
      fun b hb => (g'.mem_order b).mp (List.mem_reverse.mp hb)
  -- Either liveness is the least closed one, so each lies below what the other one gives.
  set l := LiveInstance.liveness g g.order g.scopes t
  set l' := LiveInstance.liveness g' g'.order g'.scopes t'
  have hleaves : ∀ b < g.size, l'.leaves.get (tail i b) = l.leaves.get b := by
    intro b hb
    rw [Bool.eq_iff_iff]
    constructor
    · intro hl
      have hw := hbeneath'.leaves _ hl
      rwa [leaves_widen_tail hcut.lt hb] at hw
    · intro hl
      have hn := hbeneath.leaves _ hl
      rwa [leaves_narrow hb] at hn
  have hsucc : l'.enters.get (i + 1) = LiveFlow.wanted t' (i + 1) (l.leaves.get i) := by
    rw [Bool.eq_iff_iff]
    constructor
    · intro hl
      have hw := hbeneath'.enters _ hl
      rwa [widenLive, get_widen_succ hcut.lt] at hw
    · intro hwanted
      rw [LiveFlow.wanted, Bool.or_eq_true, Bool.and_eq_true, Bool.not_eq_true'] at hwanted
      rcases hwanted with hreads | ⟨hl, hquiet⟩
      · exact hclosed'.reads _ hcut.second_lt hreads
      · refine hclosed'.passes _ hcut.second_lt ?_ hquiet
        rw [← tail_self, hleaves i hcut.lt]
        exact hl
  refine ⟨?_, hleaves, ?_, hsucc, hclosed'.passes i hcut.first_lt⟩
  · intro b hb
    rw [Bool.eq_iff_iff]
    constructor
    · intro hl
      have hw := hbeneath'.enters _ hl
      rwa [widenLive, get_widen_head hcut.lt hb] at hw
    · intro hl
      have hn := hbeneath.enters _ hl
      rwa [narrowLive, get_narrow hb] at hn
  · rw [Bool.eq_iff_iff]
    constructor
    · intro hl
      have hw := hbeneath'.leaves _ hl
      rw [leaves_widen_self hcut.lt] at hw
      rw [hsucc, hw]
    · exact hclosed'.leaves i hcut.first_lt (i + 1) ((follows_first hcut hg' _ _).mpr rfl)

/-! ### Ranges -/

section Ranges

variable {l l' : LiveFlow} {v : Version} {p : Offset}

theorem liveIn_head (h : t.Cut i t') (hcut : g.Cut g' i) (hlive : LiveParts g i t' l l')
    (hb : b < g.size) (hbi : b ≠ i) :
    Walk.LiveIn g' t' l' (head i b) v p ↔ Walk.LiveIn g t l b v p := by
  have hleaves := hlive.leaves b hb
  have hstop := hcut.stop b
  rw [tail_of_ne hbi] at hleaves hstop
  rw [Walk.LiveIn, hleaves, hstop, hlive.enters b hb, h.entering, hcut.start, h.other b hbi]
  rfl

/-- What is current behind the first part is what enters the second, where it is needed. -/
theorem after_first (h : t.Cut i t') (hcut : g.Cut g' i) (hlive : LiveParts g i t' l l') :
    (if l'.leaves.get i then
        Walk.after (if l.enters.get i then t.entering i else []) (t'.accesses i) else [])
      = if l'.enters.get (i + 1) then t'.entering (i + 1) else [] := by
  have henters : l'.enters.get i = l.enters.get i := by simpa using hlive.enters i hcut.lt
  rw [← hlive.between]
  cases hout : l'.leaves.get i with
  | false => rfl
  | true =>
    rw [if_pos rfl, if_pos rfl, h.enteringSucc]
    unfold Walk.after
    cases hlast : ((t'.accesses i).filterMap Access.write).getLast? with
    | some w => rfl
    | none =>
      rw [List.getLast?_eq_none_iff, List.filterMap_eq_nil_iff] at hlast
      have hin := hlive.passes hout ((quiet_iff h.regular' i).mpr hlast)
      rw [henters] at hin
      rw [hin]
      rfl

/-- The two parts together are live as the whole block was. -/
theorem liveIn_self (h : t.Cut i t') (hcut : g.Cut g' i) (hlive : LiveParts g i t' l l')
    (hfull : ∀ b < g'.size, (g'.block b).start < (g'.block b).stop)
    (hinside : ∀ b, ∀ x ∈ t'.accesses b, (g'.block b).contains x.offset = true) :
    Walk.LiveIn g t l i v p ↔
      Walk.LiveIn g' t' l' i v p ∨ Walk.LiveIn g' t' l' (i + 1) v p := by
  have henters : l'.enters.get i = l.enters.get i := by simpa using hlive.enters i hcut.lt
  have hleaves : l'.leaves.get (i + 1) = l.leaves.get i := by simpa using hlive.leaves i hcut.lt
  have hentering : t'.entering i = t.entering i := by simpa using h.entering i
  have hbounds : ∀ b, ∀ x ∈ t'.accesses b,
      (g'.block b).start ≤ x.offset ∧ x.offset < (g'.block b).stop := by
    intro b x hx
    have hin := hinside b x hx
    rwa [Block.contains, Bool.and_eq_true, decide_eq_true_eq, decide_eq_true_eq] at hin
  have hneeded : l'.leaves.get i = true ↔ Walk.Needs (l.leaves.get i) (t'.accesses (i + 1)) := by
    rw [hlive.between, hlive.entersSucc, LiveFlow.wanted, Bool.or_eq_true, Bool.and_eq_true,
      Bool.not_eq_true', h.regular'.readsFirst, quiet_iff h.regular']
    rfl
  have happend : Walk.Extends (l.leaves.get i) (g'.block (i + 1)).stop v p
        (if l.enters.get i then t.entering i else []) (g'.block i).start
        (t'.accesses i ++ t'.accesses (i + 1)) ↔ _ :=
    Walk.extends_append (fun x hx => hcut.meet ▸ (hbounds i x hx).2) (hbounds (i + 1))
      (Int64.le_of_lt (hfull _ hcut.second_lt)) (h.regular'.acts (i + 1))
      (hcut.meet ▸ Int64.le_of_lt (hfull i hcut.first_lt)) hneeded
  rw [h.after_first hcut hlive, ← h.self, hcut.stop_second, hcut.start_first] at happend
  rw [Walk.LiveIn, Walk.LiveIn, Walk.LiveIn, happend, henters, hleaves, hentering, hcut.meet,
    hcut.stop_second, hcut.start_first]

/-- The ranges of all versions are the same. -/
theorem rangesOf_eq (h : t.Cut i t') (hcut : g.Cut g' i) (hg : g.WellFormed) (hg' : g'.WellFormed)
    (hfull : ∀ b < g'.size, (g'.block b).start < (g'.block b).stop)
    (hinside : ∀ b, ∀ x ∈ t'.accesses b, (g'.block b).contains x.offset = true) :
    LiveInstance.rangesOf g' g'.order g'.scopes t'
      = LiveInstance.rangesOf g g.order g.scopes t := by
  have hlive := h.liveness_parts hcut hg hg'
  refine VersionRanges.Ordered.eq_of_contains LiveInstance.ordered_rangesOf
    LiveInstance.ordered_rangesOf LiveInstance.full_rangesOf LiveInstance.full_rangesOf
    fun v p => ?_
  rw [LiveInstance.contains_rangesOf_iff, LiveInstance.contains_rangesOf_iff, hcut.size]
  constructor
  · rintro ⟨x, hx, hin⟩
    by_cases hxi : x = i + 1
    · exact ⟨i, hcut.lt, (h.liveIn_self hcut hlive hfull hinside).mpr (Or.inr (hxi ▸ hin))⟩
    · obtain ⟨b, rfl⟩ := exists_head hxi
      have hb := (head_lt hcut.lt).mp hx
      by_cases hbi : b = i
      · rw [hbi, head_self] at hin
        exact ⟨i, hcut.lt, (h.liveIn_self hcut hlive hfull hinside).mpr (Or.inl hin)⟩
      · exact ⟨b, hb, (h.liveIn_head hcut hlive hb hbi).mp hin⟩
  · rintro ⟨b, hb, hin⟩
    by_cases hbi : b = i
    · subst hbi
      rcases (h.liveIn_self hcut hlive hfull hinside).mp hin with hin | hin
      · exact ⟨b, Nat.lt_succ_of_lt hb, hin⟩
      · exact ⟨b + 1, Nat.succ_lt_succ hb, hin⟩
    · exact ⟨head i b, (head_lt hcut.lt).mpr hb, (h.liveIn_head hcut hlive hb hbi).mpr hin⟩

end Ranges

end Cut

end Track

end RegisterWeb
