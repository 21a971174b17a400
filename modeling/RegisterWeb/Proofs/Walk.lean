import RegisterWeb.Live.Basic
import RegisterWeb.Proofs.Range

/-!
What the walks through the blocks put into the ranges. A version that enters a block alive is
covered from the start of the block to each read before the first write, and a version that is
current at the end of a block where the register is live is covered from where it became current to
the end.
-/

namespace RegisterWeb

namespace Walk

/-- Whether a walk has found that a version is live at an offset. -/
def Finds (w : Walk) (v : Version) (p : Offset) : Prop :=
  (w.found.ranges v).contains p = true

theorem step_spec {w : Walk} (h : w.found.Ordered) (a : Access) :
    (w.step a).found.Ordered ∧ (∀ v p, w.Finds v p → (w.step a).Finds v p) ∧
      (a.reads = true → ∀ v ∈ w.current, ∀ p, w.since ≤ p → p < a.offset + 1 →
        (w.step a).Finds v p) := by
  -- the ranges that the read adds
  have hread : (if a.reads then w.found.insertAll w.current w.since (a.offset + 1)
      else w.found).Ordered ∧
      ∀ v p, ((if a.reads then w.found.insertAll w.current w.since (a.offset + 1)
        else w.found).ranges v).contains p = true ↔
          w.Finds v p ∨ (a.reads = true ∧ v ∈ w.current ∧ w.since ≤ p ∧ p < a.offset + 1) := by
    cases a.reads with
    | false => exact ⟨h, fun v p => by simp [Finds]⟩
    | true =>
      obtain ⟨hordered, hget⟩ := h.insertAll w.current w.since (a.offset + 1)
      exact ⟨hordered, fun v p => by simp [Finds, hget]⟩
  obtain ⟨hordered, hget⟩ := hread
  unfold step
  cases hwrite : a.write with
  | none =>
    refine ⟨hordered, ?_, ?_⟩
    · exact fun v p hp => (hget v p).mpr (Or.inl hp)
    · exact fun hr v hv p hlow hhigh => (hget v p).mpr (Or.inr ⟨hr, hv, hlow, hhigh⟩)
  | some u =>
    obtain ⟨hordered', hget'⟩ := hordered.insert (a.offset + 1) (a.offset + 1 + 1) u
    refine ⟨hordered', ?_, ?_⟩
    · exact fun v p hp => (hget' v p).mpr (Or.inl ((hget v p).mpr (Or.inl hp)))
    · intro hr v hv p hlow hhigh
      exact (hget' v p).mpr (Or.inl ((hget v p).mpr (Or.inr ⟨hr, hv, hlow, hhigh⟩)))

theorem foldl_spec {w : Walk} (h : w.found.Ordered) (l : List Access) :
    (l.foldl step w).found.Ordered ∧ ∀ v p, w.Finds v p → (l.foldl step w).Finds v p := by
  induction l generalizing w with
  | nil => exact ⟨h, fun v p hp => hp⟩
  | cons a l ih =>
    obtain ⟨hordered, hkeep, _⟩ := step_spec h a
    obtain ⟨hordered', hkeep'⟩ := ih hordered
    exact ⟨hordered', fun v p hp => hkeep' v p (hkeep v p hp)⟩

theorem foldl_quiet {w : Walk} {l : List Access} (hquiet : ∀ a ∈ l, a.write = none) :
    (l.foldl step w).current = w.current ∧ (l.foldl step w).since = w.since := by
  induction l generalizing w with
  | nil => exact ⟨rfl, rfl⟩
  | cons a l ih =>
    have ha := hquiet a (List.mem_cons_self ..)
    obtain ⟨hcurrent, hsince⟩ := ih (w := w.step a) fun b hb => hquiet b (List.mem_cons_of_mem a hb)
    have hstep : (w.step a).current = w.current ∧ (w.step a).since = w.since := by
      simp [step, ha]
    exact ⟨hcurrent.trans hstep.1, hsince.trans hstep.2⟩

/-! ### One block -/

section Through

variable {g : Graph} {t : Track} {l : LiveFlow} {found : VersionRanges} {b : Nat}

/-- Where a walk through a block begins. -/
def opening (g : Graph) (t : Track) (l : LiveFlow) (found : VersionRanges) (b : Nat) : Walk :=
  ⟨if l.enters.get b then t.entering b else [], (g.block b).start, found⟩

theorem through_spec (h : found.Ordered) :
    (through g t l found b).Ordered ∧
      ∀ v p, ((through g t l found b).ranges v).contains p = true ↔
        ((t.accesses b).foldl step (opening g t l found b)).Finds v p ∨
          (l.leaves.get b = true ∧
            v ∈ ((t.accesses b).foldl step (opening g t l found b)).current ∧
            ((t.accesses b).foldl step (opening g t l found b)).since ≤ p ∧
            p < (g.block b).stop) := by
  have hwalk := (foldl_spec (w := opening g t l found b) h (t.accesses b)).1
  unfold through
  cases hl : l.leaves.get b with
  | false =>
    refine ⟨hwalk, ?_⟩
    intro v p
    simp [Finds, opening]
  | true =>
    obtain ⟨hordered, hget⟩ := hwalk.insertAll
      ((t.accesses b).foldl step (opening g t l found b)).current
      ((t.accesses b).foldl step (opening g t l found b)).since (g.block b).stop
    refine ⟨hordered, ?_⟩
    intro v p
    simpa [Finds, opening] using hget v p

theorem through_keeps (h : found.Ordered) {v : Version} {p : Offset}
    (hp : (found.ranges v).contains p = true) :
    ((through g t l found b).ranges v).contains p = true :=
  ((through_spec h).2 v p).mpr (Or.inl ((foldl_spec (w := opening g t l found b) h _).2 v p hp))

/-- A version that enters alive is covered up to a read that no write comes before. -/
theorem through_read (h : found.Ordered) (henters : l.enters.get b = true) {v : Version}
    (hv : v ∈ t.entering b) {before after : List Access} {x : Access}
    (hacc : t.accesses b = before ++ x :: after) (hquiet : ∀ a ∈ before, a.write = none)
    (hx : x.reads = true) {p : Offset} (hlow : (g.block b).start ≤ p) (hhigh : p < x.offset + 1) :
    ((through g t l found b).ranges v).contains p = true := by
  refine ((through_spec h).2 v p).mpr (Or.inl ?_)
  rw [hacc, List.foldl_append, List.foldl_cons]
  obtain ⟨hcurrent, hsince⟩ := foldl_quiet (w := opening g t l found b) hquiet
  have hordered := (foldl_spec (w := opening g t l found b) h before).1
  obtain ⟨hordered', _, hreads⟩ := step_spec hordered x
  refine (foldl_spec hordered' after).2 v p (hreads hx v ?_ p ?_ hhigh)
  · rw [hcurrent]
    simpa [opening, henters] using hv
  · rw [hsince]
    exact hlow

/-- A version that passes through a block alive is covered all along it. -/
theorem through_pass (h : found.Ordered) (henters : l.enters.get b = true)
    (hleaves : l.leaves.get b = true) {v : Version} (hv : v ∈ t.entering b)
    (hquiet : ∀ a ∈ t.accesses b, a.write = none) {p : Offset} (hlow : (g.block b).start ≤ p)
    (hhigh : p < (g.block b).stop) : ((through g t l found b).ranges v).contains p = true := by
  obtain ⟨hcurrent, hsince⟩ := foldl_quiet (w := opening g t l found b) hquiet
  refine ((through_spec h).2 v p).mpr (Or.inr ⟨hleaves, ?_, ?_, hhigh⟩)
  · rw [hcurrent]
    simpa [opening, henters] using hv
  · rw [hsince]
    exact hlow

/-- The last version that a block writes is covered from there on if it is live at the end. -/
theorem through_write (h : found.Ordered) (hleaves : l.leaves.get b = true)
    {before after : List Access} {x : Access} (hacc : t.accesses b = before ++ x :: after)
    {v : Version} (hx : x.write = some v) (hquiet : ∀ a ∈ after, a.write = none) {p : Offset}
    (hlow : x.offset + 1 ≤ p) (hhigh : p < (g.block b).stop) :
    ((through g t l found b).ranges v).contains p = true := by
  obtain ⟨hcurrent, hsince⟩ :=
    foldl_quiet (w := (before.foldl step (opening g t l found b)).step x) hquiet
  refine ((through_spec h).2 v p).mpr (Or.inr ⟨hleaves, ?_, ?_, hhigh⟩)
  · rw [hacc, List.foldl_append, List.foldl_cons, hcurrent]
    simp [step, hx]
  · rw [hacc, List.foldl_append, List.foldl_cons, hsince]
    simpa [step, hx] using hlow

end Through

end Walk

/-! ### All blocks, all instances -/

theorem foldl_through {g : Graph} {t : Track} {l : LiveFlow} {found : VersionRanges}
    (h : found.Ordered) (blocks : List Nat) :
    (blocks.foldl (Walk.through g t l) found).Ordered ∧
      ∀ v p, (found.ranges v).contains p = true →
        ((blocks.foldl (Walk.through g t l) found).ranges v).contains p = true := by
  induction blocks generalizing found with
  | nil => exact ⟨h, fun v p hp => hp⟩
  | cons b blocks ih =>
    obtain ⟨hordered, hkeep⟩ := ih (Walk.through_spec (g := g) (t := t) (l := l) (b := b) h).1
    exact ⟨hordered, fun v p hp => hkeep v p (Walk.through_keeps h hp)⟩

theorem contains_rangesOf {g : Graph} {order : List Nat} {scopes : Table (Option (Array Bool))}
    {t : Track} {b : Nat} (hb : b < g.size) {v : Version} {p : Offset}
    (hfinds : ∀ found : VersionRanges, found.Ordered →
      ((Walk.through g t (LiveInstance.liveness g order scopes t) found b).ranges v).contains p
        = true) :
    ((LiveInstance.rangesOf g order scopes t).ranges v).contains p = true := by
  obtain ⟨before, after, hrange⟩ := List.append_of_mem (List.mem_range.mpr hb)
  unfold LiveInstance.rangesOf
  rw [hrange, List.foldl_append, List.foldl_cons]
  have hbefore := (foldl_through (g := g) (t := t) (l := LiveInstance.liveness g order scopes t)
    VersionRanges.ordered_nil before).1
  exact (foldl_through (Walk.through_spec hbefore).1 after).2 v p (hfinds _ hbefore)

/-- The ranges in which an instance is live. -/
def Live.ranges (l : Live) (i : Instance) : Ranges :=
  ((l.instances.find? fun x => x.inst == i).map LiveInstance.ranges).getD []

namespace LiveInstance

theorem find?_number (banks : List Bank) (l : List (Instance × Ranges)) (i : Instance) :
    ((number banks l).find? fun x => x.inst == i).map LiveInstance.ranges = l.lookup i := by
  induction l generalizing banks with
  | nil => rfl
  | cons e l ih =>
    obtain ⟨j, rs⟩ := e
    simp only [number, List.find?_cons, List.lookup_cons]
    by_cases hij : j = i
    · simp [hij]
    · have hji : (j == i) = false := by simpa using hij
      have hne : (i == j) = false := by simpa using Ne.symm hij
      simp only [hji, hne]
      exact ih _

theorem lookup_map (r r' : Register) (v : Version) (m : VersionRanges) :
    (m.map fun e => ((⟨r', e.1⟩ : Instance), e.2)).lookup ⟨r, v⟩
      = if r' = r then m.lookup v else none := by
  induction m with
  | nil => simp
  | cons e m ih =>
    obtain ⟨w, rs⟩ := e
    rw [List.map_cons, List.lookup_cons, List.lookup_cons, ih]
    by_cases hr : r' = r
    · subst hr
      by_cases hv : v = w
      · simp [hv]
      · have hne : ((⟨r', v⟩ : Instance) == ⟨r', w⟩) = false := by simpa using hv
        have hvw : (v == w) = false := by simpa using hv
        simp only [hne, hvw]
    · have hne : ((⟨r, v⟩ : Instance) == ⟨r', w⟩) = false := by
        simp [Ne.symm hr]
      simp only [hne, if_neg hr]

theorem lookup_flatMap {tracks : List Track} {found : Track → VersionRanges} {r : Register}
    {t : Track} (hsame : ∀ t' ∈ tracks, t'.register = r → t' = t) (ht : t ∈ tracks)
    (hr : t.register = r) (v : Version) :
    (tracks.flatMap fun t => (found t).map fun e => ((⟨t.register, e.1⟩ : Instance), e.2)).lookup
      ⟨r, v⟩ = (found t).lookup v := by
  -- a track of another register adds nothing, and the track itself always adds the same
  have hall : ∀ rest : List Track, (∀ t' ∈ rest, t'.register = r → t' = t) →
      (rest.flatMap fun t => (found t).map fun e => ((⟨t.register, e.1⟩ : Instance), e.2)).lookup
        ⟨r, v⟩ = if t ∈ rest then (found t).lookup v else none := by
    intro rest hrest
    induction rest with
    | nil => rfl
    | cons t' rest ih =>
      have htail := ih fun d hd => hrest d (List.mem_cons_of_mem t' hd)
      rw [List.flatMap_cons, List.lookup_append, lookup_map, htail]
      by_cases hreg : t'.register = r
      · have heq := hrest t' (List.mem_cons_self ..) hreg
        subst heq
        rw [if_pos hreg, if_pos (List.mem_cons_self ..)]
        split
        · cases (found t').lookup v <;> rfl
        · cases (found t').lookup v <;> rfl
      · have hne : t ≠ t' := fun heq => hreg (heq ▸ hr)
        rw [if_neg hreg]
        simp [hne]
  rw [hall tracks hsame, if_pos ht]

theorem ranges_ofAnalysis {a : Analysis} {r : Register} {t : Track}
    (hsame : ∀ t' ∈ a.tracks, t'.register = r → t' = t) (ht : a.track? r = some t) (v : Version) :
    (((ofAnalysis a).find? fun x => x.inst == ⟨r, v⟩).map LiveInstance.ranges).getD []
      = (rangesOf a.graph a.order.blocks a.graph.scopes t).ranges v := by
  have hmem := List.mem_of_find?_eq_some ht
  have hfound := List.find?_some ht
  have hreg : t.register = r := by simpa using hfound
  unfold ofAnalysis
  rw [find?_number, lookup_flatMap hsame hmem hreg]
  rfl

end LiveInstance

end RegisterWeb
