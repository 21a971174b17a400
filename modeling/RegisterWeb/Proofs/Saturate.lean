import RegisterWeb.Proofs.Ascending
import RegisterWeb.Saturate
import RegisterWeb.Track.Flow

/-!
Rounds that repeat until they use up no more room. If every operation of a round either uses up room
or leaves the state as it is, then the state at the end is one that no operation of the round
changes. The same holds of rounds with a flag that is raised by whatever changes the state. The room
of a table of version sets is what its weight leaves of the weight of a full table.
-/

namespace RegisterWeb

section Rounds

variable {σ ι : Type} {room : σ → Nat} {op : σ → ι → σ} {P : σ → Prop}

theorem foldl_keeps (keep : ∀ s x, P s → P (op s x)) (l : List ι) (s : σ) (hs : P s) :
    P (l.foldl op s) := by
  induction l generalizing s with
  | nil => exact hs
  | cons x l ih => exact ih (op s x) (keep s x hs)

theorem room_foldl_le (keep : ∀ s x, P s → P (op s x))
    (shrink : ∀ s x, P s → room (op s x) ≤ room s) (l : List ι) (s : σ) (hs : P s) :
    room (l.foldl op s) ≤ room s := by
  induction l generalizing s with
  | nil => exact Nat.le_refl _
  | cons x l ih => exact Nat.le_trans (ih (op s x) (keep s x hs)) (shrink s x hs)

theorem foldl_still (keep : ∀ s x, P s → P (op s x))
    (shrink : ∀ s x, P s → room (op s x) ≤ room s)
    (still : ∀ s x, P s → room s ≤ room (op s x) → op s x = s) (l : List ι) (s : σ) (hs : P s)
    (h : room s ≤ room (l.foldl op s)) : (∀ x ∈ l, op s x = s) ∧ l.foldl op s = s := by
  induction l with
  | nil => exact ⟨fun x hx => absurd hx List.not_mem_nil, rfl⟩
  | cons x l ih =>
    rw [List.foldl_cons] at h ⊢
    have hrest := room_foldl_le keep shrink l (op s x) (keep s x hs)
    have hx : op s x = s := still s x hs (Nat.le_trans h hrest)
    rw [hx] at h ⊢
    obtain ⟨hl, heq⟩ := ih h
    refine ⟨?_, heq⟩
    intro y hy
    rcases List.mem_cons.mp hy with rfl | hy
    · exact hx
    · exact hl y hy

/-- Repeated rounds end after some number of them, each of which has used up room. -/
theorem saturate_eq_iterate {σ : Type} (room : σ → Nat) (step : σ → σ) (s : σ) :
    ∃ k ≤ room s, saturate room step s = step^[k] s ∧
      ∀ j < k, room (step^[j + 1] s) < room (step^[j] s) := by
  fun_induction saturate room step s with
  | case1 s hless ih =>
    obtain ⟨k, hk, heq, hrooms⟩ := ih
    refine ⟨k + 1, by omega, heq, ?_⟩
    intro j hj
    cases j with
    | zero => exact hless
    | succ j => exact hrooms j (by omega)
  | case2 s _ => exact ⟨0, Nat.zero_le _, rfl, fun j hj => absurd hj (Nat.not_lt_zero j)⟩

/-- At the end of repeated rounds no operation of a round changes the state. -/
theorem saturate_still (keep : ∀ s x, P s → P (op s x))
    (shrink : ∀ s x, P s → room (op s x) ≤ room s)
    (still : ∀ s x, P s → room s ≤ room (op s x) → op s x = s) (l : List ι) (s : σ) (hs : P s) :
    P (saturate room (fun s => l.foldl op s) s) ∧
      ∀ x ∈ l, op (saturate room (fun s => l.foldl op s) s) x
        = saturate room (fun s => l.foldl op s) s := by
  have hP : P (saturate room (fun s => l.foldl op s) s) :=
    saturate_keeps P (fun s hs => foldl_keeps keep l s hs) s hs
  have hstop := saturate_stops room (fun s => l.foldl op s) s
  exact ⟨hP, (foldl_still keep shrink still l _ hP hstop).1⟩

end Rounds

/-! ### Rounds with a flag -/

section Flags

variable {σ ι : Type} {P : σ → Prop} {weight : σ → Nat} {step : σ × Bool → σ × Bool}
  {op : σ × Bool → ι → σ × Bool} {l : List ι}

/-- A step that comes with a flag leaves state and flag alone, or it adds weight and raises the
flag. -/
structure Flags (P : σ → Prop) (weight : σ → Nat) (step : σ × Bool → σ × Bool) : Prop where
  keeps : ∀ t, P t.1 → P (step t).1
  moves : ∀ t, P t.1 →
    step t = t ∨ (weight t.1 < weight (step t).1 ∧ (step t).2 = true)

theorem Flags.foldl (h : ∀ x ∈ l, Flags P weight fun t => op t x) :
    Flags P weight fun t => l.foldl op t := by
  refine ⟨fun t ht => ?_, fun t ht => ?_⟩
  · exact List.foldlRecOn (motive := fun t => P t.1) l op ht fun t ht x hx => (h x hx).keeps t ht
  · induction l generalizing t with
    | nil => exact Or.inl rfl
    | cons x l ih =>
      obtain ⟨hx, hl⟩ := List.forall_mem_cons.mp h
      have hrest := ih hl (op t x) (hx.keeps t ht)
      rcases hx.moves t ht with hsame | ⟨hless, hflag⟩
      · simp only [hsame] at hrest
        simpa only [List.foldl_cons, hsame] using hrest
      · refine Or.inr ?_
        rw [List.foldl_cons]
        rcases hrest with hsame | ⟨hless', hflag'⟩
        · rw [hsame]
          exact ⟨hless, hflag⟩
        · exact ⟨Nat.lt_trans hless hless', hflag'⟩

/-- Where a round does not raise the flag, none of its operations does anything. -/
theorem Flags.still (h : ∀ x ∈ l, Flags P weight fun t => op t x) {t : σ × Bool} (ht : P t.1)
    (hflag : (l.foldl op t).2 = false) : ∀ x ∈ l, op t x = t := by
  induction l with
  | nil => exact fun x hx => absurd hx List.not_mem_nil
  | cons x l ih =>
    obtain ⟨hx, hl⟩ := List.forall_mem_cons.mp h
    rw [List.foldl_cons] at hflag
    have hsame : op t x = t := by
      refine (hx.moves t ht).resolve_right fun hraised => ?_
      -- a flag that is up stays up
      rcases (Flags.foldl hl).moves (op t x) (hx.keeps t ht) with hrest | hrest
      · rw [hrest, hraised.2] at hflag
        cases hflag
      · rw [hrest.2] at hflag
        cases hflag
    rw [hsame] at hflag
    exact List.forall_mem_cons.mpr ⟨hsame, ih hl hflag⟩

/-- Rounds that start with the flag down and repeat while it goes up lead from one state to another. -/
inductive Repeats (step : σ × Bool → σ × Bool) : σ → σ → Prop where
  | stop {s : σ} : (step (s, false)).2 = false → Repeats step s (step (s, false)).1
  | again {s t : σ} : (step (s, false)).2 = true → Repeats step (step (s, false)).1 t →
    Repeats step s t

theorem Repeats.unique {s t t' : σ} (h : Repeats step s t) (h' : Repeats step s t') : t = t' := by
  induction h with
  | stop hflag =>
    cases h' with
    | stop => rfl
    | again hflag' => exact absurd (hflag.symm.trans hflag') Bool.false_ne_true
  | again hflag _ ih =>
    cases h' with
    | stop hflag' => exact absurd (hflag'.symm.trans hflag) Bool.false_ne_true
    | again _ hrest => exact ih hrest

/-- Rounds that only add weight, up to a bound, come to an end. -/
theorem Flags.exists_repeats (h : Flags P weight step) {bound : Nat}
    (hbound : ∀ s, P s → weight s ≤ bound) {s : σ} (hs : P s) :
    ∃ t, Repeats step s t ∧ P t ∧ step (t, false) = (t, false) := by
  rcases h.moves (s, false) hs with hsame | ⟨hless, hflag⟩
  · refine ⟨s, ?_, hs, hsame⟩
    have hstop := Repeats.stop (congrArg Prod.snd hsame)
    rwa [hsame] at hstop
  · have hnext := h.keeps (s, false) hs
    have hroom : bound - weight (step (s, false)).1 < bound - weight s :=
      Nat.sub_lt_sub_left (Nat.lt_of_lt_of_le hless (hbound _ hnext)) hless
    obtain ⟨t, hrest, ht, hstill⟩ := exists_repeats h hbound hnext
    exact ⟨t, .again hflag hrest, ht, hstill⟩
termination_by bound - weight s

end Flags

/-! ### Weights -/

theorem total_le {α : Type} (f : α → Nat) (k : Nat) (l : List α) (h : ∀ a ∈ l, f a ≤ k) :
    total f l ≤ k * l.length := by
  induction l with
  | nil => exact Nat.zero_le _
  | cons a l ih =>
    have ha := h a (List.mem_cons_self ..)
    have hl := ih fun b hb => h b (List.mem_cons_of_mem _ hb)
    simp only [total, List.length_cons, Nat.mul_succ]
    omega

theorem total_append {α : Type} (f : α → Nat) (l m : List α) :
    total f (l ++ m) = total f l + total f m := by
  induction l with
  | nil => simp [total]
  | cons a l ih =>
    simp only [List.cons_append, total]
    omega

theorem total_perm {α : Type} {f : α → Nat} {l m : List α} (h : l.Perm m) :
    total f l = total f m := by
  induction h with
  | nil => rfl
  | cons a _ ih => simp only [total, ih]
  | swap a b l =>
    simp only [total]
    omega
  | trans _ _ ih ih' => exact ih.trans ih'

theorem total_mono {α : Type} {f f' : α → Nat} {l : List α} (h : ∀ a ∈ l, f a ≤ f' a) :
    total f l ≤ total f' l := by
  induction l with
  | nil => exact Nat.le_refl _
  | cons a l ih =>
    have ha := h a (List.mem_cons_self ..)
    have hl := ih fun b hb => h b (List.mem_cons_of_mem _ hb)
    simp only [total]
    omega

theorem total_lt {α : Type} {f f' : α → Nat} {l : List α} (h : ∀ a ∈ l, f a ≤ f' a) {a : α}
    (ha : a ∈ l) (hlt : f a < f' a) : total f l < total f' l := by
  induction l with
  | nil => exact absurd ha List.not_mem_nil
  | cons b l ih =>
    have hb := h b (List.mem_cons_self ..)
    have hl : ∀ c ∈ l, f c ≤ f' c := fun c hc => h c (List.mem_cons_of_mem _ hc)
    simp only [total]
    rcases List.mem_cons.mp ha with rfl | ha
    · have hrest := total_mono hl
      omega
    · have hrest := ih hl ha
      omega

namespace Table

theorem get_map {α β : Type} [Inhabited α] [Inhabited β] {f : α → β}
    (hdefault : f default = default) (t : Table α) (i : Nat) :
    (⟨t.cells.map f⟩ : Table β).get i = f (t.get i) := by
  simp only [get, Array.getD_eq_getD_getElem?, Array.getElem?_map]
  cases t.cells[i]? with
  | none => exact hdefault.symm
  | some a => rfl

theorem set_get {α : Type} [Inhabited α] (t : Table α) (i : Nat) : t.set i (t.get i) = t := by
  refine ext_get (size_set t i _) ?_
  intro j _
  rw [get_set]
  split
  · rename_i h
    rw [h.1]
  · rfl

theorem weight_set {t : Table VersionSet} {i : Nat} (h : i < t.size) (s : VersionSet) :
    (t.set i s).weight + (t.get i).length = t.weight + s.length := by
  simp only [weight, set, Array.toList_setIfInBounds]
  apply total_set
  rw [Array.getElem?_toList]
  exact cells_getElem? h

/-- A table of ascending sets weighs no more than a full one. -/
theorem weight_le {t : Table VersionSet} (h : ∀ i, Ascending (t.get i)) :
    t.weight ≤ UInt32.size * t.size := by
  have hsize : t.size = t.cells.toList.length := by simp [size]
  rw [weight, hsize]
  apply total_le
  intro s hs
  obtain ⟨i, hi, rfl⟩ := Array.mem_iff_getElem.mp (Array.mem_toList_iff.mp hs)
  have hget : t.get i = t.cells[i] := by
    rw [get, Array.getD_eq_getD_getElem?, Array.getElem?_eq_getElem hi, Option.getD_some]
  rw [← hget]
  exact VersionSet.length_le_size (h i).nodup

/-- Adding versions to a set of a table uses up room unless they are there already. -/
theorem union_eq_of_weight_le {t : Table VersionSet} {i : Nat} {s : VersionSet}
    (ht : Ascending (t.get i)) (hs : Ascending s)
    (h : (t.set i (VersionSet.union (t.get i) s)).weight ≤ t.weight) :
    t.set i (VersionSet.union (t.get i) s) = t ∧ (i < t.size → ∀ v ∈ s, v ∈ t.get i) := by
  by_cases hi : i < t.size
  · have hw := weight_set hi (VersionSet.union (t.get i) s)
    have hle := Ascending.length_le_union (t.get i) s
    have hlen : (Ascending.union (t.get i) s).length = (t.get i).length := by
      simp only [VersionSet.union] at hw h
      omega
    have hsub := (Ascending.length_union_eq_iff ht hs).mp hlen
    have hunion : VersionSet.union (t.get i) s = t.get i := Ascending.union_eq_left ht hs hsub
    rw [hunion, set_get]
    exact ⟨rfl, fun _ => hsub⟩
  · refine ⟨?_, fun h => absurd h hi⟩
    refine ext_get (size_set t i _) ?_
    intro j _
    rw [get_set, if_neg fun h => hi h.2]

end Table

end RegisterWeb
