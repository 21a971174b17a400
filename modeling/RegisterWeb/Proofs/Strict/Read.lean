import RegisterWeb.Proofs.Saturate
import RegisterWeb.Proofs.Graph

/-!
Strict evaluation. Tables answer outside of their bounds with a default value; a strict evaluation
stops there with a trap instead. It stops as well where it needs the first item of an empty list, a
routine or a flow that does not exist, or a quotient by zero. This module has the strict readers and
loops, and shows for each loop that it does what the ordinary one does if none of its steps traps.
-/

namespace RegisterWeb

/-- What stops a strict evaluation. A failure of the analysis stops it too. -/
inductive Trap where
  | outside (index size : Nat)
  | noFirst
  | zeroDivisor
  | noRoutine (entry : Nat)
  | noFlow (register : Register)
  | failed (failure : Failure)
  deriving DecidableEq, Repr

namespace Strict

/-! ### Readers -/

section Readers

variable {α : Type}

def fetch (cells : Array α) (i : Nat) : Except Trap α :=
  match cells[i]? with
  | some a => .ok a
  | none => .error (.outside i cells.size)

def store (t : Table α) (i : Nat) (a : α) : Except Trap (Table α) :=
  if i < t.size then .ok (t.set i a) else .error (.outside i t.size)

def first : List α → Except Trap α
  | [] => .error .noFirst
  | a :: _ => .ok a

/-- A stage of the analysis as a step of a strict evaluation. -/
def lift (x : Except Failure α) : Except Trap α :=
  x.mapError Trap.failed

theorem fetch_eq [Inhabited α] {cells : Array α} {i : Nat} (h : i < cells.size) :
    fetch cells i = .ok (cells.getD i default) := by
  simp [fetch, h]

example : fetch #[5, 7] 2 = .error (.outside 2 2) := rfl

theorem fetch_cells [Inhabited α] {t : Table α} {i : Nat} (h : i < t.size) :
    fetch t.cells i = .ok (t.get i) :=
  fetch_eq h

theorem eq_of_fetch [Inhabited α] {cells : Array α} {i : Nat} {a : α}
    (h : fetch cells i = .ok a) : a = cells.getD i default := by
  unfold fetch at h
  split at h
  · rename_i b hb
    cases h
    simp [hb]
  · cases h

theorem store_eq {t : Table α} {i : Nat} (h : i < t.size) (a : α) :
    store t i a = .ok (t.set i a) :=
  if_pos h

theorem eq_of_store {t t' : Table α} {i : Nat} {a : α} (h : store t i a = .ok t') :
    t' = t.set i a := by
  unfold store at h
  split at h
  · cases h
    rfl
  · cases h

theorem ok_bind {ε β : Type} (a : α) (f : α → Except ε β) :
    (Except.ok a >>= f) = f a := rfl

theorem lift_ok (a : α) : lift (.ok a) = .ok a := rfl

theorem lift_bind {β : Type} (x : Except Failure α) (f : α → Except Failure β) :
    lift (x >>= f) = lift x >>= fun a => lift (f a) := by
  cases x <;> rfl

end Readers

/-! ### Loops over lists -/

section Lists

variable {α β : Type}

theorem mapM_eq {f : α → Except Trap β} {F : α → β} {l : List α}
    (h : ∀ x ∈ l, f x = .ok (F x)) : l.mapM f = .ok (l.map F) := by
  induction l with
  | nil => rfl
  | cons x l ih =>
    obtain ⟨hx, hl⟩ := List.forall_mem_cons.mp h
    rw [List.mapM_cons, hx, ih hl]
    rfl

theorem mapM_lift {f : α → Except Trap β} {F : α → Except Failure β} {l : List α}
    (h : ∀ x ∈ l, f x = lift (F x)) : l.mapM f = lift (l.mapM F) := by
  induction l with
  | nil => rfl
  | cons x l ih =>
    obtain ⟨hx, hl⟩ := List.forall_mem_cons.mp h
    rw [List.mapM_cons, List.mapM_cons, hx, ih hl]
    cases F x with
    | error e => rfl
    | ok b =>
      cases l.mapM F with
      | error e => rfl
      | ok bs => rfl

theorem forM_lift {f : α → Except Trap Unit} {F : α → Except Failure Unit} {l : List α}
    (h : ∀ x ∈ l, f x = lift (F x)) : l.forM f = lift (l.forM F) := by
  induction l with
  | nil => rfl
  | cons x l ih =>
    obtain ⟨hx, hl⟩ := List.forall_mem_cons.mp h
    rw [List.forM_eq_forM, List.forM_eq_forM, List.forM_cons, List.forM_cons, hx]
    cases F x with
    | error e => rfl
    | ok u => exact ih hl

theorem forM_eq {f : α → Except Trap Unit} {l : List α} (h : ∀ x ∈ l, f x = .ok ()) :
    l.forM f = .ok () := by
  induction l with
  | nil => rfl
  | cons x l ih =>
    obtain ⟨hx, hl⟩ := List.forall_mem_cons.mp h
    rw [List.forM_eq_forM, List.forM_cons, hx]
    exact ih hl

theorem foldlM_lift {f : β → α → Except Trap β} {F : β → α → Except Failure β} {l : List α}
    (h : ∀ s, ∀ x ∈ l, f s x = lift (F s x)) (s : β) : l.foldlM f s = lift (l.foldlM F s) := by
  induction l generalizing s with
  | nil => rfl
  | cons x l ih =>
    have hl : ∀ s, ∀ y ∈ l, f s y = lift (F s y) := fun s y hy => h s y (List.mem_cons_of_mem x hy)
    rw [List.foldlM_cons, List.foldlM_cons, h s x List.mem_cons_self]
    cases F s x with
    | error e => rfl
    | ok s' => exact ih hl s'

/-- A loop whose steps do not trap as long as the state keeps a property. -/
theorem foldlM_eq {σ : Type} {f : σ → α → Except Trap σ} {F : σ → α → σ} (P : σ → Prop)
    {l : List α} (h : ∀ s, P s → ∀ x ∈ l, f s x = .ok (F s x) ∧ P (F s x)) {s : σ} (hs : P s) :
    l.foldlM f s = .ok (l.foldl F s) ∧ P (l.foldl F s) := by
  induction l generalizing s with
  | nil => exact ⟨rfl, hs⟩
  | cons x l ih =>
    obtain ⟨hstep, hkeep⟩ := h s hs x List.mem_cons_self
    rw [List.foldlM_cons, hstep]
    exact ih (fun s hs y hy => h s hs y (List.mem_cons_of_mem x hy)) hkeep

/-- A loop whose steps do not trap has taken them. -/
theorem eq_of_foldlM {σ : Type} {f : σ → α → Except Trap σ} {F : σ → α → σ} {l : List α}
    (h : ∀ s x s', f s x = .ok s' → s' = F s x) {s s' : σ} (hs : l.foldlM f s = .ok s') :
    s' = l.foldl F s := by
  induction l generalizing s with
  | nil =>
    cases hs
    rfl
  | cons x l ih =>
    rw [List.foldlM_cons] at hs
    obtain ⟨t, ht, hs⟩ := bind_eq_ok.mp hs
    rw [List.foldl_cons, ← h s x t ht]
    exact ih hs

def filter (test : α → Except Trap Bool) : List α → Except Trap (List α)
  | [] => .ok []
  | x :: l => do
    let keep ← test x
    let rest ← filter test l
    return if keep then x :: rest else rest

theorem filter_eq {test : α → Except Trap Bool} {p : α → Bool} {l : List α}
    (h : ∀ x ∈ l, test x = .ok (p x)) : filter test l = .ok (l.filter p) := by
  induction l with
  | nil => rfl
  | cons x l ih =>
    obtain ⟨hx, hl⟩ := List.forall_mem_cons.mp h
    rw [filter, hx, ih hl, List.filter_cons]
    cases p x <;> rfl

theorem filter_fetch [Inhabited α] {cells : Array α} (p : α → Bool) {l : List Nat}
    (h : ∀ i ∈ l, i < cells.size) : filter (fun i => do return p (← fetch cells i)) l
      = .ok (l.filter fun i => p (cells.getD i default)) := by
  refine filter_eq fun i hi => ?_
  rw [fetch_eq (h i hi)]
  rfl

def any (test : α → Except Trap Bool) : List α → Except Trap Bool
  | [] => .ok false
  | x :: l => do
    let found ← test x
    let rest ← any test l
    return found || rest

theorem any_eq {test : α → Except Trap Bool} {p : α → Bool} {l : List α}
    (h : ∀ x ∈ l, test x = .ok (p x)) : any test l = .ok (l.any p) := by
  induction l with
  | nil => rfl
  | cons x l ih =>
    obtain ⟨hx, hl⟩ := List.forall_mem_cons.mp h
    rw [any, hx, ih hl, List.any_cons]
    rfl

def find? (test : α → Except Trap Bool) : List α → Except Trap (Option α)
  | [] => .ok none
  | x :: l => do
    if ← test x then return some x else find? test l

theorem find?_eq {test : α → Except Trap Bool} {p : α → Bool} {l : List α}
    (h : ∀ x ∈ l, test x = .ok (p x)) : find? test l = .ok (l.find? p) := by
  induction l with
  | nil => rfl
  | cons x l ih =>
    obtain ⟨hx, hl⟩ := List.forall_mem_cons.mp h
    rw [find?, hx, ih hl, List.find?_cons]
    cases p x <;> rfl

theorem mem_of_find? {test : α → Except Trap Bool} {l : List α} {x : α}
    (h : find? test l = .ok (some x)) : x ∈ l := by
  induction l with
  | nil => cases h
  | cons y l ih =>
    rw [find?] at h
    obtain ⟨passes, _, h⟩ := bind_eq_ok.mp h
    cases passes with
    | true =>
      cases h
      exact List.mem_cons_self
    | false => exact List.mem_cons_of_mem y (ih h)

/-- The first items that pass a test, up to one that does not. -/
def takeWhile (test : α → Except Trap Bool) : List α → Except Trap (List α)
  | [] => .ok []
  | x :: l => do
    if ← test x then return x :: (← takeWhile test l) else return []

theorem takeWhile_eq {test : α → Except Trap Bool} {p : α → Bool} {l : List α}
    (h : ∀ x ∈ l, test x = .ok (p x)) : takeWhile test l = .ok (l.takeWhile p) := by
  induction l with
  | nil => rfl
  | cons x l ih =>
    obtain ⟨hx, hl⟩ := List.forall_mem_cons.mp h
    rw [takeWhile, hx, ih hl, List.takeWhile_cons]
    cases p x <;> rfl

/-- The union of the sets that a strict evaluation gives on the members of a list. -/
def gather (s : VersionSet) (l : List α) (f : α → Except Trap VersionSet) :
    Except Trap VersionSet :=
  l.foldlM (fun s x => do return VersionSet.union s (← f x)) s

theorem gather_eq {f : α → Except Trap VersionSet} {F : α → VersionSet} {l : List α}
    (h : ∀ x ∈ l, f x = .ok (F x)) (s : VersionSet) :
    gather s l f = .ok (l.foldl (fun s x => VersionSet.union s (F x)) s) := by
  refine (foldlM_eq (fun _ => True) ?_ trivial).1
  intro s _ x hx
  rw [h x hx]
  exact ⟨rfl, trivial⟩

/-- One cell for each number below `n`. -/
def tabulate {γ : Type} (n : Nat) (f : Nat → Except Trap γ) : Except Trap (Table γ) := do
  let cells ← (List.range n).mapM f
  return ⟨cells.toArray⟩

theorem tabulate_eq {γ : Type} {n : Nat} {f : Nat → Except Trap γ} {F : Nat → γ}
    (h : ∀ i < n, f i = .ok (F i)) : tabulate n f = .ok (Table.tabulate n F) := by
  have hcells : (List.range n).mapM f = .ok ((List.range n).map F) :=
    mapM_eq fun i hi => h i (List.mem_range.mp hi)
  have harray : ((List.range n).map F).toArray = (Array.range n).map F := by
    rw [← List.map_toArray, List.toArray_range]
  rw [tabulate, hcells, ok_bind, harray]
  rfl

end Lists

/-! ### Loops with an end of their own -/

/-- Repeats a step as long as it uses up room. -/
def saturate {σ : Type} (room : σ → Nat) (step : σ → Except Trap σ) (s : σ) : Except Trap σ :=
  match step s with
  | .error e => .error e
  | .ok s' => if room s' < room s then saturate room step s' else .ok s
termination_by room s

theorem saturate_eq {σ : Type} {room : σ → Nat} {step : σ → Except Trap σ} {F : σ → σ}
    (P : σ → Prop) (h : ∀ s, P s → step s = .ok (F s) ∧ P (F s)) {s : σ} (hs : P s) :
    saturate room step s = .ok (RegisterWeb.saturate room F s) := by
  fun_induction RegisterWeb.saturate room F s with
  | case1 s hroom ih =>
    obtain ⟨hstep, hkeep⟩ := h s hs
    rw [saturate, hstep]
    simp only [hroom, if_true]
    exact ih hkeep
  | case2 s hroom =>
    rw [saturate, (h s hs).1]
    simp only [hroom, if_false]

/-- Halves the interval from `lo` to `hi`. -/
def bisectFrom (test : Nat → Except Trap Bool) (lo hi : Nat) : Except Trap Nat :=
  if lo < hi then
    match test ((lo + hi) / 2) with
    | .error e => .error e
    | .ok true => bisectFrom test lo ((lo + hi) / 2)
    | .ok false => bisectFrom test ((lo + hi) / 2 + 1) hi
  else .ok lo
termination_by hi - lo

theorem bisectFrom_eq {test : Nat → Except Trap Bool} {p : Nat → Bool} {lo hi : Nat}
    (h : ∀ i < hi, test i = .ok (p i)) :
    bisectFrom test lo hi = .ok (RegisterWeb.bisectFrom p lo hi) := by
  fun_induction RegisterWeb.bisectFrom p lo hi with
  | case1 lo hi hlt mid hit ih =>
    rw [bisectFrom, if_pos hlt, h mid (by omega), hit]
    exact ih fun i hi => h i (by omega)
  | case2 lo hi hlt mid hit ih =>
    rw [bisectFrom, if_pos hlt, h mid (by omega), Bool.eq_false_of_not_eq_true hit]
    exact ih fun i hi => h i hi
  | case3 lo hi hge => rw [bisectFrom, if_neg hge]

/-- Marks what can be reached from `todo` through unmarked nodes. -/
def mark (next : Nat → Except Trap (List Nat)) : List Nat → Array Bool → Except Trap (Array Bool)
  | [], seen => .ok seen
  | x :: todo, seen =>
    if x < seen.size then
      if seen[x]? = some false then
        match next x with
        | .error e => .error e
        | .ok after => mark next (after ++ todo) (seen.setIfInBounds x true)
      else mark next todo seen
    else .error (.outside x seen.size)
termination_by todo seen => (seen.count false, todo.length)
decreasing_by
  · exact Prod.Lex.left _ _ (count_mark_lt (by assumption))
  · exact Prod.Lex.right _ (by simp)

theorem mark_eq {next : Nat → Except Trap (List Nat)} {F : Nat → List Nat} {n : Nat}
    (h : ∀ i < n, next i = .ok (F i) ∧ ∀ c ∈ F i, c < n) {todo : List Nat} {seen : Array Bool}
    (htodo : ∀ x ∈ todo, x < n) (hseen : seen.size = n) :
    mark next todo seen = .ok (RegisterWeb.mark F todo seen) := by
  fun_induction RegisterWeb.mark F todo seen with
  | case1 seen => rw [mark]
  | case2 x todo seen hfree ih =>
    obtain ⟨hx, hrest⟩ := List.forall_mem_cons.mp htodo
    obtain ⟨hnext, hafter⟩ := h x hx
    rw [mark, if_pos (hseen ▸ hx), if_pos hfree, hnext]
    refine ih ?_ (by rw [Array.size_setIfInBounds, hseen])
    intro y hy
    rcases List.mem_append.mp hy with hy | hy
    · exact hafter y hy
    · exact hrest y hy
  | case3 x todo seen hfree ih =>
    obtain ⟨hx, hrest⟩ := List.forall_mem_cons.mp htodo
    rw [mark, if_pos (hseen ▸ hx), if_neg hfree]
    exact ih hrest hseen

def reach (n : Nat) (next : Nat → Except Trap (List Nat)) (roots : List Nat) :
    Except Trap (Array Bool) :=
  mark next roots (Array.replicate n false)

def reachable (n : Nat) (next : Nat → Except Trap (List Nat)) (roots : List Nat) :
    Except Trap (List Nat) := do
  let seen ← reach n next roots
  filter (fetch seen) (List.range n)

theorem reach_eq {next : Nat → Except Trap (List Nat)} {F : Nat → List Nat} {n : Nat}
    (h : ∀ i < n, next i = .ok (F i) ∧ ∀ c ∈ F i, c < n) {roots : List Nat}
    (hroots : ∀ x ∈ roots, x < n) : reach n next roots = .ok (RegisterWeb.reach n F roots) :=
  mark_eq h hroots Array.size_replicate

theorem size_mark (next : Nat → List Nat) (todo : List Nat) (seen : Array Bool) :
    (RegisterWeb.mark next todo seen).size = seen.size := by
  fun_induction RegisterWeb.mark next todo seen with
  | case1 seen => rfl
  | case2 x todo seen hfree ih => rw [ih, Array.size_setIfInBounds]
  | case3 x todo seen hfree ih => exact ih

theorem reachable_eq {next : Nat → Except Trap (List Nat)} {F : Nat → List Nat} {n : Nat}
    (h : ∀ i < n, next i = .ok (F i) ∧ ∀ c ∈ F i, c < n) {roots : List Nat}
    (hroots : ∀ x ∈ roots, x < n) :
    reachable n next roots = .ok (RegisterWeb.reachable n F roots) := by
  rw [reachable, reach_eq h hroots, ok_bind]
  refine filter_eq fun i hi => ?_
  have hsize : (RegisterWeb.reach n F roots).size = n :=
    (size_mark ..).trans Array.size_replicate
  rw [fetch_eq (hsize.symm ▸ List.mem_range.mp hi)]
  rfl

end Strict

end RegisterWeb
