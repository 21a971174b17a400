/-!
Tables: one value for each block of a graph. Reading outside of a table gives the default value, and
writing there changes nothing.
-/

namespace RegisterWeb

/-- Values indexed by the numbers below `size`. -/
structure Table (α : Type) where
  cells : Array α
  deriving DecidableEq, Repr

namespace Table

variable {α : Type}

instance : Inhabited (Table α) := ⟨⟨#[]⟩⟩

def size (t : Table α) : Nat :=
  t.cells.size

/-- The table of `n` values given by a function. -/
def tabulate (n : Nat) (f : Nat → α) : Table α :=
  ⟨(Array.range n).map f⟩

/-- The table of `n` default values. -/
def blank [Inhabited α] (n : Nat) : Table α :=
  ⟨Array.replicate n default⟩

def get [Inhabited α] (t : Table α) (i : Nat) : α :=
  t.cells.getD i default

def set (t : Table α) (i : Nat) (a : α) : Table α :=
  ⟨t.cells.setIfInBounds i a⟩

def toList (t : Table α) : List α :=
  t.cells.toList

@[simp] theorem size_tabulate (n : Nat) (f : Nat → α) : (tabulate n f).size = n := by
  simp [tabulate, size]

@[simp] theorem size_blank [Inhabited α] (n : Nat) : (blank n : Table α).size = n := by
  simp [blank, size]

@[simp] theorem size_set (t : Table α) (i : Nat) (a : α) : (t.set i a).size = t.size := by
  simp [set, size]

theorem get_tabulate [Inhabited α] (n : Nat) (f : Nat → α) (i : Nat) :
    (tabulate n f).get i = if i < n then f i else default := by
  by_cases h : i < n <;> simp [tabulate, get, h]

@[simp] theorem get_blank [Inhabited α] (n i : Nat) : (blank n : Table α).get i = default := by
  by_cases h : i < n <;> simp [blank, get, h]

theorem get_set [Inhabited α] (t : Table α) (i j : Nat) (a : α) :
    (t.set i a).get j = if i = j ∧ i < t.size then a else t.get j := by
  by_cases h : i = j
  · subst h
    by_cases hi : i < t.cells.size <;> simp [set, get, size, hi]
  · simp [set, get, h]

theorem get_of_size_le [Inhabited α] {t : Table α} {i : Nat} (h : t.size ≤ i) :
    t.get i = default := by
  rw [get, Array.getD_eq_getD_getElem?, Array.getElem?_eq_none h, Option.getD_none]

theorem cells_getElem? [Inhabited α] {t : Table α} {i : Nat} (h : i < t.size) :
    t.cells[i]? = some (t.get i) := by
  rw [get, Array.getD_eq_getD_getElem?, Array.getElem?_eq_getElem h, Option.getD_some]

theorem toList_set (t : Table α) (i : Nat) (a : α) : (t.set i a).toList = t.toList.set i a := by
  simp [set, toList]

theorem ext_get [Inhabited α] {s t : Table α} (size : s.size = t.size)
    (same : ∀ i, i < s.size → s.get i = t.get i) : s = t := by
  obtain ⟨s⟩ := s
  obtain ⟨t⟩ := t
  simp only [Table.size] at size same
  congr 1
  apply Array.ext size
  intro i hs ht
  have := same i hs
  simpa [get, hs, ht] using this

end Table

end RegisterWeb
