import Mathlib.Data.List.Basic

/-!
# `std::vector`

Arrays read and written by index.  A read outside the array gives the default value and a write
there is dropped; the invariants of the code that uses them say that neither happens.  With `read`
and `write` it is an error instead.
-/

namespace ParallelEnum

/-- `std::vector<α>` -/
abbrev Vec (α : Type) : Type := Array α

namespace Vec

variable {α : Type} [Inhabited α]

/-- `v[i]` -/
def get (v : Vec α) (i : ℕ) : α := Array.getD v i default

omit [Inhabited α] in
/-- `v[i] = x` -/
def set (v : Vec α) (i : ℕ) (x : α) : Vec α := Array.setIfInBounds v i x

omit [Inhabited α] in
/-- `v[i]`, if there is such an entry. -/
def read (v : Vec α) (i : ℕ) : Option α := v[i]?

omit [Inhabited α] in
/-- `v[i] = x`, if there is such an entry. -/
def write (v : Vec α) (i : ℕ) (x : α) : Option (Vec α) :=
  if i < v.size then some (v.set i x) else none

omit [Inhabited α] in
/-- `for (i : l) v[i] = x` -/
def setAll (v : Vec α) (l : List ℕ) (x : α) : Vec α := l.foldl (fun v i => v.set i x) v

/-- `v.back()` -/
def back (v : Vec α) : α := v.get (v.size - 1)

/-- A vector of `n` value-initialised entries. -/
def zeros (n : ℕ) : Vec α := Array.replicate n default

/-- `v.resize(n)` -/
def resize (v : Vec α) (n : ℕ) : Vec α := Array.ofFn fun i : Fin n => v.get i

omit [Inhabited α] in
@[simp] theorem size_set (v : Vec α) (i : ℕ) (x : α) : (v.set i x).size = v.size := by
  simp [set]

theorem get_set (v : Vec α) (i j : ℕ) (x : α) :
    (v.set i x).get j = if i = j ∧ i < v.size then x else v.get j := by
  unfold get set
  rw [Array.getD_eq_getD_getElem?, Array.getElem?_setIfInBounds, Array.getD_eq_getD_getElem?]
  by_cases hij : i = j
  · subst hij
    by_cases hi : i < v.size
    · simp [hi]
    · simp [hi]
  · simp [hij]

theorem get_set_self {v : Vec α} {i : ℕ} (h : i < v.size) (x : α) : (v.set i x).get i = x := by
  rw [get_set, if_pos ⟨rfl, h⟩]

theorem get_set_of_ne (v : Vec α) {i j : ℕ} (h : i ≠ j) (x : α) :
    (v.set i x).get j = v.get j := by
  rw [get_set, if_neg fun hij => h hij.1]

theorem get_eq_getElem {v : Vec α} {i : ℕ} (h : i < v.size) : v.get i = v[i] := by
  unfold get
  rw [Array.getD_eq_getD_getElem?, Array.getElem?_eq_getElem h]
  rfl

/-- A read in range does not fail. -/
theorem read_eq {v : Vec α} {i : ℕ} (h : i < v.size) : v.read i = some (v.get i) := by
  unfold read
  rw [get_eq_getElem h, Array.getElem?_eq_getElem h]

theorem read_bind {β : Type} {v : Vec α} {i : ℕ} (h : i < v.size) (f : α → Option β) :
    (v.read i >>= f) = f (v.get i) := by
  rw [read_eq h, Option.bind_eq_bind, Option.bind_some]

omit [Inhabited α] in
/-- A write in range does not fail. -/
theorem write_bind {β : Type} {v : Vec α} {i : ℕ} (h : i < v.size) (x : α)
    (f : Vec α → Option β) : (v.write i x >>= f) = f (v.set i x) := by
  unfold write
  rw [if_pos h, Option.bind_eq_bind, Option.bind_some]

/-- Vectors of one size with the same entries are equal. -/
theorem ext_get {v w : Vec α} (hsize : v.size = w.size) (h : ∀ i < v.size, v.get i = w.get i) :
    v = w := by
  apply Array.ext hsize
  intro i hi hi'
  have := h i hi
  unfold get at this
  simpa [Array.getD_eq_getD_getElem?, hi, hi'] using this

omit [Inhabited α] in
/-- The last write to an index counts. -/
@[simp] theorem set_set (v : Vec α) (i : ℕ) (x y : α) : (v.set i x).set i y = v.set i y := by
  simp [set]

/-- Writing what is there changes nothing. -/
theorem set_get_self (v : Vec α) (i : ℕ) : v.set i (v.get i) = v := by
  apply ext_get (size_set _ _ _)
  intro j _
  rw [get_set]
  split_ifs with h
  · rw [h.1]
  · rfl

theorem get_of_size_le {v : Vec α} {i : ℕ} (h : v.size ≤ i) : v.get i = default := by
  unfold get
  rw [Array.getD_eq_getD_getElem?, Array.getElem?_eq_none h]
  rfl

@[simp] theorem size_zeros (n : ℕ) : (zeros n : Vec α).size = n := by
  simp [zeros]

@[simp] theorem get_zeros (n i : ℕ) : (zeros n : Vec α).get i = default := by
  unfold zeros get
  rw [Array.getD_eq_getD_getElem?, Array.getElem?_replicate]
  split_ifs <;> rfl

@[simp] theorem size_resize (v : Vec α) (n : ℕ) : (v.resize n).size = n := by
  simp [resize]

@[simp] theorem get_resize (v : Vec α) (n i : ℕ) :
    (v.resize n).get i = if i < n then v.get i else default := by
  unfold resize
  rw [get, Array.getD_eq_getD_getElem?, Array.getElem?_ofFn]
  split_ifs <;> rfl

theorem resize_empty (n : ℕ) : resize (#[] : Vec α) n = zeros n := by
  apply ext_get (by simp)
  intro i _
  rw [get_resize, get_zeros, get_of_size_le (Nat.zero_le i), ite_self]

omit [Inhabited α] in
@[simp] theorem size_setAll (v : Vec α) (l : List ℕ) (x : α) : (v.setAll l x).size = v.size := by
  unfold setAll
  induction l generalizing v with
  | nil => rfl
  | cons i l ih => rw [List.foldl_cons, ih, size_set]

theorem get_setAll (v : Vec α) (l : List ℕ) (x : α) (j : ℕ) :
    (v.setAll l x).get j = if j ∈ l ∧ j < v.size then x else v.get j := by
  induction l generalizing v with
  | nil => simp [setAll]
  | cons i l ih =>
    show ((v.set i x).setAll l x).get j = _
    rw [ih, size_set, get_set]
    by_cases hj : j < v.size
    · by_cases hjl : j ∈ l
      · simp [hjl, hj]
      · by_cases hij : i = j
        · simp [hij, hj]
        · simp [hij, hjl, Ne.symm hij]
    · have hout : ¬ (i = j ∧ i < v.size) := fun h => hj (h.1 ▸ h.2)
      simp only [hj, hout, and_false, if_false]

theorem get_push (v : Vec α) (x : α) (i : ℕ) :
    Vec.get (v.push x) i = if i = v.size then x else v.get i := by
  unfold get
  rw [Array.getD_eq_getD_getElem?, Array.getElem?_push, Array.getD_eq_getD_getElem?]
  split_ifs <;> rfl

theorem get_pop (v : Vec α) {i : ℕ} (hi : i + 1 < v.size) : Vec.get v.pop i = v.get i := by
  unfold get
  rw [Array.getD_eq_getD_getElem?, Array.getElem?_pop, Array.getD_eq_getD_getElem?,
    if_pos (by omega)]

/-- Clearing what was set gives back an array of default values. -/
theorem setAll_default_eq_zeros {v : Vec α} {l : List ℕ} (h : ∀ i, v.get i ≠ default → i ∈ l) :
    v.setAll l default = zeros v.size := by
  apply ext_get (by simp)
  intro i hi
  rw [size_setAll] at hi
  rw [get_setAll, get_zeros]
  split_ifs with hmem
  · rfl
  · by_contra hne
    exact hmem ⟨h i hne, hi⟩

end Vec

end ParallelEnum
