import Mathlib.Data.List.Sort

/-!
# `std::priority_queue`

A queue ordered by `std::greater`, so that its top is its smallest element.  Its elements are
kept in ascending order; elements that compare equal are equal.
-/

namespace ParallelEnum

/-- `std::priority_queue<α, std::vector<α>, std::greater<α>>` -/
structure PriorityQueue (α : Type) [LinearOrder α] where
  elems : List α
  sorted : elems.Pairwise (· ≤ ·)

namespace PriorityQueue

variable {α : Type} [LinearOrder α]

/-- A queue that has been cleared by `clearpq`. -/
def empty : PriorityQueue α := ⟨[], List.Pairwise.nil⟩

/-- `q.emplace(x)` -/
def emplace (q : PriorityQueue α) (x : α) : PriorityQueue α where
  elems := q.elems.orderedInsert (· ≤ ·) x
  sorted := List.Pairwise.orderedInsert x q.elems q.sorted

/-- `q.top()` and the queue after `q.pop()`, or `none` if `q.empty()`. -/
def pop (q : PriorityQueue α) : Option (α × PriorityQueue α) :=
  match h : q.elems with
  | [] => none
  | x :: xs => some (x, ⟨xs, (List.pairwise_cons.mp (h ▸ q.sorted)).2⟩)

@[simp] theorem elems_empty : (empty : PriorityQueue α).elems = [] := rfl

theorem perm_emplace (q : PriorityQueue α) (x : α) : (q.emplace x).elems.Perm (x :: q.elems) :=
  List.perm_orderedInsert _ _ _

@[simp] theorem mem_emplace {q : PriorityQueue α} {x y : α} :
    y ∈ (q.emplace x).elems ↔ y = x ∨ y ∈ q.elems :=
  List.mem_orderedInsert _

@[simp] theorem length_emplace (q : PriorityQueue α) (x : α) :
    (q.emplace x).elems.length = q.elems.length + 1 :=
  List.orderedInsert_length _ _ _

theorem elems_of_pop {q q' : PriorityQueue α} {x : α} (h : q.pop = some (x, q')) :
    q.elems = x :: q'.elems := by
  unfold pop at h
  split at h
  · cases h
  · next y ys hq =>
    cases h
    exact hq

theorem elems_of_pop_eq_none {q : PriorityQueue α} (h : q.pop = none) : q.elems = [] := by
  unfold pop at h
  split at h
  · assumption
  · cases h

/-- The top is the smallest element. -/
theorem le_of_pop {q q' : PriorityQueue α} {x : α} (h : q.pop = some (x, q')) :
    ∀ y ∈ q.elems, x ≤ y := by
  intro y hy
  have hsorted := q.sorted
  rw [elems_of_pop h] at hy hsorted
  rcases List.mem_cons.mp hy with rfl | hy
  · exact le_refl _
  · exact (List.pairwise_cons.mp hsorted).1 y hy

end PriorityQueue

end ParallelEnum
