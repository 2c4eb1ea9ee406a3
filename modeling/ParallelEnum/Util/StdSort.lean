import Mathlib.Data.List.Sort

/-!
# `std::sort`

The standard does not fix the order in which `std::sort` leaves elements that compare equal.
`StdSort` is any function that sorts; code that calls `std::sort` takes one as a parameter.
-/

namespace ParallelEnum

/-- An implementation of `std::sort` on indices. -/
structure StdSort where
  /-- `std::sort(l.begin(), l.end(), lt)` -/
  sort : (ℕ → ℕ → Bool) → List ℕ → List ℕ
  /-- The result is a rearrangement. -/
  perm : ∀ lt l, (sort lt l).Perm l
  /-- If `lt` compares a key, the result is sorted by it. -/
  sorted : ∀ (key : ℕ → ℕ) (l : List ℕ),
    (sort (fun a b => decide (key a > key b)) l).Pairwise fun a b => key b ≤ key a

/-- Insertion sort. -/
def StdSort.insertion : StdSort where
  sort lt l := l.insertionSort fun a b => lt b a = false
  perm lt l := List.perm_insertionSort _ l
  sorted key l := by
    have htotal : Std.Total fun a b => decide (key b > key a) = false :=
      ⟨fun a b => by simp only [decide_eq_false_iff_not, not_lt]; omega⟩
    have htrans : IsTrans ℕ fun a b => decide (key b > key a) = false :=
      ⟨fun a b c hab hbc => by simp only [decide_eq_false_iff_not, not_lt] at *; omega⟩
    refine (List.pairwise_insertionSort (fun a b => decide (key b > key a) = false) l).imp ?_
    intro a b h
    simpa using h

end ParallelEnum
