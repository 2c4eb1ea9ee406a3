import ParallelEnum.Util.Vector
import Mathlib.Algebra.Group.Nat.Defs
import Mathlib.Order.Lattice

/-!
# `binary_search_t`

The sorted array of `util/binary_search.hpp`.  A read or a write outside an array is an error, and
so is a loop that does not end.
-/

namespace ParallelEnum

/-- `binary_search_t<T>` -/
structure BinarySearch (α : Type) where
  support : Vec α

namespace BinarySearch

variable {α : Type}

/-- The loop of `init`, from the value `cnt` of its counter on.  The counter is an `unsigned`, so a
loop that has not ended after `2 ^ 32` steps starts over and never ends. -/
def initLoop (v : Vec α) : ℕ → ℕ → Vec α → Option (Vec α)
  | 0, _, _ => none
  | left + 1, cnt, support =>
    if cnt ≠ v.size then do
      let x ← v.read cnt
      let support ← support.write cnt x
      initLoop v left ((cnt + 1) % 2 ^ 32) support
    else some support

/-- `init` -/
def init [Inhabited α] (v : Vec α) : Option (BinarySearch α) := do
  let support ← initLoop v (2 ^ 32) 0 (Vec.zeros v.size)
  some ⟨support⟩

/-- The values from `begin()` to `end()`. -/
def toList (s : BinarySearch α) : List α := s.support.toList

instance : Inhabited (BinarySearch α) := ⟨⟨#[]⟩⟩

variable [LinearOrder α] (s : BinarySearch α)

/-- The loop of `count`, over the values of `cur` and `n`. -/
def narrow (v : α) (cur n : ℕ) : Option ℕ :=
  if n > 1 then do
    let half := n / 2
    let x ← s.support.read (cur + half)
    narrow v (if x < v then cur + half else half) (n - half)
  else some cur
termination_by n

/-- `count` -/
def count (v : α) : Option Bool := do
  let cur ← s.narrow v 0 s.support.size
  let x ← s.support.read cur
  let cur := if x < v then cur + 1 else cur
  if cur < s.support.size then do
    let y ← s.support.read cur
    some (y = v)
  else some false

/-- `upper_bound`, as a distance from `begin()`. -/
def upperBound (v : α) : ℕ := (s.toList.takeWhile (· ≤ v)).length

end BinarySearch

end ParallelEnum
