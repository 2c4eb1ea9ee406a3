import ParallelEnum.Enumerable.Commutable
import ParallelEnum.Util.Vector

/-!
# `CHSystem`: systems of connected sets

The functions of `enumerable/connected_hereditary.hpp`.  A `CHSystem` is a `CommutableSystem` with
an adjacency test, which overrides `IsSeed`, `ValidSeeds` and `Resort`.
-/

namespace ParallelEnum

open BreadthFirst

/-- `CHSystem`: the virtual functions of its base class and `IsNeigh`. -/
structure CHSystem where
  base : CommutableSystem
  isNeigh : ℕ → ℕ → Bool

namespace CHSystem

variable (sys : CHSystem)

/-- `ValidSeeds` -/
def validSeeds (sol : List ℕ) (cand : ℕ) : List ℕ :=
  sol.filter fun seed =>
    !decide (cand ≤ seed) && !sys.isNeigh (CommutableSystem.minElem sol) seed

/-! ### `Resort` -/

/-- One iteration of the loop of `Resort` over the indices of `s`, after `p` is popped. -/
def visit (s : List ℕ) (p : Key ℕ) (t : PriorityQueue (Key ℕ) × Vec Bool) (i : ℕ) :
    PriorityQueue (Key ℕ) × Vec Bool :=
  if !t.2.get i && sys.isNeigh p.node (s.getD i 0) then
    (t.1.emplace ⟨p.level + 1, s.getD i 0⟩, t.2.set i true)
  else t

/-- The `while` loop of `Resort`. -/
def resortLoop (s : List ℕ) : ℕ → PriorityQueue (Key ℕ) × Vec Bool → List ℕ → List ℕ →
    Option CommutableNode
  | 0, _, _, _ => none
  | fuel + 1, t, sorted, level =>
    match t.1.pop with
    | none => some (sorted, level)
    | some (p, q) =>
      resortLoop s fuel ((List.range s.length).foldl (sys.visit s p) (q, t.2))
        (sorted ++ [p.node]) (level ++ [p.level])

/-- `Resort`.  Its loop takes every element from the queue at most once, so one more iteration than
`s` has elements is enough.  It asserts that the seed is in `s`. -/
def resort (s _level : List ℕ) (seed : ℕ) : Option CommutableNode :=
  let seedIndex := s.idxOf seed
  if seedIndex < s.length then
    let visited : Vec Bool := (Vec.zeros s.length).set seedIndex true
    sys.resortLoop s (s.length + 1) (PriorityQueue.empty.emplace ⟨0, seed⟩, visited) [] []
  else none

/-- The system with what `CHSystem` overrides. -/
def system : CommutableSystem :=
  { sys.base with
    isSeed := fun _ _ => true
    validSeeds := sys.validSeeds
    resort := sys.resort }

end CHSystem

end ParallelEnum
