import ParallelEnum.Enumerator.DistributedMpi

/-!
# `DistributedMPI::RunInternal`: the objects of the processes

Every process has a `DistributedMPI` object, and runs a `ParallelPthreadsSteal` object that it
creates for the purpose: over its part of the roots in the static mode, over what its first request
is answered with in the dynamic mode.  The process of rank `0` runs a `Master` in the dynamic mode.
-/

namespace ParallelEnum.DistributedMpi

open ParallelPthreadsSteal (FiniteSystem)

variable {Node Item : Type} {W : ℕ}

/-! ### Static partitioning -/

/-- The loop that divides the roots: `nextRangeStart` and `rangeEnd` in each iteration. -/
def partitionLoop (rootsPerNode : ℕ) : ℕ → ℕ → ℕ → List (ℕ × ℕ)
  | 0, _, _ => []
  | iterations + 1, nextRangeStart, surplus =>
    let rangeEnd := nextRangeStart + rootsPerNode
    if surplus ≠ 0 then
      (nextRangeStart, rangeEnd + 1) ::
        partitionLoop rootsPerNode iterations (rangeEnd + 1) (surplus - 1)
    else (nextRangeStart, rangeEnd) :: partitionLoop rootsPerNode iterations rangeEnd surplus

/-- The range of a rank: the one of the iteration in which `i == _rank`. -/
def staticRange (maxRoots numWorkers rank : ℕ) : ℕ × ℕ :=
  (partitionLoop (maxRoots / numWorkers) numWorkers 0 (maxRoots % numWorkers)).getD rank (0, 0)

/-- The state in which the threads of a rank start. -/
def staticInit (c : FiniteSystem Node) (numWorkers nthreads rank : ℕ) :
    ParallelPthreadsSteal.State Node nthreads :=
  ParallelPthreadsSteal.init c nthreads (staticRange c.maxRoots numWorkers rank).1
    (staticRange c.maxRoots numWorkers rank).2

/-! ### Objects -/

/-- The system with its solutions and items. -/
def systemOf (c : FiniteSystem Node) (isSolution : Node → Bool) (nodeToItem : Node → Item) :
    Enumerable Unit Node Item :=
  { c.system with
    nodeToItem := fun _ => nodeToItem
    isSolution := fun _ => isSolution }

/-- The objects of a process. -/
structure Process (Item : Type) where
  /-- The `DistributedMPI` object, on which `SetItemFoundCallback` has been called. -/
  object : EnumeratorObject Item := ({} : EnumeratorObject Item).setItemFoundCallback
  /-- The `ParallelPthreadsSteal` object `tmp`, if there is one. -/
  tmp : Option (EnumeratorObject Item) := none

/-- The calls of the item callback in a process. -/
def Process.calls (p : Process Item) : List Item :=
  p.object.items ++ (p.tmp.map fun o => o.items).getD []

/-- A new `ParallelPthreadsSteal` object whose threads have reported these nodes. -/
def reportAll (c : FiniteSystem Node) (isSolution : Node → Bool) (nodeToItem : Node → Item)
    (nodes : List Node) : EnumeratorObject Item :=
  nodes.foldl (fun o node => o.reportSolution (systemOf c isSolution nodeToItem) () node) {}

/-- Take over `solutions_found_`. -/
def Process.finish (solutionsFound : ℕ) (p : Process Item) : Process Item :=
  { p with object := { p.object with solutionsFound := solutionsFound } }

/-- A process of the static mode when its threads have returned. -/
def staticProcess {nthreads : ℕ} (c : FiniteSystem Node) (isSolution : Node → Bool)
    (nodeToItem : Node → Item) (s : ParallelPthreadsSteal.State Node nthreads) : Process Item :=
  let tmp := reportAll c isSolution nodeToItem s.shared.reported
  ({ tmp := some tmp } : Process Item).finish tmp.solutionsFound

/-- The process of the master when `m.Run()` has returned. -/
def masterProcess (s : State Node W) : Process Item :=
  ({} : Process Item).finish s.master.solutionsCount

/-- The process of a worker when `w.Run()` has returned: each request for more work has reset the
counter of `tmp`. -/
def workerProcess (c : FiniteSystem Node) (isSolution : Node → Bool) (nodeToItem : Node → Item)
    (w : Worker Node) : Process Item :=
  let tmp :=
    { reportAll c isSolution nodeToItem w.reported with solutionsFound := w.solutionsFound }
  ({ tmp := some tmp } : Process Item).finish tmp.solutionsFound

/-- `PrintStats`: the number of solutions that a rank prints. -/
def printStats (rank : ℕ) (p : Process Item) : Option ℕ :=
  if rank = 0 then some p.object.solutionsFound else none

end ParallelEnum.DistributedMpi
