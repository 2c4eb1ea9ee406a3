import ParallelEnum.Enumerable.Enumerable

/-!
# `Enumerator`: what a run reports

The counters and the item callback of `enumerator/enumerator.hpp`.  The calls of `cb_` are
recorded in `items`, in the order in which they are made.  `Enumerator` is an enumerator whose
callback is set; an `EnumeratorObject` may also have none.
-/

namespace ParallelEnum

/-- The part of `Enumerator<Node, Item>` that a run changes. -/
structure Enumerator (Item : Type) where
  /-- The arguments `cb_` was called with. -/
  items : List Item := []
  /-- `solutions_found_` -/
  solutionsFound : ℕ := 0
  /-- `tree_size_` -/
  treeSize : ℕ := 0
deriving DecidableEq

/-- `Enumerator::ReportSolution` -/
def Enumerator.reportSolution {St Node Item : Type} (system : Enumerable St Node Item) (st : St)
    (node : Node) (e : Enumerator Item) : Enumerator Item :=
  let e := { e with treeSize := e.treeSize + 1 }
  if system.isSolution st node then
    { e with
      solutionsFound := e.solutionsFound + 1
      items := e.items ++ [system.nodeToItem st node] }
  else e

/-! ### The object and its callback -/

/-- An `Enumerator` object: what a run changes, and whether `cb_`, which is null in a new object,
has been set. -/
structure EnumeratorObject (Item : Type) extends Enumerator Item where
  hasCb : Bool := false
deriving DecidableEq

namespace EnumeratorObject

variable {St Node Item : Type}

/-- `SetItemFoundCallback` -/
def setItemFoundCallback (o : EnumeratorObject Item) : EnumeratorObject Item :=
  { o with hasCb := true }

/-- `ReportSolution` -/
def reportSolution (system : Enumerable St Node Item) (st : St) (node : Node)
    (o : EnumeratorObject Item) : EnumeratorObject Item :=
  let o := { o with treeSize := o.treeSize + 1 }
  if !system.isSolution st node then o
  else
    let o := { o with solutionsFound := o.solutionsFound + 1 }
    if o.hasCb then { o with items := o.items ++ [system.nodeToItem st node] } else o

end EnumeratorObject

end ParallelEnum
