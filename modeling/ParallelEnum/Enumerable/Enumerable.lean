import Mathlib.Data.Nat.Notation

/-!
# `Enumerable`: a family that is enumerated by visiting a directed forest

The interface of `enumerable/enumerable.hpp`.  The mutable state of the object that implements it
(its `thread_local` members, for one thread) is a value of type `St`, passed in and handed back.
A callback runs on that state together with a state `σ` of its own, which belongs to the
enumerator.
-/

namespace ParallelEnum

/-- `NodeCallback`: called for every node found.  It stops the function that calls it if it
answers `false`; `none` is a call that does not return. -/
abbrev NodeCallback (St Node σ : Type) : Type := Node → St × σ → Option (Bool × (St × σ))

/-- `Enumerable<Node, Item>`. -/
structure Enumerable (St Node Item : Type) where
  /-- To be called before `getRoot` and `listChildren`. -/
  setUp : St → St := id
  /-- To be called when all calls to `getRoot` and `listChildren` are done. -/
  cleanUp : St → St := id
  /-- Whether the enumerator may use recursive calls. -/
  canUseRecursion : Bool := false
  /-- The maximum possible number of roots. -/
  maxRoots : ℕ
  /-- Gets the `i`-th root, if it exists. -/
  getRoot : ∀ {σ : Type}, ℕ → NodeCallback St Node σ → St × σ → Option (St × σ)
  /-- Lists the children of a given node. -/
  listChildren : ∀ {σ : Type}, Node → NodeCallback St Node σ → St × σ → Option (St × σ)
  /-- Converts an enumeration node into an output item. -/
  nodeToItem : St → Node → Item
  /-- Whether the node of the computational forest represents a solution. -/
  isSolution : St → Node → Bool := fun _ _ => true

/-- A callback that only works on the state of the enumerator. -/
def NodeCallback.lift {St Node σ : Type} (f : Node → σ → Option (Bool × σ)) :
    NodeCallback St Node σ :=
  fun node s => (f node s.2).map fun r => (r.1, (s.1, r.2))

end ParallelEnum
