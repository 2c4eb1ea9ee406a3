import ParallelEnum.Enumerator.Enumerator

/-!
# `Sequential`: one thread, one root after the other

`Sequential::RunInternal` of `enumerator/sequential.hpp`.  Without recursion the nodes still to be
expanded wait on a stack; with recursion the callback expands the node it is given.  Neither loop
has a bound in the source, so both take a fuel that limits the iterations of the `while` loop or
the depth of the recursion; `none` is a run that the fuel does not bring to its end.
-/

namespace ParallelEnum.Sequential

variable {St Node Item : Type}

/-- The state `solution_cb` works on when recursion is not allowed. -/
structure State (Node Item : Type) where
  /-- `std::stack<Node> nodes`, the top first. -/
  nodes : List Node
  enumerator : Enumerator Item

/-- `solution_cb` when recursion is not allowed: push the node, then report it. -/
def stackCb (system : Enumerable St Node Item) : NodeCallback St Node (State Node Item) :=
  fun node s => some (true, (s.1,
    { nodes := node :: s.2.nodes
      enumerator := s.2.enumerator.reportSolution system s.1 node }))

/-- `while (!nodes.empty())`: pop a node and list its children. -/
def drain (system : Enumerable St Node Item) :
    ℕ → St × State Node Item → Option (St × State Node Item)
  | 0, _ => none
  | fuel + 1, s =>
    match s.2.nodes with
    | [] => some s
    | node :: nodes =>
      (system.listChildren node (stackCb system) (s.1, { s.2 with nodes := nodes })).bind
        (drain system fuel)

/-- `solution_cb` when recursion is allowed: report the node, then list its children. -/
def recursiveCb (system : Enumerable St Node Item) : ℕ → NodeCallback St Node (Enumerator Item)
  | 0 => fun _ _ => none
  | fuel + 1 => fun node s =>
    (system.listChildren node (recursiveCb system fuel)
      (s.1, s.2.reportSolution system s.1 node)).map fun s => (true, s)

/-- `Sequential::RunInternal` -/
def runInternal (fuel : ℕ) (system : Enumerable St Node Item) (st : St) (e : Enumerator Item) :
    Option (St × Enumerator Item) :=
  let st := system.setUp st
  let maxRoots := system.maxRoots
  if !system.canUseRecursion then
    let run := (List.range maxRoots).foldlM
      (fun s i => (system.getRoot i (stackCb system) s).bind (drain system fuel))
      (st, ({ nodes := [], enumerator := e } : State Node Item))
    run.map fun s => (system.cleanUp s.1, s.2.enumerator)
  else
    let run := (List.range maxRoots).foldlM
      (fun s i => system.getRoot i (recursiveCb system fuel) s) (st, e)
    run.map fun s => (system.cleanUp s.1, s.2)

end ParallelEnum.Sequential
