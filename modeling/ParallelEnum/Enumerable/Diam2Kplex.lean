import ParallelEnum.Enumerable.Diam2Kplex.Impl
import ParallelEnum.Enumerable.Enumerable

/-!
# `Diam2KplexEnumeration`: maximal k-plexes of diameter two

`Diam2KplexNode` and `Diam2KplexEnumeration` of `enumerable/diam2kplex.hpp`.  A node refers to the
vectors of its block through shared pointers, which are indices into a `Memory` here: copies of a
node share them.  The root nodes of a thread are built in its `thread_local` node, whose vectors
`getRoot` fills again for every root.
-/

namespace ParallelEnum.Diam2Kplex

/-- The vectors that nodes share. -/
structure Memory where
  subgraphs : Vec (Vec ℕ) := #[]
  nadjs : Vec (Vec (List ℕ)) := #[]

/-- `Diam2KplexNode`; a reference is `none` while the pointer is null. -/
structure Node where
  /-- `subgraph_` -/
  subgraph : Option ℕ := none
  /-- `nadj_` -/
  nadj : Option ℕ := none
  impl0 : Impl := {}
deriving DecidableEq, Inhabited

namespace Memory

/-- `*subgraph_` -/
def subgraph (m : Memory) (node : Node) : Vec ℕ := (node.subgraph.map m.subgraphs.get).getD #[]

/-- `*nadj_` -/
def nadj (m : Memory) (node : Node) : Vec (List ℕ) := (node.nadj.map m.nadjs.get).getD #[]

end Memory

/-- The memory, and the `thread_local` variables of `GetRoot` for the thread that runs.  Variables
with an initialiser have no value before the thread first reaches them. -/
structure Store where
  memory : Memory := {}
  node : Node := {}
  subgraphAdded : Option (Vec Bool) := none
  subgraphCandidates : List ℕ := []
  subgraphCounts : Option (Vec ℕ) := none

namespace Store

/-- `Clear` of the `thread_local` node. -/
def clear (s : Store) : Store :=
  match s.node.subgraph with
  | none =>
    { s with
      memory.subgraphs := s.memory.subgraphs.push #[]
      node.subgraph := some s.memory.subgraphs.size }
  | some r => { s with memory.subgraphs := Vec.set s.memory.subgraphs r #[] }

/-- `AddToSubgraph` of the `thread_local` node. -/
def addToSubgraph (s : Store) (v : ℕ) : Store :=
  match s.node.subgraph with
  | none => s
  | some r =>
    { s with
      memory.subgraphs := s.memory.subgraphs.set r ((s.memory.subgraphs.get r).push v) }

/-- `Subgraph` of the `thread_local` node. -/
def subgraph (s : Store) : Vec ℕ := s.memory.subgraph s.node

end Store

/-- The loops of `Init` that fill the lists of non-neighbours. -/
def fillNadj (g : Graph) (subgraph : Vec ℕ) (nadj : Vec (List ℕ)) : Vec (List ℕ) :=
  (List.range subgraph.size).foldl
    (fun nadj i => (List.range subgraph.size).foldl
      (fun nadj j =>
        if !g.areNeighs (subgraph.get i) (subgraph.get j) then nadj.set i (nadj.get i ++ [j])
        else nadj) nadj) nadj

/-- The vector `nadj_` refers to when its rows have been cleared. -/
def clearNadj (nadj : Vec (List ℕ)) (n : ℕ) : Vec (List ℕ) :=
  let nadj := if nadj.size < n then nadj.resize n else nadj
  (List.range nadj.size).foldl (fun nadj i => nadj.set i []) nadj

/-- `Init` of the `thread_local` node. -/
def Store.init (g : Graph) (k : ℕ) (s : Store) : Store :=
  let subgraph := s.subgraph
  let s :=
    match s.node.nadj with
    | none =>
      { s with
        memory.nadjs := s.memory.nadjs.push (Vec.zeros subgraph.size)
        node.nadj := some s.memory.nadjs.size }
    | some r =>
      { s with
        memory.nadjs := s.memory.nadjs.set r (clearNadj (s.memory.nadjs.get r) subgraph.size) }
  let nadj := fillNadj g subgraph (s.memory.nadj s.node)
  { s with
    memory.nadjs := (s.node.nadj.map fun r => s.memory.nadjs.set r nadj).getD s.memory.nadjs
    node.impl0 := Impl.init subgraph nadj.get k }

section Enumeration

variable (g : Graph) (k q : ℕ) (enablePivoting : Bool) (std : StdSort)

/-- `filter_sg`: the vertices with enough neighbours in the list. -/
def filterSg (sg : List ℕ) : List ℕ :=
  sg.filter fun a => decide (sg.countP (g.areNeighs a ·) + 2 * k ≥ q)

/-- The `do` loop around `filter_sg`.  A list that is not stable gets shorter, so `fuel` may be
its length and one. -/
def filterLoop : ℕ → List ℕ → List ℕ
  | 0, sg => sg
  | fuel + 1, sg =>
    let sz := sg.length
    let sg := filterSg g k q sg
    if sg.length ≠ sz then filterLoop fuel sg else sg

/-- One iteration of the loop that counts the vertices two hops away, on `subgraph_counts` and
`subgraph_candidates`. -/
def countTwoHop (v : ℕ) (added : Vec Bool) (s : Vec ℕ × List ℕ) (nn : ℕ) : Vec ℕ × List ℕ :=
  if decide (nn > v) && !added.get nn then
    (s.1.set nn (s.1.get nn + 1), if s.1.get nn = 0 then s.2 ++ [nn] else s.2)
  else s

/-- One iteration of the loop that adds the vertices two hops away. -/
def addTwoHop (s : Store × Vec ℕ) (n : ℕ) : Store × Vec ℕ :=
  (if s.2.get n + 2 * k ≥ q + 2 then s.1.addToSubgraph n else s.1, s.2.set n 0)

/-- The part of `GetRoot` under `if (k_ != 1)`. -/
def twoHop (v : ℕ) (added : Vec Bool) (sg : List ℕ) (s : Store) : Store :=
  let counts := s.subgraphCounts.getD (Vec.zeros g.size)
  let r := sg.foldl (fun r n => (g.neighs n).foldl (countTwoHop v added) r)
    (counts, s.subgraphCandidates)
  let s := r.2.foldl (addTwoHop k q) (s, r.1)
  { s.1 with subgraphCounts := some s.2, subgraphCandidates := [] }

/-- What `GetRoot` does after its first test and before its callback. -/
def openRoot (v : ℕ) (s : Store) : Store :=
  let s := s.clear
  let added := s.subgraphAdded.getD (Vec.zeros g.size)
  let added := added.set v true
  let s := s.addToSubgraph v
  let added := added.setAll (g.fwdNeighs v) true
  let sg := filterLoop g k q ((g.fwdNeighs v).length + 1) (g.fwdNeighs v)
  let s := sg.foldl Store.addToSubgraph s
  let s := if k ≠ 1 then twoHop g k q v added sg s else s
  let added := added.setAll s.subgraph.toList false
  let added := added.setAll (g.fwdNeighs v) false
  Store.init g k { s with subgraphAdded := some added }

/-- `GetRoot` -/
def getRoot {σ : Type} (v : ℕ) (cb : NodeCallback Store Node σ) (s : Store × σ) :
    Option (Store × σ) :=
  if g.fwdDegree v + k < q then some s
  else
    let store := openRoot g k q v s.1
    (cb store.node (store, s.2)).map fun r => r.2

/-- `ListChildren` -/
def listChildren {σ : Type} (node : Node) (cb : NodeCallback Store Node σ) (s : Store × σ) :
    Option (Store × σ) :=
  listChildrenImpl g k q enablePivoting std
    (fun s => (s.1.memory.subgraph node, (s.1.memory.nadj node).get)) node.impl0
    (fun child s => cb { node with impl0 := child } s) s

/-- `NodeToItem` -/
def nodeToItem (s : Store) (node : Node) : List ℕ := node.impl0.toItem (s.memory.subgraph node)

/-- `IsSolution` -/
def isSolution (s : Store) (node : Node) : Bool :=
  node.impl0.isReallyMaximal g (s.memory.subgraph node) k q

/-- `Diam2KplexEnumeration`, on the graph it holds in `graph_`. -/
def diam2KplexEnumeration : Enumerable Store Node (List ℕ) where
  canUseRecursion := true
  maxRoots := g.size
  getRoot := getRoot g k q
  listChildren := listChildren g k q enablePivoting std
  nodeToItem := nodeToItem
  isSolution := isSolution g k q

end Enumeration

end ParallelEnum.Diam2Kplex
