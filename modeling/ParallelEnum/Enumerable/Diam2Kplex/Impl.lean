import ParallelEnum.Util.Graph
import ParallelEnum.Util.StdSort

/-!
# `Diam2KplexNodeImpl` and the listing of children

The search node of `enumerable/diam2kplex.hpp`.  A node lives in the block of a root, given by
`subgraph`, the vertices of the block, and `nadj`, the indices in the block each index is not
adjacent to; its rows are only read, so it is the function `i ↦ nadj[i]`.  The lists of a node hold
indices of the block.
-/

namespace ParallelEnum.Diam2Kplex

/-- The values of the `status` array. -/
inductive Status
  | noStatus
  | inKplex
  | inCand
  | inExcl
deriving DecidableEq, Inhabited

/-- `Diam2KplexNodeImpl<Graph, 0>` -/
structure Impl where
  kplex : List ℕ := []
  /-- For each index, how many members of `kplex` it is not adjacent to. -/
  counters : Vec UInt8 := #[]
  status : Vec Status := #[]
  /-- Blocks of `k` slots, one for each index: the members of `kplex` counted in `counters`. -/
  nonNeighs : Vec ℕ := #[]
  cands : List ℕ := []
  excluded : List ℕ := []
deriving DecidableEq, Inhabited

namespace Impl

variable (g : Graph) (subgraph : Vec ℕ) (nadj : ℕ → List ℕ) (k q : ℕ)

/-- `counters[i]` as a `size_t`. -/
def counter (impl : Impl) (i : ℕ) : ℕ := (impl.counters.get i).toNat

/-- One iteration of the loop of `Init` over `nadj[0]`:
`non_neighs[k * i + counters[i]++] = 0`. -/
def initCounter (impl : Impl) (i : ℕ) : Impl :=
  { impl with
    nonNeighs := impl.nonNeighs.set (k * i + impl.counter i) 0
    counters := impl.counters.set i (impl.counters.get i + 1) }

/-- `Init` -/
def init : Impl :=
  let impl : Impl :=
    { kplex := [0]
      counters := Vec.zeros subgraph.size
      status := (Vec.zeros subgraph.size).set 0 .inKplex
      nonNeighs := Vec.zeros (k * subgraph.size) }
  let impl := (nadj 0).foldl (initCounter k) impl
  let rest := List.range' 1 (subgraph.size - 1)
  { impl with cands := rest, status := impl.status.setAll rest .inCand }

/-- `IsMaximal` -/
def isMaximal (impl : Impl) : Bool :=
  if impl.kplex.length + 1 > k then impl.cands.isEmpty && impl.excluded.isEmpty
  else
    impl.cands.all (fun v => impl.counter v = impl.kplex.length) &&
      impl.excluded.all (fun v => impl.counter v = impl.kplex.length)

/-- `CanPrune` -/
def canPrune (impl : Impl) : Bool := impl.cands.length + impl.kplex.length < q

/-- `HasUniversalInExcl` -/
def hasUniversalInExcl (impl : Impl) : Bool :=
  impl.excluded.any fun u =>
    decide (impl.counter u = 0) &&
      (nadj u).all fun v => decide (impl.status.get v ≠ .inCand)

/-- One iteration of the first loop of `GetCands`, on `cand_counters` and `universals`. -/
def scanCand (impl : Impl) (s : Vec ℕ × List ℕ) (u : ℕ) : Vec ℕ × List ℕ :=
  let candCounters := (nadj u).foldl
    (fun cc v =>
      if impl.status.get v = .inCand ∧ u ≠ v then cc.set u (cc.get u + 1) else cc) s.1
  (candCounters,
    if impl.counter u = 0 ∧ candCounters.get u = 0 then s.2 ++ [u] else s.2)

/-- The indices `not_cuts` calls back with. -/
def notCuts (impl : Impl) (u : ℕ) : List ℕ :=
  if k ≠ 1 then
    impl.cands.filter fun v =>
      !g.areNeighs (subgraph.get u) (subgraph.get v) ||
        (List.range (impl.counter u)).any fun i =>
          !g.areNeighs (subgraph.get v) (subgraph.get (impl.nonNeighs.get (k * u + i)))
  else (nadj u).filter fun v => impl.status.get v = .inCand

/-- The pivot: the candidate or excluded index with the fewest `not_cuts`, the first if there are
several. -/
def best (impl : Impl) : ℕ :=
  let better (s : ℕ × ℕ) (u : ℕ) : ℕ × ℕ :=
    let count := (impl.notCuts g subgraph nadj k u).length
    if count < s.2 then (u, count) else s
  (impl.excluded.foldl better
    (impl.cands.foldl better (impl.cands.headD 0, impl.cands.length))).1

/-- The indices `GetCands` branches on, before they are sorted. -/
def realCands (enablePivoting : Bool) (impl : Impl) : List ℕ :=
  if enablePivoting && decide (impl.kplex.length + 1 > k) then
    impl.notCuts g subgraph nadj k (impl.best g subgraph nadj k)
  else impl.cands.filter fun u => impl.counter u ≠ impl.kplex.length

/-- `GetCands`: the universal candidates and, if there are none, the candidates to branch on. -/
def getCands (enablePivoting : Bool) (std : StdSort) (impl : Impl) : List ℕ × List ℕ :=
  if impl.cands.length = 0 then ([], [])
  else
    let s := impl.cands.foldl (impl.scanCand nadj) (Vec.zeros subgraph.size, [])
    if !s.2.isEmpty then (s.2, [])
    else
      ([], std.sort
        (fun a b => decide (impl.counter a + s.1.get a > impl.counter b + s.1.get b))
        (impl.realCands g subgraph nadj k enablePivoting))

/-- One iteration of the loop of `AddToKplex`. -/
def bumpCounter (c : ℕ) (impl : Impl) (e : ℕ) : Impl :=
  { impl with
    nonNeighs :=
      if impl.counter e < k then impl.nonNeighs.set (k * e + impl.counter e) c
      else impl.nonNeighs
    counters := impl.counters.set e (impl.counters.get e + 1) }

/-- `AddToKplex` -/
def addToKplex (impl : Impl) (c : ℕ) : Impl :=
  (nadj c).foldl (bumpCounter k c)
    { impl with kplex := impl.kplex ++ [c], status := impl.status.set c .inKplex }

/-- The loop of `CanAdd` over `kplex`, with `v_cnt`. -/
def canAddLoop (impl : Impl) (v : ℕ) : List ℕ → ℕ → Bool
  | [], vCnt => decide (vCnt ≤ k)
  | i :: is, vCnt =>
    if !g.areNeighs v (subgraph.get i) then
      if impl.counter i + 1 > k then false else canAddLoop impl v is (vCnt + 1)
    else canAddLoop impl v is vCnt

/-- `CanAdd` for a vertex of the graph. -/
def canAddVertex (impl : Impl) (v : ℕ) : Bool := impl.canAddLoop g subgraph k v impl.kplex 1

/-- `CanAdd` for an index of the block. -/
def canAdd (impl : Impl) (idx : ℕ) : Bool :=
  if impl.status.get idx = .inKplex then false
  else impl.canAddVertex g subgraph k (subgraph.get idx)

/-- One iteration of the loops of `UpdateCandAndExcl` that fill `excluded`. -/
def updateExcl (impl : Impl) (e : ℕ) : Impl :=
  if impl.canAdd g subgraph k e then
    { impl with excluded := impl.excluded ++ [e], status := impl.status.set e .inExcl }
  else { impl with status := impl.status.set e .noStatus }

/-- One iteration of the loop of `UpdateCandAndExcl` that fills `cands`. -/
def updateCand (addToExclBitset : Vec Bool) (impl : Impl) (e : ℕ) : Impl :=
  if !addToExclBitset.get e && impl.canAdd g subgraph k e then
    { impl with cands := impl.cands ++ [e], status := impl.status.set e .inCand }
  else { impl with status := impl.status.set e .noStatus }

/-- `UpdateCandAndExcl` -/
def updateCandAndExcl (addToExcl : List ℕ) (addToExclBitset : Vec Bool) (impl : Impl) : Impl :=
  let excludedCache := impl.excluded
  let impl := { impl with excluded := [] }
  let impl := excludedCache.foldl (updateExcl g subgraph k) impl
  let impl := addToExcl.foldl (updateExcl g subgraph k) impl
  let candsCache := impl.cands
  let impl := { impl with cands := [] }
  candsCache.foldl (updateCand g subgraph k addToExclBitset) impl

/-- `HasDiameterTwo` -/
def hasDiameterTwo (impl : Impl) : Bool :=
  if impl.kplex.length + 2 > 2 * k then true
  else if k = 2 then true
  else
    impl.kplex.all fun v => impl.kplex.all fun u =>
      g.areNeighs (subgraph.get u) (subgraph.get v) ||
        impl.kplex.any fun x =>
          g.areNeighs (subgraph.get u) (subgraph.get x) &&
            g.areNeighs (subgraph.get v) (subgraph.get x)

/-- The loops of `IsReallyMaximal`: a vertex before the root that is next to one of the first `k`
members and can be added. -/
def hasSmaller (impl : Impl) : Bool :=
  (impl.kplex.take k).any fun i =>
    ((g.neighs (subgraph.get i)).takeWhile (· < subgraph.get 0)).any
      (impl.canAddVertex g subgraph k ·)

/-- `IsReallyMaximal` -/
def isReallyMaximal (impl : Impl) : Bool :=
  if !impl.isMaximal k then false
  else if impl.kplex.length < q then false
  else if !impl.hasDiameterTwo g subgraph k then false
  else !impl.hasSmaller g subgraph k

/-- `ToItem` -/
def toItem (impl : Impl) : List ℕ := impl.kplex.map subgraph.get

end Impl

/-! ### `ListChildren` -/

section ListChildren

variable (g : Graph) (k q : ℕ) (enablePivoting : Bool) (std : StdSort) {S : Type}

/-- The child in which the universal candidates have joined the `k`-plex. -/
def fastForward (subgraph : Vec ℕ) (nadj : ℕ → List ℕ) (node : Impl) (universals : List ℕ) :
    Impl :=
  (universals.foldl (Impl.addToKplex nadj k) node).updateCandAndExcl g subgraph k []
    (Vec.zeros subgraph.size)

/-- The child in which `c` has joined the `k`-plex. -/
def addChild (subgraph : Vec ℕ) (nadj : ℕ → List ℕ) (node : Impl) (addToExcl : List ℕ)
    (addToExclBitset : Vec Bool) (c : ℕ) : Impl :=
  (node.addToKplex nadj k c).updateCandAndExcl g subgraph k addToExcl addToExclBitset

/-- The loop over the non-unary children.  `view` gives what `subgraph` and `nadj` refer to: the
callback may have changed it. -/
def branch (view : S → Vec ℕ × (ℕ → List ℕ)) (node : Impl) (cb : Impl → S → Option (Bool × S)) :
    List ℕ → List ℕ → Vec Bool → S → Option S
  | [], _, _, s => some s
  | c :: cs, addToExcl, addToExclBitset, s =>
    (cb (addChild g k (view s).1 (view s).2 node addToExcl addToExclBitset c) s).bind fun r =>
      if r.1 then branch view node cb cs (addToExcl ++ [c]) (addToExclBitset.set c true) r.2
      else some r.2

/-- The function `ListChildren`. -/
def listChildrenImpl (view : S → Vec ℕ × (ℕ → List ℕ)) (node : Impl)
    (cb : Impl → S → Option (Bool × S)) (s : S) : Option S :=
  let subgraph := (view s).1
  let nadj := (view s).2
  if node.isMaximal k then some s
  else if node.canPrune q then some s
  else if node.hasUniversalInExcl nadj then some s
  else
    let cands := node.getCands g subgraph nadj k enablePivoting std
    if !cands.1.isEmpty then
      (cb (fastForward g k subgraph nadj node cands.1) s).map fun r => r.2
    else branch g k view node cb cands.2 [] (Vec.zeros subgraph.size) s

end ListChildren

end ParallelEnum.Diam2Kplex
