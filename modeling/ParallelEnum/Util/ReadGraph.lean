import ParallelEnum.Util.Fastio
import ParallelEnum.Util.FastGraph

/-!
# Reading a graph

`ReadEdgeList`, `ReadNde` and `ReadOlympiadsFormat`, for graphs without labels and both types of
vertices.  The access to a row of `edges` that does not exist is an error.
-/

namespace ParallelEnum.ReadGraph

open Cuckoo Fastio

/-- The reasons for which no graph is read. -/
inductive ReadFailure where
  | outOfFuel
  | outOfRange
  | build (e : BuildFailure)

/-- `node_t(EOF)` -/
def eofNode (T : KeyType) : ℕ := eof % 2 ^ T.width

/-- `a--`, for a `node_t`. -/
def decrement (T : KeyType) (a : ℕ) : ℕ := (a + (2 ^ T.width - 1)) % 2 ^ T.width

/-- `edges[i].push_back(x)` -/
def pushBack (edges : Vec (List ℕ)) (i x : ℕ) : Except ReadFailure (Vec (List ℕ)) :=
  if i < edges.size then .ok (edges.set i (edges.get i ++ [x])) else .error .outOfRange

/-- The body of the loop of `ReadEdgeList`, for two vertices. -/
def addEdge (T : KeyType) (directed oneBased : Bool) (edges : Vec (List ℕ)) (e : ℕ × ℕ) :
    Except ReadFailure (Vec (List ℕ)) :=
  if e.1 = e.2 then .ok edges
  else
    let a := if oneBased then decrement T e.1 else e.1
    let b := if oneBased then decrement T e.2 else e.2
    (pushBack edges a b).bind fun edges => if directed then .ok edges else pushBack edges b a

/-- The loop of `ReadEdgeList`. -/
def readEdges (T : KeyType) (directed oneBased : Bool) :
    ℕ → List UInt8 → Vec (List ℕ) → Except ReadFailure (Vec (List ℕ))
  | 0, _, _ => .error .outOfFuel
  | fuel + 1, input, edges =>
    let a := fastRead T input
    let b := fastRead T a.2
    if a.1 = eofNode T ∨ b.1 = eofNode T then .ok edges
    else
      (addEdge T directed oneBased edges (a.1, b.1)).bind
        (readEdges T directed oneBased fuel b.2)

/-- `adj.erase(std::unique(adj.begin(), adj.end()), adj.end())` -/
def unique : List ℕ → List ℕ
  | [] => []
  | [x] => [x]
  | x :: y :: l => if x = y then unique (y :: l) else x :: unique (y :: l)

/-- `ReadEdgeList`, with some `std::sort`. -/
def readEdgeList (T : KeyType) (directed oneBased : Bool) (nodes fuel : ℕ) (input : List UInt8) :
    Except ReadFailure (Vec (List ℕ)) :=
  (readEdges T directed oneBased fuel input (Vec.zeros nodes)).map fun edges =>
    edges.map fun adj => unique (adj.insertionSort (· ≤ ·))

/-- The loop of `ReadNde` that discards the degrees. -/
def discard (T : KeyType) : ℕ → List UInt8 → List UInt8
  | 0, input => input
  | i + 1, input => discard T i (fastRead T (fastRead T input).2).2

/-- `ReadNde` -/
def readNde (T : KeyType) (directed : Bool) (fuel : ℕ) (input : List UInt8) :
    Except ReadFailure (FastGraph T) :=
  let N := fastRead T input
  (readEdgeList T directed false N.1 fuel (discard T N.1 N.2)).bind fun edges =>
    (FastGraph.make T N.1 edges).mapError .build

/-- `ReadOlympiadsFormat` -/
def readOlympiadsFormat (T : KeyType) (directed oneBased : Bool) (fuel : ℕ) (input : List UInt8) :
    Except ReadFailure (FastGraph T) :=
  let N := fastRead T input
  (readEdgeList T directed oneBased N.1 fuel (fastRead T N.2).2).bind fun edges =>
    (FastGraph.make T N.1 edges).mapError .build

end ParallelEnum.ReadGraph
