import ParallelEnum.Util.BinarySearch
import ParallelEnum.Util.Cuckoo
import Mathlib.Data.List.Sort

/-!
# `graph_t` and `fast_graph_t` with all that they store

The sorted arrays of `graph_t`, and the hash sets and offsets that `fast_graph_t` builds beside
them, for both types of vertices.  The hash sets have their exact limit: an index into a table is
an `int`.
-/

namespace ParallelEnum

open Cuckoo

/-- The reasons for which a constructor does not return. -/
inductive BuildFailure where
  | endless
  | hashSet (e : Failure)

/-- `graph_t` -/
structure PlainGraph where
  /-- `N_` -/
  N : ℕ
  /-- `edges_` -/
  edges : Vec (BinarySearch ℕ)

/-- `s.init(xs)`, for a new `s`. -/
def arrayOf (xs : List ℕ) : Except BuildFailure (BinarySearch ℕ) :=
  match BinarySearch.init xs.toArray with
  | some s => .ok s
  | none => .error .endless

namespace PlainGraph

/-- The constructor. -/
def make (N : ℕ) (edg : Vec (List ℕ)) : Except BuildFailure PlainGraph :=
  ((List.range N).foldlM
    (fun (edges : Vec (BinarySearch ℕ)) i => (arrayOf (edg.get i)).map fun s => edges.set i s)
    (Vec.zeros N)).map fun edges => { N := N, edges := edges }

variable (g : PlainGraph)

/-- `neighs` -/
def neighs (i : ℕ) : BinarySearch ℕ := g.edges.get i

/-- `fwd_neighs` -/
def fwdNeighs (n : ℕ) : List ℕ := (g.neighs n).toList.drop ((g.neighs n).upperBound n)

/-- `are_neighs` -/
def areNeighs (a b : ℕ) : Option Bool := (g.edges.get a).count b

/-- The loop of `Permute` that fills `new_pos`; it starts from `-1` as a `node_t`. -/
def newPos (T : KeyType) (newOrder : List ℕ) : Vec ℕ :=
  (List.range g.N).foldl (fun v i => v.set (newOrder.getD i 0) i)
    (Array.replicate g.N (2 ^ T.width - 1))

/-- The loop of `Permute` that fills `new_edges`, with some `std::sort`. -/
def newEdges (T : KeyType) (newOrder : List ℕ) : Vec (List ℕ) :=
  let newPos := g.newPos T newOrder
  (List.range g.N).foldl
    (fun edges i =>
      let edges := (g.neighs i).toList.foldl
        (fun edges x =>
          edges.set (newPos.get i) (edges.get (newPos.get i) ++ [newPos.get x])) edges
      edges.set (newPos.get i) ((edges.get (newPos.get i)).insertionSort (· ≤ ·)))
    (Vec.zeros g.N)

end PlainGraph

instance (T : KeyType) : Inhabited (CuckooHashSet T) := ⟨.empty⟩

/-- A vertex as a key. -/
def vertexKey (T : KeyType) (v : ℕ) : Key T := BitVec.ofNat T.width v

/-- `for (x : xs) s.insert(x)`, for a new `s`.  The fuel is more than all levels of a table. -/
def hashSetOf (T : KeyType) (xs : List ℕ) : Except BuildFailure (CuckooHashSet T) :=
  (CuckooHashSet.empty.insertAllIf (fitsInt T) (T.width + 1) (xs.map (vertexKey T))).mapError
    BuildFailure.hashSet

/-- `fast_graph_t` -/
structure FastGraph (T : KeyType) extends PlainGraph where
  /-- `edges_` of `fast_graph_t` -/
  hashSets : Vec (CuckooHashSet T)
  /-- `fwd_iter_` -/
  fwdIter : Vec ℕ

namespace FastGraph

/-- The constructor. -/
def make (T : KeyType) (N : ℕ) (edg : Vec (List ℕ)) : Except BuildFailure (FastGraph T) :=
  (PlainGraph.make N edg).bind fun base =>
    (List.range N).foldlM
      (fun (g : FastGraph T) i =>
        (hashSetOf T (edg.get i)).map fun s => { g with
          hashSets := g.hashSets.set i s
          fwdIter := g.fwdIter.set i ((base.neighs i).upperBound i) })
      { base with hashSets := Vec.zeros N, fwdIter := Vec.zeros N }

variable {T : KeyType} (g : FastGraph T)

/-- `fwd_neighs` -/
def fwdNeighs (n : ℕ) : List ℕ := (g.neighs n).toList.drop (g.fwdIter.get n)

/-- `are_neighs` -/
def areNeighs (a b : ℕ) : Bool := (g.hashSets.get a).count (vertexKey T b)

/-- `Permute` -/
def permute (newOrder : List ℕ) : Except BuildFailure (FastGraph T) :=
  make T g.N (g.newEdges T newOrder)

/-- `Clone` -/
def clone : Except BuildFailure (FastGraph T) := g.permute (List.range g.N)

end FastGraph

end ParallelEnum
