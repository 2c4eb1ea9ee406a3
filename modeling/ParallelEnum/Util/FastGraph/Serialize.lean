import ParallelEnum.Util.FastGraph
import ParallelEnum.Util.Serialize

/-!
# `Serialize` and `Deserialize` of graphs

The members `Serialize` and `Deserialize` of `fast_graph_t` and of the containers it is made of.  A
container is modelled with the memory that it owns, which need not be as long as its size says;
`Deserialize` stops with `outsideStore` where it would write to other memory.
-/

namespace ParallelEnum

open Cuckoo

/-- The reasons for which a `Deserialize` does not return. -/
inductive DeserializeFailure where
  | outOfWords
  /-- A write to memory that the container does not own. -/
  | outsideStore
deriving DecidableEq

/-- `Deserialize`: from the destination and the words under the cursor to the value written and the
words that are left. -/
abbrev Deserialize (α : Type) := α → List Word → Except DeserializeFailure (α × List Word)

/-- `Serialize(n, out)`, for a `size_t` or a `node_t` -/
def serializeWord (n : ℕ) : List Word := [BitVec.ofNat 64 n]

/-- `Deserialize(in, &n)`, for a `size_t` -/
def deserializeWord : List Word → Except DeserializeFailure (Word × List Word)
  | [] => .error .outOfWords
  | word :: words => .ok (word, words)

/-- `for (i = 0; i < n; i++) Deserialize(in, &store[i])` -/
def deserializeElements {α : Type} [Inhabited α] (element : Deserialize α) (n : ℕ) (store : Vec α)
    (words : List Word) : Except DeserializeFailure (Vec α × List Word) :=
  (List.range n).foldlM
    (fun (r : Vec α × List Word) i =>
      if i < r.1.size then (element (r.1.get i) r.2).map fun s => (r.1.set i s.1, s.2)
      else .error .outsideStore)
    (store, words)

/-- `Deserialize` of a `std::vector` -/
def deserializeVector {α : Type} [Inhabited α] (element : Deserialize α) : Deserialize (Vec α) :=
  fun out words =>
    (deserializeWord words).bind fun n =>
      deserializeElements element n.1.toNat (out.resize n.1.toNat) n.2

/-- `Deserialize` of a `node_t` -/
def deserializeVertex (T : KeyType) : Deserialize ℕ := fun _ words =>
  (deserializeWord words).map fun r => ((r.1.setWidth T.width).toNat, r.2)

/-! ### `dynarray` -/

/-- `dynarray<T>` -/
structure DynArray (α : Type) where
  /-- The elements in the memory that `store` points to; none if it is a null pointer. -/
  store : Vec α
  count : ℕ

namespace DynArray

variable {α : Type}

/-- The default constructor. -/
def null : DynArray α where
  store := #[]
  count := 0

instance : Inhabited (DynArray α) := ⟨null⟩

/-- An array that has been constructed or resized, and then filled. -/
def ofVec (v : Vec α) : DynArray α where
  store := v
  count := v.size

/-- The elements from `begin()` to `end()`. -/
def toList (a : DynArray α) : List α := a.store.toList.take a.count

variable [Inhabited α]

/-- `Serialize` -/
def serialize (element : α → List Word) (a : DynArray α) : List Word :=
  BitVec.ofNat 64 a.count :: (List.range a.count).flatMap fun i => element (a.store.get i)

/-- `Deserialize`: it sets `count`, and does not allocate. -/
def deserialize (element : Deserialize α) : Deserialize (DynArray α) := fun out words =>
  (deserializeWord words).bind fun count =>
    (deserializeElements element count.1.toNat out.store count.2).map fun r =>
      ({ store := r.1, count := count.1.toNat }, r.2)

end DynArray

/-! ### `cuckoo_hash_set` -/

namespace Cuckoo.CuckooHashSet

variable {T : KeyType}

/-- `Serialize` -/
def serialize (s : CuckooHashSet T) : List Word :=
  [BitVec.ofNat 64 s.mask, BitVec.ofNat 64 s.sz] ++
    (List.range s.capacity).map fun i => (s.ht.get i).setWidth 64

/-- `Deserialize` of a key -/
def deserializeKey : Deserialize (Key T) := fun _ words =>
  (deserializeWord words).map fun r => (r.1.setWidth T.width, r.2)

/-- `Deserialize`: it sets `mask`, and does not allocate. -/
def deserialize : Deserialize (CuckooHashSet T) := fun out words =>
  (deserializeWord words).bind fun mask =>
    (deserializeWord mask.2).bind fun sz =>
      let capacity := ((mask.1 + 1) * BitVec.ofNat 64 T.bucketSize).toNat
      (deserializeElements deserializeKey capacity out.ht sz.2).map fun r =>
        ({ ht := r.1, mask := mask.1.toNat, sz := sz.1.toNat }, r.2)

end Cuckoo.CuckooHashSet

/-! ### Graphs -/

/-- `fast_graph_t` in memory. -/
structure StoredGraph (T : KeyType) where
  /-- `N_` -/
  N : ℕ
  /-- `edges_` of `graph_t` -/
  edges : Vec (DynArray ℕ)
  /-- `labels_`, as words; `none` if `label_t` is `void`. -/
  labels : Option (DynArray Word)
  /-- `edges_` of `fast_graph_t` -/
  hashSets : DynArray (CuckooHashSet T)
  /-- `fwd_iter_` -/
  fwdIter : DynArray ℕ

namespace StoredGraph

variable {T : KeyType}

/-- The default constructor, which leaves some `N` in `N_`. -/
def null (N : ℕ) (hasLabels : Bool) : StoredGraph T where
  N := N
  edges := #[]
  labels := if hasLabels then some .null else none
  hashSets := .null
  fwdIter := .null

/-- A graph that has been constructed, with these labels. -/
def ofGraph (g : FastGraph T) (labels : Option (StdVector Word)) : StoredGraph T where
  N := g.N
  edges := g.edges.map fun s => .ofVec s.support
  labels := labels.map fun l => .ofVec l.toList.toArray
  hashSets := .ofVec g.hashSets
  fwdIter := .ofVec g.fwdIter

variable (g : StoredGraph T)

/-- `neighs`, from `begin()` to `end()` -/
def neighs (i : ℕ) : List ℕ := (g.edges.get i).toList

/-- `fwd_neighs` -/
def fwdNeighs (n : ℕ) : List ℕ := (g.neighs n).drop (g.fwdIter.store.get n)

/-- `are_neighs` -/
def areNeighs (a b : ℕ) : Bool := (g.hashSets.store.get a).count (vertexKey T b)

/-- `Serialize` of `label_array_t` -/
def serializeLabels : Option (DynArray Word) → List Word
  | none => []
  | some labels => labels.serialize fun label => [label]

/-- `Serialize` -/
def serialize : List Word :=
  -- `graph_t`
  serializeWord g.N ++
    (serializeWord g.edges.size ++ g.edges.toList.flatMap (DynArray.serialize serializeWord)) ++
    serializeLabels g.labels ++
  -- `fast_graph_t`
  g.hashSets.serialize CuckooHashSet.serialize ++ g.fwdIter.serialize serializeWord

/-- `Deserialize` of `label_array_t` -/
def deserializeLabels : Deserialize (Option (DynArray Word)) := fun out words =>
  match out with
  | none => .ok (none, words)
  | some labels =>
    (DynArray.deserialize (fun _ => deserializeWord) labels words).map fun r => (some r.1, r.2)

/-- `Deserialize` -/
def deserialize : Deserialize (StoredGraph T) := fun out words =>
  -- `graph_t`
  (deserializeVertex T out.N words).bind fun N =>
  (deserializeVector (DynArray.deserialize (deserializeVertex T)) out.edges N.2).bind fun edges =>
  (deserializeLabels out.labels edges.2).bind fun labels =>
  -- `fast_graph_t`
  (out.hashSets.deserialize CuckooHashSet.deserialize labels.2).bind fun hashSets =>
  (out.fwdIter.deserialize (fun _ words => (deserializeWord words).map fun r => (r.1.toNat, r.2))
    hashSets.2).map fun fwdIter =>
  ({ N := N.1, edges := edges.1, labels := labels.1, hashSets := hashSets.1,
     fwdIter := fwdIter.1 }, fwdIter.2)

end StoredGraph

end ParallelEnum
