import ParallelEnum.Enumerable.Diam2Kplex
import ParallelEnum.Util.Serialize

/-!
# `Serialize` and `Deserialize` of nodes

The members `Serialize` and `Deserialize` of `Diam2KplexNodeImpl` and of `Diam2KplexNode`, on nodes
as they lie in memory: fields of fixed-width integers, and what the shared pointers point to.
`Ty` are the types that are put together from these and from the overloads of `util/serialize.hpp`.
-/

namespace ParallelEnum.Diam2Kplex

open Serializable

/-- The fields of a `Diam2KplexNodeImpl`. -/
structure ImplValue where
  kplex : StdVector (BitVec 64)
  counters : StdVector (BitVec 8)
  status : StdVector (BitVec 8)
  nonNeighs : StdVector (BitVec 64)
  cands : StdVector (BitVec 64)
  excluded : StdVector (BitVec 64)
deriving DecidableEq

/-- The fields of a `Diam2KplexNode`, for vertices of `width` bits. -/
structure NodeValue (width : ℕ) where
  /-- `subgraph_` -/
  subgraph : Option (StdVector (BitVec width))
  /-- `nadj_` -/
  nadj : Option (StdVector (StdVector (BitVec width)))
  /-- `impl0_` -/
  impl0 : ImplValue
  /-- `current_impl_` -/
  currentImpl : BitVec 64
deriving DecidableEq

/-- `std::vector<size_t>` -/
def sizes : Serializable (StdVector (BitVec 64)) := vector (integral 64 false)

/-- `std::vector<uint8_t>` -/
def bytes : Serializable (StdVector (BitVec 8)) := vector (integral 8 false)

/-- `Diam2KplexNodeImpl` -/
def implSerializable : Serializable ImplValue where
  default :=
    { kplex := sizes.default
      counters := bytes.default
      status := bytes.default
      nonNeighs := sizes.default
      cands := sizes.default
      excluded := sizes.default }
  serialize x :=
    sizes.serialize x.kplex ++ (bytes.serialize x.counters ++ (bytes.serialize x.status ++
      (sizes.serialize x.nonNeighs ++ (sizes.serialize x.cands ++ sizes.serialize x.excluded))))
  deserialize out words := do
    let (kplex, words) ← sizes.deserialize out.kplex words
    let (counters, words) ← bytes.deserialize out.counters words
    let (status, words) ← bytes.deserialize out.status words
    let (nonNeighs, words) ← sizes.deserialize out.nonNeighs words
    let (cands, words) ← sizes.deserialize out.cands words
    let (excluded, words) ← sizes.deserialize out.excluded words
    some ({ kplex, counters, status, nonNeighs, cands, excluded }, words)

/-- `std::vector<node_t>` -/
def vertexVector (width : ℕ) (signed : Bool) : Serializable (StdVector (BitVec width)) :=
  vector (integral width signed)

/-- `Diam2KplexNode`, for a `node_t` of this width and signedness. -/
def nodeSerializable (width : ℕ) (signed : Bool) : Serializable (NodeValue width) where
  default :=
    { subgraph := (sharedPtr (vertexVector width signed)).default
      nadj := (sharedPtr (vector (vertexVector width signed))).default
      impl0 := implSerializable.default
      currentImpl := 0 }
  serialize x :=
    (sharedPtr (vertexVector width signed)).serialize x.subgraph ++
      ((sharedPtr (vector (vertexVector width signed))).serialize x.nadj ++
        (implSerializable.serialize x.impl0 ++ (integral 64 false).serialize x.currentImpl))
  deserialize out words := do
    let (subgraph, words) ←
      (sharedPtr (vertexVector width signed)).deserialize out.subgraph words
    let (nadj, words) ←
      (sharedPtr (vector (vertexVector width signed))).deserialize out.nadj words
    let (impl0, words) ← implSerializable.deserialize out.impl0 words
    let (currentImpl, words) ← (integral 64 false).deserialize out.currentImpl words
    some ({ subgraph, nadj, impl0, currentImpl }, words)

/-! ### Types -/

/-- The types that can be serialized. -/
inductive Ty where
  /-- An integral type other than `bool`. -/
  | integral (width : ℕ) (signed : Bool)
  | bool
  | vector (t : Ty)
  | pair (t u : Ty)
  | sharedPtr (t : Ty)
  | uniquePtr (t : Ty)
  /-- `Diam2KplexNode<Graph>`, with the width and signedness of `Graph::node_t`. -/
  | node (width : ℕ) (signed : Bool)
deriving DecidableEq

namespace Ty

/-- The values of a type. -/
def Value : Ty → Type
  | integral width _ => BitVec width
  | bool => Bool
  | vector t => StdVector t.Value
  | pair t u => t.Value × u.Value
  | sharedPtr t => Option t.Value
  | uniquePtr t => Option t.Value
  | node width _ => NodeValue width

/-- The overloads that the compiler chooses for a type. -/
def serializable : (t : Ty) → Serializable t.Value
  | integral width signed => Serializable.integral width signed
  | bool => Serializable.bool
  | vector t => Serializable.vector t.serializable
  | pair t u => Serializable.pair t.serializable u.serializable
  | sharedPtr t => Serializable.sharedPtr t.serializable
  | uniquePtr t => Serializable.uniquePtr t.serializable
  | node width signed => nodeSerializable width signed

/-- The integral types are no wider than a word.  `std::vector<bool>` is left out: its elements
cannot be bound to `T& t`, so there is no `Deserialize` for it. -/
def Supported : Ty → Prop
  | integral width _ => width ≤ 64
  | bool => True
  | vector t => t ≠ bool ∧ t.Supported
  | pair t u => t.Supported ∧ u.Supported
  | sharedPtr t => t.Supported
  | uniquePtr t => t.Supported
  | node width _ => width ≤ 64

end Ty

/-! ### Nodes in the memory of a process -/

/-- A value of the `status` array. -/
def Status.ofByte (byte : BitVec 8) : Status :=
  if byte = 1 then .inKplex else if byte = 2 then .inCand else if byte = 3 then .inExcl
  else .noStatus

/-- The node that these fields are. -/
def ImplValue.toImpl (x : ImplValue) : Impl where
  kplex := x.kplex.toList.map BitVec.toNat
  counters := (x.counters.toList.map UInt8.ofBitVec).toArray
  status := (x.status.toList.map Status.ofByte).toArray
  nonNeighs := (x.nonNeighs.toList.map BitVec.toNat).toArray
  cands := x.cands.toList.map BitVec.toNat
  excluded := x.excluded.toList.map BitVec.toNat

/-- A node with what its pointers point to. -/
structure View where
  subgraph : Option (Vec ℕ)
  nadj : Option (Vec (List ℕ))
  impl0 : Impl
deriving DecidableEq

def Memory.view (m : Memory) (node : Node) : View where
  subgraph := node.subgraph.map m.subgraphs.get
  nadj := node.nadj.map m.nadjs.get
  impl0 := node.impl0

def NodeValue.view {width : ℕ} (x : NodeValue width) : View where
  subgraph := x.subgraph.map fun l => (l.toList.map BitVec.toNat).toArray
  nadj := x.nadj.map fun l => (l.toList.map fun l => l.toList.map BitVec.toNat).toArray
  impl0 := x.impl0.toImpl

/-- The node in memory has this value.  `current_impl_` is zero in every node. -/
def Holds {width : ℕ} (m : Memory) (node : Node) (x : NodeValue width) : Prop :=
  m.view node = x.view ∧ x.currentImpl = 0

end ParallelEnum.Diam2Kplex
