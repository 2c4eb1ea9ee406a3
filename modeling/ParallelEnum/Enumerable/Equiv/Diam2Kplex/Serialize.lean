import ParallelEnum.Enumerable.Diam2Kplex.Serialize
import ParallelEnum.Enumerable.Equiv.Diam2Kplex.Reachable
import ParallelEnum.Util.Equiv.Serialize

/-!
# Nodes that have been sent to another process

`deserialize_serialize`: what is serialized is read back, and a node that has been read back lists
its children and is a solution as the node it is a copy of.  Integers wider than a word are not
read back (`not_roundTrips_integral`).
-/

namespace ParallelEnum.Diam2Kplex

open Serializable Traversal

/-! ### Round trips -/

theorem roundTrips_sizes : sizes.RoundTrips := (roundTrips_integral le_rfl false).vector

theorem roundTrips_bytes : bytes.RoundTrips :=
  (roundTrips_integral (show 8 ≤ 64 by decide) false).vector

theorem roundTrips_impl : implSerializable.RoundTrips := by
  intro x words
  simp only [implSerializable, List.append_assoc, roundTrips_sizes _ _, roundTrips_bytes _ _,
    Option.bind_eq_bind, Option.bind_some]

theorem roundTrips_node {width : ℕ} (h : width ≤ 64) (signed : Bool) :
    (nodeSerializable width signed).RoundTrips := by
  have hvertices : (vertexVector width signed).RoundTrips := (roundTrips_integral h signed).vector
  have hsubgraph : (sharedPtr (vertexVector width signed)).RoundTrips := hvertices.pointer
  have hnadj : (sharedPtr (vector (vertexVector width signed))).RoundTrips :=
    hvertices.vector.pointer
  have hcurrent : (integral 64 false).RoundTrips := roundTrips_integral le_rfl false
  intro x words
  have hzero : (0 : BitVec 64) = (integral 64 false).default := rfl
  simp only [nodeSerializable, List.append_assoc, hsubgraph _ _, hnadj _ _, roundTrips_impl _ _,
    hzero, hcurrent _ _, Option.bind_eq_bind, Option.bind_some]

/-- **Every value is read back.** -/
theorem Ty.roundTrips {t : Ty} (ht : t.Supported) : t.serializable.RoundTrips := by
  induction t with
  | integral width signed => exact roundTrips_integral ht signed
  | bool => exact roundTrips_bool
  | vector t ih => exact (ih ht.2).vector
  | pair t u iht ihu => exact (iht ht.1).pair (ihu ht.2)
  | sharedPtr t ih => exact (ih ht).pointer
  | uniquePtr t ih => exact (ih ht).pointer
  | node width signed => exact roundTrips_node ht signed

/-! ### Nodes that have been read back -/

section Behaves

variable (g : Graph) (k q : ℕ) (enablePivoting : Bool) (std : StdSort)

/-- The children that `ListChildren` passes to a callback which answers by what it sees. -/
def listed (st : Store) (node : Node) (go : View → Bool) : Option (List View) :=
  (listChildren g k q enablePivoting std node (keep fun child => go (st.memory.view child))
    (st, [])).map fun s => s.2.map s.1.memory.view

/-- Two nodes, each in the memory of its process, that cannot be told apart. -/
structure BehavesAs (st : Store) (node : Node) (st' : Store) (node' : Node) : Prop where
  listed_eq : ∀ go, listed g k q enablePivoting std st node go
    = listed g k q enablePivoting std st' node' go
  isSolution_eq : isSolution g k q st node = isSolution g k q st' node'
  nodeToItem_eq : nodeToItem st node = nodeToItem st' node'

variable {g k q enablePivoting std}

theorem Memory.subgraph_eq_of_view {m m' : Memory} {node node' : Node}
    (h : m.view node = m'.view node') : m.subgraph node = m'.subgraph node' := by
  have hsub := congrArg View.subgraph h
  exact congrArg (fun o => Option.getD o #[]) hsub

theorem Memory.nadj_eq_of_view {m m' : Memory} {node node' : Node}
    (h : m.view node = m'.view node') : m.nadj node = m'.nadj node' := by
  have hnadj := congrArg View.nadj h
  exact congrArg (fun o => Option.getD o #[]) hnadj

/-- A child refers to the cells of its parent. -/
theorem Memory.view_child {m m' : Memory} {node node' : Node} (h : m.view node = m'.view node')
    (y : Impl) : m.view { node with impl0 := y } = m'.view { node' with impl0 := y } := by
  have hsub := congrArg View.subgraph h
  have hnadj := congrArg View.nadj h
  exact View.mk.injEq .. ▸ ⟨hsub, hnadj, rfl⟩

/-- A callback that answers by what it sees takes the same children in both memories. -/
theorem forEach_keep_view {st st' : Store} {node node' : Node}
    (h : st.memory.view node = st'.memory.view node') (go : View → Bool) (ys : List Impl)
    (a a' : List Node) : ∃ zs : List Impl,
      forEach (keep fun child => go (st.memory.view child))
        (ys.map fun y => { node with impl0 := y }) (st, a)
          = some (st, a ++ zs.map fun y => { node with impl0 := y }) ∧
      forEach (keep fun child => go (st'.memory.view child))
        (ys.map fun y => { node' with impl0 := y }) (st', a')
          = some (st', a' ++ zs.map fun y => { node' with impl0 := y }) := by
  induction ys generalizing a a' with
  | nil => exact ⟨[], by simp, by simp⟩
  | cons y ys ih =>
    have hgo := congrArg go (Memory.view_child h y)
    rw [List.map_cons, List.map_cons, forEach_cons, forEach_cons, keep, keep, Option.bind_some,
      Option.bind_some]
    cases hanswer : go (st'.memory.view { node' with impl0 := y }) with
    | false =>
      rw [hanswer] at hgo
      simp only [hgo, Bool.false_eq_true, if_false]
      exact ⟨[y], rfl, rfl⟩
    | true =>
      rw [hanswer] at hgo
      obtain ⟨zs, hrun, hrun'⟩ :=
        ih (a ++ [{ node with impl0 := y }]) (a' ++ [{ node' with impl0 := y }])
      refine ⟨y :: zs, ?_, ?_⟩
      · simp only [hgo, if_true]
        rw [hrun, List.append_assoc]
        rfl
      · simp only [if_true]
        rw [hrun', List.append_assoc]
        rfl

/-- **A node is what it points to.** -/
theorem behavesAs_of_view {st st' : Store} {node node' : Node}
    (h : st.memory.view node = st'.memory.view node') :
    BehavesAs g k q enablePivoting std st node st' node' := by
  have hsub := Memory.subgraph_eq_of_view h
  have hnadj := Memory.nadj_eq_of_view h
  have himpl : node.impl0 = node'.impl0 := congrArg View.impl0 h
  refine ⟨?_, ?_, ?_⟩
  · intro go
    have hkeep : ∀ {st : Store} {node : Node} (go : Node → Bool) (l : List Impl),
        ∀ y ∈ l, ∀ a r, keep go { node with impl0 := y } (st, a) = some r → r.2.1 = st := by
      intro st node go l y _ a r hr
      obtain rfl := Option.some.inj hr
      rfl
    unfold listed
    rw [listChildren_eq g k q enablePivoting std _ hsub (congrArg Vec.get hnadj) []
        (hkeep _ _), listChildren_eq g k q enablePivoting std _ rfl rfl [] (hkeep _ _), himpl]
    obtain ⟨zs, hrun, hrun'⟩ := forEach_keep_view h go (children g
      (st'.memory.subgraph node') (st'.memory.nadj node').get k q enablePivoting std
        node'.impl0) [] []
    rw [hrun, hrun', Option.map_some, Option.map_some, List.nil_append, List.nil_append,
      List.map_map, List.map_map]
    exact congrArg some (List.map_congr_left fun y _ => Memory.view_child h y)
  · unfold isSolution
    rw [hsub, himpl]
  · unfold nodeToItem
    rw [hsub, himpl]

end Behaves

/-- **Round trip.** What `Serialize` has written is read back by `Deserialize`, and the nodes of a
stolen subtree behave in the memory of the thief as they did in that of the victim. -/
theorem deserialize_serialize :
    (∀ t : Ty, t.Supported → ∀ (x : t.Value) (words : List Word),
      t.serializable.deserialize t.serializable.default (t.serializable.serialize x ++ words)
        = some (x, words)) ∧
    ∀ (width : ℕ) (signed : Bool), width ≤ 64 →
      ∀ (nodes nodes' : StdVector (NodeValue width)) (words words' : List Word),
        (vector (nodeSerializable width signed)).deserialize
          (vector (nodeSerializable width signed)).default
          ((vector (nodeSerializable width signed)).serialize nodes ++ words)
            = some (nodes', words') →
        nodes'.toList.length = nodes.toList.length ∧
        ∀ (i : ℕ) (x x' : NodeValue width), nodes.toList[i]? = some x →
          nodes'.toList[i]? = some x' →
          ∀ (st st' : Store) (node node' : Node), Holds st.memory node x →
            Holds st'.memory node' x' →
            ∀ (g : Graph) (k q : ℕ) (enablePivoting : Bool) (std : StdSort),
              BehavesAs g k q enablePivoting std st node st' node' := by
  refine ⟨fun t ht x words => Ty.roundTrips ht x words, ?_⟩
  intro width signed hwidth nodes nodes' words words' hrun
  rw [(roundTrips_node hwidth signed).vector] at hrun
  obtain ⟨rfl, rfl⟩ := Prod.mk.inj (Option.some.inj hrun)
  refine ⟨rfl, ?_⟩
  intro i x x' hx hx' st st' node node' hholds hholds' g k q enablePivoting std
  obtain rfl := Option.some.inj (hx.symm.trans hx')
  exact behavesAs_of_view (hholds.1.trans hholds'.1.symm)

/-- A node of the square, as it is sent. -/
def sentValue : NodeValue 32 where
  subgraph := some ⟨[0, 1, 3, 2], by decide⟩
  nadj := some ⟨[⟨[0, 3], by decide⟩, ⟨[1, 2], by decide⟩, ⟨[1, 2], by decide⟩,
    ⟨[0, 3], by decide⟩], by decide⟩
  impl0 :=
    { kplex := ⟨[0, 2], by decide⟩
      counters := ⟨[1, 1, 1, 1], by decide⟩
      status := ⟨[1, 0, 0, 2], by decide⟩
      nonNeighs := ⟨[0, 0, 2, 0, 2, 0, 0, 0], by decide⟩
      cands := ⟨[3], by decide⟩
      excluded := ⟨[1], by decide⟩ }
  currentImpl := 0

/-- The memory of another process, which has it in its second cells. -/
def thief : Store where
  memory :=
    { subgraphs := #[#[7], #[0, 1, 3, 2]]
      nadjs := #[#[[0]], #[[0, 3], [1, 2], [1, 2], [0, 3]]] }

/-- A vector of pairs of a signed byte and a pointer to a `bool`, and a stolen subtree. -/
theorem deserialize_serialize_subtree :
    (Ty.vector (.pair (.integral 8 true) (.sharedPtr .bool))).serializable.deserialize
        (Ty.vector (.pair (.integral 8 true) (.sharedPtr .bool))).serializable.default
        ((Ty.vector (.pair (.integral 8 true) (.sharedPtr .bool))).serializable.serialize
          ⟨[(-3#8, some true), (5#8, none)], by decide⟩ ++ [7#64])
      = some (⟨[(-3#8, some true), (5#8, none)], by decide⟩, [7#64]) ∧
    (vector (nodeSerializable 32 false)).deserialize
        (vector (nodeSerializable 32 false)).default
        ((vector (nodeSerializable 32 false)).serialize ⟨[sentValue], by decide⟩ ++ [7#64])
      = some (⟨[sentValue], by decide⟩, [7#64]) ∧
    BehavesAs square 2 1 true StdSort.insertion (openRoot square 2 1 0 {}) squareChild₂
      thief { squareChild₂ with subgraph := some 1, nadj := some 1 } := by
  have hpairs := deserialize_serialize.1 (.vector (.pair (.integral 8 true) (.sharedPtr .bool)))
    ⟨nofun, (by decide : 8 ≤ 64), trivial⟩ ⟨[(-3#8, some true), (5#8, none)], by decide⟩ [7#64]
  have hnodes := deserialize_serialize.1 (.vector (.node 32 false))
    ⟨nofun, (by decide : 32 ≤ 64)⟩ ⟨[sentValue], by decide⟩ [7#64]
  have hvictim : Holds (openRoot square 2 1 0 {}).memory squareChild₂ sentValue := ⟨by rfl, rfl⟩
  have hthief : Holds thief.memory { squareChild₂ with subgraph := some 1, nadj := some 1 }
      sentValue := ⟨by rfl, rfl⟩
  obtain ⟨-, hbehaves⟩ := deserialize_serialize.2 32 false (by decide) _ _ _ _ hnodes
  exact ⟨hpairs, hnodes,
    hbehaves 0 sentValue sentValue rfl rfl _ _ _ _ hvictim hthief square 2 1 true
      StdSort.insertion⟩

/-- An unsigned integer of 128 bits loses its upper half. -/
theorem not_roundTrips_integral : ¬∀ (t : Ty) (x : t.Value) (words : List Word),
    t.serializable.deserialize t.serializable.default (t.serializable.serialize x ++ words)
      = some (x, words) := by
  intro h
  have hx : some ((((1#128 <<< 64).setWidth 64).setWidth 128), ([] : List Word))
      = some (1#128 <<< 64, []) := h (.integral 128 false) (1#128 <<< 64) []
  revert hx
  decide

end ParallelEnum.Diam2Kplex
