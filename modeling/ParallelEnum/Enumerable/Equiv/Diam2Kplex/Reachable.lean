import ParallelEnum.Enumerable.Equiv.Diam2Kplex.Copies

/-!
# The contents of every node of the forest

`Reachable` are the nodes that `GetRoot` and `ListChildren` pass to their callbacks, each with the
memory it is passed with.

* `getRoot_passes`: the node of a root holds every large `k`-plex that starts with it.
* `wellFormed_of_reachable`: what the five arrays of a reachable node hold.
* `diameterExact_iff`: on which of these nodes `HasDiameterTwo` is right.
-/

namespace ParallelEnum.Diam2Kplex

open Kplex Traversal

section Reachable

variable (g : Graph) (k q : ℕ) (enablePivoting : Bool) (std : StdSort)

/-! ### The node of a root -/

/-- `GetRoot(v)`, called with the store `st`, calls its callback with `node` and the store `st'`. -/
def Passes (v : ℕ) (st st' : Store) (node : Node) : Prop :=
  ∀ {σ : Type} (cb : NodeCallback Store Node σ) (a : σ),
    getRoot g k q v cb (st, a) = (cb node (st', a)).map fun r => r.2

variable {g k q} in
/-- What `GetRoot` passes, if its first test lets the vertex through. -/
theorem passes_iff {st st' : Store} {node : Node} (h : Alone g st) (v : ℕ) :
    Passes g k q v st st' node ↔
      q ≤ g.fwdDegree v + k ∧ st' = openRoot g k q v st ∧ node = wrap (rootImpl g k q v) := by
  have heq : ∀ {σ : Type} (cb : NodeCallback Store Node σ) (a : σ), getRoot g k q v cb (st, a)
      = forEach cb (roots g k q v)
          (if g.fwdDegree v + k < q then st else openRoot g k q v st, a) :=
    fun cb a => getRoot_eq g k q v cb h a
  by_cases htest : g.fwdDegree v + k < q
  · -- `GetRoot` returns at once, whatever the callback does
    refine iff_of_false (fun hpass => ?_) fun hpass => absurd hpass.1 (not_le.mpr htest)
    have hrun := hpass (fun _ _ => none) ()
    rw [heq, roots, if_pos htest] at hrun
    cases hrun
  · have hone : roots g k q v = [wrap (rootImpl g k q v)] := if_neg htest
    rw [and_iff_right (not_lt.mp htest)]
    constructor
    · intro hpass
      have hrun := hpass (fun node s => some (true, (s.1, some node))) none
      rw [heq, hone, if_neg htest] at hrun
      obtain ⟨hstore, hnode⟩ := Prod.mk.inj (Option.some.inj hrun)
      exact ⟨hstore.symm, (Option.some.inj hnode).symm⟩
    · rintro ⟨rfl, rfl⟩ σ cb a
      rw [heq, hone, if_neg htest, forEach_cons]
      cases cb (wrap (rootImpl g k q v)) (openRoot g k q v st, a) with
      | none => rfl
      | some r => simp

/-- **The block of a root** starts with the root and goes on with later vertices, and it holds
every large `k`-plex whose smallest vertex is the root. -/
theorem getRoot_passes (g : Graph) (k q : ℕ) (enablePivoting : Bool) (std : StdSort)
    (cs : List Call) (v : ℕ) :
    (∀ st' node, Passes g k q v (Thread.run g k q enablePivoting std cs).store st' node →
      ∃ rest, (st'.memory.subgraph node).toList = v :: rest ∧ (∀ u ∈ rest, v < u) ∧
        rest.Nodup) ∧
    ∀ S : Finset ℕ, IsKplex g.toSimpleGraph k S → v ∈ S → (∀ u ∈ S, v ≤ u) →
      max q (2 * k - 1) ≤ S.card →
      ∃ st' node, Passes g k q v (Thread.run g k q enablePivoting std cs).store st' node ∧
        ∀ u ∈ S, u ∈ (st'.memory.subgraph node).toList := by
  have hst : Alone g (Thread.run g k q enablePivoting std cs).store := (Thread.inv_run cs).alone
  obtain ⟨-, hholds, -⟩ := Alone.openRoot g k q hst v
  have hsub := (hholds (rootImpl g k q v)).1
  constructor
  · intro st' node hpass
    obtain ⟨-, rfl, rfl⟩ := (passes_iff hst v).mp hpass
    rw [hsub]
    exact ⟨_, rfl, fun u hu => lt_of_mem_block hu, (List.nodup_cons.mp block_nodup).2⟩
  · intro S hS hvS hmin hcard
    have hdiam : DiamTwo g.toSimpleGraph S := hS.diamTwo (by omega)
    obtain ⟨htest, hblock⟩ := subset_block hS hdiam (le_of_max_le_left hcard) hvS hmin
    refine ⟨_, _, (passes_iff hst v).mpr ⟨htest, rfl, rfl⟩, ?_⟩
    rw [hsub]
    exact hblock

/-- The path `0 - 1 - 2`, a `2`-plex, is in the block of `0` after another root has been opened. -/
theorem getRoot_passes_path :
    ∃ st' node, Passes (Graph.ofRel 3 fun i j => j == i + 1) 2 3 0
        (Thread.run (Graph.ofRel 3 fun i j => j == i + 1) 2 3 true StdSort.insertion
          [.getRoot 1 fun _ => true]).store st' node ∧
      ∀ u ∈ ({0, 1, 2} : Finset ℕ), u ∈ (st'.memory.subgraph node).toList :=
  (getRoot_passes (Graph.ofRel 3 fun i j => j == i + 1) 2 3 true StdSort.insertion
    [.getRoot 1 fun _ => true] 0).2 {0, 1, 2} (by decide) (by decide) (by decide) (by decide)

/-! ### Reachable nodes -/

/-- A node that a thread reaches from a node of `GetRoot` by calls of `ListChildren`, and the
store at the time.  The thread may have made any calls before. -/
inductive Reachable : Store → Node → Prop
  | root {cs : List Call} {v : ℕ} {go : Node → Bool} {st : Store} {nodes : List Node}
      {node : Node} :
      getRoot g k q v (keep go) ((Thread.run g k q enablePivoting std cs).store, [])
        = some (st, nodes) →
      node ∈ nodes → Reachable st node
  | child {st st' : Store} {node child : Node} {go : Node → Bool} {nodes : List Node} :
      Reachable st node →
      listChildren g k q enablePivoting std node (keep go) (st, []) = some (st', nodes) →
      child ∈ nodes → Reachable st' child

/-- The node of a root that passes the first test of `GetRoot`. -/
theorem exists_reachable_root {v : ℕ} (htest : q ≤ g.fwdDegree v + k) :
    ∃ st, HoldsBlock g k q v st ∧
      Reachable g k q enablePivoting std st (wrap (rootImpl g k q v)) := by
  obtain ⟨-, hholds, -⟩ := Alone.openRoot g k q (alone_empty g) v
  refine ⟨_, hholds, @Reachable.root _ _ _ _ _ [] v (fun _ => true) _ [wrap (rootImpl g k q v)] _
    ?_ List.mem_cons_self⟩
  exact (passes_iff (alone_empty g) v).mpr ⟨htest, rfl, rfl⟩ (keep fun _ => true) []

variable {g k q enablePivoting std} in
/-- The children of a reachable node are reachable, from the same store. -/
theorem Reachable.child_of_mem {v : ℕ} {st : Store} {impl child : Impl}
    (h : Reachable g k q enablePivoting std st (wrap impl)) (hholds : HoldsBlock g k q v st)
    (hchild : child ∈ children g (blockVec g k q v) (blockNadj g (blockVec g k q v)) k q
      enablePivoting std impl) : Reachable g k q enablePivoting std st (wrap child) := by
  have hlist := listChildren_eq g k q enablePivoting std (keep fun _ => true) (hholds impl).1
    (hholds impl).2 [] fun y _ a r hr => by
      obtain rfl := Option.some.inj hr
      rfl
  rw [forEach_keep_all, List.nil_append] at hlist
  exact h.child hlist (List.mem_map_of_mem hchild)

/-- What the arrays of a node hold, for the block `subgraph`. -/
structure WellFormed (subgraph : Vec ℕ) (impl : Impl) : Prop where
  kplex_nodup : impl.kplex.Nodup
  cands_nodup : impl.cands.Nodup
  excluded_nodup : impl.excluded.Nodup
  kplex_disjoint_cands : impl.kplex.Disjoint impl.cands
  kplex_disjoint_excluded : impl.kplex.Disjoint impl.excluded
  cands_disjoint_excluded : impl.cands.Disjoint impl.excluded
  kplex_lt_size : ∀ i ∈ impl.kplex, i < subgraph.size
  isKplex : IsKplex (blockGraph g subgraph) k impl.kplex.toFinset
  /-- The candidates and the excluded indices are those that can be added. -/
  mem_cands_or_excluded : ∀ i, i ∈ impl.cands ∨ i ∈ impl.excluded ↔
    i < subgraph.size ∧ i ∉ impl.kplex ∧
      IsKplex (blockGraph g subgraph) k (insert i impl.kplex.toFinset)
  cands_sorted : impl.cands.Pairwise (· < ·)
  size_status : impl.status.size = subgraph.size
  status_eq_inCand : ∀ i < subgraph.size, impl.status.get i = .inCand ↔ i ∈ impl.cands
  /-- An entry counts the members that are not adjacent, the index itself among them. -/
  counter_eq : ∀ i, i ∈ impl.kplex ∨ i ∈ impl.cands ∨ i ∈ impl.excluded →
    impl.counter i
      = (impl.kplex.filter fun u => !decide ((blockGraph g subgraph).Adj i u)).length
  counter_le : ∀ i, i ∈ impl.kplex ∨ i ∈ impl.cands ∨ i ∈ impl.excluded → impl.counter i ≤ k
  /-- The first slots of the block of an index list these members. -/
  slots_eq : ∀ i, i ∈ impl.kplex ∨ i ∈ impl.cands ∨ i ∈ impl.excluded →
    (List.range (impl.counter i)).map (fun j => impl.nonNeighs.get (k * i + j))
      = impl.kplex.filter fun u => !decide ((blockGraph g subgraph).Adj i u)

variable {g k q enablePivoting std}

/-- The count of a member or of an index that can be added fits its slots. -/
theorem Impl.Inv.length_missing_le {subgraph : Vec ℕ} {impl : Impl}
    (h : Impl.Inv g subgraph k impl) {i : ℕ}
    (hi : i ∈ impl.kplex ∨ i ∈ impl.cands ∨ i ∈ impl.excluded) :
    i < subgraph.size ∧ (impl.missing g subgraph i).length ≤ k := by
  rw [Impl.length_missing h.nodup]
  rcases hi with hK | hCX
  · have hmem : i ∈ impl.kplex.toFinset := List.mem_toFinset.mpr hK
    exact ⟨h.lt_size i hK, isKplex_iff_nonAdj.mp h.isKplex i hmem⟩
  · have hlt := h.lt_of_mem i hCX
    have hadd := (addable_iff h.isKplex).mp ((h.addable i hlt).mp hCX)
    exact ⟨hlt, by omega⟩

/-- A node with the invariant of the search is well formed. -/
theorem Impl.Inv.wellFormed {subgraph : Vec ℕ} {impl : Impl} (h : Impl.Inv g subgraph k impl)
    (hk : k ≤ 255) : WellFormed g k subgraph impl := by
  have hcount : ∀ i, i ∈ impl.kplex ∨ i ∈ impl.cands ∨ i ∈ impl.excluded →
      impl.counter i = (impl.missing g subgraph i).length := by
    intro i hi
    obtain ⟨hlt, hle⟩ := h.length_missing_le hi
    exact h.counter_eq_of_le hk hlt hle
  constructor
  case kplex_nodup => exact h.nodup
  case cands_nodup => exact h.cands_nodup
  case excluded_nodup => exact h.excluded_nodup
  case kplex_disjoint_cands => exact fun i hK hC => h.notMem_kplex (Or.inl hC) hK
  case kplex_disjoint_excluded => exact fun i hK hX => h.notMem_kplex (Or.inr hX) hK
  case cands_disjoint_excluded => exact fun i hC hX => h.disjoint i hC hX
  case kplex_lt_size => exact h.lt_size
  case isKplex => exact h.isKplex
  case mem_cands_or_excluded =>
    intro i
    constructor
    · intro hi
      have hlt := h.lt_of_mem i hi
      have hadd := (h.addable i hlt).mp hi
      exact ⟨hlt, h.notMem_kplex hi, hadd.2⟩
    · rintro ⟨hlt, hK, hplex⟩
      apply (h.addable i hlt).mpr
      exact ⟨fun hmem => hK (List.mem_toFinset.mp hmem), hplex⟩
  case cands_sorted => exact h.cands_sorted
  case size_status => exact h.size_status
  case status_eq_inCand => exact h.status_cand
  case counter_eq => exact hcount
  case counter_le =>
    intro i hi
    rw [hcount i hi]
    exact (h.length_missing_le hi).2
  case slots_eq =>
    intro i hi
    obtain ⟨hlt, hle⟩ := h.length_missing_le hi
    rw [hcount i hi]
    exact h.slots_eq i hlt hle

/-- What a reachable node and the store it is passed with have in common. -/
structure InBlock (g : Graph) (k q v : ℕ) (st : Store) (node : Node) : Prop where
  alone : Alone g st
  holds : HoldsBlock g k q v st
  eq_wrap : node = wrap node.impl0
  inv : Impl.Inv g (blockVec g k q v) k node.impl0

/-- The node `GetRoot` passes to a callback that copies. -/
theorem eq_wrap_of_mem_getRoot {v : ℕ} {go : Node → Bool} {st st' : Store} {nodes : List Node}
    (hst : Alone g st) (hrun : getRoot g k q v (keep go) (st, []) = some (st', nodes))
    {node : Node} (hnode : node ∈ nodes) :
    Alone g st' ∧ HoldsBlock g k q v st' ∧ node = wrap (rootImpl g k q v) := by
  obtain ⟨halone, hholds, -⟩ := Alone.openRoot g k q hst v
  obtain ⟨l, hsub, hkeep⟩ := forEach_keep go (roots g k q v)
    (if g.fwdDegree v + k < q then st else openRoot g k q v st) []
  rw [getRoot_eq g k q v (keep go) hst, hkeep, List.nil_append] at hrun
  obtain ⟨rfl, rfl⟩ := Prod.mk.inj (Option.some.inj hrun)
  have hmem := hsub hnode
  unfold roots at hmem
  split_ifs at hmem with htest
  · exact absurd hmem List.not_mem_nil
  · rw [if_neg htest]
    exact ⟨halone, hholds, List.mem_singleton.mp hmem⟩

/-- The nodes `ListChildren` passes to a callback that copies. -/
theorem exists_child_of_mem_listChildren {v : ℕ} {go : Node → Bool} {st st' : Store} {impl : Impl}
    {nodes : List Node} (hholds : HoldsBlock g k q v st)
    (hrun : listChildren g k q enablePivoting std (wrap impl) (keep go) (st, [])
      = some (st', nodes)) {child : Node} (hchild : child ∈ nodes) :
    st' = st ∧ ∃ y ∈ children g (blockVec g k q v) (blockNadj g (blockVec g k q v)) k q
      enablePivoting std impl, child = wrap y := by
  have hlist := listChildren_eq g k q enablePivoting std (keep go) (hholds impl).1
    (hholds impl).2 [] fun y _ a r hr => by
      obtain rfl := Option.some.inj hr
      rfl
  obtain ⟨l, hsub, hkeep⟩ := forEach_keep go _ st []
  rw [hlist, hkeep, List.nil_append] at hrun
  obtain ⟨rfl, rfl⟩ := Prod.mk.inj (Option.some.inj hrun)
  obtain ⟨y, hy, hwrap⟩ := List.mem_map.mp (hsub hchild)
  exact ⟨rfl, y, hy, hwrap.symm⟩

theorem InBlock.of_getRoot (hk : 1 ≤ k) (hk' : k ≤ 255) {v : ℕ} {go : Node → Bool}
    {st st' : Store} {nodes : List Node} (hst : Alone g st)
    (hrun : getRoot g k q v (keep go) (st, []) = some (st', nodes)) {node : Node}
    (hnode : node ∈ nodes) : InBlock g k q v st' node := by
  obtain ⟨halone, hholds, rfl⟩ := eq_wrap_of_mem_getRoot hst hrun hnode
  exact ⟨halone, hholds, rfl, inv_rootImpl hk hk' v⟩

theorem InBlock.of_listChildren (hk : 1 ≤ k) (hk' : k ≤ 255) {v : ℕ} {go : Node → Bool}
    {st st' : Store} {node : Node} {nodes : List Node} (h : InBlock g k q v st node)
    (hrun : listChildren g k q enablePivoting std node (keep go) (st, []) = some (st', nodes))
    {child : Node} (hchild : child ∈ nodes) : InBlock g k q v st' child := by
  obtain ⟨impl, rfl⟩ : ∃ impl, node = wrap impl := ⟨node.impl0, h.eq_wrap⟩
  obtain ⟨rfl, y, hy, rfl⟩ := exists_child_of_mem_listChildren h.holds hrun hchild
  have hof := (isChildOf_of_mem_children (isBlock_block g k q v) hk hk' h.inv).1 y hy
  exact ⟨h.alone, h.holds, rfl, hof.inv⟩

theorem Reachable.inBlock (hk : 1 ≤ k) (hk' : k ≤ 255) {st : Store} {node : Node}
    (h : Reachable g k q enablePivoting std st node) : ∃ v, InBlock g k q v st node := by
  induction h with
  | @root cs v go st nodes node hrun hnode =>
    have hst : Alone g (Thread.run g k q enablePivoting std cs).store := (Thread.inv_run cs).alone
    exact ⟨v, InBlock.of_getRoot hk hk' hst hrun hnode⟩
  | child _ hrun hchild ih =>
    obtain ⟨v, h⟩ := ih
    exact ⟨v, h.of_listChildren hk hk' hrun hchild⟩

/-- **The arrays of every node of the forest.** -/
theorem wellFormed_of_reachable (g : Graph) (k q : ℕ) (enablePivoting : Bool) (std : StdSort)
    (hk : 1 ≤ k) (hk' : k ≤ 255) (st : Store) (node : Node)
    (h : Reachable g k q enablePivoting std st node) :
    WellFormed g k (st.memory.subgraph node) node.impl0 := by
  obtain ⟨v, hblock⟩ := h.inBlock hk hk'
  have hsub : st.memory.subgraph node = blockVec g k q v := by
    rw [hblock.eq_wrap]
    exact (hblock.holds node.impl0).1
  rw [hsub]
  exact hblock.inv.wellFormed hk'

/-- The square `0 - 1 - 2 - 3`. -/
def square : Graph := Graph.ofRel 4 fun i j => j == i + 1 || (i == 0 && j == 3)

/-- The node of its vertex `0`, for `k = 2`. -/
def squareRoot : Node :=
  wrap
    { kplex := [0], cands := [1, 2, 3], counters := #[1, 0, 0, 1]
      status := #[.inKplex, .inCand, .inCand, .inCand], nonNeighs := #[0, 0, 0, 0, 0, 0, 0, 0] }

/-- The first child, in which `1` has joined the `2`-plex. -/
def squareChild₁ : Node :=
  wrap
    { kplex := [0, 1], cands := [2, 3], counters := #[1, 1, 1, 1]
      status := #[.inKplex, .noStatus, .inCand, .inCand], nonNeighs := #[0, 0, 1, 0, 1, 0, 0, 0] }

/-- The second one, in which `2` has joined it and `1` is excluded. -/
def squareChild₂ : Node :=
  wrap
    { kplex := [0, 2], cands := [3], excluded := [1], counters := #[1, 1, 1, 1]
      status := #[.inKplex, .noStatus, .noStatus, .inCand]
      nonNeighs := #[0, 0, 2, 0, 2, 0, 0, 0] }

theorem reachable_squareChild₂ :
    Reachable square 2 1 true StdSort.insertion (openRoot square 2 1 0 {}) squareChild₂ := by
  have hroot : Reachable square 2 1 true StdSort.insertion (openRoot square 2 1 0 {}) squareRoot :=
    @Reachable.root _ _ _ _ _ [] 0 (fun _ => true) _ [squareRoot] _ (by rfl) List.mem_cons_self
  exact @Reachable.child _ _ _ _ _ _ _ _ squareChild₂ (fun _ => true)
    [squareChild₁, squareChild₂] hroot (by rfl) (List.mem_cons_of_mem _ List.mem_cons_self)

/-- The arrays of the second child. -/
theorem wellFormed_of_reachable_square :
    WellFormed square 2 ((openRoot square 2 1 0 {}).memory.subgraph squareChild₂)
      squareChild₂.impl0 :=
  wellFormed_of_reachable square 2 1 true StdSort.insertion (by decide) (by decide)
    (openRoot square 2 1 0 {}) squareChild₂ reachable_squareChild₂

/-! ### `HasDiameterTwo` -/

/-- `HasDiameterTwo` says of a node whether every two different members are adjacent or have a
common neighbour among the members. -/
def DiameterExact (g : Graph) (k : ℕ) (subgraph : Vec ℕ) (impl : Impl) : Prop :=
  impl.hasDiameterTwo g subgraph k = true ↔
    DiamTwo (blockGraph g subgraph) impl.kplex.toFinset

/-- **`HasDiameterTwo` is right unless it compares a single member with itself.** -/
theorem diameterExact_iff (g : Graph) (k q : ℕ) (enablePivoting : Bool) (std : StdSort)
    (hk : 1 ≤ k) (hk' : k ≤ 255) (st : Store) (node : Node)
    (h : Reachable g k q enablePivoting std st node) (_ : node.impl0.isMaximal k = true)
    (_ : q ≤ node.impl0.kplex.length) :
    DiameterExact g k (st.memory.subgraph node) node.impl0 ↔
      k ≤ 2 ∨ 2 ≤ node.impl0.kplex.length := by
  obtain ⟨v, hblock⟩ := h.inBlock hk hk'
  have hsub : st.memory.subgraph node = blockVec g k q v := by
    rw [hblock.eq_wrap]
    exact (hblock.holds node.impl0).1
  rw [hsub, DiameterExact, Impl.hasDiameterTwo_iff hblock.inv hk,
    hblock.inv.toCounted.card_kplex]
  by_cases hcond : k ≤ 2 ∨ 2 ≤ node.impl0.kplex.length
  · refine iff_of_true ?_ hcond
    exact and_iff_left fun hk3 => hcond.resolve_left (by omega)
  · refine iff_of_false (fun hiff => hcond (Or.inr ?_)) hcond
    -- a single member has diameter two, since there are no two different members
    have hone : (node.impl0.kplex.toFinset).card ≤ 1 := by
      rw [hblock.inv.toCounted.card_kplex]
      omega
    have hdiam : DiamTwo (blockGraph g (blockVec g k q v)) node.impl0.kplex.toFinset :=
      fun u hu w hw hne => absurd (Finset.card_le_one.mp hone u hu w hw) hne
    exact (hiff.mpr hdiam).2 (by omega)

/-- The node of an isolated vertex `0`, for `k = 3`. -/
def isolatedNode : Node where
  subgraph := some 0
  nadj := some 0
  impl0 := { kplex := [0], counters := #[1], status := #[.inKplex], nonNeighs := #[0, 0, 0] }

theorem reachable_isolatedNode :
    Reachable (Graph.ofRel 1 fun _ _ => false) 3 1 true StdSort.insertion
      (openRoot (Graph.ofRel 1 fun _ _ => false) 3 1 0 {}) isolatedNode :=
  @Reachable.root _ _ _ _ _ [] 0 (fun _ => true) _ [isolatedNode] _ (by rfl) List.mem_cons_self

/-- The condition at the node of an isolated vertex. -/
theorem diameterExact_isolatedNode_iff :
    DiameterExact (Graph.ofRel 1 fun _ _ => false) 3
        ((openRoot (Graph.ofRel 1 fun _ _ => false) 3 1 0 {}).memory.subgraph isolatedNode)
        isolatedNode.impl0 ↔
      3 ≤ 2 ∨ 2 ≤ isolatedNode.impl0.kplex.length :=
  diameterExact_iff _ 3 1 true StdSort.insertion (by decide) (by decide)
    (openRoot (Graph.ofRel 1 fun _ _ => false) 3 1 0 {}) isolatedNode
    reachable_isolatedNode (by decide) (by decide)

/-- `HasDiameterTwo` refuses an isolated vertex, a maximal `3`-plex of one vertex. -/
theorem not_diameterExact_isolatedNode :
    Reachable (Graph.ofRel 1 fun _ _ => false) 3 1 true StdSort.insertion
        (openRoot (Graph.ofRel 1 fun _ _ => false) 3 1 0 {}) isolatedNode ∧
      isolatedNode.impl0.isMaximal 3 = true ∧ 1 ≤ isolatedNode.impl0.kplex.length ∧
      ¬ DiameterExact (Graph.ofRel 1 fun _ _ => false) 3
        ((openRoot (Graph.ofRel 1 fun _ _ => false) 3 1 0 {}).memory.subgraph isolatedNode)
        isolatedNode.impl0 := by
  refine ⟨reachable_isolatedNode, by decide, by decide, fun hexact => ?_⟩
  have hfalse : isolatedNode.impl0.hasDiameterTwo (Graph.ofRel 1 fun _ _ => false)
      ((openRoot (Graph.ofRel 1 fun _ _ => false) 3 1 0 {}).memory.subgraph isolatedNode) 3
        = false := by decide
  rw [DiameterExact, hfalse] at hexact
  have htrue : false = true := hexact.mpr (by decide)
  cases htrue

end Reachable

end ParallelEnum.Diam2Kplex
