import ParallelEnum.Enumerable.Equiv.Diam2Kplex.Search
import ParallelEnum.Enumerable.Equiv.Diam2Kplex.Root
import ParallelEnum.Enumerator.Equiv.Sequential
import Mathlib.Data.Finset.Max

/-!
# What `Sequential` reports for `Diam2KplexEnumeration`

* `runInternal_reported`: the reported sets are those of `IsReported`, each once.
* `runInternal_diam2KplexEnumeration`: from `2k - 1` vertices on they are the maximal `k`-plexes.
* `runInternal_pivoting`: pivoting does not change what is reported.
-/

namespace ParallelEnum.Diam2Kplex

open Kplex Traversal

variable (g : Graph) (k q : ℕ) (enablePivoting : Bool) (std : StdSort)

/-- A set of vertices reported below the root `v`. -/
structure IsReported (v : ℕ) (S : Finset ℕ) : Prop where
  subset : S ⊆ g.vertices
  mem : v ∈ S
  min : ∀ u ∈ S, v ≤ u
  isKplex : IsKplex g.toSimpleGraph k S
  diamTwo : DiamTwo g.toSimpleGraph S
  card : q ≤ S.card
  /-- For `k ≥ 3`, `HasDiameterTwo` looks for a neighbour of a single member. -/
  two_le : 3 ≤ k → 2 ≤ S.card
  /-- No smaller vertex and no vertex of the block extends the set along an edge. -/
  maximalIn : MaximalIn g.toSimpleGraph k (Finset.range v ∪ (block g k q v).toFinset) S

/-! ### From indices to vertices -/

variable {g k q}

/-- The vertices at some indices of a block. -/
def verts (g : Graph) (k q v : ℕ) (T : Finset ℕ) : Finset ℕ := T.image (blockVec g k q v).get

section Verts

variable {v : ℕ} {T : Finset ℕ} (hT : ∀ i ∈ T, i < (blockVec g k q v).size)
include hT

theorem injOn_verts : Set.InjOn (blockVec g k q v).get T := (isBlock_block g k q v).injOn_coe hT

theorem card_verts : (verts g k q v T).card = T.card := Finset.card_image_of_injOn (injOn_verts hT)

theorem isKplex_verts_iff : IsKplex g.toSimpleGraph k (verts g k q v T) ↔
    IsKplex (blockGraph g (blockVec g k q v)) k T :=
  isKplex_image_iff (injOn_verts hT) fun _ _ _ _ => Iff.rfl

theorem diamTwo_verts_iff : DiamTwo g.toSimpleGraph (verts g k q v T) ↔
    DiamTwo (blockGraph g (blockVec g k q v)) T :=
  diamTwo_image_iff (injOn_verts hT) fun _ _ _ _ => Iff.rfl

theorem maximalIn_verts_iff :
    MaximalIn g.toSimpleGraph k (block g k q v).toFinset (verts g k q v T) ↔
      MaximalIn (blockGraph g (blockVec g k q v)) k (Finset.range (blockVec g k q v).size) T := by
  have hadd : ∀ i < (blockVec g k q v).size,
      (Addable g.toSimpleGraph k (verts g k q v T) ((blockVec g k q v).get i) ↔
        Addable (blockGraph g (blockVec g k q v)) k T i) := by
    intro i hi
    refine addable_image_iff ((isBlock_block g k q v).injOn_coe fun j hj => ?_)
      fun _ _ _ _ => Iff.rfl
    rcases Finset.mem_insert.mp hj with rfl | hj
    · exact hi
    · exact hT j hj
  unfold MaximalIn
  constructor
  · intro h i hi hadd' u hu
    have hi := Finset.mem_range.mp hi
    exact h _ (List.mem_toFinset.mpr (block_get_mem hi)) ((hadd i hi).mpr hadd') _
      (Finset.mem_image_of_mem _ hu)
  · intro h x hx hadd' y hy
    obtain ⟨i, hi, rfl⟩ := exists_block_get (List.mem_toFinset.mp hx)
    obtain ⟨u, hu, rfl⟩ := Finset.mem_image.mp hy
    exact h i (Finset.mem_range.mpr hi) ((hadd i hi).mp hadd') u hu

end Verts

/-- A set of vertices of a block comes from a set of indices. -/
theorem exists_verts {v : ℕ} {S : Finset ℕ} (hS : ∀ u ∈ S, u ∈ block g k q v) :
    ∃ T : Finset ℕ, (∀ i ∈ T, i < (blockVec g k q v).size) ∧ verts g k q v T = S := by
  refine ⟨(Finset.range (blockVec g k q v).size).filter fun i => (blockVec g k q v).get i ∈ S,
    fun i hi => Finset.mem_range.mp (Finset.mem_filter.mp hi).1, ?_⟩
  ext u
  unfold verts
  rw [Finset.mem_image]
  constructor
  · rintro ⟨i, hi, rfl⟩
    exact (Finset.mem_filter.mp hi).2
  · intro hu
    obtain ⟨i, hi, rfl⟩ := exists_block_get (hS u hu)
    exact ⟨i, Finset.mem_filter.mpr ⟨Finset.mem_range.mpr hi, hu⟩, rfl⟩

theorem maximalIn_union_iff {S B C : Finset ℕ} :
    MaximalIn g.toSimpleGraph k (B ∪ C) S ↔
      MaximalIn g.toSimpleGraph k B S ∧ MaximalIn g.toSimpleGraph k C S := by
  unfold MaximalIn
  simp only [Finset.mem_union]
  constructor
  · exact fun h => ⟨fun x hx => h x (Or.inl hx), fun x hx => h x (Or.inr hx)⟩
  · rintro ⟨h1, h2⟩ x (hx | hx)
    · exact h1 x hx
    · exact h2 x hx

/-! ### The tree of a root -/

section Tree

variable (hk : 1 ≤ k) (hk' : k ≤ 255) (v : ℕ)

variable (g q) in
/-- The tree below the root `v`. -/
def rootForest : Forest Impl :=
  forest g (blockVec g k q v) (blockNadj g (blockVec g k q v)) k q enablePivoting std
    (isBlock_block g k q v) hk hk'

variable (g q) in
/-- The items reported below the root `v`. -/
def rootItems : List (List ℕ) :=
  (((rootForest g q enablePivoting std hk hk' v).subtree (rootImpl g k q v)).filter
    (Impl.isReallyMaximal g (blockVec g k q v) k q)).map (Impl.toItem (blockVec g k q v))

variable {enablePivoting std hk hk' v}

theorem inv_of_mem_subtree {y : Impl}
    (hy : y ∈ (rootForest g q enablePivoting std hk hk' v).subtree (rootImpl g k q v)) :
    Impl.Inv g (blockVec g k q v) k y :=
  (Forest.ok_of_mem_subtree (inv_rootImpl hk hk' v) hy).1

theorem toFinset_toItem (y : Impl) :
    (y.toItem (blockVec g k q v)).toFinset = verts g k q v y.key := by
  unfold Impl.toItem verts Impl.key
  ext u
  simp

/-- Which nodes of the tree are reported, in terms of the vertices they hold. -/
theorem isReallyMaximal_verts_iff (hv : v < g.N) {y : Impl}
    (hy : Impl.Inv g (blockVec g k q v) k y) (hk : 1 ≤ k) (hk' : k ≤ 255) :
    y.isReallyMaximal g (blockVec g k q v) k q = true ↔
      IsReported g k q v (verts g k q v y.key) := by
  have hT : ∀ i ∈ y.key, i < (blockVec g k q v).size := fun i hi =>
    hy.lt_size i (List.mem_toFinset.mp hi)
  have hmem : ∀ u ∈ verts g k q v y.key, u ∈ block g k q v := by
    intro u hu
    obtain ⟨i, hi, rfl⟩ := Finset.mem_image.mp hu
    exact block_get_mem (hT i hi)
  have hiff : y.isReallyMaximal g (blockVec g k q v) k q = true ↔
      MaximalIn (blockGraph g (blockVec g k q v)) k (Finset.range (blockVec g k q v).size) y.key ∧
      q ≤ y.key.card ∧
      (DiamTwo (blockGraph g (blockVec g k q v)) y.key ∧ (3 ≤ k → 2 ≤ y.key.card)) ∧
      MaximalIn g.toSimpleGraph k (Finset.range v) (verts g k q v y.key) :=
    Impl.isReallyMaximal_iff (isBlock_block g k q v) hy hk hk' fun i hi => block_get_ge hi
  rw [hiff, ← maximalIn_verts_iff hT, ← card_verts hT, ← diamTwo_verts_iff hT]
  constructor
  · rintro ⟨hmax, hq, ⟨hdiam, htwo⟩, hsmall⟩
    have hunion := maximalIn_union_iff.mpr ⟨hsmall, hmax⟩
    refine ⟨fun u hu => g.mem_vertices.mpr (lt_N_of_mem_block hv (hmem u hu)), ?_, fun u hu => ?_,
      (isKplex_verts_iff hT).mpr hy.isKplex, hdiam, hq, htwo, hunion⟩
    · exact Finset.mem_image.mpr ⟨0, List.mem_toFinset.mpr hy.zero_mem, rfl⟩
    · obtain ⟨i, hi, rfl⟩ := Finset.mem_image.mp hu
      exact block_get_ge (hT i hi)
  · intro h
    obtain ⟨hsmall, hmax⟩ := maximalIn_union_iff.mp h.maximalIn
    exact ⟨hmax, h.card, ⟨h.diamTwo, h.two_le⟩, hsmall⟩

/-- A set to be reported lies in the block of its smallest vertex, whose root exists. -/
theorem IsReported.mem_block {S : Finset ℕ} (h : IsReported g k q v S) :
    q ≤ g.fwdDegree v + k ∧ ∀ u ∈ S, u ∈ block g k q v :=
  subset_block h.isKplex h.diamTwo h.card h.mem h.min

/-- **The sets reported below the root `v`.** -/
theorem mem_rootItems_iff (hv : v < g.N) {S : Finset ℕ} :
    S ∈ (rootItems g q enablePivoting std hk hk' v).map List.toFinset ↔
      IsReported g k q v S := by
  unfold rootItems
  rw [List.map_map, List.mem_map]
  constructor
  · rintro ⟨y, hy, rfl⟩
    obtain ⟨hy, hsol⟩ := List.mem_filter.mp hy
    show IsReported g k q v (y.toItem (blockVec g k q v)).toFinset
    rw [toFinset_toItem]
    exact (isReallyMaximal_verts_iff hv (inv_of_mem_subtree hy) hk hk').mp hsol
  · intro hS
    obtain ⟨T, hT, hTS⟩ := exists_verts hS.mem_block.2
    have hgood : Good g (blockVec g k q v) k q T := by
      refine ⟨(isKplex_verts_iff hT).mp ?_, (diamTwo_verts_iff hT).mp ?_, ?_,
        (maximalIn_verts_iff hT).mp ?_⟩
      · rw [hTS]
        exact hS.isKplex
      · rw [hTS]
        exact hS.diamTwo
      · rw [← card_verts hT, hTS]
        exact hS.card
      · rw [hTS]
        exact (maximalIn_union_iff.mp hS.maximalIn).2
    have hfam : T ∈ (rootImpl g k q v).fam := by
      refine (mem_fam_rootImpl (g := g) (k := k) (q := q) v).mpr ⟨?_, hT⟩
      have hvT : v ∈ verts g k q v T := by
        rw [hTS]
        exact hS.mem
      obtain ⟨i, hi, hiv⟩ := Finset.mem_image.mp hvT
      have hi0 : i = 0 := (isBlock_block g k q v).injOn i (hT i hi) 0 (isBlock_block g k q v).pos
        (hiv.trans (block_get_zero v).symm)
      rw [← hi0]
      exact hi
    obtain ⟨y, hy, rfl⟩ := List.mem_map.mp
      ((mem_keys_iff (isBlock_block g k q v) hk hk' (inv_rootImpl hk hk' v) hgood).mpr hfam)
    refine ⟨y, List.mem_filter.mpr ⟨hy, ?_⟩, (toFinset_toItem y).trans hTS⟩
    rw [isReallyMaximal_verts_iff hv (inv_of_mem_subtree hy) hk hk', hTS]
    exact hS

/-- No set is reported twice below a root. -/
theorem nodup_rootItems :
    ((rootItems g q enablePivoting std hk hk' v).map List.toFinset).Nodup := by
  have hkeys : (((rootForest g q enablePivoting std hk hk' v).subtree
      (rootImpl g k q v)).map Impl.key).Nodup :=
    nodup_keys (isBlock_block g k q v) hk hk' (inv_rootImpl hk hk' v)
  unfold rootItems
  rw [List.map_map]
  refine List.Nodup.map_on ?_ ((List.Nodup.of_map _ hkeys).filter _)
  intro y hy z hz hyz
  have hy := (List.mem_filter.mp hy).1
  have hz := (List.mem_filter.mp hz).1
  have hyz : (y.toItem (blockVec g k q v)).toFinset = (z.toItem (blockVec g k q v)).toFinset := hyz
  rw [toFinset_toItem, toFinset_toItem] at hyz
  have hlt : ∀ x : Impl, Impl.Inv g (blockVec g k q v) k x → ∀ i ∈ x.key,
      i < (blockVec g k q v).size := fun x hx i hi => hx.lt_size i (List.mem_toFinset.mp hi)
  have hkey : y.key = z.key := by
    have hsub : ∀ {y z : Impl}, Impl.Inv g (blockVec g k q v) k y →
        Impl.Inv g (blockVec g k q v) k z → verts g k q v y.key = verts g k q v z.key →
        y.key ⊆ z.key := by
      intro y z hy hz heq i hi
      have hmem : (blockVec g k q v).get i ∈ verts g k q v z.key := by
        rw [← heq]
        exact Finset.mem_image_of_mem _ hi
      obtain ⟨j, hj, hji⟩ := Finset.mem_image.mp hmem
      rw [← (isBlock_block g k q v).injOn j (hlt z hz j hj) i (hlt y hy i hi) hji]
      exact hj
    exact (hsub (inv_of_mem_subtree hy) (inv_of_mem_subtree hz) hyz).antisymm
      (hsub (inv_of_mem_subtree hz) (inv_of_mem_subtree hy) hyz.symm)
  exact List.inj_on_of_nodup_map hkeys hy hz hkey

/-- An item names no vertex twice. -/
theorem nodup_of_mem_rootItems {item : List ℕ}
    (hitem : item ∈ rootItems g q enablePivoting std hk hk' v) : item.Nodup := by
  obtain ⟨y, hy, rfl⟩ := List.mem_map.mp hitem
  have hinv := inv_of_mem_subtree (List.mem_filter.mp hy).1
  refine List.Nodup.map_on ?_ hinv.nodup
  exact fun i hi j hj h =>
    (isBlock_block g k q v).injOn i (hinv.lt_size i hi) j (hinv.lt_size j hj) h

end Tree

/-! ### The contract of the enumerator -/

section Run

variable (g k q)

/-- A node of the one thread: it refers to the first cells of the memory. -/
def wrap (impl : Impl) : Node := { subgraph := some 0, nadj := some 0, impl0 := impl }

/-- The memory holds the block of the root `v`. -/
def HoldsBlock (v : ℕ) (st : Store) : Prop :=
  ∀ impl, st.memory.subgraph (wrap impl) = blockVec g k q v ∧
    (st.memory.nadj (wrap impl)).get = blockNadj g (blockVec g k q v)

/-- The store of a thread that has not met another one. -/
structure Alone (st : Store) : Prop where
  idle : st.Idle g
  ref_eq : st.ref = 0
  nadjRef_eq : st.nadjRef = 0

theorem alone_empty : Alone g {} := by
  refine ⟨⟨?_, ?_, ?_, rfl, ?_⟩, rfl, rfl⟩ <;> intro _ h <;> cases h

/-- `GetRoot` builds its node in the first cells. -/
theorem Alone.openRoot {st : Store} (h : Alone g st) (v : ℕ) :
    Alone g (openRoot g k q v st) ∧ HoldsBlock g k q v (openRoot g k q v st) ∧
      (Diam2Kplex.openRoot g k q v st).node = wrap (rootImpl g k q v) := by
  have hopen := openRoot_spec g k q v h.idle
  have href := hopen.ref_eq
  have hnadjRef := hopen.nadjRef_eq
  rw [h.ref_eq] at href
  rw [h.nadjRef_eq] at hnadjRef
  have hnode : (Diam2Kplex.openRoot g k q v st).node = wrap (rootImpl g k q v) := by
    have himpl := hopen.impl_eq
    revert href hnadjRef himpl
    cases (Diam2Kplex.openRoot g k q v st).node
    rintro rfl rfl rfl
    rfl
  refine ⟨⟨hopen.idle, ?_, ?_⟩, fun impl => ?_, hnode⟩
  · show (Diam2Kplex.openRoot g k q v st).node.subgraph.getD _ = 0
    rw [href]
    rfl
  · show (Diam2Kplex.openRoot g k q v st).node.nadj.getD _ = 0
    rw [hnadjRef]
    rfl
  · have hsub := hopen.subgraph_eq
    have hnadj := hopen.nadj_eq
    rw [hnode] at hsub hnadj
    exact ⟨hsub, hnadj⟩

/-- The roots `GetRoot` finds. -/
def roots (v : ℕ) : List Node :=
  if g.fwdDegree v + k < q then [] else [wrap (rootImpl g k q v)]

theorem getRoot_eq {σ : Type} (v : ℕ) (cb : NodeCallback Store Node σ) {st : Store}
    (h : Alone g st) (a : σ) : getRoot g k q v cb (st, a)
      = forEach cb (roots g k q v)
          (if g.fwdDegree v + k < q then st else openRoot g k q v st, a) := by
  unfold getRoot roots
  split_ifs
  · rfl
  · dsimp only
    rw [(Alone.openRoot g k q h v).2.2, forEach_cons]
    cases cb (wrap (rootImpl g k q v)) (openRoot g k q v st, a) with
    | none => rfl
    | some r => simp

/-- `ListChildren` reads the cells its node refers to. -/
theorem listChildren_eq {σ : Type} (cb : NodeCallback Store Node σ) {subgraph : Vec ℕ}
    {nadj : ℕ → List ℕ} {st : Store} {node : Node} (hsub : st.memory.subgraph node = subgraph)
    (hnadj : (st.memory.nadj node).get = nadj) (a : σ)
    (hkeep : ∀ y ∈ children g subgraph nadj k q enablePivoting std node.impl0,
      ∀ a r, cb { node with impl0 := y } (st, a) = some r → r.2.1 = st) :
    listChildren g k q enablePivoting std node cb (st, a)
      = forEach cb ((children g subgraph nadj k q enablePivoting std node.impl0).map
          fun y => { node with impl0 := y }) (st, a) := by
  rw [forEach_map]
  unfold listChildren
  refine listChildrenImpl_eq (P := fun s => s.1 = st) g subgraph nadj k q enablePivoting std ?_
    node.impl0 ?_ rfl
  · rintro s rfl
    exact Prod.ext hsub hnadj
  · rintro y hy ⟨_, a⟩ r rfl hr
    exact hkeep y hy a r hr

variable {g k q}

/-- `Diam2KplexEnumeration` lists one tree for each root. -/
def listsTrees (hk : 1 ≤ k) (hk' : k ≤ 255) :
    Sequential.ListsTrees (diam2KplexEnumeration g k q enablePivoting std) where
  Inv := Alone g
  At := HoldsBlock g k q
  roots := roots g k q
  forest v := (rootForest g q enablePivoting std hk hk' v).map wrap Node.impl0 fun _ => rfl
  sol v node := node.impl0.isReallyMaximal g (blockVec g k q v) k q
  item v node := node.impl0.toItem (blockVec g k q v)
  recursive := rfl
  ok_roots v _ r hr := by
    unfold roots at hr
    split_ifs at hr
    · exact absurd hr List.not_mem_nil
    · rw [List.mem_singleton.mp hr]
      exact ⟨inv_rootImpl hk hk' v, rfl⟩
  isSolution_eq v st node hst hnode := by
    show node.impl0.isReallyMaximal g (st.memory.subgraph node) k q = _
    rw [← hnode.2, (hst node.impl0).1]
  nodeToItem_eq v st node hst hnode := by
    show node.impl0.toItem (st.memory.subgraph node) = _
    rw [← hnode.2, (hst node.impl0).1]
  getRoot_eq v st hst _ := by
    refine ⟨if g.fwdDegree v + k < q then st else openRoot g k q v st, ?_, ?_, ?_⟩
    · split_ifs
      · exact hst
      · exact (Alone.openRoot g k q hst v).1
    · unfold roots
      split_ifs
      · exact fun h => absurd rfl h
      · exact fun _ => (Alone.openRoot g k q hst v).2.1
    · exact fun cb a => getRoot_eq g k q v cb hst a
  listChildren_eq cb v node st a hst hnode hkeep := by
    obtain ⟨impl, rfl⟩ : ∃ impl, node = wrap impl := ⟨node.impl0, hnode.2.symm⟩
    exact listChildren_eq g k q enablePivoting std cb (hst impl).1 (hst impl).2 a
      fun y hy => hkeep (wrap y) (List.mem_map_of_mem hy)

theorem itemsOf_eq (hk : 1 ≤ k) (hk' : k ≤ 255) :
    (listsTrees (g := g) (q := q) enablePivoting std hk hk').itemsOf = fun v =>
      if g.fwdDegree v + k < q then [] else rootItems g q enablePivoting std hk hk' v := by
  funext v
  unfold Sequential.ListsTrees.itemsOf Forest.traversal
  show (((roots g k q v).flatMap _).filter _).map _ = _
  unfold roots
  split_ifs
  · rfl
  · have hsub := Forest.subtree_map (F := rootForest g q enablePivoting std hk hk' v)
      (f := wrap) (g := Node.impl0) (fun _ => rfl) (rootImpl g k q v)
    rw [List.flatMap_cons, List.flatMap_nil, List.append_nil]
    show ((((rootForest g q enablePivoting std hk hk' v).map wrap Node.impl0 fun _ => rfl).subtree
      (wrap (rootImpl g k q v))).filter _).map _ = _
    rw [hsub, List.filter_map, List.map_map]
    rfl

/-- **The sets a run reports**, each once, root after root. -/
theorem runInternal_reported (hk : 1 ≤ k) (hk' : k ≤ 255) {fuel : ℕ} (hfuel : g.N < fuel) :
    ∃ st e, Sequential.runInternal fuel (diam2KplexEnumeration g k q enablePivoting std) {} {}
        = some (st, e) ∧
      (∀ item ∈ e.items, item.Nodup) ∧ (e.items.map List.toFinset).Nodup ∧
        ∀ S, S ∈ e.items.map List.toFinset ↔ ∃ v, IsReported g k q v S := by
  have hrank : ∀ v < g.N, ∀ r ∈ roots g k q v,
      ((listsTrees (g := g) (q := q) enablePivoting std hk hk').forest v).rank r < fuel := by
    intro v hv r hr
    unfold roots at hr
    split_ifs at hr
    · exact absurd hr List.not_mem_nil
    · rw [List.mem_singleton.mp hr]
      exact (length_cands_rootImpl hv).trans hfuel
  obtain ⟨st, hrun⟩ :=
    (listsTrees (g := g) (q := q) enablePivoting std hk hk').runInternal_of_listsTrees
      (alone_empty g) hrank {}
  refine ⟨st, _, hrun, ?_⟩
  rw [Sequential.ListsTrees.reportsRoots_items, List.nil_append, itemsOf_eq]
  have hmem : ∀ v < g.N, ∀ S,
      S ∈ (if g.fwdDegree v + k < q then [] else
        rootItems g q enablePivoting std hk hk' v).map List.toFinset ↔ IsReported g k q v S := by
    intro v hv S
    split_ifs with htest
    · refine ⟨fun h => absurd h List.not_mem_nil, fun h => ?_⟩
      have := h.mem_block.1
      omega
    · exact mem_rootItems_iff hv
  refine ⟨?_, ?_, fun S => ?_⟩
  · intro item hitem
    obtain ⟨v, -, hitem⟩ := List.mem_flatMap.mp hitem
    split_ifs at hitem
    · exact absurd hitem List.not_mem_nil
    · exact nodup_of_mem_rootItems hitem
  · rw [List.map_flatMap, List.nodup_flatMap]
    constructor
    · intro v _
      split_ifs
      · exact List.nodup_nil
      · exact nodup_rootItems
    · -- the smallest vertex of a set tells its root
      refine List.nodup_range.imp_of_mem fun hu hv huv S hSu hSv => huv ?_
      have hSu := (hmem _ (List.mem_range.mp hu) S).mp hSu
      have hSv := (hmem _ (List.mem_range.mp hv) S).mp hSv
      exact le_antisymm (hSu.min _ hSv.mem) (hSv.min _ hSu.mem)
  · rw [List.map_flatMap, List.mem_flatMap]
    constructor
    · rintro ⟨v, hv, hS⟩
      exact ⟨v, (hmem v (List.mem_range.mp hv) S).mp hS⟩
    · rintro ⟨v, hS⟩
      have hv : v < g.N := g.mem_vertices.mp (hS.subset hS.mem)
      exact ⟨v, List.mem_range.mpr hv, (hmem v hv S).mpr hS⟩

/-! ### From `2k - 1` vertices on -/

/-- A set of at least `2k - 1` vertices is reported when it is a maximal `k`-plex. -/
theorem exists_isReported_iff (hk : 1 ≤ k) {S : Finset ℕ} (hcard : 2 * k ≤ S.card + 1) :
    (∃ v, IsReported g k q v S) ↔
      IsMaximalKplex g.toSimpleGraph k g.vertices S ∧ q ≤ S.card := by
  rw [isMaximalKplex_iff]
  constructor
  · rintro ⟨v, h⟩
    refine ⟨⟨h.subset, h.isKplex, fun u hu hadd => ?_⟩, h.card⟩
    have hmax := (maximalIn_iff_of_card (by omega)).mp h.maximalIn
    refine hmax u (Finset.mem_union.mpr ?_) hadd
    by_cases huv : u < v
    · exact Or.inl (Finset.mem_range.mpr huv)
    · -- a larger `k`-plex with the same smallest vertex lies in the same block
      have hcard' : (insert u S).card = S.card + 1 := Finset.card_insert_of_notMem hadd.1
      have hblock := (subset_block (g := g) (q := q) hadd.2 (hadd.2.diamTwo (by omega)) (by
        have := h.card
        omega) (Finset.mem_insert_of_mem h.mem) (by
          intro w hw
          rcases Finset.mem_insert.mp hw with rfl | hw
          · exact not_lt.mp huv
          · exact h.min w hw)).2
      exact Or.inr (List.mem_toFinset.mpr (hblock u (Finset.mem_insert_self u S)))
  · rintro ⟨⟨hSV, hS, hmax⟩, hq⟩
    have hne : S.Nonempty := by
      rw [← Finset.card_pos]
      omega
    refine ⟨S.min' hne, hSV, S.min'_mem hne, fun u hu => S.min'_le u hu, hS,
      hS.diamTwo hcard, hq, fun _ => by omega, ?_⟩
    refine (maximalIn_iff_of_card (by omega)).mpr fun u hu hadd => ?_
    have hmin : S.min' hne < g.N := g.mem_vertices.mp (hSV (S.min'_mem hne))
    refine hmax u (g.mem_vertices.mpr ?_) hadd
    rcases Finset.mem_union.mp hu with hu | hu
    · exact (Finset.mem_range.mp hu).trans hmin
    · exact lt_N_of_mem_block hmin (List.mem_toFinset.mp hu)

/-- Some of the reported items, chosen by their number of vertices. -/
theorem mem_map_filter_iff {items : List (List ℕ)} (hnodup : ∀ item ∈ items, item.Nodup)
    (p : ℕ → Bool) {S : Finset ℕ} :
    S ∈ (items.filter fun item => p item.length).map List.toFinset ↔
      p S.card = true ∧ S ∈ items.map List.toFinset := by
  rw [List.mem_map, List.mem_map]
  constructor
  · rintro ⟨item, hitem, rfl⟩
    obtain ⟨hitem, hp⟩ := List.mem_filter.mp hitem
    rw [List.toFinset_card_of_nodup (hnodup item hitem)]
    exact ⟨hp, item, hitem, rfl⟩
  · rintro ⟨hp, item, hitem, rfl⟩
    rw [List.toFinset_card_of_nodup (hnodup item hitem)] at hp
    exact ⟨item, List.mem_filter.mpr ⟨hitem, hp⟩, rfl⟩

/-- **The reported items of at least `2k - 1` vertices** are the maximal `k`-plexes of at least
`max q (2k - 1)` vertices, each once. -/
theorem runInternal_diam2KplexEnumeration (g : Graph) (k q : ℕ) (enablePivoting : Bool)
    (std : StdSort) (hk : 1 ≤ k) (hk' : k ≤ 255) :
    ∃ bound, ∀ fuel > bound, ∃ st e,
      Sequential.runInternal fuel (diam2KplexEnumeration g k q enablePivoting std) {} {}
        = some (st, e) ∧
      let large := e.items.filter fun item => decide (2 * k - 1 ≤ item.length)
      (∀ item ∈ large, item.Nodup) ∧ (large.map List.toFinset).Nodup ∧
        ∀ S, S ∈ large.map List.toFinset ↔
          IsMaximalKplex g.toSimpleGraph k g.vertices S ∧ max q (2 * k - 1) ≤ S.card := by
  refine ⟨g.N, fun fuel hfuel => ?_⟩
  obtain ⟨st, e, hrun, hitems, hnodup, hmem⟩ :=
    runInternal_reported enablePivoting std (g := g) (q := q) hk hk' hfuel
  refine ⟨st, e, hrun, fun item h => hitems item (List.mem_of_mem_filter h),
    hnodup.sublist (List.filter_sublist.map _), fun S => ?_⟩
  rw [mem_map_filter_iff hitems fun n => decide (2 * k - 1 ≤ n), hmem, decide_eq_true_iff,
    max_le_iff]
  constructor
  · rintro ⟨hcard, hS⟩
    obtain ⟨hmax, hq⟩ := (exists_isReported_iff hk (by omega)).mp hS
    exact ⟨hmax, hq, hcard⟩
  · rintro ⟨hmax, hq, hcard⟩
    exact ⟨hcard, (exists_isReported_iff hk (by omega)).mpr ⟨hmax, hq⟩⟩

/-- A run on the path `0 - 1 - 2` for `k = 2`. -/
theorem runInternal_diam2KplexEnumeration_path :
    ∃ bound, ∀ fuel > bound, ∃ st e,
      Sequential.runInternal fuel (diam2KplexEnumeration (Graph.ofRel 3 fun i j => j == i + 1) 2 1
        true StdSort.insertion) {} {} = some (st, e) ∧
      let large := e.items.filter fun item => decide (2 * 2 - 1 ≤ item.length)
      (∀ item ∈ large, item.Nodup) ∧ (large.map List.toFinset).Nodup ∧
        ∀ S, S ∈ large.map List.toFinset ↔
          IsMaximalKplex (Graph.ofRel 3 fun i j => j == i + 1).toSimpleGraph 2
            (Graph.ofRel 3 fun i j => j == i + 1).vertices S ∧ max 1 (2 * 2 - 1) ≤ S.card :=
  runInternal_diam2KplexEnumeration _ 2 1 true StdSort.insertion (by decide) (by decide)

/-! ### With and without pivoting -/

/-- **Pivoting does not change what is reported**, whatever the sizes of the items. -/
theorem runInternal_pivoting (g : Graph) (k q : ℕ) (std : StdSort) (hk : 1 ≤ k) (hk' : k ≤ 255) :
    ∃ bound, ∀ fuel > bound, ∃ st e st' e',
      Sequential.runInternal fuel (diam2KplexEnumeration g k q true std) {} {} = some (st, e) ∧
      Sequential.runInternal fuel (diam2KplexEnumeration g k q false std) {} {}
        = some (st', e') ∧
      (e.items.map List.toFinset).Nodup ∧ (e'.items.map List.toFinset).Nodup ∧
        ∀ S, S ∈ e.items.map List.toFinset ↔ S ∈ e'.items.map List.toFinset := by
  refine ⟨g.N, fun fuel hfuel => ?_⟩
  obtain ⟨st, e, hrun, -, hnodup, hmem⟩ :=
    runInternal_reported true std (g := g) (q := q) hk hk' hfuel
  obtain ⟨st', e', hrun', -, hnodup', hmem'⟩ :=
    runInternal_reported false std (g := g) (q := q) hk hk' hfuel
  refine ⟨st, e, st', e', hrun, hrun', hnodup, hnodup', fun S => ?_⟩
  -- which sets are reported is the same condition in both trees
  rw [hmem, hmem']

/-- Both runs on the path `0 - 1 - 2` for `k = 2`. -/
theorem runInternal_pivoting_path :
    ∃ bound, ∀ fuel > bound, ∃ st e st' e',
      Sequential.runInternal fuel (diam2KplexEnumeration (Graph.ofRel 3 fun i j => j == i + 1) 2 1
        true StdSort.insertion) {} {} = some (st, e) ∧
      Sequential.runInternal fuel (diam2KplexEnumeration (Graph.ofRel 3 fun i j => j == i + 1) 2 1
        false StdSort.insertion) {} {} = some (st', e') ∧
      (e.items.map List.toFinset).Nodup ∧ (e'.items.map List.toFinset).Nodup ∧
        ∀ S, S ∈ e.items.map List.toFinset ↔ S ∈ e'.items.map List.toFinset :=
  runInternal_pivoting _ 2 1 StdSort.insertion (by decide) (by decide)

end Run

end ParallelEnum.Diam2Kplex
