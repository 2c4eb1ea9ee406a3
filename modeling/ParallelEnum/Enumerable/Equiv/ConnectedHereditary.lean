import Mathlib.Data.Set.Card
import ParallelEnum.Enumerable.Equiv.Commutable
import ParallelEnum.Enumerable.Equiv.ConnectedHereditary.Children
import ParallelEnum.Enumerator.Equiv.Sequential

/-!
# `CHSystem` lists a forest of maximal good sets

The nodes are the maximal good sets, each in breadth-first order from its smallest element, and
`ListChildren` hands the callback the children of the reverse search of
`Theory.ConnectedHereditary`:

* `mem_childList_iff`: the children are the sets whose parent is the node, `nodup_childList`: each
  is found once.
* `root_or_child`: every maximal good set is a root or has a parent.
* `runInternal_connectedHereditary`: `Sequential` reports every maximal good set once.
-/

namespace ParallelEnum.CHSystem

open BreadthFirst ConnectedHereditary CommutableSystem Traversal

variable {sys : CHSystem} {P : Finset ℕ → Prop} {fuel : ℕ} {m : ℕ} {L M A : List (Key ℕ)}
  {c : Key ℕ}

/-! ### Nodes -/

/-- `L` is the layout of a maximal good set from its smallest element `m`. -/
structure Canonical (sys : CHSystem) (P : Finset ℕ → Prop) (m : ℕ) (L : List (Key ℕ)) : Prop where
  layout : Layout sys.graph m L
  min : ∀ u ∈ nodes L, m ≤ u
  maximal : Maximal (Good sys.graph (sys.Property P)) (nodeSet L)

/-- The nodes of the computation forest. -/
def IsNode (sys : CHSystem) (P : Finset ℕ → Prop) (x : CommutableNode) : Prop :=
  ∃ m L, Canonical sys P m L ∧ x = (nodes L, levels L)

namespace Canonical

theorem lt (hL : Canonical sys P m L) : ∀ u ∈ nodes L, u < sys.size := fun _ hu =>
  Finset.mem_range.mp (hL.maximal.prop.2.2 (mem_nodeSet.mpr hu))

theorem isGood (h : Lawful sys P) (hL : Canonical sys P m L) : sys.base.isGood (nodes L) = true :=
  ((h.complete none).isGood_eq hL.lt).mpr hL.maximal.prop

/-- The levels are numbers of nodes, so they fit where these do. -/
theorem level_lt (hL : Canonical sys P m L) : ∀ k ∈ L, k.level < sys.size := by
  intro k hk
  refine (hL.layout.level_lt k hk).trans_le ?_
  have hcard := Finset.card_le_card hL.maximal.prop.2.2
  rwa [nodeSet, List.toFinset_card_of_nodup hL.layout.nodup_nodes, length_nodes,
    Finset.card_range] at hcard

/-- A set has one canonical layout. -/
theorem unique {m' : ℕ} (hL : Canonical sys P m L) (hM : Canonical sys P m' M)
    (hset : nodeSet L = nodeSet M) : L = M := by
  have hiff : ∀ u, u ∈ nodes L ↔ u ∈ nodes M := fun u => by
    rw [← mem_nodeSet, hset, mem_nodeSet]
  have hm : m = m' := le_antisymm (hL.min _ ((hiff m').mpr hM.layout.root_mem))
    (hM.min _ ((hiff m).mp hL.layout.root_mem))
  exact hL.layout.eq_of_nodes (hm ▸ hM.layout) hiff

end Canonical

/-- Every maximal good set has a canonical layout. -/
theorem exists_canonical (h : Lawful sys P) {S : Finset ℕ}
    (hS : Maximal (Good sys.graph (sys.Property P)) S) :
    ∃ m L, Canonical sys P m L ∧ nodeSet L = S := by
  obtain ⟨⟨v, hv⟩⟩ := hS.prop.1.nonempty
  have hne : S.Nonempty := ⟨v, hv⟩
  have hset : S.toList.toFinset = S := Finset.toList_toFinset S
  obtain ⟨L, -, hLS, -, hlayout⟩ := resort_spec (h.complete none) (s := S.toList)
    (fun u hu => Finset.mem_range.mp (hS.prop.2.2 (Finset.mem_toList.mp hu)))
    (Finset.mem_toList.mpr (Finset.min'_mem S hne)) (by rw [hset]; exact hS.prop.1) []
  rw [hset] at hLS
  refine ⟨S.min' hne, L, ⟨hlayout S.nodup_toList, fun u hu => ?_, hLS ▸ hS⟩, hLS⟩
  exact Finset.min'_le S u (hLS ▸ mem_nodeSet.mpr hu)

/-- A child of a set is a maximal good set. -/
theorem canonical_of_isChild (h : Lawful sys P) {S : Finset ℕ}
    (hc : IsChild (completer h) (Finset.range sys.size) S A c M m) : Canonical sys P m M where
  layout := hc.completes.layout h.hereditary hc.layout hc.ahead
  min := hc.min
  maximal := maximal_of_layout h.hereditary
    (hc.completes.layout h.hereditary hc.layout hc.ahead) hc.property hc.completes.closed

/-! ### Children -/

/-- The solutions of the restricted problem of a node. -/
theorem mem_restrictedProblem_spec (h : Lawful sys P) (hL : Canonical sys P m L) {cand : ℕ}
    (hcand : cand ∈ sys.base.restrictedCands (nodes L) (levels L)) :
    cand < sys.size ∧ cand ∉ nodes L ∧
      ∀ K : Finset ℕ, K ∈ (sys.base.restrictedProblem (nodes L) cand).map List.toFinset ↔
        Maximal (fun K => Good sys.graph P K ∧ K ⊆ insert cand (nodeSet L) ∧ cand ∈ K) K := by
  rw [h.restrictedCands_eq, List.mem_filter, List.mem_range] at hcand
  have hnot : cand ∉ nodes L := by simpa using hcand.2
  exact ⟨hcand.1, hnot, h.mem_restrictedProblem _ _ hL.layout.nodup_nodes hL.lt (hL.isGood h)
    hcand.1 hnot⟩

/-- The tests of `Children` at a node. -/
theorem childOf_node (h : Lawful sys P) (hfuel : completeFuel sys.size < fuel)
    (hL : Canonical sys P m L) {cand seed : ℕ} {sol : List ℕ}
    (hcand : cand ∈ sys.base.restrictedCands (nodes L) (levels L))
    (hsol : sol ∈ sys.base.restrictedProblem (nodes L) cand)
    (hseed : seed ∈ sys.validSeeds sol cand) :
    ∃ o, sys.system.childOf fuel (nodes L) (levels L) cand sol seed = some o ∧
      ∀ y, o = some y ↔ ∃ A c M, y = (nodes M, levels M) ∧
        IsFoundBy h (nodeSet L) cand sol.toFinset seed A c M := by
  obtain ⟨hlt, hnot, hiff⟩ := mem_restrictedProblem_spec h hL hcand
  obtain ⟨hgood, hsub, hmem⟩ := ((hiff _).mp (List.mem_map_of_mem hsol)).prop
  have hnodup := (h.restrictedProblem_nodup _ _ hL.layout.nodup_nodes hL.lt (hL.isGood h)
    hlt hnot).2 sol hsol
  obtain ⟨hseed, htest⟩ := List.mem_filter.mp hseed
  have hrange : sol.toFinset ⊆ Finset.range sys.size := hsub.trans
    (Finset.insert_subset (Finset.mem_range.mpr hlt) hL.maximal.prop.2.2)
  refine childOf_spec h hfuel hL.maximal hnot hnodup ⟨hgood.1, hgood.2, hrange⟩ hsub
    (List.mem_toFinset.mp hmem) hseed ?_ (levels L)
  simp only [Bool.and_eq_true, Bool.not_eq_true', decide_eq_false_iff_not, not_le] at htest
  exact htest.1

/-- What a member of `childList` is found by. -/
theorem mem_childList (h : Lawful sys P) (hfuel : completeFuel sys.size < fuel)
    (hL : Canonical sys P m L) {y : CommutableNode} :
    y ∈ sys.system.childList fuel (nodes L) (levels L) ↔
      ∃ cand ∈ sys.base.restrictedCands (nodes L) (levels L),
        ∃ sol ∈ sys.base.restrictedProblem (nodes L) cand,
          ∃ seed ∈ sys.validSeeds sol cand, ∃ A c M, y = (nodes M, levels M) ∧
            IsFoundBy h (nodeSet L) cand sol.toFinset seed A c M := by
  unfold childList
  simp only [List.mem_flatMap, List.mem_filterMap]
  refine exists_congr fun cand => and_congr_right fun hcand => exists_congr fun sol =>
    and_congr_right fun hsol => exists_congr fun seed => and_congr_right fun hseed => ?_
  obtain ⟨o, ho, hiff⟩ := childOf_node h hfuel hL hcand hsol hseed
  rw [ho]
  exact hiff y

/-- The restricted problem has the solution that a child is found by. -/
theorem exists_isFoundBy (h : Lawful sys P) (hL : Canonical sys P m L) {m' : ℕ}
    (hc : IsChild (completer h) (Finset.range sys.size) (nodeSet L) A c M m') :
    ∃ cand ∈ sys.base.restrictedCands (nodes L) (levels L),
      ∃ sol ∈ sys.base.restrictedProblem (nodes L) cand, m' ∈ sys.validSeeds sol cand ∧
        IsFoundBy h (nodeSet L) cand sol.toFinset m' A c M := by
  have hcM := (canonical_of_isChild h hc).lt c.node (hc.nodes_subset (node_mem (by simp)))
  have hcand : c.node ∈ sys.base.restrictedCands (nodes L) (levels L) := by
    rw [h.restrictedCands_eq, List.mem_filter, List.mem_range]
    exact ⟨hcM, by simpa using hc.notMem⟩
  obtain ⟨-, -, hiff⟩ := mem_restrictedProblem_spec h hL hcand
  set R := completion sys P (insert c.node (nodeSet L)) (A ++ [c]) with hR
  have hwithin : Within (sys.Property P) (insert c.node (nodeSet L)) (nodeSet (A ++ [c])) := by
    refine ⟨hc.property_core h.hereditary, ?_⟩
    rw [nodeSet_snoc]
    exact Finset.insert_subset_insert _ (hc.prefix_subset h.hereditary)
  have hmax := (completer h).maximal hc.layout hc.min_core hwithin
  have hsub := (completer h).subset hc.layout hc.min_core hwithin
  have hcR : c.node ∈ R := hsub (mem_nodeSet.mpr (node_mem (by simp)))
  have hmR : m' ∈ R := hsub (mem_nodeSet.mpr hc.layout.root_mem)
  have hRmax : Maximal (fun K => Good sys.graph P K ∧ K ⊆ insert c.node (nodeSet L) ∧
      c.node ∈ K) R := by
    refine ⟨⟨⟨hmax.prop.1, hmax.prop.2.1.1⟩, hmax.prop.2.2, hcR⟩, fun K hK hRK => ?_⟩
    refine hmax.le_of_ge ⟨hK.1.1, ⟨hK.1.2, ?_⟩, hK.2.1⟩ hRK
    exact hK.2.1.trans
      (Finset.insert_subset (Finset.mem_range.mpr hcM) hL.maximal.prop.2.2)
  obtain ⟨sol, hsol, hset⟩ := List.mem_map.mp ((hiff R).mpr hRmax)
  have hmem : ∀ {u}, u ∈ sol ↔ u ∈ R := fun {u} => by rw [← hset, List.mem_toFinset]
  have hne : sol ≠ [] := List.ne_nil_of_mem (hmem.mpr hmR)
  refine ⟨c.node, hcand, sol, hsol, ?_, hc, rfl, by rw [hset, hR]⟩
  obtain ⟨hminmem, hminle⟩ := minElem_spec hne
  unfold validSeeds
  rw [List.mem_filter, Bool.and_eq_true]
  refine ⟨hmem.mpr hmR, ?_, ?_⟩
  · have hle := hc.min_core c.node (node_mem (by simp))
    have hmne : m' ≠ c.node := by
      rintro heq
      refine (hc.layout.reach_eq hc.ne_nil).2 (heq ▸ ?_)
      exact hc.layout_prefix.root_mem
    simpa using lt_of_le_of_ne hle hmne
  · have hnotadj := hc.not_adj_restricted (R := R) hmax.prop.2.1 hsub h.hereditary
      (hmem.mp hminmem) (hminle m' (hmem.mpr hmR))
    rw [(h.complete none).adj_iff (Finset.mem_range.mp (hmax.prop.2.1.2 (hmem.mp hminmem)))
      (Finset.mem_range.mp (hmax.prop.2.1.2 hmR))] at hnotadj
    simpa using hnotadj

/-- **The children of a node are the sets whose parent it is.** -/
theorem mem_childList_iff (h : Lawful sys P) (hfuel : completeFuel sys.size < fuel)
    (hL : Canonical sys P m L) {y : CommutableNode} :
    y ∈ sys.system.childList fuel (nodes L) (levels L) ↔
      ∃ A c M m', y = (nodes M, levels M) ∧
        IsChild (completer h) (Finset.range sys.size) (nodeSet L) A c M m' := by
  rw [mem_childList h hfuel hL]
  constructor
  · rintro ⟨cand, -, sol, -, seed, -, A, c, M, hy, hf⟩
    exact ⟨A, c, M, seed, hy, hf.1⟩
  · rintro ⟨A, c, M, m', hy, hc⟩
    obtain ⟨cand, hcand, sol, hsol, hseed, hf⟩ := exists_isFoundBy h hL hc
    exact ⟨cand, hcand, sol, hsol, m', hseed, A, c, M, hy, hf⟩

/-- What a child is found by is given by the child. -/
theorem IsFoundBy.unique {h : Lawful sys P} {S R R' : Finset ℕ} {cand cand' seed seed' : ℕ}
    {A' : List (Key ℕ)} {c' : Key ℕ} (hf : IsFoundBy h S cand R seed A c M)
    (hf' : IsFoundBy h S cand' R' seed' A' c' M) : cand = cand' ∧ R = R' ∧ seed = seed' := by
  obtain ⟨rfl, rfl, -⟩ := hf.1.unique h.hereditary hf'.1
  refine ⟨hf.2.1.symm.trans hf'.2.1, ?_, ?_⟩
  · obtain ⟨-, rfl, rfl⟩ := hf
    obtain ⟨-, hcand, rfl⟩ := hf'
    rw [hcand]
  · exact (front_nodes hf.1.layout).symm.trans (front_nodes hf'.1.layout)

/-- **No child is found twice.** -/
theorem nodup_childList (h : Lawful sys P) (hfuel : completeFuel sys.size < fuel)
    (hL : Canonical sys P m L) : (sys.system.childList fuel (nodes L) (levels L)).Nodup := by
  -- a child that is found in two ways
  have hunique : ∀ {y cand cand' sol sol' seed seed'},
      cand ∈ sys.base.restrictedCands (nodes L) (levels L) →
      sol ∈ sys.base.restrictedProblem (nodes L) cand → seed ∈ sys.validSeeds sol cand →
      (sys.system.childOf fuel (nodes L) (levels L) cand sol seed).join = some y →
      cand' ∈ sys.base.restrictedCands (nodes L) (levels L) →
      sol' ∈ sys.base.restrictedProblem (nodes L) cand' → seed' ∈ sys.validSeeds sol' cand' →
      (sys.system.childOf fuel (nodes L) (levels L) cand' sol' seed').join = some y →
      cand = cand' ∧ sol.toFinset = sol'.toFinset ∧ seed = seed' := by
    intro y cand cand' sol sol' seed seed' hcand hsol hseed hy hcand' hsol' hseed' hy'
    obtain ⟨o, ho, hiff⟩ := childOf_node h hfuel hL hcand hsol hseed
    obtain ⟨o', ho', hiff'⟩ := childOf_node h hfuel hL hcand' hsol' hseed'
    rw [ho] at hy
    rw [ho'] at hy'
    obtain ⟨A, c, M, rfl, hf⟩ := (hiff y).mp hy
    obtain ⟨A', c', M', heq, hf'⟩ := (hiff' _).mp hy'
    obtain rfl := eq_of_nodes_levels (congrArg Prod.fst heq) (congrArg Prod.snd heq)
    exact hf.unique hf'
  have hnodupSol : ∀ {cand}, cand ∈ sys.base.restrictedCands (nodes L) (levels L) →
      ((sys.base.restrictedProblem (nodes L) cand).map List.toFinset).Nodup ∧
        ∀ sol ∈ sys.base.restrictedProblem (nodes L) cand, sol.Nodup := by
    intro cand hcand
    obtain ⟨hlt, hnot, -⟩ := mem_restrictedProblem_spec h hL hcand
    exact h.restrictedProblem_nodup _ _ hL.layout.nodup_nodes hL.lt (hL.isGood h) hlt hnot
  unfold childList
  refine List.nodup_flatMap.mpr ⟨fun cand hcand => ?_, ?_⟩
  · refine List.nodup_flatMap.mpr ⟨fun sol hsol => ?_, ?_⟩
    · have hseeds : (sys.validSeeds sol cand).Nodup :=
        ((hnodupSol hcand).2 sol hsol).filter _
      refine List.pairwise_filterMap.mpr (hseeds.imp_of_mem ?_)
      rintro seed seed' hseed hseed' hne y hy _ hy' rfl
      exact hne (hunique hcand hsol hseed hy hcand hsol hseed' hy').2.2
    · refine (List.pairwise_map.mp (hnodupSol hcand).1).imp_of_mem ?_
      intro sol sol' hsol hsol' hne
      rw [Function.onFun_apply, List.disjoint_left]
      intro y hy hy'
      obtain ⟨seed, hseed, hy⟩ := List.mem_filterMap.mp hy
      obtain ⟨seed', hseed', hy'⟩ := List.mem_filterMap.mp hy'
      exact hne (hunique hcand hsol hseed hy hcand hsol' hseed' hy').2.1
  · have hcands : (sys.base.restrictedCands (nodes L) (levels L)).Nodup := by
      rw [h.restrictedCands_eq]
      exact List.nodup_range.filter _
    refine hcands.imp_of_mem ?_
    intro cand cand' hcand hcand' hne
    rw [Function.onFun_apply, List.disjoint_left]
    intro y hy hy'
    obtain ⟨sol, hsol, hy⟩ := List.mem_flatMap.mp hy
    obtain ⟨sol', hsol', hy'⟩ := List.mem_flatMap.mp hy'
    obtain ⟨seed, hseed, hy⟩ := List.mem_filterMap.mp hy
    obtain ⟨seed', hseed', hy'⟩ := List.mem_filterMap.mp hy'
    exact hne (hunique hcand hsol hseed hy hcand' hsol' hseed' hy').1

/-! ### The forest -/

/-- The canonical layouts after `L`. -/
def layoutsAfter (sys : CHSystem) (P : Finset ℕ → Prop) (L : List (Key ℕ)) :
    Set (List (Key ℕ)) :=
  {M | (∃ m, Canonical sys P m M) ∧ L < M}

theorem nodeSet_injOn :
    Set.InjOn nodeSet {M : List (Key ℕ) | ∃ m, Canonical sys P m M} := by
  rintro L ⟨m, hL⟩ M ⟨m', hM⟩ hset
  exact hL.unique hM hset

theorem finite_layoutsAfter (L : List (Key ℕ)) : (layoutsAfter sys P L).Finite := by
  refine Set.Finite.of_injOn (f := nodeSet) (t := ↑(Finset.range sys.size).powerset) ?_
    (nodeSet_injOn.mono fun M hM => hM.1) (Finset.finite_toSet _)
  rintro M ⟨⟨m, hM⟩, -⟩
  exact Finset.mem_coe.mpr (Finset.mem_powerset.mpr hM.maximal.prop.2.2)

/-- A child has fewer layouts after it. -/
theorem ncard_layoutsAfter_lt (h : Lawful sys P) (hL : Canonical sys P m L) {m' : ℕ}
    (hc : IsChild (completer h) (Finset.range sys.size) (nodeSet L) A c M m') :
    (layoutsAfter sys P M).ncard < (layoutsAfter sys P L).ncard := by
  have hlt : L < M := hc.lt h.hereditary hL.layout rfl fun u hu => hL.min u (mem_nodeSet.mp hu)
  refine Set.ncard_lt_ncard (Set.ssubset_iff_subset_ne.mpr ⟨?_, ?_⟩) (finite_layoutsAfter L)
  · rintro N ⟨hN, hMN⟩
    exact ⟨hN, hlt.trans hMN⟩
  · intro heq
    have hM : M ∈ layoutsAfter sys P L := ⟨⟨m', canonical_of_isChild h hc⟩, hlt⟩
    rw [← heq] at hM
    exact lt_irrefl M hM.2

/-- The reverse search. -/
noncomputable def forest (h : Lawful sys P) (hfuel : completeFuel sys.size < fuel) :
    Forest CommutableNode where
  children x := sys.system.childList fuel x.1 x.2
  Ok := IsNode sys P
  rank x := (layoutsAfter sys P (keys x)).ncard
  ok_of_mem := by
    rintro x y ⟨m, L, hL, rfl⟩ hy
    obtain ⟨A, c, M, m', rfl, hc⟩ := (mem_childList_iff h hfuel hL).mp hy
    exact ⟨m', M, canonical_of_isChild h hc, rfl⟩
  rank_lt_of_mem := by
    rintro x y ⟨m, L, hL, rfl⟩ hy
    obtain ⟨A, c, M, m', rfl, hc⟩ := (mem_childList_iff h hfuel hL).mp hy
    rw [keys_nodes, keys_nodes]
    exact ncard_layoutsAfter_lt h hL hc

/-- The roots `GetRoot` passes to its callback. -/
def roots (sys : CHSystem) (fuel i : ℕ) : List CommutableNode := (sys.rootOf fuel i).toList

/-- The roots are the sets that are the greedy completion of their smallest element. -/
theorem mem_roots_iff (h : Lawful sys P) (hfuel : completeFuel sys.size < fuel) {i : ℕ}
    (hi : i < sys.size) {x : CommutableNode} :
    x ∈ sys.roots fuel i ↔ ∃ M, Canonical sys P i M ∧
      Completes sys.graph (sys.Property P) [⟨0, i⟩] M ∧ x = (nodes M, levels M) := by
  obtain ⟨M, hM, -, hyes, hno⟩ := rootOf_spec h hfuel hi
  unfold roots
  rw [Option.mem_toList]
  have hset : sys.Property P (nodeSet [(⟨0, i⟩ : Key ℕ)]) := by
    refine ⟨h.property_singleton i hi, ?_⟩
    simpa [nodeSet] using hi
  have hlayout := hM.layout h.hereditary .root (ahead_root i)
  constructor
  · intro hx
    by_cases hall : ∀ u ∈ nodes M, i ≤ u
    · rw [hyes hall] at hx
      refine ⟨M, ⟨hlayout, hall, ?_⟩, hM, (Option.some.inj hx).symm⟩
      exact maximal_of_layout h.hereditary hlayout (hM.property hset) hM.closed
    · rw [hno hall] at hx
      cases hx
  · rintro ⟨M', hcanon, hM', rfl⟩
    obtain rfl := hM.unique hM'
    rw [hyes hcanon.min]

/-- A system lists its reverse search. -/
noncomputable def listsForest (h : Lawful sys P) (hfuel : completeFuel sys.size < fuel) :
    Sequential.ListsForest (sys.system.enumerable fuel) where
  Inv _ := True
  roots := sys.roots fuel
  forest := forest h hfuel
  sol _ := true
  item x := x.1
  not_recursive := rfl
  ok_roots i hi r hr := by
    obtain ⟨M, hM, -, rfl⟩ := (mem_roots_iff h hfuel hi).mp hr
    exact ⟨i, M, hM, rfl⟩
  isSolution_eq _ _ := rfl
  nodeToItem_eq _ _ := rfl
  getRoot_eq f i st a _ hi := by
    obtain ⟨M, -, hsome, -⟩ := rootOf_spec h hfuel hi
    exact CommutableSystem.getRoot_eq f i rfl hsome (st, a)
  listChildren_eq f x st a _ hx := by
    obtain ⟨m, L, hL, rfl⟩ := hx
    refine CommutableSystem.listChildren_eq f _ (fun cand hcand sol hsol seed hseed => ?_) (st, a)
    obtain ⟨o, ho, -⟩ := childOf_node h hfuel hL hcand hsol hseed
    exact Option.isSome_iff_exists.mpr ⟨o, ho⟩

/-- The roots of all calls of `GetRoot`. -/
def allRoots (sys : CHSystem) (fuel : ℕ) : List CommutableNode :=
  (List.range sys.size).flatMap (sys.roots fuel)

theorem mem_allRoots (h : Lawful sys P) (hfuel : completeFuel sys.size < fuel)
    {x : CommutableNode} :
    x ∈ sys.allRoots fuel ↔ ∃ m M, Canonical sys P m M ∧
      Completes sys.graph (sys.Property P) [⟨0, m⟩] M ∧ x = (nodes M, levels M) := by
  unfold allRoots
  rw [List.mem_flatMap]
  constructor
  · rintro ⟨i, hi, hx⟩
    exact ⟨i, (mem_roots_iff h hfuel (List.mem_range.mp hi)).mp hx⟩
  · rintro ⟨m, M, hM, hx⟩
    have hm : m < sys.size := hM.lt m hM.layout.root_mem
    exact ⟨m, List.mem_range.mpr hm, (mem_roots_iff h hfuel hm).mpr ⟨M, hM, hx⟩⟩

theorem nodup_allRoots (h : Lawful sys P) (hfuel : completeFuel sys.size < fuel) :
    (sys.allRoots fuel).Nodup := by
  unfold allRoots
  refine List.nodup_flatMap.mpr ⟨fun i _ => ?_, List.nodup_range.imp_of_mem ?_⟩
  · unfold roots
    cases sys.rootOf fuel i with
    | none => exact List.nodup_nil
    | some x => exact List.nodup_singleton x
  · intro i j hi hj hne
    rw [Function.onFun_apply, List.disjoint_left]
    intro x hx hx'
    obtain ⟨M, hM, -, rfl⟩ := (mem_roots_iff h hfuel (List.mem_range.mp hi)).mp hx
    obtain ⟨M', hM', -, heq⟩ := (mem_roots_iff h hfuel (List.mem_range.mp hj)).mp hx'
    obtain rfl := eq_of_nodes_levels (congrArg Prod.fst heq) (congrArg Prod.snd heq)
    exact hne ((front_nodes hM.layout).symm.trans (front_nodes hM'.layout))

/-- **A node is a root or a child of a node.** -/
theorem root_or_child (h : Lawful sys P) (hfuel : completeFuel sys.size < fuel)
    {z : CommutableNode} (hz : IsNode sys P z) :
    z ∈ sys.allRoots fuel ∨ ∃ p, IsNode sys P p ∧ z ∈ (forest h hfuel).children p := by
  obtain ⟨m, M, hM, rfl⟩ := hz
  by_cases hroot : Completes sys.graph (sys.Property P) [⟨0, m⟩] M
  · exact Or.inl ((mem_allRoots h hfuel).mpr ⟨m, M, hM, hroot, rfl⟩)
  · obtain ⟨S, A, c, hc⟩ := exists_isChild h.hereditary (completer h) hM.layout hM.min hM.maximal
      hroot
    obtain ⟨m', L, hL, rfl⟩ := exists_canonical h (hc.parent_maximal h.hereditary)
    exact Or.inr ⟨_, ⟨m', L, hL, rfl⟩, (mem_childList_iff h hfuel hL).mpr ⟨A, c, M, m, rfl, hc⟩⟩

/-- **A node has one parent.** -/
theorem parent_unique (h : Lawful sys P) (hfuel : completeFuel sys.size < fuel)
    {x y z : CommutableNode} (hx : IsNode sys P x) (hy : IsNode sys P y)
    (hzx : z ∈ (forest h hfuel).children x) (hzy : z ∈ (forest h hfuel).children y) : x = y := by
  obtain ⟨m, L, hL, rfl⟩ := hx
  obtain ⟨m', L', hL', rfl⟩ := hy
  obtain ⟨A, c, M, v, rfl, hc⟩ := (mem_childList_iff h hfuel hL).mp hzx
  obtain ⟨A', c', M', v', heq, hc'⟩ := (mem_childList_iff h hfuel hL').mp hzy
  obtain rfl := eq_of_nodes_levels (congrArg Prod.fst heq) (congrArg Prod.snd heq)
  obtain rfl := hL.unique hL' (hc.unique h.hereditary hc').2.2
  rfl

theorem allNodes_eq (h : Lawful sys P) (hfuel : completeFuel sys.size < fuel) :
    (listsForest h hfuel).allNodes = (forest h hfuel).traversal (sys.allRoots fuel) := by
  unfold Sequential.ListsForest.allNodes Forest.traversal allRoots
  rw [List.flatMap_assoc]
  rfl

/-- Every node is visited. -/
theorem mem_allNodes (h : Lawful sys P) (hfuel : completeFuel sys.size < fuel)
    {z : CommutableNode} : z ∈ (listsForest h hfuel).allNodes ↔ IsNode sys P z := by
  rw [allNodes_eq]
  have hok : ∀ r ∈ sys.allRoots fuel, (forest h hfuel).Ok r := by
    intro r hr
    obtain ⟨m, M, hM, -, rfl⟩ := (mem_allRoots h hfuel).mp hr
    exact ⟨m, M, hM, rfl⟩
  constructor
  · intro hz
    obtain ⟨r, hr, hz⟩ := Forest.mem_traversal.mp hz
    exact (Forest.ok_of_mem_subtree (hok r hr) hz).1
  · intro hz
    refine Forest.mem_traversal_of_climb (IsNode sys P) (N := (layoutsAfter sys P []).ncard) hok
      (fun _ h => h) ?_ (fun z hz => root_or_child h hfuel hz) hz
    rintro z ⟨m, L, hL, rfl⟩
    refine Set.ncard_le_ncard ?_ (finite_layoutsAfter [])
    rintro M ⟨hM, -⟩
    refine ⟨hM, ?_⟩
    obtain ⟨v, hM⟩ := hM
    obtain ⟨R, rfl⟩ := hM.layout.exists_cons
    exact List.Lex.nil

/-- No node is visited twice. -/
theorem nodup_allNodes (h : Lawful sys P) (hfuel : completeFuel sys.size < fuel) :
    (listsForest h hfuel).allNodes.Nodup := by
  rw [allNodes_eq]
  apply Forest.traversal_nodup
  · intro r hr
    obtain ⟨m, M, hM, -, rfl⟩ := (mem_allRoots h hfuel).mp hr
    exact ⟨m, M, hM, rfl⟩
  · exact nodup_allRoots h hfuel
  · rintro x ⟨m, L, hL, rfl⟩
    exact nodup_childList h hfuel hL
  · exact fun x y z hx hy => parent_unique h hfuel hx hy
  · rintro x r ⟨m, L, hL, rfl⟩ hr hchild
    obtain ⟨A, c, M, v, rfl, hc⟩ := (mem_childList_iff h hfuel hL).mp hchild
    obtain ⟨v', M', hM', hroot, heq⟩ := (mem_allRoots h hfuel).mp hr
    obtain rfl := eq_of_nodes_levels (congrArg Prod.fst heq) (congrArg Prod.snd heq)
    obtain rfl : v = v' :=
      (front_nodes (canonical_of_isChild h hc).layout).symm.trans (front_nodes hM'.layout)
    exact hc.not_root h.hereditary hroot

/-! ### What is reported -/

theorem map_toFinset_nodup (h : Lawful sys P) (hfuel : completeFuel sys.size < fuel)
    {l : List CommutableNode} (hl : l.Perm (listsForest h hfuel).allNodes) :
    (l.map fun x => x.1.toFinset).Nodup := by
  refine List.Nodup.map_on ?_ (hl.nodup_iff.mpr (nodup_allNodes h hfuel))
  intro x hx y hy hxy
  obtain ⟨m, L, hL, rfl⟩ := (mem_allNodes h hfuel).mp (hl.mem_iff.mp hx)
  obtain ⟨m', L', hL', rfl⟩ := (mem_allNodes h hfuel).mp (hl.mem_iff.mp hy)
  obtain rfl := hL.unique hL' hxy
  rfl

/-- The sets of the nodes are the maximal good sets. -/
theorem exists_node_iff (h : Lawful sys P) (hfuel : completeFuel sys.size < fuel)
    {l : List CommutableNode} (hl : l.Perm (listsForest h hfuel).allNodes) {K : Finset ℕ} :
    (∃ x ∈ l, x.1.toFinset = K) ↔ Maximal (Good sys.graph (sys.Property P)) K := by
  have hmem : ∀ x, x ∈ l ↔ IsNode sys P x := fun x =>
    hl.mem_iff.trans (mem_allNodes h hfuel)
  constructor
  · rintro ⟨x, hx, rfl⟩
    obtain ⟨m, L, hL, rfl⟩ := (hmem x).mp hx
    exact hL.maximal
  · intro hK
    obtain ⟨m, L, hL, hset⟩ := exists_canonical h hK
    exact ⟨(nodes L, levels L), (hmem _).mpr ⟨m, L, hL, rfl⟩, hset⟩

/-- There are not more nodes than sets. -/
theorem length_allNodes_le (h : Lawful sys P) (hfuel : completeFuel sys.size < fuel) :
    (listsForest h hfuel).allNodes.length ≤ 2 ^ sys.size := by
  have hnodup := map_toFinset_nodup h hfuel (List.Perm.refl _)
  have hcard := Finset.card_le_card (s := ((listsForest h hfuel).allNodes.map
    fun x => x.1.toFinset).toFinset) (t := (Finset.range sys.size).powerset) (by
      intro K hK
      obtain ⟨x, hx, rfl⟩ := List.mem_map.mp (List.mem_toFinset.mp hK)
      have hmax := (exists_node_iff h hfuel (List.Perm.refl _)).mp ⟨x, hx, rfl⟩
      exact Finset.mem_powerset.mpr hmax.prop.2.2)
  rwa [List.toFinset_card_of_nodup hnodup, List.length_map, Finset.card_powerset,
    Finset.card_range] at hcard

theorem good_property_iff {K : Finset ℕ} :
    Good sys.graph (sys.Property P) K ↔ K ⊆ Finset.range sys.size ∧ Good sys.graph P K :=
  ⟨fun hK => ⟨hK.2.2, hK.1, hK.2.1⟩, fun hK => ⟨hK.2.1, hK.2.2, hK.1⟩⟩

/-- **`Sequential` reports every maximal good set exactly once**, and nothing else. -/
theorem runInternal_connectedHereditary (h : Lawful sys P) :
    ∃ bound, ∀ fuel > bound, ∃ st e,
      Sequential.runInternal fuel (sys.system.enumerable fuel) () {} = some (st, e) ∧
        (∀ item ∈ e.items, item.Nodup) ∧ (e.items.map List.toFinset).Nodup ∧
          ∀ K, K ∈ e.items.map List.toFinset ↔
            Maximal (fun K => K ⊆ Finset.range sys.size ∧ Good sys.graph P K) K := by
  refine ⟨max (completeFuel sys.size) (2 ^ sys.size), fun fuel hfuel => ?_⟩
  have hcomplete : completeFuel sys.size < fuel := (le_max_left _ _).trans_lt hfuel
  have hlength := (length_allNodes_le h hcomplete).trans_lt ((le_max_right _ _).trans_lt hfuel)
  obtain ⟨l, hl, hrun⟩ :=
    (listsForest h hcomplete).runInternal_of_listsForest () trivial hlength {}
  refine ⟨_, _, hrun, ?_⟩
  have hitems : ((({} : Enumerator (List ℕ)).reports (listsForest h hcomplete).sol
      (listsForest h hcomplete).item l).items) = l.map fun x => x.1 := by
    simp [Enumerator.reports, listsForest]
  rw [hitems, List.map_map]
  refine ⟨?_, map_toFinset_nodup h hcomplete hl, fun K => ?_⟩
  · intro item hitem
    obtain ⟨x, hx, rfl⟩ := List.mem_map.mp hitem
    obtain ⟨m, L, hL, rfl⟩ := (mem_allNodes h hcomplete).mp (hl.mem_iff.mp hx)
    exact hL.layout.nodup_nodes
  · have hgood : (fun K => K ⊆ Finset.range sys.size ∧ Good sys.graph P K)
        = Good sys.graph (sys.Property P) :=
      funext fun K => propext good_property_iff.symm
    rw [List.mem_map, hgood]
    exact exists_node_iff h hcomplete hl

/-! ### Pairs -/

/-- The system of the sets of at most two of `n` nodes that are all next to each other. -/
def pairs (n : ℕ) : CHSystem where
  base :=
    { graphSize := n
      isGood := fun s => decide (s ≠ []) && decide (s.toFinset.card ≤ 2)
      restrictedProblem := fun s v => s.map fun u => [u, v]
      completeCandNum := fun groundSet u _ idx =>
        ((List.range n).filter fun w =>
          decide (u ≠ w) && groundSet.all fun ground => ground.contains w)[idx]? }
  isNeigh u v := decide (u ≠ v)

theorem pairs_adj {n u v : ℕ} (hu : u < n) (hv : v < n) : (pairs n).graph.Adj u v ↔ u ≠ v := by
  unfold graph
  rw [SimpleGraph.fromRel_adj]
  exact ⟨fun h => h.1, fun hne => ⟨hne, Or.inl ⟨hu, hv, decide_eq_true hne⟩⟩⟩

theorem pairs_connected {n : ℕ} {K : Finset ℕ} (hK : K ⊆ Finset.range n) (hne : K.Nonempty) :
    ((pairs n).graph.induce (K : Set ℕ)).Connected := by
  have htop : (pairs n).graph.induce (K : Set ℕ) = ⊤ := by
    ext ⟨u, hu⟩ ⟨v, hv⟩
    have hun := Finset.mem_range.mp (hK (Finset.mem_coe.mp hu))
    have hvn := Finset.mem_range.mp (hK (Finset.mem_coe.mp hv))
    rw [SimpleGraph.comap_adj, SimpleGraph.top_adj, Ne, Subtype.mk.injEq]
    exact pairs_adj hun hvn
  obtain ⟨u, hu⟩ := hne
  have : Nonempty (K : Set ℕ) := ⟨⟨u, hu⟩⟩
  rw [htop]
  exact SimpleGraph.connected_top

/-- The maximal pairs that contain a new node. -/
theorem pairs_maximal_iff {n v : ℕ} {s : List ℕ} (hs : ∀ u ∈ s, u < n) (hne : s ≠ [])
    (hv : v < n) (hvs : v ∉ s) (K : Finset ℕ) :
    Maximal (fun K => Good (pairs n).graph (fun S => S.card ≤ 2) K ∧ K ⊆ insert v s.toFinset ∧
      v ∈ K) K ↔ ∃ u ∈ s, ({u, v} : Finset ℕ) = K := by
  have hpair : ∀ {u}, u ∈ s → Good (pairs n).graph (fun S => S.card ≤ 2) {u, v} := by
    intro u hu
    refine ⟨pairs_connected ?_ ⟨v, by simp⟩, Finset.card_le_two⟩
    intro w hw
    rw [Finset.mem_insert, Finset.mem_singleton] at hw
    rcases hw with rfl | rfl
    · exact Finset.mem_range.mpr (hs _ hu)
    · exact Finset.mem_range.mpr hv
  have hsub : ∀ {u}, u ∈ s → ({u, v} : Finset ℕ) ⊆ insert v s.toFinset := by
    intro u hu w hw
    rw [Finset.mem_insert, Finset.mem_singleton] at hw
    rcases hw with rfl | rfl
    · exact Finset.mem_insert_of_mem (List.mem_toFinset.mpr hu)
    · exact Finset.mem_insert_self _ _
  constructor
  · intro hK
    obtain ⟨⟨-, hcard⟩, hKs, hvK⟩ := hK.prop
    obtain ⟨u, hu, huK⟩ : ∃ u ∈ s, u ∈ K := by
      by_contra hnone
      push Not at hnone
      obtain ⟨u, hu⟩ := List.exists_mem_of_ne_nil s hne
      refine hnone u hu (hK.le_of_ge (y := {u, v}) ⟨hpair hu, hsub hu, by simp⟩ ?_ (by simp))
      intro w hw
      rcases Finset.mem_insert.mp (hKs hw) with rfl | hws
      · simp
      · exact absurd hw (hnone w (List.mem_toFinset.mp hws))
    refine ⟨u, hu, Finset.eq_of_subset_of_card_le ?_ ?_⟩
    · exact Finset.insert_subset huK (Finset.singleton_subset_iff.mpr hvK)
    · have huv : u ≠ v := by
        rintro rfl
        exact hvs hu
      rwa [Finset.card_pair huv]
  · rintro ⟨u, hu, rfl⟩
    have huv : u ≠ v := by
      rintro rfl
      exact hvs hu
    refine ⟨⟨hpair hu, hsub hu, by simp⟩, fun K hK hle => ?_⟩
    refine (Finset.eq_of_subset_of_card_le hle ?_).ge
    rw [Finset.card_pair huv]
    exact hK.1.2

theorem pairs_lawful (n : ℕ) : Lawful (pairs n) fun S => S.card ≤ 2 where
  isNeigh_symm _ _ _ _ := decide_eq_decide.mpr ne_comm
  isNeigh_irrefl u _ := by simp [pairs]
  property_mono S T hST hT := (Finset.card_le_card hST).trans hT
  property_singleton u _ := by simp
  isGood_iff s hs := by
    simp only [pairs, Bool.and_eq_true, decide_eq_true_eq]
    constructor
    · rintro ⟨hne, hcard⟩
      refine ⟨pairs_connected (fun u hu => ?_) ?_, hcard⟩
      · exact Finset.mem_range.mpr (hs u (List.mem_toFinset.mp hu))
      · exact List.toFinset_nonempty_iff s |>.mpr hne
    · intro hgood
      exact ⟨ne_nil_of_good hgood, hgood.2⟩
  completeCandNum_eq _ _ _ _ _ := rfl
  restrictedProblem_nodup s v hnd _ _ _ hvs := by
    refine ⟨?_, fun sol hsol => ?_⟩
    · rw [pairs, List.map_map]
      refine List.Nodup.map_on (fun u hu w hw huw => ?_) hnd
      have heq : [u, v].toFinset = [w, v].toFinset := huw
      have hmem : u ∈ [w, v].toFinset := by
        rw [← heq]
        simp
      rcases List.mem_pair.mp (List.mem_toFinset.mp hmem) with h | h
      · exact h
      · exact absurd (h ▸ hu) hvs
    · obtain ⟨u, hu, rfl⟩ := List.mem_map.mp hsol
      have huv : u ≠ v := by
        rintro rfl
        exact hvs hu
      simp [huv]
  mem_restrictedProblem s v _ hs hgood hv hvs K := by
    have hne : s ≠ [] := by
      simp only [pairs, Bool.and_eq_true, decide_eq_true_eq] at hgood
      exact hgood.1
    rw [pairs_maximal_iff (n := n) hs hne hv hvs, List.mem_map]
    constructor
    · rintro ⟨sol, hsol, rfl⟩
      obtain ⟨u, hu, rfl⟩ := List.mem_map.mp hsol
      exact ⟨u, hu, by simp⟩
    · rintro ⟨u, hu, rfl⟩
      exact ⟨[u, v], List.mem_map_of_mem hu, by simp⟩
  canAdd_eq _ _ := rfl
  restrMultiple_eq := rfl
  restrictedCands_eq _ _ := rfl

/-- The pairs of three nodes. -/
theorem runInternal_connectedHereditary_pairs :
    ∃ bound, ∀ fuel > bound, ∃ st e,
      Sequential.runInternal fuel ((pairs 3).system.enumerable fuel) () {} = some (st, e) ∧
        (∀ item ∈ e.items, item.Nodup) ∧ (e.items.map List.toFinset).Nodup ∧
          ∀ K, K ∈ e.items.map List.toFinset ↔
            Maximal (fun K => K ⊆ Finset.range 3 ∧
              Good (pairs 3).graph (fun S => S.card ≤ 2) K) K :=
  runInternal_connectedHereditary (pairs_lawful 3)

end ParallelEnum.CHSystem
