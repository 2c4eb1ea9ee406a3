import ParallelEnum.Enumerable.Equiv.Clique
import ParallelEnum.Enumerable.Equiv.Diam2Kplex
import ParallelEnum.Permute.Equiv.Permute
import ParallelEnum.Util.Equiv.Permute
import Mathlib.Data.Finset.Prod

/-!
# The labels of reported items

The constructors of both enumerations renumber the graph they are given by its degeneracy order,
and `NodeToItem` reports the new numbers.  `ItemsInGraph` is the property that the items name
vertices of the graph given.

* `itemsInGraph_iff`: it holds exactly when renumbering keeps all edges in place.
* `not_itemsInGraph`: it does not for an edge and an isolated vertex.
-/

namespace ParallelEnum

open Kplex LexCompletion

/-- The graph the constructors keep in `graph_`. -/
def Graph.renumbered (g : Graph) : Graph :=
  g.permute (degeneracyOrder g) (degeneracyOrder_perm g)

/-- The constructor of `CliqueEnumeration`. -/
def newCliqueEnumeration (g : Graph) : Enumerable Clique.Scratch Clique.Node (List ℕ) :=
  Clique.cliqueEnumeration g.renumbered

/-- The constructor of `Diam2KplexEnumeration`. -/
def newDiam2KplexEnumeration (g : Graph) (k q : ℕ) (enablePivoting : Bool) (std : StdSort) :
    Enumerable Diam2Kplex.Store Diam2Kplex.Node (List ℕ) :=
  Diam2Kplex.diam2KplexEnumeration g.renumbered k q enablePivoting std

/-- The reported items are maximal cliques, and `k`-plexes, of the graph given. -/
structure ItemsInGraph (g : Graph) : Prop where
  clique : ∃ bound, ∀ fuel > bound, ∃ st e,
    Sequential.runInternal fuel (newCliqueEnumeration g) {} {} = some (st, e) ∧
      ∀ item ∈ e.items, IsMaximalClique g.toSimpleGraph g.vertices item.toFinset
  kplex : ∀ (k q : ℕ) (enablePivoting : Bool) (std : StdSort), 1 ≤ k → k ≤ 255 →
    ∃ bound, ∀ fuel > bound, ∃ st e,
      Sequential.runInternal fuel (newDiam2KplexEnumeration g k q enablePivoting std) {} {}
        = some (st, e) ∧
        ∀ item ∈ e.items, item.toFinset ⊆ g.vertices ∧
          IsKplex g.toSimpleGraph k item.toFinset

/-- The degeneracy order keeps all edges in place. -/
def KeepsEdges (g : Graph) : Prop :=
  ∀ i < g.N, ∀ j < g.N, g.toSimpleGraph.Adj i j ↔
    g.toSimpleGraph.Adj ((degeneracyOrder g).getD i 0) ((degeneracyOrder g).getD j 0)

section Renumbered

variable {g : Graph}

theorem renumbered_adj {i j : ℕ} : g.renumbered.toSimpleGraph.Adj i j ↔ i < g.N ∧ j < g.N ∧
    g.toSimpleGraph.Adj ((degeneracyOrder g).getD i 0) ((degeneracyOrder g).getD j 0) :=
  g.permute_adj (degeneracyOrder_perm g)

/-- Nothing moves when edges stay in place. -/
theorem KeepsEdges.toSimpleGraph_eq (h : KeepsEdges g) :
    g.renumbered.toSimpleGraph = g.toSimpleGraph := by
  ext i j
  rw [renumbered_adj]
  constructor
  · rintro ⟨hi, hj, hadj⟩
    exact (h i hi j hj).mpr hadj
  · intro hadj
    obtain ⟨hi, hj⟩ := g.lt_of_adj hadj
    exact ⟨hi, hj, (h i hi j hj).mp hadj⟩

/-- The pairs of adjacent vertices. -/
def Graph.pairs (g : Graph) : Finset (ℕ × ℕ) :=
  (g.vertices ×ˢ g.vertices).filter fun p => g.toSimpleGraph.Adj p.1 p.2

theorem mem_pairs {p : ℕ × ℕ} : p ∈ g.pairs ↔ g.toSimpleGraph.Adj p.1 p.2 := by
  unfold Graph.pairs
  rw [Finset.mem_filter, Finset.mem_product, g.mem_vertices, g.mem_vertices]
  exact and_iff_right_of_imp g.lt_of_adj

/-- Renumbering keeps the number of edges. -/
theorem card_pairs_renumbered : g.renumbered.pairs.card = g.pairs.card := by
  have hperm := degeneracyOrder_perm g
  refine Finset.card_bij
    (fun p _ => ((degeneracyOrder g).getD p.1 0, (degeneracyOrder g).getD p.2 0)) ?_ ?_ ?_
  · intro p hp
    exact mem_pairs.mpr (renumbered_adj.mp (mem_pairs.mp hp)).2.2
  · intro p hp p' hp' heq
    obtain ⟨h1, h2, -⟩ := renumbered_adj.mp (mem_pairs.mp hp)
    obtain ⟨h1', h2', -⟩ := renumbered_adj.mp (mem_pairs.mp hp')
    obtain ⟨heq1, heq2⟩ := Prod.mk.inj heq
    exact Prod.ext (Graph.order_inj hperm h1 h1' heq1) (Graph.order_inj hperm h2 h2' heq2)
  · rintro ⟨x, y⟩ hxy
    have hadj := mem_pairs.mp hxy
    obtain ⟨hx, hy⟩ := g.lt_of_adj hadj
    obtain ⟨i, hi, rfl⟩ := Graph.exists_order hperm hx
    obtain ⟨j, hj, rfl⟩ := Graph.exists_order hperm hy
    exact ⟨(i, j), mem_pairs.mpr (renumbered_adj.mpr ⟨hi, hj, hadj⟩), rfl⟩

/-- An edge that stays an edge whichever it is leaves no room for others. -/
theorem keepsEdges_of_forall
    (h : ∀ i j, g.renumbered.toSimpleGraph.Adj i j → g.toSimpleGraph.Adj i j) : KeepsEdges g := by
  have hpairs : g.renumbered.pairs = g.pairs :=
    Finset.eq_of_subset_of_card_le
      (fun p hp => mem_pairs.mpr (h p.1 p.2 (mem_pairs.mp hp))) card_pairs_renumbered.ge
  intro i hi j hj
  rw [← mem_pairs (p := (i, j)), ← hpairs, mem_pairs, renumbered_adj, and_iff_right hi,
    and_iff_right hj]

/-- An edge of the renumbered graph is in a reported clique. -/
theorem ItemsInGraph.adj (h : ItemsInGraph g) {i j : ℕ}
    (hadj : g.renumbered.toSimpleGraph.Adj i j) : g.toSimpleGraph.Adj i j := by
  have hpair : IsCliqueIn g.renumbered.toSimpleGraph g.renumbered.vertices {i, j} := by
    refine ⟨⟨i, by simp⟩, fun x hx => ?_, ?_⟩
    · have hlt := g.renumbered.lt_of_adj hadj
      rcases Finset.mem_insert.mp hx with rfl | hx
      · exact g.renumbered.mem_vertices.mpr hlt.1
      · rw [Finset.mem_singleton.mp hx]
        exact g.renumbered.mem_vertices.mpr hlt.2
    · intro x hx y hy hne
      simp only [Finset.coe_insert, Finset.coe_singleton, Set.mem_insert_iff,
        Set.mem_singleton_iff] at hx hy
      rcases hx with rfl | rfl <;> rcases hy with rfl | rfl
      · exact absurd rfl hne
      · exact hadj
      · exact hadj.symm
      · exact absurd rfl hne
  obtain ⟨K, hK⟩ := exists_lexFirst hpair
  obtain ⟨bound, hbound⟩ := h.clique
  set n := (Clique.listsForest g.renumbered).allNodes.length with hn
  obtain ⟨st, e, hrun, hitems⟩ := hbound (max bound n + 1) (by omega)
  obtain ⟨l, hl, st', e', hrun', hitems'⟩ :=
    Clique.runInternal_nodes g.renumbered (show n < max bound n + 1 by omega)
  obtain ⟨-, rfl⟩ := Prod.mk.inj (Option.some.inj (hrun.symm.trans hrun'))
  obtain ⟨x, hx, hxK⟩ := (Clique.exists_node_iff g.renumbered hl).mpr hK.isMaximalClique
  have hclique := hitems x.1 (by
    rw [hitems']
    exact List.mem_map_of_mem hx)
  rw [hxK] at hclique
  exact hclique.prop.adj (hK.2.1 (by simp)) (hK.2.1 (by simp)) hadj.ne

end Renumbered

/-- **The items name vertices of the graph given exactly when renumbering keeps its edges.** -/
theorem itemsInGraph_iff (g : Graph) : ItemsInGraph g ↔ KeepsEdges g := by
  constructor
  · exact fun h => keepsEdges_of_forall fun i j hadj => h.adj hadj
  · intro h
    have hgraph := h.toSimpleGraph_eq
    constructor
    case clique =>
      refine ⟨(Clique.listsForest g.renumbered).allNodes.length, fun fuel hfuel => ?_⟩
      obtain ⟨l, hl, st, e, hrun, hitems⟩ := Clique.runInternal_nodes g.renumbered hfuel
      refine ⟨st, e, hrun, fun item hitem => ?_⟩
      rw [hitems] at hitem
      obtain ⟨x, hx, rfl⟩ := List.mem_map.mp hitem
      have hmax := (Clique.exists_node_iff g.renumbered hl).mp ⟨x, hx, rfl⟩
      rw [hgraph] at hmax
      exact hmax
    case kplex =>
      intro k q enablePivoting std hk hk'
      refine ⟨g.N, fun fuel hfuel => ?_⟩
      obtain ⟨st, e, hrun, -, -, hmem⟩ := Diam2Kplex.runInternal_reported enablePivoting std
        (g := g.renumbered) (q := q) hk hk' hfuel
      refine ⟨st, e, hrun, fun item hitem => ?_⟩
      obtain ⟨v, hrep⟩ := (hmem _).mp (List.mem_map_of_mem hitem)
      refine ⟨hrep.subset, ?_⟩
      have himage := isKplex_image_iff (G := g.renumbered.toSimpleGraph) (H := g.toSimpleGraph)
        (k := k) (S := item.toFinset) (f := id) (Set.injOn_id _) fun u _ v _ => by
          rw [hgraph]
          rfl
      rw [Finset.image_id] at himage
      exact himage.mpr hrep.isKplex

/-- An edge and an isolated vertex: the edge is reported between the last two vertices. -/
theorem not_itemsInGraph : ¬ ItemsInGraph (Graph.ofRel 3 fun i j => i == 0 && j == 1) := by
  intro h
  have hadj : (Graph.ofRel 3 fun i j => i == 0 && j == 1).renumbered.toSimpleGraph.Adj 1 2 := by
    decide
  exact absurd (h.adj hadj) (by decide)

end ParallelEnum
