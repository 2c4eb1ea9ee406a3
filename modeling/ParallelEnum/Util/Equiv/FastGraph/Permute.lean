import ParallelEnum.Util.Equiv.FastGraph

/-!
# `Permute` and `Clone` of a `fast_graph_t`

`Permute` hands the constructor the lists of a graph, `Graph.permute`, so the new `fast_graph_t`
stores that graph whenever its hash sets can be built.  They can for any two orders of at most
`2 ^ 31` vertices; beyond that a new order may bring too many neighbours together in one pair of
buckets (`permutesWell_iff`, `not_permutesWell`).
-/

namespace ParallelEnum.FastGraph

open Cuckoo Outcome

variable {T : KeyType}

/-! ### The graph that the constructor is given -/

theorem Represents.newEdges_eq {G : FastGraph T} {g : Graph} (h : Represents G g)
    {newOrder : List ℕ} (horder : newOrder.Perm (List.range g.N)) :
    G.newEdges T newOrder = g.newEdges newOrder := by
  have hpos : G.newPos T newOrder = g.newPos newOrder := by
    unfold PlainGraph.newPos
    rw [h.N_eq]
    exact Graph.newPos_eq horder Array.size_replicate
  unfold PlainGraph.newEdges Graph.newEdges
  rw [hpos, h.N_eq]
  simp only [h.neighs_eq]
  rfl

/-- `Permute` builds the permuted graph. -/
theorem Represents.permute_eq {G : FastGraph T} {g : Graph} (h : Represents G g)
    {newOrder : List ℕ} (horder : newOrder.Perm (List.range g.N)) :
    G.permute newOrder
      = make T (g.permute newOrder horder).N (g.permute newOrder horder).edges := by
  unfold permute
  rw [h.newEdges_eq horder, h.N_eq]
  rfl

/-! ### What `Permute` returns -/

/-- The three representations of a simple undirected graph agree. -/
structure Consistent (P : FastGraph T) : Prop where
  neighs_pairwise : ∀ i < P.N, (P.neighs i).toList.Pairwise (· < ·)
  mem_neighs : ∀ i < P.N, ∀ j, j ∈ (P.neighs i).toList ↔ j < P.N ∧ P.areNeighs i j = true
  fwdNeighs_eq : ∀ i < P.N, P.fwdNeighs i = (P.neighs i).toList.filter (i < ·)
  symm : ∀ i < P.N, ∀ j < P.N, P.areNeighs i j = P.areNeighs j i
  irrefl : ∀ i < P.N, P.areNeighs i i = false

theorem Represents.consistent {G : FastGraph T} {g : Graph} (h : Represents G g)
    (hN : g.N < 2 ^ T.width) : Consistent G where
  neighs_pairwise i _ := by
    rw [h.neighs_eq]
    exact g.neighs_pairwise i
  mem_neighs i hi j := by
    rw [h.N_eq] at hi ⊢
    rw [h.neighs_eq, ← Graph.adj_iff_mem]
    constructor
    · intro hij
      have hj := (g.lt_of_adj hij).2
      exact ⟨hj, by rwa [h.areNeighs_eq hN hi hj, Graph.areNeighs_eq_true]⟩
    · rintro ⟨hj, hij⟩
      rwa [h.areNeighs_eq hN hi hj, Graph.areNeighs_eq_true] at hij
  fwdNeighs_eq i hi := by
    rw [h.N_eq] at hi
    rw [h.fwdNeighs_eq hi, h.neighs_eq, Graph.fwdNeighs_eq_filter]
  symm i hi j hj := by
    rw [h.N_eq] at hi hj
    rw [h.areNeighs_eq hN hi hj, h.areNeighs_eq hN hj hi, Graph.areNeighs_comm]
  irrefl i hi := by
    rw [h.N_eq] at hi
    rw [h.areNeighs_eq hN hi hi, Graph.areNeighs_self]

/-- `P` is `G` with vertex `newOrder[i]` at position `i`.  The way back leads to `G` itself, and
`Clone` to the graph that it is called for. -/
structure IsPermuted (G : FastGraph T) (newOrder : List ℕ) (P : FastGraph T) : Prop where
  N_eq : P.N = G.N
  areNeighs_eq : ∀ i < G.N, ∀ j < G.N,
    P.areNeighs i j = G.areNeighs (newOrder.getD i 0) (newOrder.getD j 0)
  consistent : Consistent P
  permute_back : P.permute (Graph.inverseOrder newOrder) = .ok G
  clone_eq : P.clone = .ok P

/-- `Permute` and `Clone` return, and return what they should. -/
def PermutesWell (G : FastGraph T) (newOrder : List ℕ) : Prop :=
  (∃ P, G.permute newOrder = .ok P ∧ IsPermuted G newOrder P) ∧ G.clone = .ok G

/-- The new neighbours of no vertex crowd the buckets of the largest table. -/
def NewUncrowded (G : FastGraph T) (newOrder : List ℕ) : Prop :=
  ∀ i < G.N, ¬ Crowded (vertexKeys T ((List.range G.N).filter fun j =>
    G.areNeighs (newOrder.getD i 0) (newOrder.getD j 0))) (topLevel T)

section Permute

variable {G : FastGraph T} {g : Graph} {newOrder : List ℕ} (hN : g.N < 2 ^ T.width)
  (hmake : make T g.N g.edges = .ok G) (horder : newOrder.Perm (List.range g.N))
include hN hmake

theorem clone_of_make : G.clone = .ok G := by
  have h := (make_spec hN).of_ok hmake
  unfold clone
  rw [h.N_eq, h.permute_eq (List.Perm.refl _), Graph.permute_range, hmake]

include horder

theorem newUncrowded_iff :
    NewUncrowded G newOrder ↔ Uncrowded T (g.permute newOrder horder) := by
  have h := (make_spec hN).of_ok hmake
  have hneighs : ∀ i < g.N, vertexKeys T ((List.range g.N).filter fun j =>
      G.areNeighs (newOrder.getD i 0) (newOrder.getD j 0))
        = vertexKeys T ((g.permute newOrder horder).neighs i) := by
    intro i hi
    ext k
    unfold vertexKeys
    rw [List.mem_toFinset, List.mem_toFinset, List.mem_map, List.mem_map]
    apply exists_congr
    intro j
    apply and_congr_left'
    rw [List.mem_filter, List.mem_range, ← Graph.adj_iff_mem, Graph.permute_adj,
      and_iff_right hi]
    apply and_congr_right
    intro hj
    rw [h.areNeighs_eq hN (Graph.order_lt horder hi) (Graph.order_lt horder hj),
      Graph.areNeighs_eq_true]
  unfold NewUncrowded Uncrowded
  rw [h.N_eq]
  apply forall_congr'
  intro i
  apply forall_congr'
  intro hi
  rw [hneighs i hi]

theorem isPermuted_of_ok {P : FastGraph T} (hP : G.permute newOrder = .ok P) :
    IsPermuted G newOrder P := by
  have h := (make_spec hN).of_ok hmake
  rw [h.permute_eq horder] at hP
  have hP' := (make_spec (g := g.permute newOrder horder) hN).of_ok hP
  have hPN : (g.permute newOrder horder).N = g.N := rfl
  refine ⟨?_, ?_, hP'.consistent hN, ?_, clone_of_make (g := g.permute newOrder horder) hN hP⟩
  · rw [hP'.N_eq, h.N_eq, hPN]
  · intro i hi j hj
    rw [h.N_eq] at hi hj
    rw [hP'.areNeighs_eq hN hi hj, h.areNeighs_eq hN (Graph.order_lt horder hi)
      (Graph.order_lt horder hj), Bool.eq_iff_iff, Graph.areNeighs_eq_true,
      Graph.areNeighs_eq_true, Graph.permute_adj]
    exact ⟨fun hij => hij.2.2, fun hij => ⟨hi, hj, hij⟩⟩
  · rw [hP'.permute_eq (Graph.inverseOrder_perm horder), Graph.permute_inverseOrder horder, hmake]

/-- A permuted graph has its hash sets. -/
theorem newUncrowded_of_ok {P : FastGraph T} (hP : G.permute newOrder = .ok P) :
    NewUncrowded G newOrder := by
  rw [((make_spec hN).of_ok hmake).permute_eq horder] at hP
  rw [newUncrowded_iff hN hmake horder]
  exact ((make_spec (g := g.permute newOrder horder) hN).of_ok hP).uncrowded

/-- **`Permute` renumbers a graph in all of its representations, and `Clone` copies it, exactly when
the new hash sets can be built.** -/
theorem permutesWell_iff : PermutesWell G newOrder ↔ NewUncrowded G newOrder := by
  constructor
  · rintro ⟨⟨P, hP, -⟩, -⟩
    exact newUncrowded_of_ok hN hmake horder hP
  · intro huncrowded
    rw [newUncrowded_iff hN hmake horder] at huncrowded
    have h := (make_spec hN).of_ok hmake
    obtain ⟨P, hP, -⟩ := (exists_make_iff (g := g.permute newOrder horder) hN).mpr huncrowded
    rw [← h.permute_eq horder] at hP
    exact ⟨⟨P, hP, isPermuted_of_ok hN hmake horder hP⟩, clone_of_make hN hmake⟩

end Permute

/-- Turning the middle of a path into its first vertex. -/
theorem permutesWell_iff_path : ∃ G : FastGraph .uint32,
    make .uint32 3 (Graph.ofRel 3 fun a b => a + 1 == b).edges = .ok G ∧
      PermutesWell G [1, 0, 2] := by
  set g := Graph.ofRel 3 fun a b => a + 1 == b with hg
  have hN : g.N < 2 ^ KeyType.width .uint32 := by decide
  have horder : [1, 0, 2].Perm (List.range g.N) := by decide
  have hle : g.N ≤ 2 ^ 31 := by decide
  obtain ⟨G, hmake, -⟩ := (exists_make_iff hN).mpr (uncrowded_of_le hle)
  exact ⟨G, hmake, (permutesWell_iff hN hmake horder).mpr
    ((newUncrowded_iff hN hmake horder).mpr (uncrowded_of_le hle))⟩

/-- Up to `2 ^ 31` vertices there is nothing to ask of the order. -/
theorem permutesWell_of_le {G : FastGraph T} {g : Graph} (hN : g.N ≤ 2 ^ 31)
    (hmake : make T g.N g.edges = .ok G) {newOrder : List ℕ}
    (horder : newOrder.Perm (List.range g.N)) :
    ∃ P, G.permute newOrder = .ok P ∧ IsPermuted G newOrder P := by
  have hwidth := (topLevel_lt T).2
  have hlt : g.N < 2 ^ T.width :=
    hN.trans_lt (Nat.pow_lt_pow_right (by omega) (by omega))
  have h := (make_spec hlt).of_ok hmake
  obtain ⟨P, hP, -⟩ := (exists_make_iff (T := T) (g := g.permute newOrder horder) hlt).mpr
    (uncrowded_of_le hN)
  rw [← h.permute_eq horder] at hP
  exact ⟨P, hP, isPermuted_of_ok hlt hmake horder hP⟩

/-! ### An order that crowds a pair of buckets -/

/-- A star with nine leaves: five with numbers that leave the remainder 0, four that leave 1. -/
def star : Graph := Graph.ofRel (2 ^ 31 + 1) fun a b => a == 6 && decide (b % 2 ^ 29 ≤ 1)

/-- The leaves of `star`. -/
def leaves : List ℕ :=
  [0, 1, 2 ^ 29, 2 ^ 29 + 1, 2 ^ 30, 2 ^ 30 + 1, 3 * 2 ^ 29, 3 * 2 ^ 29 + 1, 2 ^ 31]

theorem star_adj {a b : ℕ} : star.toSimpleGraph.Adj a b ↔
    a = 6 ∧ b ∈ leaves ∨ b = 6 ∧ a ∈ leaves := by
  show b ∈ Graph.neighs _ _ ↔ _
  unfold star leaves
  rw [Graph.neighs_ofRel, Graph.mem_relNeighs]
  simp only [Bool.and_eq_true, beq_iff_eq, decide_eq_true_eq, List.mem_cons, List.not_mem_nil,
    or_false]
  omega

/-- The numbers of the leaves after a rotation, that leave the remainders `2 ^ 29 - 1` and 0. -/
def rotated : List ℕ :=
  [2 ^ 31, 0, 2 ^ 29 - 1, 2 ^ 29, 2 ^ 30 - 1, 2 ^ 30, 3 * 2 ^ 29 - 1, 3 * 2 ^ 29, 2 ^ 31 - 1]

theorem crowded_rotated : Crowded (vertexKeys .uint32 rotated) 29 := ⟨0, by decide⟩

theorem vertexKeys_mono {xs ys : List ℕ} (h : xs ⊆ ys) : vertexKeys T xs ⊆ vertexKeys T ys := by
  intro k hk
  unfold vertexKeys at hk ⊢
  rw [List.mem_toFinset] at hk ⊢
  exact List.map_subset _ h hk

/-- Nine leaves do not fit in eight slots only if all of them share a pair of buckets. -/
theorem uncrowded_star : Uncrowded .uint32 star := by
  intro i hi hcrowded
  obtain ⟨h, hroom⟩ := hcrowded
  have hlt : 8 < ((vertexKeys .uint32 (star.neighs i)).filter
    fun k => Sits (2 ^ topLevel .uint32 - 1) k h).card := hroom
  set S := vertexKeys .uint32 (star.neighs i) with hS
  by_cases hi6 : i = 6
  · have hsub : S ⊆ vertexKeys .uint32 leaves := by
      apply vertexKeys_mono
      intro x hx
      have hadj := star_adj.mp hx
      unfold leaves at hadj ⊢
      simp only [List.mem_cons, List.not_mem_nil, or_false] at hadj ⊢
      omega
    have hcard : (vertexKeys .uint32 leaves).card ≤ 9 := List.toFinset_card_le _
    -- no bucket is one of 0 and one of 1 at the same time
    have herase : ∃ k ∈ vertexKeys .uint32 leaves, ¬ Sits (2 ^ topLevel .uint32 - 1) k h := by
      by_cases hzero : Sits (2 ^ topLevel .uint32 - 1) (vertexKey .uint32 0) h
      · refine ⟨vertexKey .uint32 1, by decide, fun hone => ?_⟩
        have h0 : h = 0 ∨ h = 2 ^ 29 - 1 := hzero
        have h1 : h = 1 ∨ h = 2 ^ 29 - 2 := hone
        omega
      · exact ⟨vertexKey .uint32 0, by decide, hzero⟩
    obtain ⟨k, hk, hout⟩ := herase
    have hle := Finset.card_le_card (show S.filter
        (fun k => Sits (2 ^ topLevel .uint32 - 1) k h) ⊆ (vertexKeys .uint32 leaves).erase k by
      intro x hx
      obtain ⟨hxS, hxh⟩ := Finset.mem_filter.mp hx
      exact Finset.mem_erase.mpr ⟨fun heq => hout (heq ▸ hxh), hsub hxS⟩)
    rw [Finset.card_erase_of_mem hk] at hle
    omega
  · have hsub : S ⊆ vertexKeys .uint32 [6] := by
      apply vertexKeys_mono
      intro x hx
      rcases star_adj.mp hx with hadj | hadj
      · exact absurd hadj.1 hi6
      · exact List.mem_singleton.mpr hadj.1
    have hcard : (vertexKeys .uint32 [6]).card ≤ 1 := List.toFinset_card_le _
    have hle := Finset.card_le_card
      ((Finset.filter_subset (fun k => Sits (2 ^ topLevel .uint32 - 1) k h) S).trans hsub)
    omega

/-- The rotation puts the nine leaves in one pair of buckets: `Permute` does not return. -/
theorem not_permutesWell : ∃ G : FastGraph .uint32,
    make .uint32 star.N star.edges = .ok G ∧
      ((List.range star.N).rotate 1).Perm (List.range star.N) ∧
        ¬ PermutesWell G ((List.range star.N).rotate 1) := by
  have hN : star.N = 2 ^ 31 + 1 := rfl
  have hlt : star.N < 2 ^ KeyType.width .uint32 := by decide
  obtain ⟨G, hmake, hG⟩ := (exists_make_iff hlt).mpr uncrowded_star
  have horder : ((List.range star.N).rotate 1).Perm (List.range star.N) := List.rotate_perm _ _
  have hget : ∀ i < star.N, ((List.range star.N).rotate 1).getD i 0 = (i + 1) % star.N := by
    intro i hi
    rw [List.getD_eq_getElem _ _ (by rwa [List.length_rotate, List.length_range]),
      List.getElem_rotate, List.getElem_range, List.length_range]
  refine ⟨G, hmake, horder, ?_⟩
  rintro ⟨⟨P, hP, -⟩, -⟩
  have hnew := newUncrowded_of_ok hlt hmake horder hP
  have hfive : 5 < star.N := by omega
  have hsix : (5 + 1) % star.N = 6 := Nat.mod_eq_of_lt (by omega)
  refine hnew 5 (hG.N_eq ▸ hfive) (crowded_rotated.mono (vertexKeys_mono fun x hx => ?_))
  have hleaf : x < star.N ∧ (x + 1) % star.N ∈ leaves := by
    unfold rotated leaves at *
    rw [hN]
    simp only [List.mem_cons, List.not_mem_nil, or_false] at hx ⊢
    omega
  have hmod : (x + 1) % star.N < star.N := Nat.mod_lt _ (by omega)
  rw [List.mem_filter, List.mem_range, hG.N_eq, hget 5 hfive, hsix, hget x hleaf.1,
    hG.areNeighs_eq hlt (by omega) hmod, Graph.areNeighs_eq_true, star_adj]
  exact ⟨hleaf.1, Or.inl ⟨rfl, hleaf.2⟩⟩

end ParallelEnum.FastGraph
