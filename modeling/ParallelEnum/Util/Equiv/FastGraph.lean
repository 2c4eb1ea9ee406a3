import ParallelEnum.Util.Equiv.BinarySearch
import ParallelEnum.Util.Equiv.Cuckoo.Capacity
import ParallelEnum.Util.Equiv.Permute
import ParallelEnum.Util.FastGraph

/-!
# What `fast_graph_t` stores

A `fast_graph_t` has the neighbours of a vertex three times over: in a sorted array, in a hash set,
and as the offset at which the greater ones begin (`Represents`).  The constructor succeeds unless
some neighbours crowd the buckets of the largest table (`make_spec`, `make_iff`).
-/

namespace ParallelEnum

open Cuckoo Outcome

variable {T : KeyType}

/-! ### The hash set of some vertices -/

/-- The keys for some vertices. -/
def vertexKeys (T : KeyType) (xs : List ℕ) : Finset (Key T) := (xs.map (vertexKey T)).toFinset

theorem vertexKey_inj {x y : ℕ} (hx : x < 2 ^ T.width) (hy : y < 2 ^ T.width)
    (h : vertexKey T x = vertexKey T y) : x = y := by
  have := congrArg BitVec.toNat h
  unfold vertexKey at this
  rwa [BitVec.toNat_ofNat, BitVec.toNat_ofNat, Nat.mod_eq_of_lt hx, Nat.mod_eq_of_lt hy] at this

theorem missing_eq : (missing : Key T) = vertexKey T (2 ^ T.width - 1) := by
  cases T <;> rfl

theorem vertexKey_ne_missing {N x : ℕ} (hN : N < 2 ^ T.width) (hx : x < N) :
    vertexKey T x ≠ missing := by
  rw [missing_eq]
  intro h
  have := vertexKey_inj (by omega) (by omega) h
  omega

theorem mem_vertexKeys {xs : List ℕ} {N x : ℕ} (hN : N ≤ 2 ^ T.width) (hxs : ∀ y ∈ xs, y < N)
    (hx : x < N) : vertexKey T x ∈ vertexKeys T xs ↔ x ∈ xs := by
  unfold vertexKeys
  rw [List.mem_toFinset, List.mem_map]
  constructor
  · rintro ⟨y, hy, heq⟩
    rwa [← vertexKey_inj ((hxs y hy).trans_le hN) (hx.trans_le hN) heq]
  · exact fun h => ⟨x, h, rfl⟩

theorem card_vertexKeys {xs : List ℕ} (hnodup : xs.Nodup) (hxs : ∀ y ∈ xs, y < 2 ^ T.width) :
    (vertexKeys T xs).card = xs.length := by
  unfold vertexKeys
  rw [List.toFinset_card_of_nodup, List.length_map]
  exact hnodup.map_on fun x hx y hy => vertexKey_inj (hxs x hx) (hxs y hy)

/-- The hash set of some vertices, of a size that fits in an `int`. -/
theorem hashSetOf_spec {xs : List ℕ} {N : ℕ} (hN : N < 2 ^ T.width) (hxs : ∀ x ∈ xs, x < N) :
    Ensures
      (fun s => (vertexKeys T xs).card ≤ 2 ^ 31 ∧
        ∃ j ≤ topLevel T, CuckooHashSet.Holds s j (vertexKeys T xs))
      (fun _ => Crowded (vertexKeys T xs) (topLevel T)) (hashSetOf T xs) := by
  have hkeys : ∀ k ∈ xs.map (vertexKey T), k ≠ missing := by
    intro k hk
    obtain ⟨x, hx, rfl⟩ := List.mem_map.mp hk
    exact vertexKey_ne_missing hN (hxs x hx)
  unfold hashSetOf
  -- the keys are inserted one after the other into an empty set
  refine ((CuckooHashSet.insertAllIf_spec hkeys).mono ?_
    fun e he => he.crowded (Nat.zero_le _) (Nat.lt_succ_self _)).mapError fun e he => he
  rintro s ⟨j, hgrown, hholds, hsize⟩
  have hj : j ≤ topLevel T := hgrown.le_topLevel (Nat.zero_le _)
  refine ⟨?_, j, hj, hholds⟩
  -- every index is an `int`, so there are at most `2 ^ 31` slots
  have hfits := of_decide_eq_true (fitsInt_iff.mpr hj)
  have hmask : s.mask = 2 ^ j - 1 := hholds.at_level.mask_eq
  calc (vertexKeys T xs).card = (keys s.ht).card := by rw [hholds.keys_eq]; rfl
    _ ≤ s.ht.size := Multiset.card_le_card (Multiset.filter_le _ _)
    _ = (2 ^ j - 1 + 1) * T.bucketSize := by rw [hsize, CuckooHashSet.capacity, hmask]
    _ ≤ 2 ^ 31 := hfits

/-! ### The constructors -/

theorem arrayOf_spec (xs : List ℕ) :
    Ensures (fun s => s.toList = xs) (fun _ => 2 ^ 32 ≤ xs.length) (arrayOf xs) := by
  unfold arrayOf
  rw [BinarySearch.init_eq]
  split_ifs with hlt
  · rfl
  · show 2 ^ 32 ≤ xs.length
    simpa using hlt

/-- `graph_t` stores the lists, unless the length of one of them is not an `unsigned`. -/
theorem PlainGraph.make_spec (N : ℕ) (edg : Vec (List ℕ)) :
    Ensures
      (fun g => g.N = N ∧ g.edges.size = N ∧ ∀ i < N, (g.neighs i).toList = edg.get i)
      (fun _ => ∃ i < N, 2 ^ 32 ≤ (edg.get i).length) (PlainGraph.make N edg) := by
  unfold PlainGraph.make
  refine (ensures_foldlM_range (fun m (edges : Vec (BinarySearch ℕ)) => edges.size = N ∧
    ∀ i < m, (edges.get i).toList = edg.get i)
    ⟨Vec.size_zeros N, fun i hi => absurd hi (Nat.not_lt_zero i)⟩ ?_).map fun edges h => ⟨rfl, h⟩
  rintro m hm edges ⟨hsize, hedges⟩
  refine ((arrayOf_spec (edg.get m)).mono (fun s hs => hs) fun e he => ⟨m, hm, he⟩).map ?_
  intro s hs
  refine ⟨(Vec.size_set _ _ _).trans hsize, fun i hi => ?_⟩
  by_cases him : i = m
  · rw [him, Vec.get_set_self (by omega), hs]
  · rw [Vec.get_set_of_ne _ (Ne.symm him)]
    exact hedges i (by omega)

namespace FastGraph

/-- `fast_graph_t` stores a graph. -/
structure Represents (G : FastGraph T) (g : Graph) : Prop where
  N_eq : G.N = g.N
  neighs_eq : ∀ i, (G.neighs i).toList = g.neighs i
  holds : ∀ i < g.N, ∃ j ≤ topLevel T, CuckooHashSet.Holds (G.hashSets.get i) j
    (vertexKeys T (g.neighs i))
  fwdIter_eq : ∀ i < g.N, G.fwdIter.get i = ((g.neighs i).takeWhile (· ≤ i)).length

/-- The lists of neighbours for which the hash sets can be built. -/
def Uncrowded (T : KeyType) (g : Graph) : Prop :=
  ∀ i < g.N, ¬ Crowded (vertexKeys T (g.neighs i)) (topLevel T)

theorem length_lt_of_uncrowded {g : Graph} (hN : g.N < 2 ^ T.width) {i : ℕ}
    (h : ¬ Crowded (vertexKeys T (g.neighs i)) (topLevel T)) : (g.neighs i).length < 2 ^ 32 := by
  have hlt : ∀ x ∈ g.neighs i, x < g.N := g.lt_N i
  obtain ⟨s, -, hcard, -⟩ := (hashSetOf_spec hN hlt).exists_ok fun e he => h he
  rw [card_vertexKeys (g.neighs_nodup i) fun x hx => (hlt x hx).trans hN] at hcard
  omega

/-- The constructor builds a graph from its lists, unless some hash set cannot be built. -/
theorem make_spec {g : Graph} (hN : g.N < 2 ^ T.width) :
    Ensures (fun G => Represents G g)
      (fun _ => ∃ i < g.N, Crowded (vertexKeys T (g.neighs i)) (topLevel T))
      (make T g.N g.edges) := by
  unfold make
  refine ((PlainGraph.make_spec g.N g.edges).mono (fun _ h => h) ?_).bind ?_
  · -- a list that is too long for `init` crowds the hash set as well
    rintro e ⟨i, hi, hlong⟩
    refine ⟨i, hi, ?_⟩
    by_contra huncrowded
    exact absurd (length_lt_of_uncrowded hN huncrowded) (not_lt.mpr hlong)
  · rintro base ⟨hbaseN, hsize, hneighs⟩
    have hall : ∀ i, (base.neighs i).toList = g.neighs i := by
      intro i
      by_cases hi : i < g.N
      · exact hneighs i hi
      · unfold PlainGraph.neighs Graph.neighs
        rw [Vec.get_of_size_le (by omega), Vec.get_of_size_le (by rw [g.size_edges]; omega)]
        rfl
    refine (ensures_foldlM_range (fun m (G : FastGraph T) => G.toPlainGraph = base ∧
      G.hashSets.size = g.N ∧ G.fwdIter.size = g.N ∧
        ∀ i < m, (∃ j ≤ topLevel T, CuckooHashSet.Holds (G.hashSets.get i) j
          (vertexKeys T (g.neighs i))) ∧
          G.fwdIter.get i = ((g.neighs i).takeWhile (· ≤ i)).length)
      ⟨rfl, Vec.size_zeros _, Vec.size_zeros _, fun i hi => absurd hi (Nat.not_lt_zero i)⟩
      ?_).mono ?_ fun e he => he
    · rintro m hm G ⟨hbase, hsets, hiter, hdone⟩
      refine ((hashSetOf_spec hN (g.lt_N m)).mono (fun s hs => hs) fun e he => ⟨m, hm, he⟩).map ?_
      rintro s ⟨-, hholds⟩
      refine ⟨hbase, (Vec.size_set _ _ _).trans hsets, (Vec.size_set _ _ _).trans hiter, ?_⟩
      intro i hi
      dsimp only
      -- the entries of earlier vertices are not written again
      by_cases him : i = m
      · subst him
        rw [Vec.get_set_self (by omega), Vec.get_set_self (by omega)]
        refine ⟨hholds, ?_⟩
        unfold BinarySearch.upperBound
        rw [hall i]
      · rw [Vec.get_set_of_ne _ (Ne.symm him), Vec.get_set_of_ne _ (Ne.symm him)]
        exact hdone i (by omega)
    · rintro G ⟨hbase, -, -, hdone⟩
      refine ⟨?_, ?_, fun i hi => (hdone i hi).1, fun i hi => (hdone i hi).2⟩
      · rw [hbase, hbaseN]
      · intro i
        rw [hbase]
        exact hall i

/-! ### What a graph answers -/

section Represents

variable {G : FastGraph T} {g : Graph} (h : Represents G g)
include h

theorem Represents.uncrowded : Uncrowded T g := by
  intro i hi
  obtain ⟨j, hj, hholds⟩ := h.holds i hi
  have hmask : (G.hashSets.get i).mask = 2 ^ j - 1 := hholds.at_level.mask_eq
  have hfits : Fits (G.hashSets.get i).mask (G.hashSets.get i).ht := hholds.at_level.fits
  rw [hmask] at hfits
  intro hcrowded
  exact not_crowded_of_fits hfits hholds.at_level.le_width hholds.keys_eq (hcrowded.anti hj)

theorem Represents.areNeighs_eq (hN : g.N < 2 ^ T.width) {a b : ℕ} (ha : a < g.N) (hb : b < g.N) :
    G.areNeighs a b = g.areNeighs a b := by
  obtain ⟨j, -, hholds⟩ := h.holds a ha
  have hlt : ∀ x ∈ g.neighs a, x < g.N := g.lt_N a
  rw [Bool.eq_iff_iff, Graph.areNeighs_eq_true, Graph.adj_iff_mem]
  unfold areNeighs
  rw [hholds.count_iff (vertexKey_ne_missing hN hb), mem_vertexKeys hN.le hlt hb]

theorem Represents.fwdNeighs_eq {i : ℕ} (hi : i < g.N) : G.fwdNeighs i = g.fwdNeighs i := by
  unfold fwdNeighs Graph.fwdNeighs
  rw [h.neighs_eq, h.fwdIter_eq i hi]
  set front := (g.neighs i).takeWhile (· ≤ i) with hfront
  calc (g.neighs i).drop front.length
      = (front ++ (g.neighs i).dropWhile (· ≤ i)).drop front.length := by
        rw [hfront, List.takeWhile_append_dropWhile]
    _ = (g.neighs i).dropWhile (· ≤ i) := List.drop_left

end Represents

/-- **The constructor succeeds exactly for the uncrowded graphs.** -/
theorem exists_make_iff {g : Graph} (hN : g.N < 2 ^ T.width) :
    (∃ G : FastGraph T, make T g.N g.edges = .ok G ∧ Represents G g) ↔ Uncrowded T g := by
  constructor
  · rintro ⟨G, -, hG⟩
    exact hG.uncrowded
  · intro huncrowded
    exact (make_spec hN).exists_ok fun e ⟨i, hi, hcrowded⟩ => huncrowded i hi hcrowded

/-- Up to `2 ^ 31` vertices no neighbours are too many. -/
theorem uncrowded_of_le {g : Graph} (hN : g.N ≤ 2 ^ 31) : Uncrowded T g := by
  intro i hi hcrowded
  have hwidth := topLevel_lt T
  have hlt := hcrowded.mul_two_pow_lt (by omega) (N := g.N) ?_
  · have hsplit : 2 ^ 31 = T.bucketSize * 2 ^ topLevel T := by cases T <;> rfl
    omega
  · intro k hk
    unfold vertexKeys at hk
    rw [List.mem_toFinset, List.mem_map] at hk
    obtain ⟨x, hx, rfl⟩ := hk
    exact (Nat.mod_le _ _).trans_lt (g.lt_N i x hx)

/-! ### Two ways to look an edge up -/

/-- `graph_t::are_neighs` reads inside the array, and answers what `fast_graph_t::are_neighs`
does. -/
def Agree (G : FastGraph T) (a b : ℕ) : Prop :=
  G.toPlainGraph.areNeighs a b = some (G.areNeighs a b)

theorem Represents.agree_iff {G : FastGraph T} {g : Graph} (h : Represents G g)
    (hN : g.N < 2 ^ T.width) {a b : ℕ} (ha : a < g.N) (hb : b < g.N) :
    Agree G a b ↔ BinarySearch.Findable (g.neighs a).toArray b := by
  have hsupport : (G.neighs a).support = (g.neighs a).toArray := by
    rw [← h.neighs_eq a]
    rfl
  have hascending : BinarySearch.Ascending (G.neighs a).support := by
    rw [hsupport]
    exact BinarySearch.ascending_of_pairwise (g.neighs_pairwise a)
  have hexact := BinarySearch.countExact_iff hascending b
  unfold BinarySearch.CountExact at hexact
  rw [hsupport] at hexact
  rw [← hexact]
  unfold Agree PlainGraph.areNeighs
  rw [h.areNeighs_eq hN ha hb]
  unfold Graph.areNeighs
  simp only [List.mem_toArray]
  rfl

/-- **`count` is right about exactly the values that the halving of the window gets to, and so is
`graph_t::are_neighs`.** -/
theorem lookups_exact_iff (T : KeyType) (α : Type) [Inhabited α] [LinearOrder α] :
    (∀ (v : Vec α) (s : BinarySearch α), v.toList.Pairwise (· < ·) →
      BinarySearch.init v = some s → ∀ x, s.CountExact x ↔ BinarySearch.Findable v x) ∧
    ∀ (g : Graph) (G : FastGraph T), g.N < 2 ^ T.width → make T g.N g.edges = .ok G →
      ∀ a < g.N, ∀ b < g.N, Agree G a b ↔ BinarySearch.Findable (g.neighs a).toArray b := by
  constructor
  · intro v s hv hinit x
    rw [BinarySearch.init_eq] at hinit
    split_ifs at hinit with hsize
    obtain rfl := Option.some.inj hinit
    exact BinarySearch.countExact_iff (BinarySearch.ascending_of_pairwise hv) x
  · intro g G hN hmake a ha b hb
    exact ((make_spec hN).of_ok hmake).agree_iff hN ha hb

/-- The middle one of three values is found, and so is the end of a path from its middle. -/
theorem lookups_exact_iff_three : BinarySearch.CountExact (⟨#[2, 5, 7]⟩ : BinarySearch ℕ) 5 ∧
    ∃ G : FastGraph .uint32,
      make .uint32 3 (Graph.ofRel 3 fun a b => a + 1 == b).edges = .ok G ∧ Agree G 1 2 := by
  obtain ⟨hcount, hagree⟩ := lookups_exact_iff .uint32 ℕ
  have hinit : BinarySearch.init (#[2, 5, 7] : Vec ℕ) = some ⟨#[2, 5, 7]⟩ := by
    rw [BinarySearch.init_eq]
    rfl
  set g := Graph.ofRel 3 fun a b => a + 1 == b with hg
  have hneighs : g.neighs 1 = [0, 2] := by
    rw [hg, Graph.neighs_ofRel]
    decide
  have hN : g.N < 2 ^ KeyType.width .uint32 := by decide
  obtain ⟨G, hmake, -⟩ := (exists_make_iff hN).mpr (uncrowded_of_le (by decide))
  refine ⟨(hcount _ _ (by decide) hinit 5).mpr ⟨by decide, ?_⟩, G, hmake,
    (hagree g G hN hmake 1 (by decide) 2 (by decide)).mpr ?_⟩
  · exact Or.inr (Or.inr ⟨2, by decide, by decide⟩)
  · rw [hneighs]
    exact ⟨by decide, Or.inr (Or.inr ⟨1, by decide, by decide⟩)⟩

/-- The first of two values is not found, although the array is ascending. -/
theorem not_lookups_exact : ∃ s : BinarySearch ℕ, BinarySearch.init #[0, 1] = some s ∧
    0 ∈ s.support ∧ s.count 0 = some false := by
  refine ⟨⟨#[0, 1]⟩, ?_, by simp, ?_⟩
  · rw [BinarySearch.init_eq]
    rfl
  · simp [BinarySearch.count, BinarySearch.narrow, Vec.read]

end FastGraph

end ParallelEnum
