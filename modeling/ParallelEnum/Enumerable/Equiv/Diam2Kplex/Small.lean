import ParallelEnum.Enumerable.Equiv.Diam2Kplex
import Mathlib.Data.Finset.Powerset

/-!
# Items of fewer than `2k - 1` vertices

Below `2k - 1` vertices a `k`-plex of diameter two may be extended to one of larger diameter, so
that a vertex that can be added does not show that the set is not maximal.  `SmallExact` is the
property that the small items are the maximal `k`-plexes of diameter two, `SmallCondition` what a
graph needs for it.

* `HasLarger.hasExtension`: a set that is not maximal is never reported.
* `smallExact_iff`: the two properties are equivalent.
* `not_smallExact_path`: the path on four vertices does not have it for `k = 3`.
-/

namespace ParallelEnum.Diam2Kplex

open Kplex Traversal

variable (g : Graph) (k q : ℕ)

/-- A set of `q` to `2k - 2` vertices that induces a `k`-plex of diameter at most two. -/
structure IsSmall (S : Finset ℕ) : Prop where
  subset : S ⊆ g.vertices
  card : q ≤ S.card
  card_lt : S.card < 2 * k - 1
  isKplex : IsKplex g.toSimpleGraph k S
  diamTwo : DiamTwo g.toSimpleGraph S

/-- A proper superset induces a `k`-plex of diameter at most two. -/
def HasLarger (S : Finset ℕ) : Prop :=
  ∃ T ⊆ g.vertices, S ⊂ T ∧ IsKplex g.toSimpleGraph k T ∧ DiamTwo g.toSimpleGraph T

/-- The small items are exactly the small sets that have no larger one above them. -/
def SmallExact (enablePivoting : Bool) (std : StdSort) : Prop :=
  ∃ bound, ∀ fuel > bound, ∃ st e,
    Sequential.runInternal fuel (diam2KplexEnumeration g k q enablePivoting std) {} {}
      = some (st, e) ∧
    let small := e.items.filter fun item => decide (item.length < 2 * k - 1)
    (∀ item ∈ small, item.Nodup) ∧ (small.map List.toFinset).Nodup ∧
      ∀ S, S ∈ small.map List.toFinset ↔ IsSmall g k q S ∧ ¬ HasLarger g k S

/-- A vertex before `v`, or one that `GetRoot` puts in the block of `v` if it filters nothing. -/
def InReach (v u : ℕ) : Prop :=
  u < v ∨ v < u ∧ (g.toSimpleGraph.Adj v u ∨
    ∃ m, v < m ∧ g.toSimpleGraph.Adj v m ∧ g.toSimpleGraph.Adj m u)

/-- A vertex in reach of `v` that is adjacent to a member of `S` extends `S` to a `k`-plex. -/
def HasExtension (v : ℕ) (S : Finset ℕ) : Prop :=
  ∃ u, InReach g v u ∧ Addable g.toSimpleGraph k S u ∧ ∃ w ∈ S, g.toSimpleGraph.Adj u w

/-- **When the small items are right.** -/
structure SmallCondition : Prop where
  /-- Isolated vertices are wanted but not found for `k ≥ 3`. -/
  isolated : 3 ≤ k → q ≤ 1 → ∀ v < g.N, ∃ u, g.toSimpleGraph.Adj v u
  /-- A small set that one more vertex extends to a `k`-plex is not maximal. -/
  hasLarger : ∀ S, IsSmall g k q S → 2 ≤ S.card → ∀ v ∈ S, (∀ u ∈ S, v ≤ u) →
    HasExtension g k v S → HasLarger g k S

variable {g k q}

/-- What extends a small set along an edge and is looked at. -/
theorem isReported_small_iff (hk : 2 ≤ k) {S : Finset ℕ} (hS : IsSmall g k q S) {v : ℕ}
    (hv : v ∈ S) (hmin : ∀ u ∈ S, v ≤ u) :
    IsReported g k q v S ↔ (3 ≤ k → 2 ≤ S.card) ∧ ¬ HasExtension g k v S := by
  have hq : q + 2 ≤ 2 * k := by
    have h1 := hS.card
    have h2 := hS.card_lt
    omega
  have hreach : ∀ u, u ∉ S →
      (u ∈ Finset.range v ∪ (block g k q v).toFinset ↔ InReach g v u) := by
    intro u hu
    have huv : u ≠ v := fun h => hu (h ▸ hv)
    rw [Finset.mem_union, Finset.mem_range, List.mem_toFinset, mem_block_of_small hk hq]
    unfold InReach
    simp [huv]
  have hmax : MaximalIn g.toSimpleGraph k (Finset.range v ∪ (block g k q v).toFinset) S ↔
      ¬ HasExtension g k v S := by
    unfold MaximalIn HasExtension
    push Not
    constructor
    · exact fun h u hu hadd => h u ((hreach u hadd.1).mpr hu) hadd
    · exact fun h u hu hadd => h u ((hreach u hadd.1).mp hu) hadd
  constructor
  · exact fun h => ⟨h.two_le, hmax.mp h.maximalIn⟩
  · rintro ⟨htwo, hno⟩
    exact ⟨hS.subset, hv, hmin, hS.isKplex, hS.diamTwo, hS.card, htwo, hmax.mpr hno⟩

/-- The smallest vertex of a set is the root it is reported at. -/
theorem exists_isReported_min {S : Finset ℕ} {v : ℕ} (hv : v ∈ S) (hmin : ∀ u ∈ S, v ≤ u) :
    (∃ w, IsReported g k q w S) ↔ IsReported g k q v S := by
  constructor
  · rintro ⟨w, h⟩
    rw [← le_antisymm (h.min v hv) (hmin w h.mem)]
    exact h
  · exact fun h => ⟨v, h⟩

/-- **A set that is not maximal has an extension in reach.** -/
theorem HasLarger.hasExtension {S : Finset ℕ} (h : HasLarger g k S) {v : ℕ} (hv : v ∈ S)
    (hmin : ∀ u ∈ S, v ≤ u) : HasExtension g k v S := by
  obtain ⟨T, -, hST, hT, hdiam⟩ := h
  have hvT := hST.subset hv
  have hadd : ∀ u ∈ T, u ∉ S → Addable g.toSimpleGraph k S u := fun u hu huS =>
    addable_of_mem_kplex hT hST.subset hu huS
  by_cases hsmall : ∃ w ∈ T, w < v
  · obtain ⟨w, hwT, hwv⟩ := hsmall
    have hwS : w ∉ S := fun hw => by
      have := hmin w hw
      omega
    rcases hdiam v hvT w hwT hwv.ne' with hadj | ⟨x, hxT, hvx, hwx⟩
    · exact ⟨w, Or.inl hwv, hadd w hwT hwS, v, hv, hadj.symm⟩
    · by_cases hxS : x ∈ S
      · exact ⟨w, Or.inl hwv, hadd w hwT hwS, x, hxS, hwx⟩
      · refine ⟨x, ?_, hadd x hxT hxS, v, hv, hvx.symm⟩
        rcases Nat.lt_or_gt_of_ne hvx.ne' with hlt | hlt
        · exact Or.inl hlt
        · exact Or.inr ⟨hlt, Or.inl hvx⟩
  · push Not at hsmall
    obtain ⟨u, huT, huS, w, hw, hadj⟩ := hdiam.exists_adj hST ⟨v, hv⟩
    have hvu : v < u := lt_of_le_of_ne (hsmall u huT) fun h => huS (h ▸ hv)
    refine ⟨u, Or.inr ⟨hvu, ?_⟩, hadd u huT huS, w, hw, hadj⟩
    rcases hdiam v hvT u huT hvu.ne with hadj' | ⟨x, hxT, hvx, hux⟩
    · exact Or.inl hadj'
    · exact Or.inr ⟨x, lt_of_le_of_ne (hsmall x hxT) hvx.ne, hvx, hux.symm⟩

theorem card_eq_one_of_lt_two {S : Finset ℕ} {v : ℕ} (hv : v ∈ S) (hcard : S.card < 2) :
    S = {v} := by
  refine (Finset.eq_singleton_iff_unique_mem).mpr ⟨hv, fun u hu => ?_⟩
  exact Finset.card_le_one.mp (by omega) u hu v hv

/-- Two vertices, joined by an edge or not, are a `k`-plex for `k ≥ 2`. -/
theorem addable_singleton (hk : 2 ≤ k) {v u : ℕ} (huv : u ≠ v) :
    Addable g.toSimpleGraph k {v} u := by
  refine ⟨by simpa using huv, fun w _ => ?_⟩
  have := Finset.card_insert_le u ({v} : Finset ℕ)
  rw [Finset.card_singleton] at this
  omega

/-- A single vertex with a neighbour is not maximal. -/
theorem hasLarger_singleton_iff (hk : 2 ≤ k) (v : ℕ) :
    HasLarger g k {v} ↔ ∃ u, g.toSimpleGraph.Adj v u := by
  constructor
  · rintro ⟨T, -, hvT, -, hdiam⟩
    obtain ⟨u, -, -, w, hw, hadj⟩ := hdiam.exists_adj hvT (Finset.singleton_nonempty v)
    rw [Finset.mem_singleton.mp hw] at hadj
    exact ⟨u, hadj.symm⟩
  · rintro ⟨u, hadj⟩
    have huv : u ∉ ({v} : Finset ℕ) := by simpa using hadj.ne'
    refine ⟨insert u {v}, ?_, Finset.ssubset_insert huv,
      (addable_singleton hk hadj.ne').2, fun x hx y hy hne => Or.inl ?_⟩
    · intro x hx
      rcases Finset.mem_insert.mp hx with rfl | hx
      · exact g.mem_vertices.mpr (g.lt_of_adj hadj).2
      · rw [Finset.mem_singleton.mp hx]
        exact g.mem_vertices.mpr (g.lt_of_adj hadj).1
    · rcases Finset.mem_insert.mp hx with rfl | hx
      · rcases Finset.mem_insert.mp hy with rfl | hy
        · exact absurd rfl hne
        · rw [Finset.mem_singleton.mp hy]
          exact hadj.symm
      · rw [Finset.mem_singleton.mp hx] at hne ⊢
        rcases Finset.mem_insert.mp hy with rfl | hy
        · exact hadj
        · exact absurd (Finset.mem_singleton.mp hy).symm hne

/-- A single vertex is extended along its edges. -/
theorem hasExtension_singleton_iff (hk : 2 ≤ k) (v : ℕ) :
    HasExtension g k v {v} ↔ ∃ u, g.toSimpleGraph.Adj v u := by
  constructor
  · rintro ⟨u, -, -, w, hw, hadj⟩
    rw [Finset.mem_singleton.mp hw] at hadj
    exact ⟨u, hadj.symm⟩
  · rintro ⟨u, hadj⟩
    refine ⟨u, ?_, addable_singleton hk hadj.ne', v, Finset.mem_singleton_self v, hadj.symm⟩
    rcases Nat.lt_or_gt_of_ne hadj.ne' with h | h
    · exact Or.inl h
    · exact Or.inr ⟨h, Or.inl hadj⟩

/-- A single vertex of the graph is a small set when `q` allows it. -/
theorem isSmall_singleton (hk : 2 ≤ k) (hq : q ≤ 1) {v : ℕ} (hv : v < g.N) :
    IsSmall g k q {v} := by
  refine ⟨by simpa using hv, by simpa using hq, ?_, ?_, ?_⟩
  · rw [Finset.card_singleton]
    omega
  · intro w _
    rw [Finset.card_singleton]
    omega
  · intro x hx y hy hne
    rw [Finset.mem_singleton.mp hx, Finset.mem_singleton.mp hy] at hne
    exact absurd rfl hne

/-- The condition, one small set at a time. -/
theorem smallCondition_iff (hk : 2 ≤ k) (hq : 1 ≤ q) : SmallCondition g k q ↔
    ∀ S, IsSmall g k q S → ((∃ v, IsReported g k q v S) ↔ ¬ HasLarger g k S) := by
  have hnonempty : ∀ S, IsSmall g k q S → S.Nonempty := fun S hS =>
    Finset.card_pos.mp (hq.trans hS.card)
  constructor
  · intro h S hS
    have hne := hnonempty S hS
    have hv := S.min'_mem hne
    have hmin : ∀ u ∈ S, S.min' hne ≤ u := fun u hu => S.min'_le u hu
    rw [exists_isReported_min hv hmin, isReported_small_iff hk hS hv hmin]
    by_cases hcard : 2 ≤ S.card
    · rw [and_iff_right fun _ => hcard]
      exact not_congr ⟨h.hasLarger S hS hcard _ hv hmin, fun h => h.hasExtension hv hmin⟩
    · have hS1 : S = {S.min' hne} := card_eq_one_of_lt_two hv (by omega)
      have hlarger := hasLarger_singleton_iff (g := g) hk (S.min' hne)
      have hext := hasExtension_singleton_iff (g := g) hk (S.min' hne)
      rw [← hS1] at hlarger hext
      rw [hlarger, hext]
      by_cases hk3 : 3 ≤ k
      · have hq1 : q ≤ 1 := by
          have := hS.card
          omega
        have hadj := h.isolated hk3 hq1 _ (g.mem_vertices.mp (hS.subset hv))
        exact iff_of_false (fun h => h.2 hadj) fun h => h hadj
      · exact and_iff_right fun h => absurd h hk3
  · intro h
    constructor
    · intro hk3 hq1 v hv
      have hS := isSmall_singleton (q := q) hk hq1 hv
      by_contra hno
      rw [← hasLarger_singleton_iff hk] at hno
      have hmin : ∀ u ∈ ({v} : Finset ℕ), v ≤ u := fun u hu => (Finset.mem_singleton.mp hu).ge
      have hrep := (exists_isReported_min (Finset.mem_singleton_self v) hmin).mp ((h _ hS).mpr hno)
      have := hrep.two_le hk3
      rw [Finset.card_singleton] at this
      omega
    · intro S hS hcard v hv hmin
      have h1 := h S hS
      rw [exists_isReported_min hv hmin, isReported_small_iff hk hS hv hmin,
        and_iff_right fun _ => hcard] at h1
      exact (not_iff_not.mp h1).mp

/-- The small items of a run, whatever they are. -/
theorem smallExact_iff_isReported (enablePivoting : Bool) (std : StdSort) (hk : 1 ≤ k)
    (hk' : k ≤ 255) : SmallExact g k q enablePivoting std ↔
      ∀ S, (S.card < 2 * k - 1 ∧ ∃ v, IsReported g k q v S) ↔
        IsSmall g k q S ∧ ¬ HasLarger g k S := by
  constructor
  · rintro ⟨bound, h⟩ S
    obtain ⟨st, e, hrun, -, -, hsmall⟩ := h (max bound g.N + 1) (by omega)
    obtain ⟨st', e', hrun', hitems, -, hmem⟩ := runInternal_reported enablePivoting std (g := g)
      (q := q) hk hk' (show g.N < max bound g.N + 1 by omega)
    obtain ⟨-, rfl⟩ := Prod.mk.inj (Option.some.inj (hrun.symm.trans hrun'))
    rw [← hsmall S, mem_map_filter_iff hitems fun n => decide (n < 2 * k - 1), hmem,
      decide_eq_true_iff]
  · intro h
    refine ⟨g.N, fun fuel hfuel => ?_⟩
    obtain ⟨st, e, hrun, hitems, hnodup, hmem⟩ :=
      runInternal_reported enablePivoting std (g := g) (q := q) hk hk' hfuel
    refine ⟨st, e, hrun, fun item h => hitems item (List.mem_of_mem_filter h),
      hnodup.sublist (List.filter_sublist.map _), fun S => ?_⟩
    rw [mem_map_filter_iff hitems fun n => decide (n < 2 * k - 1), hmem, decide_eq_true_iff, h S]

/-- **The small items are right exactly under `SmallCondition`.** -/
theorem smallExact_iff (g : Graph) (k q : ℕ) (enablePivoting : Bool) (std : StdSort) (hk : 2 ≤ k)
    (hk' : k ≤ 255) (hq : 1 ≤ q) :
    SmallExact g k q enablePivoting std ↔ SmallCondition g k q := by
  rw [smallExact_iff_isReported enablePivoting std (by omega) hk', smallCondition_iff hk hq]
  constructor
  · intro h S hS
    have hS' := h S
    rw [and_iff_right hS.card_lt, and_iff_right hS] at hS'
    exact hS'
  · intro h S
    constructor
    · rintro ⟨hcard, v, hrep⟩
      have hS : IsSmall g k q S := ⟨hrep.subset, hrep.card, hcard, hrep.isKplex, hrep.diamTwo⟩
      exact ⟨hS, (h S hS).mp ⟨v, hrep⟩⟩
    · rintro ⟨hS, hno⟩
      exact ⟨hS.card_lt, (h S hS).mpr hno⟩

/-- The path `0 - 1 - 2 - 3`. -/
def path4 : Graph := Graph.ofRel 4 fun i j => j == i + 1

/-- The equivalence on the path for `k = 3` and `q = 1`. -/
theorem smallExact_path_iff :
    SmallExact path4 3 1 true StdSort.insertion ↔ SmallCondition path4 3 1 :=
  smallExact_iff path4 3 1 true StdSort.insertion (by decide) (by decide) (by decide)

/-- On the path the set `{1, 2, 3}` is missing: `0` extends it, but only to diameter three. -/
theorem not_smallExact_path : ¬ SmallExact path4 3 1 true StdSort.insertion := by
  rw [smallExact_iff_isReported true StdSort.insertion (by decide) (by decide)]
  intro h
  have hsmall : IsSmall path4 3 1 {1, 2, 3} :=
    ⟨by decide, by decide, by decide, by decide, by decide⟩
  have hlarger : ¬ HasLarger path4 3 {1, 2, 3} := by
    rintro ⟨T, hT, hss, -, hdiam⟩
    have hnone : ∀ T ∈ path4.vertices.powerset, {1, 2, 3} ⊂ T →
        ¬ DiamTwo path4.toSimpleGraph T := by
      decide
    exact hnone T (Finset.mem_powerset.mpr hT) hss hdiam
  obtain ⟨-, v, hrep⟩ := (h {1, 2, 3}).mpr ⟨hsmall, hlarger⟩
  -- its smallest vertex is `1`, and `0` is adjacent to it
  have hv : v = 1 := le_antisymm (hrep.min 1 (by decide)) (by
    have := hrep.mem
    revert this
    simp only [Finset.mem_insert, Finset.mem_singleton]
    omega)
  rw [hv] at hrep
  exact hrep.maximalIn 0 (by decide) (by decide) 1 (by decide) (by decide)

end ParallelEnum.Diam2Kplex
