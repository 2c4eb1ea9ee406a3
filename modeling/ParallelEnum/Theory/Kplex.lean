import Mathlib.Combinatorics.SimpleGraph.Maps
import Mathlib.Data.Finset.Card
import Mathlib.Order.Minimal

/-!
# k-plexes

A `k`-plex of a graph is a finite vertex set in which every vertex has all but `k` of the vertices
as neighbours, itself counted as a missing one.

* `isKplex_insert_iff`, `addable_iff`: which vertices extend a `k`-plex by one, by counting
  non-neighbours.
* `card_le_card_common_add`, `IsKplex.diamTwo`: two vertices of a `k`-plex of at least `2k - 1`
  vertices are adjacent or have a common neighbour in it.
* `mem_of_universal`, `exists_mem_branch`: what a branching step may leave out.  A `k`-plex that no
  vertex next to it extends contains every vertex that is adjacent to all else, and a vertex that
  is not adjacent to a given one, or to one of the non-neighbours of that one.
* `isKplex_image_iff` and its companions: vertices may be renamed.
-/

namespace Kplex

variable {α β : Type*} (G : SimpleGraph α) [DecidableRel G.Adj]

/-! ### Counting non-neighbours -/

/-- The members of `S` that are not adjacent to `v`, itself included if it is a member. -/
def nonAdj (S : Finset α) (v : α) : Finset α := S.filter fun u => ¬ G.Adj v u

/-- Every vertex of `S` has at least `|S| - k` neighbours in `S`. -/
def IsKplex (k : ℕ) (S : Finset α) : Prop := ∀ v ∈ S, S.card ≤ (S.filter (G.Adj v)).card + k

instance (k : ℕ) (S : Finset α) : Decidable (IsKplex G k S) :=
  inferInstanceAs (Decidable (∀ v ∈ S, S.card ≤ (S.filter (G.Adj v)).card + k))

variable {G} {k : ℕ} {S T : Finset α} {u v : α}

@[simp] theorem mem_nonAdj : u ∈ nonAdj G S v ↔ u ∈ S ∧ ¬ G.Adj v u := Finset.mem_filter

theorem card_filter_adj_add (S : Finset α) (v : α) :
    (S.filter (G.Adj v)).card + (nonAdj G S v).card = S.card :=
  Finset.card_filter_add_card_filter_not _

theorem isKplex_iff_nonAdj : IsKplex G k S ↔ ∀ v ∈ S, (nonAdj G S v).card ≤ k := by
  refine forall₂_congr fun v _ => ?_
  have := card_filter_adj_add (G := G) S v
  omega

theorem nonAdj_mono (h : T ⊆ S) (v : α) : nonAdj G T v ⊆ nonAdj G S v :=
  Finset.filter_subset_filter _ h

/-- A part of a `k`-plex is a `k`-plex. -/
theorem IsKplex.subset (hS : IsKplex G k S) (h : T ⊆ S) : IsKplex G k T := by
  rw [isKplex_iff_nonAdj] at hS ⊢
  intro v hv
  exact (Finset.card_le_card (nonAdj_mono h v)).trans (hS v (h hv))

section Extension

variable [DecidableEq α]

theorem nonAdj_insert_of_adj (h : G.Adj v u) : nonAdj G (insert u S) v = nonAdj G S v := by
  unfold nonAdj
  rw [Finset.filter_insert, if_neg (not_not.mpr h)]

theorem nonAdj_insert_of_not_adj (h : ¬ G.Adj v u) :
    nonAdj G (insert u S) v = insert u (nonAdj G S v) := by
  unfold nonAdj
  rw [Finset.filter_insert, if_pos h]

theorem card_nonAdj_insert (hu : u ∉ S) (v : α) :
    (nonAdj G (insert u S) v).card = (nonAdj G S v).card + if G.Adj v u then 0 else 1 := by
  split_ifs with h
  · rw [nonAdj_insert_of_adj h, Nat.add_zero]
  · have hmem : u ∉ nonAdj G S v := fun hmem => hu (mem_nonAdj.mp hmem).1
    rw [nonAdj_insert_of_not_adj h, Finset.card_insert_of_notMem hmem]

/-- A new vertex joins a `k`-plex when it and its non-neighbours miss one vertex less than `k`. -/
theorem isKplex_insert_iff (hv : v ∉ S) :
    IsKplex G k (insert v S) ↔ IsKplex G k S ∧ (nonAdj G S v).card + 1 ≤ k ∧
      ∀ u ∈ S, ¬ G.Adj v u → (nonAdj G S u).card + 1 ≤ k := by
  have hself : (nonAdj G (insert v S) v).card = (nonAdj G S v).card + 1 := by
    rw [card_nonAdj_insert hv, if_neg (G.loopless.irrefl v)]
  constructor
  · intro h
    refine ⟨h.subset (Finset.subset_insert v S), ?_, fun u hu hnot => ?_⟩
    · rw [← hself]
      exact isKplex_iff_nonAdj.mp h v (Finset.mem_insert_self v S)
    · have hcard := isKplex_iff_nonAdj.mp h u (Finset.mem_insert_of_mem hu)
      rw [card_nonAdj_insert hv, if_neg fun hadj => hnot hadj.symm] at hcard
      exact hcard
  · rintro ⟨hS, hv', hS'⟩
    rw [isKplex_iff_nonAdj] at hS ⊢
    intro u hu
    rcases Finset.mem_insert.mp hu with rfl | hu
    · rw [hself]
      exact hv'
    · rw [card_nonAdj_insert hv]
      split_ifs with hadj
      · exact hS u hu
      · exact hS' u hu fun h => hadj h.symm

variable (G k) in
/-- `v` extends `S` to a larger `k`-plex. -/
def Addable (S : Finset α) (v : α) : Prop := v ∉ S ∧ IsKplex G k (insert v S)

instance (S : Finset α) (v : α) : Decidable (Addable G k S v) :=
  inferInstanceAs (Decidable (v ∉ S ∧ IsKplex G k (insert v S)))

theorem addable_iff (hS : IsKplex G k S) : Addable G k S v ↔
    v ∉ S ∧ (nonAdj G S v).card + 1 ≤ k ∧ ∀ u ∈ S, ¬ G.Adj v u → (nonAdj G S u).card + 1 ≤ k :=
  and_congr_right fun hv => (isKplex_insert_iff hv).trans (and_iff_right hS)

/-- What extends a set extends its parts. -/
theorem Addable.mono (h : Addable G k S v) (hT : T ⊆ S) : Addable G k T v :=
  ⟨fun hv => h.1 (hT hv), h.2.subset (Finset.insert_subset_insert v hT)⟩

theorem addable_of_mem_kplex (hS : IsKplex G k S) (hT : T ⊆ S) (hv : v ∈ S) (hvT : v ∉ T) :
    Addable G k T v :=
  ⟨hvT, hS.subset (Finset.insert_subset hv hT)⟩

/-- Among `k` vertices of a `k`-plex there is a neighbour of every vertex that extends it. -/
theorem Addable.exists_adj (h : Addable G k S v) (hT : T ⊆ S) (hcard : k ≤ T.card) :
    ∃ u ∈ T, G.Adj v u := by
  by_contra hno
  push Not at hno
  have hsub : T ⊆ nonAdj G S v := fun u hu => mem_nonAdj.mpr ⟨hT hu, hno u hu⟩
  have h1 := Finset.card_le_card hsub
  have h2 := isKplex_iff_nonAdj.mp h.2 v (Finset.mem_insert_self v S)
  rw [card_nonAdj_insert h.1, if_neg (G.loopless.irrefl v)] at h2
  omega

/-- Vertices that are adjacent to each other and to all of a `k`-plex may all join it. -/
theorem isKplex_union (hk : 1 ≤ k) (hS : IsKplex G k S) (hTS : ∀ u ∈ T, ∀ v ∈ S, G.Adj u v)
    (hT : ∀ u ∈ T, ∀ v ∈ T, v ≠ u → G.Adj u v) : IsKplex G k (S ∪ T) := by
  rw [isKplex_iff_nonAdj] at hS ⊢
  intro v hv
  rcases Finset.mem_union.mp hv with hv | hv
  · refine (Finset.card_le_card fun u hu => ?_).trans (hS v hv)
    obtain ⟨hu, hnot⟩ := mem_nonAdj.mp hu
    rcases Finset.mem_union.mp hu with hu | hu
    · exact mem_nonAdj.mpr ⟨hu, hnot⟩
    · exact absurd (hTS u hu v hv).symm hnot
  · refine (Finset.card_le_card (t := {v}) fun u hu => ?_).trans
      ((Finset.card_singleton v).trans_le hk)
    obtain ⟨hu, hnot⟩ := mem_nonAdj.mp hu
    rw [Finset.mem_singleton]
    by_contra hne
    rcases Finset.mem_union.mp hu with hu | hu
    · exact hnot (hTS v hv u hu)
    · exact hnot (hT v hv u hu hne)

end Extension

/-! ### Common neighbours -/

/-- Two members of a `k`-plex miss at most `2k` vertices as common neighbours, and two less if
they are different and not adjacent. -/
theorem card_le_card_common_add (hS : IsKplex G k S) (hu : u ∈ S) (hv : v ∈ S) :
    S.card ≤ (S.filter fun x => G.Adj u x ∧ G.Adj v x).card + 2 * k ∧
      (u ≠ v → ¬ G.Adj u v →
        S.card + 2 ≤ (S.filter fun x => G.Adj u x ∧ G.Adj v x).card + 2 * k) := by
  classical
  have hsplit : (S.filter fun x => G.Adj u x ∧ G.Adj v x).card
      + (nonAdj G S u ∪ nonAdj G S v).card = S.card := by
    have hrest : nonAdj G S u ∪ nonAdj G S v
        = S.filter fun x => ¬ (G.Adj u x ∧ G.Adj v x) := by
      ext x
      simp only [Finset.mem_union, mem_nonAdj, Finset.mem_filter]
      tauto
    rw [hrest, Finset.card_filter_add_card_filter_not]
  have hinter := Finset.card_union_add_card_inter (nonAdj G S u) (nonAdj G S v)
  have hu' := isKplex_iff_nonAdj.mp hS u hu
  have hv' := isKplex_iff_nonAdj.mp hS v hv
  refine ⟨by omega, fun hne hnot => ?_⟩
  have htwo : 2 ≤ (nonAdj G S u ∩ nonAdj G S v).card := by
    rw [← Finset.card_pair hne]
    apply Finset.card_le_card
    intro x hx
    rw [Finset.mem_inter, mem_nonAdj, mem_nonAdj]
    rcases Finset.mem_insert.mp hx with rfl | hx
    · exact ⟨⟨hu, G.loopless.irrefl x⟩, hu, fun h => hnot h.symm⟩
    · rw [Finset.mem_singleton.mp hx]
      exact ⟨⟨hv, hnot⟩, hv, G.loopless.irrefl v⟩
  omega

variable (G) in
/-- Every two vertices of `S` are adjacent or have a common neighbour in `S`. -/
def DiamTwo (S : Finset α) : Prop :=
  ∀ u ∈ S, ∀ v ∈ S, u ≠ v → G.Adj u v ∨ ∃ x ∈ S, G.Adj u x ∧ G.Adj v x

instance [DecidableEq α] (S : Finset α) : Decidable (DiamTwo G S) :=
  inferInstanceAs (Decidable
    (∀ u ∈ S, ∀ v ∈ S, u ≠ v → G.Adj u v ∨ ∃ x ∈ S, G.Adj u x ∧ G.Adj v x))

/-- **A `k`-plex of at least `2k - 1` vertices has diameter at most two.** -/
theorem IsKplex.diamTwo (hS : IsKplex G k S) (hcard : 2 * k ≤ S.card + 1) : DiamTwo G S := by
  intro u hu v hv hne
  by_cases hadj : G.Adj u v
  · exact Or.inl hadj
  · right
    have h := (card_le_card_common_add hS hu hv).2 hne hadj
    have hpos : 0 < (S.filter fun x => G.Adj u x ∧ G.Adj v x).card := by omega
    obtain ⟨x, hx⟩ := Finset.card_pos.mp hpos
    exact ⟨x, (Finset.mem_filter.mp hx).1, (Finset.mem_filter.mp hx).2⟩

omit [DecidableRel G.Adj] in
/-- A set of diameter two grows out of any part of it along edges. -/
theorem DiamTwo.exists_adj (hS : DiamTwo G S) (hT : T ⊂ S) (hne : T.Nonempty) :
    ∃ v ∈ S, v ∉ T ∧ ∃ u ∈ T, G.Adj v u := by
  obtain ⟨v, hv, hvT⟩ := Finset.exists_of_ssubset hT
  obtain ⟨w, hw⟩ := hne
  rcases hS v hv w (hT.subset hw) fun h => hvT (h ▸ hw) with hadj | ⟨x, hx, hvx, hwx⟩
  · exact ⟨v, hv, hvT, w, hw, hadj⟩
  · by_cases hxT : x ∈ T
    · exact ⟨v, hv, hvT, x, hxT, hvx⟩
    · exact ⟨x, hx, hxT, w, hw, hwx.symm⟩

/-! ### Branching -/

section Branching

variable [DecidableEq α]

variable (G k) in
/-- No vertex of `B` that is adjacent to a vertex of `S` extends `S`. -/
def MaximalIn (B S : Finset α) : Prop :=
  ∀ v ∈ B, Addable G k S v → ∀ u ∈ S, ¬ G.Adj v u

variable (G k) in
/-- An inclusion-maximal `k`-plex of the graph on `V`. -/
def IsMaximalKplex (V S : Finset α) : Prop := Maximal (fun S => S ⊆ V ∧ IsKplex G k S) S

/-- A `k`-plex is maximal when no vertex extends it. -/
theorem isMaximalKplex_iff {V : Finset α} :
    IsMaximalKplex G k V S ↔ S ⊆ V ∧ IsKplex G k S ∧ ∀ v ∈ V, ¬ Addable G k S v := by
  constructor
  · intro h
    refine ⟨h.prop.1, h.prop.2, fun v hv hadd => hadd.1 ?_⟩
    exact h.le_of_ge ⟨Finset.insert_subset hv h.prop.1, hadd.2⟩ (Finset.subset_insert v S)
      (Finset.mem_insert_self v S)
  · rintro ⟨hSV, hS, hmax⟩
    refine ⟨⟨hSV, hS⟩, fun T hT hST v hv => ?_⟩
    by_contra hvS
    exact hmax v (hT.1 hv) (addable_of_mem_kplex hT.2 hST hv hvS)

/-- What extends a `k`-plex of at least `k` vertices is next to it. -/
theorem maximalIn_iff_of_card {B : Finset α} (hcard : k ≤ S.card) :
    MaximalIn G k B S ↔ ∀ v ∈ B, ¬ Addable G k S v := by
  constructor
  · intro h v hv hadd
    obtain ⟨u, hu, hadj⟩ := hadd.exists_adj (Finset.Subset.refl S) hcard
    exact h v hv hadd u hu hadj
  · exact fun h v hv hadd => absurd hadd (h v hv)

/-- A vertex of `B` adjacent to all other vertices of a nonempty set `Q` around `S` is in `S`. -/
theorem mem_of_universal {B Q : Finset α} (hk : 1 ≤ k) (hS : IsKplex G k S) (hne : S.Nonempty)
    (hmax : MaximalIn G k B S) (hSQ : S ⊆ Q) (hv : v ∈ B)
    (huniv : ∀ u ∈ Q, u ≠ v → G.Adj v u) : v ∈ S := by
  by_contra hvS
  have hadj : ∀ u ∈ S, G.Adj v u := fun u hu => huniv u (hSQ hu) fun h => hvS (h ▸ hu)
  obtain ⟨w, hw⟩ := hne
  refine hmax v hv ?_ w hw (hadj w hw)
  have hempty : nonAdj G S v = ∅ := Finset.filter_eq_empty_iff.mpr fun u hu =>
    not_not.mpr (hadj u hu)
  rw [addable_iff hS, hempty]
  exact ⟨hvS, by simpa using hk, fun u hu hnot => absurd (hadj u hu) hnot⟩

/-- **Pivoting.** Around a `k`-plex `P` of at least `k` vertices, a larger `k`-plex that nothing
next to it extends has a new vertex which is not adjacent to the pivot `v`, or not adjacent to a
member of `P` that the pivot is not adjacent to. -/
theorem exists_mem_branch {B P : Finset α} (hS : IsKplex G k S) (hPS : P ⊂ S)
    (hmax : MaximalIn G k B S) (hv : v ∈ B) (hadd : Addable G k P v) :
    ∃ u ∈ S, u ∉ P ∧ (¬ G.Adj v u ∨ ∃ w ∈ P, ¬ G.Adj v w ∧ ¬ G.Adj u w) := by
  by_contra hno
  push Not at hno
  have hP := hS.subset hPS.subset
  -- the new vertices are adjacent to the pivot and to all its non-neighbours in `P`
  have hnew : ∀ u ∈ S, u ∉ P → G.Adj v u := fun u hu huP => (hno u hu huP).1
  have hvS : v ∉ S := fun hvS => G.loopless.irrefl v (hnew v hvS hadd.1)
  obtain ⟨w, hw, hwP⟩ := Finset.exists_of_ssubset hPS
  obtain ⟨-, hv1, hv2⟩ := (addable_iff hP).mp hadd
  have hsame : ∀ x, (∀ u ∈ S, u ∉ P → G.Adj x u) → nonAdj G S x = nonAdj G P x := by
    intro x hx
    ext u
    rw [mem_nonAdj, mem_nonAdj]
    refine ⟨fun ⟨hu, hnot⟩ => ⟨?_, hnot⟩, fun ⟨hu, hnot⟩ => ⟨hPS.subset hu, hnot⟩⟩
    by_contra huP
    exact hnot (hx u hu huP)
  refine hmax v hv ((addable_iff hS).mpr ⟨hvS, ?_, fun u hu hnot => ?_⟩) w hw (hnew w hw hwP)
  · rw [hsame v hnew]
    exact hv1
  · have huP : u ∈ P := by
      by_contra huP
      exact hnot (hnew u hu huP)
    rw [hsame u fun x hx hxP => ((hno x hx hxP).2 u huP hnot).symm]
    exact hv2 u huP hnot

end Branching

/-! ### Renaming vertices -/

section Image

variable [DecidableEq β] {f : α → β} {H : SimpleGraph β} [DecidableRel H.Adj]

theorem card_nonAdj_image (hf : Set.InjOn f S) (hadj : ∀ u ∈ S, G.Adj v u ↔ H.Adj (f v) (f u)) :
    (nonAdj H (S.image f) (f v)).card = (nonAdj G S v).card := by
  have himage : nonAdj H (S.image f) (f v) = (nonAdj G S v).image f := by
    ext y
    simp only [mem_nonAdj, Finset.mem_image]
    constructor
    · rintro ⟨⟨u, hu, rfl⟩, hnot⟩
      exact ⟨u, ⟨hu, fun h => hnot ((hadj u hu).mp h)⟩, rfl⟩
    · rintro ⟨u, ⟨hu, hnot⟩, rfl⟩
      exact ⟨⟨u, hu, rfl⟩, fun h => hnot ((hadj u hu).mpr h)⟩
  rw [himage, Finset.card_image_of_injOn (hf.mono fun u hu => (mem_nonAdj.mp hu).1)]

theorem isKplex_image_iff (hf : Set.InjOn f S)
    (hadj : ∀ v ∈ S, ∀ u ∈ S, G.Adj v u ↔ H.Adj (f v) (f u)) :
    IsKplex H k (S.image f) ↔ IsKplex G k S := by
  rw [isKplex_iff_nonAdj, isKplex_iff_nonAdj, Finset.forall_mem_image]
  exact forall₂_congr fun v hv => by rw [card_nonAdj_image hf (hadj v hv)]

omit [DecidableRel G.Adj] [DecidableRel H.Adj] in
theorem diamTwo_image_iff (hf : Set.InjOn f S)
    (hadj : ∀ v ∈ S, ∀ u ∈ S, G.Adj v u ↔ H.Adj (f v) (f u)) :
    DiamTwo H (S.image f) ↔ DiamTwo G S := by
  unfold DiamTwo
  simp only [Finset.forall_mem_image, Finset.exists_mem_image]
  refine forall₂_congr fun u hu => forall₂_congr fun v hv => ?_
  rw [hf.ne_iff hu hv, hadj u hu v hv]
  refine imp_congr_right fun _ => or_congr_right ⟨?_, ?_⟩
  · rintro ⟨x, hx, h1, h2⟩
    exact ⟨x, hx, (hadj u hu x hx).mpr h1, (hadj v hv x hx).mpr h2⟩
  · rintro ⟨x, hx, h1, h2⟩
    exact ⟨x, hx, (hadj u hu x hx).mp h1, (hadj v hv x hx).mp h2⟩

theorem addable_image_iff [DecidableEq α] (hf : Set.InjOn f (insert v S : Finset α))
    (hadj : ∀ x ∈ insert v S, ∀ u ∈ insert v S, G.Adj x u ↔ H.Adj (f x) (f u)) :
    Addable H k (S.image f) (f v) ↔ Addable G k S v := by
  unfold Addable
  rw [← Finset.image_insert, isKplex_image_iff hf hadj]
  refine and_congr_left fun _ => not_congr ⟨fun h => ?_, Finset.mem_image_of_mem f⟩
  obtain ⟨u, hu, heq⟩ := Finset.mem_image.mp h
  rw [← hf (Finset.mem_insert_of_mem hu) (Finset.mem_insert_self v S) heq]
  exact hu

end Image

end Kplex
