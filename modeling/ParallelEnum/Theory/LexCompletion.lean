import Mathlib.Algebra.Order.BigOperators.Group.Finset
import Mathlib.Combinatorics.SimpleGraph.Clique
import Mathlib.Data.Finset.Sort
import Mathlib.Order.Minimal
import Mathlib.Tactic.Ring

/-!
# Lexicographically first maximal cliques

For a graph on a linearly ordered type and a finite vertex set `V`:

* `IsMaximalClique G V K`: `K` is an inclusion-maximal nonempty clique of the graph on `V`.
* `LexFirst G V X K`: `K` is the clique that greedy completion of `X`, smallest vertex first, ends
  in (`greedy_iff_lexFirst`).  It exists (`exists_lexFirst`), is unique (`LexFirst.unique`) and
  comes before every other clique that contains `X` (`LexFirst.before`); `weight` turns that order
  into one of numbers.
* `IsIndex G V K p`: `p` is the smallest vertex of `K` such that the part of `K` up to `p`
  completes to `K`.  Every maximal clique has one (`exists_index`).

Reverse search on the maximal cliques takes the completion of the part of `K'` below its index as
the parent of `K'`.  The parent comes before `K'` and has a smaller index
(`parent_spec`), and `isChild_iff` says by which local tests the children of `K` are recognised.
-/

namespace LexCompletion

variable {α : Type*} [LinearOrder α] (G : SimpleGraph α) (V : Finset α)

/-! ### Maximal cliques -/

/-- A nonempty clique of the graph on `V`. -/
def IsCliqueIn (S : Finset α) : Prop := S.Nonempty ∧ S ⊆ V ∧ G.IsClique (S : Set α)

/-- An inclusion-maximal nonempty clique of the graph on `V`. -/
def IsMaximalClique (K : Finset α) : Prop := Maximal (IsCliqueIn G V) K

variable {G V}

omit [LinearOrder α] in
theorem IsCliqueIn.adj {S : Finset α} (h : IsCliqueIn G V S) {u v : α} (hu : u ∈ S) (hv : v ∈ S)
    (hne : u ≠ v) : G.Adj u v :=
  h.2.2 (Finset.mem_coe.mpr hu) (Finset.mem_coe.mpr hv) hne

/-- A vertex adjacent to all of a clique extends it. -/
theorem IsCliqueIn.insert {S : Finset α} (h : IsCliqueIn G V S) {v : α} (hv : v ∈ V)
    (hadj : ∀ u ∈ S, G.Adj v u) : IsCliqueIn G V (insert v S) := by
  refine ⟨Finset.insert_nonempty v S, Finset.insert_subset hv h.2.1, ?_⟩
  rw [Finset.coe_insert, SimpleGraph.isClique_insert]
  exact ⟨h.2.2, fun u hu _ => hadj u hu⟩

/-- A clique is maximal when no vertex is adjacent to all of it. -/
theorem isMaximalClique_iff {K : Finset α} :
    IsMaximalClique G V K ↔ IsCliqueIn G V K ∧ ∀ v ∈ V, ∃ u ∈ K, ¬ G.Adj v u := by
  constructor
  · intro h
    refine ⟨h.prop, fun v hv => ?_⟩
    by_contra hall
    push Not at hall
    have hmem : v ∈ K :=
      h.le_of_ge (h.prop.insert hv hall) (Finset.subset_insert v K) (Finset.mem_insert_self v K)
    exact G.loopless.irrefl v (hall v hmem)
  · rintro ⟨hK, hmax⟩
    refine ⟨hK, fun S hS hKS v hv => ?_⟩
    by_contra hvK
    obtain ⟨u, hu, hnot⟩ := hmax v (hS.2.1 hv)
    exact hnot (hS.adj hv (hKS hu) fun h => hvK (h ▸ hu))

/-! ### The order of cliques -/

/-- The smallest vertex in which the two sets differ belongs to the first. -/
def Before (K K' : Finset α) : Prop := ∃ v ∈ K, v ∉ K' ∧ ∀ u < v, u ∈ K ↔ u ∈ K'

/-- Different sets are comparable. -/
theorem before_or_before {K K' : Finset α} (h : K ≠ K') : Before K K' ∨ Before K' K := by
  have hne : (symmDiff K K').Nonempty := by
    rw [Finset.nonempty_iff_ne_empty]
    intro h0
    exact h (symmDiff_eq_bot.mp h0)
  set v := (symmDiff K K').min' hne with hv
  have hmem : v ∈ symmDiff K K' := Finset.min'_mem _ hne
  have hbelow : ∀ u < v, u ∈ K ↔ u ∈ K' := by
    intro u hu
    by_contra hiff
    have humem : u ∈ symmDiff K K' := by
      rw [Finset.mem_symmDiff]
      tauto
    exact absurd (Finset.min'_le _ u humem) (not_le.mpr hu)
  rw [Finset.mem_symmDiff] at hmem
  rcases hmem with ⟨h1, h2⟩ | ⟨h1, h2⟩
  · exact Or.inl ⟨v, h1, h2, hbelow⟩
  · exact Or.inr ⟨v, h1, h2, fun u hu => (hbelow u hu).symm⟩

variable (V) in
/-- A number that is larger for the set that comes before. -/
def weight (S : Finset α) : ℕ := ∑ v ∈ S, 2 ^ (V.filter (v < ·)).card

theorem weight_lt_two_pow (A : Finset α) : weight A A < 2 ^ A.card := by
  induction A using Finset.induction_on_min with
  | empty => simp [weight]
  | insert a A hlt ih =>
    have ha : a ∉ A := fun h => lt_irrefl a (hlt a h)
    have hcard : ((insert a A).filter (a < ·)).card = A.card := by
      rw [Finset.filter_insert, if_neg (lt_irrefl a), Finset.filter_true_of_mem hlt]
    have hrest : ∀ v ∈ A, ((insert a A).filter (v < ·)).card = (A.filter (v < ·)).card := by
      intro v hv
      rw [Finset.filter_insert, if_neg (not_lt.mpr (hlt v hv).le)]
    unfold weight at ih ⊢
    rw [Finset.sum_insert ha, hcard, Finset.card_insert_of_notMem ha, pow_succ,
      Finset.sum_congr rfl fun v hv => by rw [hrest v hv]]
    omega

theorem weight_lt_of_before {K K' : Finset α} (hK' : K' ⊆ V) (h : Before K K') :
    weight V K' < weight V K := by
  obtain ⟨v, hv, hv', hbelow⟩ := h
  have hsplit : ∀ S : Finset α, weight V S
      = weight V (S.filter (· < v)) + weight V (S.filter fun u => ¬ u < v) :=
    fun S => (Finset.sum_filter_add_sum_filter_not S (· < v) _).symm
  have hlow : K.filter (· < v) = K'.filter (· < v) := by
    ext u
    simp only [Finset.mem_filter]
    exact ⟨fun ⟨h1, h2⟩ => ⟨(hbelow u h2).mp h1, h2⟩, fun ⟨h1, h2⟩ => ⟨(hbelow u h2).mpr h1, h2⟩⟩
  -- above `v`, all of `V` together weighs less than `v`
  have habove : weight V (K'.filter fun u => ¬ u < v) < 2 ^ (V.filter (v < ·)).card := by
    refine lt_of_le_of_lt ?_ (weight_lt_two_pow (V.filter (v < ·)))
    have hsub : (K'.filter fun u => ¬ u < v) ⊆ V.filter (v < ·) := by
      intro u hu
      obtain ⟨hu, hle⟩ := Finset.mem_filter.mp hu
      have hne : v ≠ u := fun h => hv' (h ▸ hu)
      exact Finset.mem_filter.mpr ⟨hK' hu, lt_of_le_of_ne (not_lt.mp hle) hne⟩
    have hexp : ∀ u ∈ V.filter (v < ·), (V.filter (u < ·)).card
        = ((V.filter (v < ·)).filter (u < ·)).card := by
      intro u hu
      congr 1
      ext w
      simp only [Finset.mem_filter] at hu ⊢
      exact ⟨fun ⟨h1, h2⟩ => ⟨⟨h1, hu.2.trans h2⟩, h2⟩, fun ⟨h1, h2⟩ => ⟨h1.1, h2⟩⟩
    calc weight V (K'.filter fun u => ¬ u < v)
        ≤ ∑ u ∈ V.filter (v < ·), 2 ^ (V.filter (u < ·)).card :=
          Finset.sum_le_sum_of_subset hsub
      _ = weight (V.filter (v < ·)) (V.filter (v < ·)) :=
          Finset.sum_congr rfl fun u hu => by rw [hexp u hu]
  have hself : 2 ^ (V.filter (v < ·)).card ≤ weight V (K.filter fun u => ¬ u < v) :=
    Finset.single_le_sum (f := fun u => 2 ^ (V.filter (u < ·)).card) (fun _ _ => Nat.zero_le _)
      (Finset.mem_filter.mpr ⟨hv, lt_irrefl v⟩)
  rw [hsplit K, hsplit K', hlow]
  omega

theorem weight_le {S : Finset α} (hS : S ⊆ V) : weight V S ≤ weight V V :=
  Finset.sum_le_sum_of_subset hS

/-! ### Greedy completion -/

variable (G V) in
/-- `K` is a clique around `X`, and every other vertex that is adjacent to all of `X` is kept out
by a smaller vertex of `K`. -/
def LexFirst (X K : Finset α) : Prop :=
  IsCliqueIn G V K ∧ X ⊆ K ∧
    ∀ v ∈ V, v ∉ K → (∀ u ∈ X, G.Adj v u) → ∃ u ∈ K, u < v ∧ ¬ G.Adj v u

theorem LexFirst.isMaximalClique {X K : Finset α} (h : LexFirst G V X K) :
    IsMaximalClique G V K := by
  obtain ⟨hK, hX, hout⟩ := h
  refine isMaximalClique_iff.mpr ⟨hK, fun v hv => ?_⟩
  by_cases hvK : v ∈ K
  · exact ⟨v, hvK, G.loopless.irrefl v⟩
  · by_contra hall
    push Not at hall
    obtain ⟨u, hu, _, hnot⟩ := hout v hv hvK fun u hu => hall u (hX hu)
    exact hnot (hall u hu)

/-- The completion of `X` comes before every other clique around `X`. -/
theorem LexFirst.before {X K K' : Finset α} (h : LexFirst G V X K) (hK' : IsCliqueIn G V K')
    (hX : X ⊆ K') (hne : K ≠ K') : Before K K' := by
  rcases before_or_before hne with hb | ⟨v, hv, hvK, hbelow⟩
  · exact hb
  · exfalso
    obtain ⟨hK, hXK, hout⟩ := h
    have hcompat : ∀ u ∈ X, G.Adj v u := fun u hu =>
      hK'.adj hv (hX hu) fun heq => hvK (heq ▸ hXK hu)
    obtain ⟨u, hu, hlt, hnot⟩ := hout v (hK'.2.1 hv) hvK hcompat
    exact hnot (hK'.adj hv ((hbelow u hlt).mpr hu) hlt.ne')

theorem LexFirst.unique {X K K' : Finset α} (h : LexFirst G V X K) (h' : LexFirst G V X K') :
    K = K' := by
  by_contra hne
  obtain ⟨v, hv, hv', hbelow⟩ := h.before h'.1 h'.2.1 hne
  obtain ⟨w, hw, hw', hbelow'⟩ := h'.before h.1 h.2.1 (Ne.symm hne)
  rcases lt_trichotomy v w with hlt | rfl | hlt
  · exact hv' ((hbelow' v hlt).mpr hv)
  · exact hw' hv
  · exact hw' ((hbelow w hlt).mpr hw)

/-- Completing more of `K` still gives `K`. -/
theorem LexFirst.mono {X Y K : Finset α} (h : LexFirst G V X K) (hXY : X ⊆ Y) (hYK : Y ⊆ K) :
    LexFirst G V Y K :=
  ⟨h.1, hYK, fun v hv hvK hall => h.2.2 v hv hvK fun u hu => hall u (hXY hu)⟩

theorem IsMaximalClique.lexFirst_self {K : Finset α} (h : IsMaximalClique G V K) :
    LexFirst G V K K := by
  obtain ⟨hK, hmax⟩ := isMaximalClique_iff.mp h
  refine ⟨hK, Finset.Subset.refl K, fun v hv _ hall => ?_⟩
  obtain ⟨u, hu, hnot⟩ := hmax v hv
  exact absurd (hall u hu) hnot

/-- Every nonempty clique has a completion. -/
theorem exists_lexFirst {X : Finset α} (hX : IsCliqueIn G V X) : ∃ K, LexFirst G V X K := by
  classical
  -- go through the vertices in order: `A` holds the vertices already considered
  have key : ∀ A ⊆ V, ∃ K, IsCliqueIn G V K ∧ X ⊆ K ∧ (K ⊆ X ∪ A) ∧
      ∀ v ∈ A, v ∉ K → (∀ u ∈ X, G.Adj v u) → ∃ u ∈ K, u < v ∧ ¬ G.Adj v u := by
    intro A
    induction A using Finset.induction_on_max with
    | empty => exact fun _ => ⟨X, hX, Finset.Subset.refl X, by simp, by simp⟩
    | insert a A hlt ih =>
      intro hAV
      obtain ⟨K, hK, hXK, hKA, hout⟩ := ih ((Finset.subset_insert a A).trans hAV)
      by_cases hall : ∀ u ∈ K, G.Adj a u
      · refine ⟨insert a K, hK.insert (hAV (Finset.mem_insert_self a A)) hall,
          hXK.trans (Finset.subset_insert a K), ?_, ?_⟩
        · intro u hu
          rcases Finset.mem_insert.mp hu with rfl | hu
          · simp
          · have := hKA hu
            simp only [Finset.mem_union, Finset.mem_insert] at this ⊢
            tauto
        · intro v hv hvK hcompat
          rw [Finset.mem_insert, not_or] at hvK
          rcases Finset.mem_insert.mp hv with rfl | hv
          · exact absurd rfl hvK.1
          · obtain ⟨u, hu, huv, hnot⟩ := hout v hv hvK.2 hcompat
            exact ⟨u, Finset.mem_insert_of_mem hu, huv, hnot⟩
      · refine ⟨K, hK, hXK, hKA.trans (Finset.union_subset_union_right (Finset.subset_insert a A)),
          ?_⟩
        intro v hv hvK hcompat
        rcases Finset.mem_insert.mp hv with rfl | hv
        · push Not at hall
          obtain ⟨u, hu, hnot⟩ := hall
          have huX : u ∉ X := fun h => hnot (hcompat u h)
          have huA : u ∈ A := (Finset.mem_union.mp (hKA hu)).resolve_left huX
          exact ⟨u, hu, hlt u huA, hnot⟩
        · exact hout v hv hvK hcompat
  obtain ⟨K, hK, hXK, _, hout⟩ := key V (Finset.Subset.refl V)
  exact ⟨K, hK, hXK, hout⟩

variable (G V) in
/-- Adding to `X` the smallest vertex adjacent to all of it, again and again, ends in `K`. -/
inductive Greedy : Finset α → Finset α → Prop
  | done {X : Finset α} : (∀ v ∈ V, ∃ u ∈ X, ¬ G.Adj v u) → Greedy X X
  | step {X K : Finset α} {v : α} : v ∈ V → (∀ u ∈ X, G.Adj v u) →
      (∀ w ∈ V, (∀ u ∈ X, G.Adj w u) → v ≤ w) → Greedy (insert v X) K → Greedy X K

theorem Greedy.lexFirst {X K : Finset α} (h : Greedy G V X K) (hX : IsCliqueIn G V X) :
    LexFirst G V X K := by
  induction h with
  | done hout => exact (isMaximalClique_iff.mpr ⟨hX, hout⟩).lexFirst_self
  | @step X K v hv hadj hmin _ ih =>
    obtain ⟨hK, hsub, hout⟩ := ih (hX.insert hv hadj)
    refine ⟨hK, (Finset.subset_insert v X).trans hsub, fun w hw hwK hall => ?_⟩
    have hvK : v ∈ K := hsub (Finset.mem_insert_self v X)
    by_cases hwv : G.Adj w v
    · exact hout w hw hwK fun u hu => (Finset.mem_insert.mp hu).elim (fun h => h ▸ hwv) (hall u)
    · -- `v` was chosen before `w`
      refine ⟨v, hvK, lt_of_le_of_ne (hmin w hw hall) ?_, hwv⟩
      rintro rfl
      exact hwK hvK

theorem exists_greedy {X : Finset α} (hX : IsCliqueIn G V X) : ∃ K, Greedy G V X K := by
  classical
  induction hn : (V \ X).card using Nat.strong_induction_on generalizing X with
  | _ n ih =>
    by_cases hout : ∀ v ∈ V, ∃ u ∈ X, ¬ G.Adj v u
    · exact ⟨X, .done hout⟩
    · set A := V.filter fun v => ∀ u ∈ X, G.Adj v u with hA
      have hne : A.Nonempty := by
        push Not at hout
        obtain ⟨v, hv, hall⟩ := hout
        exact ⟨v, Finset.mem_filter.mpr ⟨hv, hall⟩⟩
      obtain ⟨hv, hadj⟩ := Finset.mem_filter.mp (A.min'_mem hne)
      have hvX : A.min' hne ∉ X := fun h => G.loopless.irrefl _ (hadj _ h)
      have hlt : (V \ insert (A.min' hne) X).card < n := by
        rw [← hn]
        apply Finset.card_lt_card
        refine ⟨Finset.sdiff_subset_sdiff le_rfl (Finset.subset_insert _ _), fun hsub => ?_⟩
        have := hsub (Finset.mem_sdiff.mpr ⟨hv, hvX⟩)
        exact (Finset.mem_sdiff.mp this).2 (Finset.mem_insert_self _ _)
      obtain ⟨K, hK⟩ := ih _ hlt (hX.insert hv hadj) rfl
      exact ⟨K, .step hv hadj (fun w hw hall =>
        A.min'_le w (Finset.mem_filter.mpr ⟨hw, hall⟩)) hK⟩

theorem greedy_iff_lexFirst {X K : Finset α} (hX : IsCliqueIn G V X) :
    Greedy G V X K ↔ LexFirst G V X K := by
  constructor
  · intro h
    exact h.lexFirst hX
  · intro h
    obtain ⟨K', hK'⟩ := exists_greedy hX
    rwa [h.unique (hK'.lexFirst hX)]

/-! ### The index of a maximal clique -/

variable (G V) in
/-- `p` is the smallest vertex of `K` such that the part of `K` up to `p` completes to `K`. -/
def IsIndex (K : Finset α) (p : α) : Prop :=
  p ∈ K ∧ LexFirst G V (K.filter (· ≤ p)) K ∧
    ∀ q ∈ K, LexFirst G V (K.filter (· ≤ q)) K → p ≤ q

theorem IsIndex.isMaximalClique {K : Finset α} {p : α} (h : IsIndex G V K p) :
    IsMaximalClique G V K := h.2.1.isMaximalClique

theorem IsIndex.unique {K : Finset α} {p q : α} (hp : IsIndex G V K p) (hq : IsIndex G V K q) :
    p = q :=
  le_antisymm (hp.2.2 q hq.1 hq.2.1) (hq.2.2 p hp.1 hp.2.1)

theorem exists_index {K : Finset α} (h : IsMaximalClique G V K) : ∃ p, IsIndex G V K p := by
  classical
  set A := K.filter fun q => LexFirst G V (K.filter (· ≤ q)) K with hA
  have hne : A.Nonempty := by
    refine ⟨K.max' h.prop.1, Finset.mem_filter.mpr ⟨Finset.max'_mem _ _, ?_⟩⟩
    rw [Finset.filter_true_of_mem fun u hu => Finset.le_max' K u hu]
    exact h.lexFirst_self
  obtain ⟨hmem, hlex⟩ := Finset.mem_filter.mp (A.min'_mem hne)
  exact ⟨A.min' hne, hmem, hlex, fun q hq hqlex =>
    Finset.min'_le A q (Finset.mem_filter.mpr ⟨hq, hqlex⟩)⟩

/-- The vertices of a set up to its member `c` are those below `c`, and `c`. -/
theorem filter_le_eq_insert {K : Finset α} {c : α} (hc : c ∈ K) :
    K.filter (· ≤ c) = insert c (K.filter (· < c)) := by
  ext u
  simp only [Finset.mem_filter, Finset.mem_insert, le_iff_lt_or_eq]
  constructor
  · rintro ⟨hu, h | h⟩
    · exact Or.inr ⟨hu, h⟩
    · exact Or.inl h
  · rintro (rfl | ⟨hu, h⟩)
    · exact ⟨hc, Or.inr rfl⟩
    · exact ⟨hu, Or.inl h⟩

/-- The smallest vertex is the index exactly when it has no smaller neighbour. -/
theorem isIndex_min_iff {K : Finset α} {p : α} (hp : p ∈ K) (hmin : ∀ u ∈ K, p ≤ u) :
    IsIndex G V K p ↔ LexFirst G V {p} K := by
  have hle : K.filter (· ≤ p) = {p} := by
    ext u
    simp only [Finset.mem_filter, Finset.mem_singleton]
    exact ⟨fun ⟨hu, h⟩ => le_antisymm h (hmin u hu), by rintro rfl; exact ⟨hp, le_rfl⟩⟩
  constructor
  · intro h
    rw [← hle]
    exact h.2.1
  · intro h
    exact ⟨hp, hle ▸ h, fun q hq _ => hmin q hq⟩

/-! ### Parents and children -/

variable (G V) in
/-- `(K', c)` is a child of `K`: `c` is the index of `K'`, not its smallest vertex, and the part of
`K'` below `c` completes to `K`. -/
def IsChild (K K' : Finset α) (c : α) : Prop :=
  IsIndex G V K' c ∧ (K'.filter (· < c)).Nonempty ∧ LexFirst G V (K'.filter (· < c)) K

theorem IsChild.notMem {K K' : Finset α} {c : α} (h : IsChild G V K K' c) : c ∉ K := by
  obtain ⟨hidx, hne, hlex⟩ := h
  intro hcK
  have hsub : K'.filter (· ≤ c) ⊆ K := by
    rw [filter_le_eq_insert hidx.1]
    exact Finset.insert_subset hcK hlex.2.1
  have hle : K'.filter (· < c) ⊆ K'.filter (· ≤ c) :=
    Finset.monotone_filter_right K' fun u _ hu => le_of_lt hu
  have heq : K = K' := (hlex.mono hle hsub).unique hidx.2.1
  subst heq
  -- then already the largest vertex below `c` would be an index
  set q := (K.filter (· < c)).max' hne with hq
  obtain ⟨hqK, hqc⟩ := Finset.mem_filter.mp (Finset.max'_mem _ hne)
  have hqset : K.filter (· < c) ⊆ K.filter (· ≤ q) := fun u hu =>
    Finset.mem_filter.mpr ⟨(Finset.mem_filter.mp hu).1, Finset.le_max' _ u hu⟩
  have := hidx.2.2 q hqK (hlex.mono hqset (Finset.filter_subset _ _))
  exact absurd this (not_le.mpr hqc)

/-- **The parent comes before its children and has a smaller index.** -/
theorem parent_spec {K K' : Finset α} {c : α} (h : IsChild G V K K' c) :
    Before K K' ∧ ∀ p, IsIndex G V K p → p < c := by
  obtain ⟨hidx, hne, hlex⟩ := h
  have hcK := IsChild.notMem ⟨hidx, hne, hlex⟩
  refine ⟨hlex.before hidx.isMaximalClique.prop (Finset.filter_subset _ _) ?_, fun p hp => ?_⟩
  · rintro rfl
    exact hcK hidx.1
  · set q := (K'.filter (· < c)).max' hne with hq
    have hqmem := Finset.max'_mem _ hne
    have hqc : q < c := (Finset.mem_filter.mp hqmem).2
    have hsub : K'.filter (· < c) ⊆ K.filter (· ≤ q) := fun u hu =>
      Finset.mem_filter.mpr ⟨hlex.2.1 hu, Finset.le_max' _ u hu⟩
    have hle := hp.2.2 q (hlex.2.1 hqmem) (hlex.mono hsub (Finset.filter_subset _ _))
    exact lt_of_le_of_lt hle hqc

/-- A maximal clique whose index is not its smallest vertex has a parent. -/
theorem exists_parent {K' : Finset α} {c : α} (hidx : IsIndex G V K' c)
    (hne : (K'.filter (· < c)).Nonempty) : ∃ K, IsChild G V K K' c := by
  have hclique := hidx.isMaximalClique.prop
  obtain ⟨K, hK⟩ := exists_lexFirst (G := G) (V := V) (X := K'.filter (· < c))
    ⟨hne, (Finset.filter_subset _ _).trans hclique.2.1,
      hclique.2.2.subset (Finset.coe_subset.mpr (Finset.filter_subset _ _))⟩
  exact ⟨K, hidx, hne, hK⟩

variable (G V) in
/-- The local reason to reject `c` as the index of a child of `K`: a vertex `v` adjacent to all
vertices of `K` below `c` that are adjacent to `c`, which comes before everything in `K` it is not
adjacent to, or before `c` and next to it. -/
def Rejects (K : Finset α) (c v : α) : Prop :=
  v ∈ V ∧ (∀ u ∈ K, u < c → G.Adj c u → G.Adj v u) ∧
    ((∀ u ∈ K, u ≤ v → G.Adj v u) ∨ (v ≤ c ∧ G.Adj v c))

section

variable [DecidableRel G.Adj] {K K' : Finset α} {c : α}

/-- The smaller neighbours of `c` in the parent are the vertices of the child below `c`. -/
theorem IsChild.filter_lt_eq (hK : IsMaximalClique G V K) (h : IsChild G V K K' c) :
    K'.filter (· < c) = K.filter fun u => u < c ∧ G.Adj c u := by
  obtain ⟨hidx, -, hlex⟩ := h
  have hK' := hidx.isMaximalClique.prop
  ext u
  simp only [Finset.mem_filter]
  constructor
  · rintro ⟨huK', huc⟩
    exact ⟨hlex.2.1 (Finset.mem_filter.mpr ⟨huK', huc⟩), huc, hK'.adj hidx.1 huK' huc.ne'⟩
  · rintro ⟨huK, huc, hadj⟩
    refine ⟨?_, huc⟩
    by_contra huK'
    -- `u` is adjacent to all that is completed to the child
    have hcompat : ∀ w ∈ K'.filter (· ≤ c), G.Adj u w := by
      intro w hw
      rw [filter_le_eq_insert hidx.1, Finset.mem_insert] at hw
      rcases hw with rfl | hw
      · exact hadj.symm
      · refine hK.prop.adj huK (hlex.2.1 hw) ?_
        rintro rfl
        exact huK' (Finset.mem_filter.mp hw).1
    obtain ⟨w, hw, hwu, hnot⟩ := hidx.2.1.2.2 u (hK.prop.2.1 huK) huK' hcompat
    have hwK : w ∈ K := hlex.2.1 (Finset.mem_filter.mpr ⟨hw, hwu.trans huc⟩)
    exact hnot (hK.prop.adj huK hwK hwu.ne')

/-- No vertex rejects the index of a child. -/
theorem IsChild.not_rejects (hK : IsMaximalClique G V K) (h : IsChild G V K K' c) (v : α) :
    ¬ Rejects G V K c v := by
  rintro ⟨hv, hsmaller, hrej⟩
  have hX := h.filter_lt_eq hK
  obtain ⟨hidx, -, hlex⟩ := h
  have hcompat : ∀ u ∈ K'.filter (· < c), G.Adj v u := by
    intro u hu
    rw [hX, Finset.mem_filter] at hu
    exact hsmaller u hu.1 hu.2.1 hu.2.2
  rcases hrej with hbad | ⟨hvc, hadj⟩
  · -- it would come before the parent
    have hvK : v ∉ K := fun h => G.loopless.irrefl v (hbad v h le_rfl)
    obtain ⟨u, hu, huv, hnot⟩ := hlex.2.2 v hv hvK hcompat
    exact hnot (hbad u hu huv.le)
  · -- it would come before the rest of the child
    have hvc' : v < c := lt_of_le_of_ne hvc hadj.ne
    have hvK' : v ∉ K' := fun h =>
      G.loopless.irrefl v (hcompat v (Finset.mem_filter.mpr ⟨h, hvc'⟩))
    have hcompat' : ∀ u ∈ K'.filter (· ≤ c), G.Adj v u := by
      intro u hu
      rw [filter_le_eq_insert hidx.1, Finset.mem_insert] at hu
      rcases hu with rfl | hu
      · exact hadj
      · exact hcompat u hu
    obtain ⟨w, hw, hwv, hnot⟩ := hidx.2.1.2.2 v hv hvK' hcompat'
    exact hnot (hcompat w (Finset.mem_filter.mpr ⟨hw, hwv.trans hvc'⟩))

/-- If no vertex rejects `c`, its smaller neighbours complete to the parent. -/
theorem lexFirst_of_not_rejects (hK : IsMaximalClique G V K)
    (hrej : ∀ v, ¬ Rejects G V K c v) : LexFirst G V (K.filter fun u => u < c ∧ G.Adj c u) K := by
  refine ⟨hK.prop, Finset.filter_subset _ _, fun v hv hvK hcompat => ?_⟩
  by_contra hno
  push Not at hno
  refine hrej v ⟨hv, fun u hu huc hadj => hcompat u (Finset.mem_filter.mpr ⟨hu, huc, hadj⟩),
    Or.inl fun u hu huv => hno u hu (lt_of_le_of_ne huv ?_)⟩
  rintro rfl
  exact hvK hu

/-- If no vertex rejects `c`, completion adds nothing below it. -/
theorem filter_lt_eq_of_not_rejects (hrej : ∀ v, ¬ Rejects G V K c v)
    (hlex : LexFirst G V (insert c (K.filter fun u => u < c ∧ G.Adj c u)) K') :
    K'.filter (· < c) = K.filter fun u => u < c ∧ G.Adj c u := by
  set X := K.filter fun u => u < c ∧ G.Adj c u
  have hXK' : X ⊆ K' := (Finset.subset_insert c X).trans hlex.2.1
  ext u
  constructor
  · intro hu
    obtain ⟨huK', huc⟩ := Finset.mem_filter.mp hu
    by_contra huX
    refine hrej u ⟨hlex.1.2.1 huK', fun w hw hwc hadj => ?_, Or.inr ⟨huc.le, ?_⟩⟩
    · have hwX : w ∈ X := Finset.mem_filter.mpr ⟨hw, hwc, hadj⟩
      refine hlex.1.adj huK' (hXK' hwX) ?_
      rintro rfl
      exact huX hwX
    · exact hlex.1.adj huK' (hlex.2.1 (Finset.mem_insert_self c X)) huc.ne
  · intro hu
    exact Finset.mem_filter.mpr ⟨hXK' hu, (Finset.mem_filter.mp hu).2.1⟩

/-- **The children of a maximal clique, by local tests.**  `(K', c)` is a child of `K` exactly when
`c` is a vertex outside `K` that has a smaller neighbour in `K`, no vertex rejects it, and the
smaller neighbours of `c` in `K` together with `c` complete to `K'`.  Such a `c` is above the index
of `K` by `parent_spec`. -/
theorem isChild_iff (hK : IsMaximalClique G V K) :
    IsChild G V K K' c ↔
      c ∈ V ∧ c ∉ K ∧ (K.filter fun u => u < c ∧ G.Adj c u).Nonempty ∧
        (∀ v, ¬ Rejects G V K c v) ∧
        LexFirst G V (insert c (K.filter fun u => u < c ∧ G.Adj c u)) K' := by
  constructor
  · intro h
    have hX := h.filter_lt_eq hK
    refine ⟨h.1.isMaximalClique.prop.2.1 h.1.1, h.notMem, hX ▸ h.2.1, h.not_rejects hK, ?_⟩
    rw [← hX, ← filter_le_eq_insert h.1.1]
    exact h.1.2.1
  · rintro ⟨-, hcK, hne, hrej, hlex⟩
    have hlexK := lexFirst_of_not_rejects hK hrej
    have hbelow := filter_lt_eq_of_not_rejects hrej hlex
    have hcK' : c ∈ K' := hlex.2.1 (Finset.mem_insert_self c _)
    refine ⟨⟨hcK', ?_, fun q hq hqlex => ?_⟩, hbelow ▸ hne, hbelow ▸ hlexK⟩
    · rw [filter_le_eq_insert hcK', hbelow]
      exact hlex
    · -- a smaller index would make the child the parent
      by_contra hlt
      have hsub : K'.filter (· ≤ q) ⊆ K.filter fun u => u < c ∧ G.Adj c u := by
        intro u hu
        rw [← hbelow]
        obtain ⟨huK', huq⟩ := Finset.mem_filter.mp hu
        exact Finset.mem_filter.mpr ⟨huK', lt_of_le_of_lt huq (not_le.mp hlt)⟩
      have hXK' := (Finset.subset_insert c _).trans hlex.2.1
      have heq : K = K' := hlexK.unique (hqlex.mono hsub hXK')
      exact hcK (heq ▸ hcK')

end

end LexCompletion
