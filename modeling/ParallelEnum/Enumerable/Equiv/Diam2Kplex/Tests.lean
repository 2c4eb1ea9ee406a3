import ParallelEnum.Enumerable.Equiv.Diam2Kplex.Node

/-!
# What the tests on a node decide

For a node with the invariant, each test of `Diam2KplexNodeImpl` in terms of the `k`-plex it holds
and of the indices that extend it:

* `isMaximal_iff`: no index next to the `k`-plex extends it.
* `hasUniversalInExcl_iff`, `isUniversal_iff`: adjacency to all of the `k`-plex and the candidates.
* `mem_notCuts_iff`: the candidates that a pivot does not rule out.
* `isReallyMaximal_iff`: the nodes that are reported.
-/

namespace ParallelEnum.Diam2Kplex.Impl

open Kplex

variable {g : Graph} {subgraph : Vec ℕ} {nadj : ℕ → List ℕ} {k q : ℕ} {impl : Impl}

/-! ### Counters -/

theorem Counted.card_kplex (h : Counted g subgraph k impl) :
    impl.kplex.toFinset.card = impl.kplex.length :=
  List.toFinset_card_of_nodup h.nodup

theorem Inv.counter_eq_zero_iff (h : Inv g subgraph k impl) (hk : k ≤ 255) {i : ℕ}
    (hi : i ∈ impl.cands ∨ i ∈ impl.excluded) :
    impl.counter i = 0 ↔ ∀ u ∈ impl.kplex, (blockGraph g subgraph).Adj i u := by
  rw [h.counter_eq_card hk hi]
  unfold nonAdj
  rw [Finset.card_filter_eq_zero_iff]
  simp

theorem Inv.counter_eq_length_iff (h : Inv g subgraph k impl) (hk : k ≤ 255) {i : ℕ}
    (hi : i ∈ impl.cands ∨ i ∈ impl.excluded) :
    impl.counter i = impl.kplex.length ↔
      ∀ u ∈ impl.kplex, ¬ (blockGraph g subgraph).Adj i u := by
  rw [h.counter_eq_card hk hi, ← h.card_kplex]
  unfold nonAdj
  rw [Finset.card_filter_eq_iff]
  simp

/-- The slots of an index that extends the `k`-plex hold its non-neighbours. -/
theorem Inv.exists_slot_iff (h : Inv g subgraph k impl) (hk : k ≤ 255) {i : ℕ}
    (hi : i ∈ impl.cands ∨ i ∈ impl.excluded) (p : ℕ → Prop) :
    (∃ j < impl.counter i, p (impl.nonNeighs.get (k * i + j))) ↔
      ∃ w ∈ impl.kplex, ¬ (blockGraph g subgraph).Adj i w ∧ p w := by
  have hlt := h.lt_of_mem i hi
  have hadd := (addable_iff h.isKplex).mp ((h.addable i hlt).mp hi)
  rw [← length_missing h.nodup] at hadd
  have hslots := h.slots_eq i hlt (by omega)
  have hcount := h.counter_eq_of_le hk hlt (by omega)
  have hmem : ∀ w, w ∈ impl.missing g subgraph i ↔
      ∃ j < impl.counter i, impl.nonNeighs.get (k * i + j) = w := by
    intro w
    conv_lhs => rw [← hslots]
    simp [hcount]
  constructor
  · rintro ⟨j, hj, hp⟩
    obtain ⟨h1, h2⟩ := mem_missing.mp ((hmem _).mpr ⟨j, hj, rfl⟩)
    exact ⟨_, h1, h2, hp⟩
  · rintro ⟨w, hw, hnot, hp⟩
    obtain ⟨j, hj, rfl⟩ := (hmem w).mp (mem_missing.mpr ⟨hw, hnot⟩)
    exact ⟨j, hj, hp⟩

/-- A row of `nadj` names the candidates that its index is not adjacent to. -/
theorem Inv.mem_nadj_cand (hB : IsBlock g subgraph nadj) (h : Inv g subgraph k impl) {i v : ℕ}
    (hi : i < subgraph.size) : (v ∈ nadj i ∧ impl.status.get v = .inCand) ↔
      v ∈ impl.cands ∧ ¬ (blockGraph g subgraph).Adj i v := by
  rw [hB.mem_nadj hi]
  constructor
  · rintro ⟨⟨hv, hnot⟩, hstatus⟩
    exact ⟨(h.status_cand v hv).mp hstatus, hnot⟩
  · rintro ⟨hv, hnot⟩
    have hlt := h.lt_of_mem v (Or.inl hv)
    exact ⟨⟨hlt, hnot⟩, (h.status_cand v hlt).mpr hv⟩

/-! ### `IsMaximal` -/

/-- The `k`-plex is maximal if no index in the lists is next to it. -/
theorem Inv.maximalIn_iff (h : Inv g subgraph k impl) :
    MaximalIn (blockGraph g subgraph) k (Finset.range subgraph.size) impl.kplex.toFinset ↔
      ∀ i, i ∈ impl.cands ∨ i ∈ impl.excluded →
        ∀ u ∈ impl.kplex, ¬ (blockGraph g subgraph).Adj i u := by
  unfold MaximalIn
  simp only [Finset.mem_range, List.mem_toFinset]
  constructor
  · intro hm i hi
    have hlt := h.lt_of_mem i hi
    exact hm i hlt ((h.addable i hlt).mp hi)
  · intro hm i hlt hadd
    exact hm i ((h.addable i hlt).mpr hadd)

/-- **`IsMaximal`**: no index next to the `k`-plex extends it. -/
theorem isMaximal_iff (h : Inv g subgraph k impl) (hk : k ≤ 255) :
    impl.isMaximal k = true ↔
      MaximalIn (blockGraph g subgraph) k (Finset.range subgraph.size) impl.kplex.toFinset := by
  rw [h.maximalIn_iff]
  unfold isMaximal
  by_cases hlen : impl.kplex.length + 1 > k
  · -- everything that extends a large `k`-plex is next to it
    have hnext : ∀ i, i ∈ impl.cands ∨ i ∈ impl.excluded →
        ∃ u ∈ impl.kplex, (blockGraph g subgraph).Adj i u := by
      intro i hi
      have hadd := (h.addable i (h.lt_of_mem i hi)).mp hi
      obtain ⟨u, hu, hadj⟩ := hadd.exists_adj (Finset.Subset.refl _)
        (by rw [h.card_kplex]; omega)
      exact ⟨u, List.mem_toFinset.mp hu, hadj⟩
    rw [if_pos hlen, Bool.and_eq_true, List.isEmpty_iff, List.isEmpty_iff]
    constructor
    · rintro ⟨h1, h2⟩ i hi
      rw [h1, h2] at hi
      simp at hi
    · intro hm
      constructor
      · rw [List.eq_nil_iff_forall_not_mem]
        intro i hi
        obtain ⟨u, hu, hadj⟩ := hnext i (Or.inl hi)
        exact hm i (Or.inl hi) u hu hadj
      · rw [List.eq_nil_iff_forall_not_mem]
        intro i hi
        obtain ⟨u, hu, hadj⟩ := hnext i (Or.inr hi)
        exact hm i (Or.inr hi) u hu hadj
  · rw [if_neg hlen]
    simp only [Bool.and_eq_true, List.all_eq_true, decide_eq_true_eq]
    constructor
    · rintro ⟨h1, h2⟩ i (hi | hi)
      · exact (h.counter_eq_length_iff hk (Or.inl hi)).mp (h1 i hi)
      · exact (h.counter_eq_length_iff hk (Or.inr hi)).mp (h2 i hi)
    · intro hm
      exact ⟨fun i hi => (h.counter_eq_length_iff hk (Or.inl hi)).mpr (hm i (Or.inl hi)),
        fun i hi => (h.counter_eq_length_iff hk (Or.inr hi)).mpr (hm i (Or.inr hi))⟩

/-! ### Universal indices -/

/-- **`HasUniversalInExcl`** -/
theorem hasUniversalInExcl_iff (hB : IsBlock g subgraph nadj) (h : Inv g subgraph k impl)
    (hk : k ≤ 255) : impl.hasUniversalInExcl nadj = true ↔
      ∃ u ∈ impl.excluded, (∀ w ∈ impl.kplex, (blockGraph g subgraph).Adj u w) ∧
        ∀ v ∈ impl.cands, (blockGraph g subgraph).Adj u v := by
  unfold hasUniversalInExcl
  simp only [List.any_eq_true, Bool.and_eq_true, List.all_eq_true, decide_eq_true_eq]
  refine exists_congr fun u => and_congr_right fun hu => ?_
  rw [h.counter_eq_zero_iff hk (Or.inr hu)]
  refine and_congr_right fun _ => ⟨fun hall v hv => ?_, fun hall v hv hstatus => ?_⟩
  · by_contra hnot
    obtain ⟨hmem, hstatus⟩ := (h.mem_nadj_cand hB (h.lt_of_mem u (Or.inr hu))).mpr ⟨hv, hnot⟩
    exact hall v hmem hstatus
  · obtain ⟨hcand, hnot⟩ := (h.mem_nadj_cand hB (h.lt_of_mem u (Or.inr hu))).mp ⟨hv, hstatus⟩
    exact hnot (hall v hcand)

/-- The test of `GetCands` for a universal candidate, by the counters it computes. -/
def isUniversal (nadj : ℕ → List ℕ) (impl : Impl) (u : ℕ) : Bool :=
  decide (impl.counter u = 0) &&
    (nadj u).all fun v => !decide (impl.status.get v = .inCand ∧ u ≠ v)

theorem isUniversal_iff (hB : IsBlock g subgraph nadj) (h : Inv g subgraph k impl)
    (hk : k ≤ 255) {u : ℕ} (hu : u ∈ impl.cands) : impl.isUniversal nadj u = true ↔
      (∀ w ∈ impl.kplex, (blockGraph g subgraph).Adj u w) ∧
        ∀ v ∈ impl.cands, v ≠ u → (blockGraph g subgraph).Adj u v := by
  unfold isUniversal
  simp only [Bool.and_eq_true, List.all_eq_true, decide_eq_true_eq, Bool.not_eq_true',
    decide_eq_false_iff_not, not_and, not_not]
  rw [h.counter_eq_zero_iff hk (Or.inl hu)]
  refine and_congr_right fun _ => ⟨fun hall v hv hne => ?_, fun hall v hv hstatus => ?_⟩
  · by_contra hnot
    obtain ⟨hmem, hstatus⟩ := (h.mem_nadj_cand hB (h.lt_of_mem u (Or.inl hu))).mpr ⟨hv, hnot⟩
    exact hne (hall v hmem hstatus).symm
  · by_contra hne
    obtain ⟨hcand, hnot⟩ := (h.mem_nadj_cand hB (h.lt_of_mem u (Or.inl hu))).mp ⟨hv, hstatus⟩
    exact hnot (hall v hcand (Ne.symm hne))

/-- The inner loop of `GetCands` counts up one entry. -/
theorem foldl_candCounter (impl : Impl) (u : ℕ) (l : List ℕ) (cc : Vec ℕ) (hu : u < cc.size) :
    let cc' := l.foldl
      (fun cc v =>
        if impl.status.get v = .inCand ∧ u ≠ v then cc.set u (cc.get u + 1) else cc) cc
    cc'.size = cc.size ∧ (∀ w, w ≠ u → cc'.get w = cc.get w) ∧
      cc'.get u = cc.get u + l.countP (fun v => decide (impl.status.get v = .inCand ∧ u ≠ v)) := by
  induction l generalizing cc with
  | nil => simp
  | cons v l ih =>
    dsimp only
    rw [List.foldl_cons, List.countP_cons]
    by_cases hv : impl.status.get v = .inCand ∧ u ≠ v
    · obtain ⟨h1, h2, h3⟩ := ih (cc.set u (cc.get u + 1)) (by rwa [Vec.size_set])
      rw [if_pos hv]
      refine ⟨h1.trans (Vec.size_set _ _ _), fun w hw => ?_, ?_⟩
      · rw [h2 w hw, Vec.get_set_of_ne _ (Ne.symm hw)]
      · rw [h3, Vec.get_set_self hu, if_pos (by simpa using hv)]
        omega
    · obtain ⟨h1, h2, h3⟩ := ih cc hu
      rw [if_neg hv]
      refine ⟨h1, h2, ?_⟩
      rw [h3, if_neg (by simpa using hv), Nat.add_zero]

variable (nadj) in
/-- The first loop of `GetCands` collects the universal candidates. -/
theorem foldl_scanCand (impl : Impl) {l : List ℕ} (hl : l.Nodup) (cc : Vec ℕ) (us : List ℕ)
    (hlt : ∀ u ∈ l, u < cc.size) (hzero : ∀ u ∈ l, cc.get u = 0) :
    (l.foldl (impl.scanCand nadj) (cc, us)).2 = us ++ l.filter (impl.isUniversal nadj) := by
  induction l generalizing cc us with
  | nil => simp
  | cons u l ih =>
    obtain ⟨hul, hl⟩ := List.nodup_cons.mp hl
    obtain ⟨h1, h2, h3⟩ := foldl_candCounter impl u (nadj u) cc (hlt u List.mem_cons_self)
    rw [List.foldl_cons]
    unfold scanCand at ih ⊢
    dsimp only at ih ⊢
    rw [ih hl _ _ (fun w hw => h1 ▸ hlt w (List.mem_cons_of_mem _ hw)) fun w hw => by
      rw [h2 w fun heq => hul (heq ▸ hw)]
      exact hzero w (List.mem_cons_of_mem _ hw)]
    have htest : (impl.counter u = 0 ∧ (List.foldl (fun cc v =>
          if impl.status.get v = .inCand ∧ u ≠ v then cc.set u (cc.get u + 1) else cc) cc
            (nadj u)).get u = 0) ↔ impl.isUniversal nadj u = true := by
      rw [h3, hzero u List.mem_cons_self, Nat.zero_add, List.countP_eq_zero]
      unfold isUniversal
      simp [imp_iff_not_or]
    rw [List.filter_cons]
    by_cases huniv : impl.isUniversal nadj u = true
    · rw [if_pos (htest.mpr huniv), if_pos huniv, List.append_assoc, List.singleton_append]
    · rw [if_neg fun h => huniv (htest.mp h), if_neg huniv]

/-! ### Pivoting -/

/-- **The candidates a pivot does not rule out.** -/
theorem mem_notCuts_iff (hB : IsBlock g subgraph nadj) (h : Inv g subgraph k impl) (hk : k ≤ 255)
    {u : ℕ} (hu : u ∈ impl.cands ∨ u ∈ impl.excluded) {v : ℕ} :
    v ∈ impl.notCuts g subgraph nadj k u ↔ v ∈ impl.cands ∧
      (¬ (blockGraph g subgraph).Adj u v ∨ ∃ w ∈ impl.kplex,
        ¬ (blockGraph g subgraph).Adj u w ∧ ¬ (blockGraph g subgraph).Adj v w) := by
  unfold notCuts
  by_cases hk1 : k = 1
  · have hadd := (addable_iff h.isKplex).mp ((h.addable u (h.lt_of_mem u hu)).mp hu)
    have hnone : ∀ w ∈ impl.kplex, (blockGraph g subgraph).Adj u w := by
      rw [← h.counter_eq_zero_iff hk hu, h.counter_eq_card hk hu]
      omega
    rw [if_neg (by simpa using hk1), List.mem_filter, decide_eq_true_iff,
      h.mem_nadj_cand hB (h.lt_of_mem u hu)]
    refine and_congr_right fun _ => ⟨Or.inl, ?_⟩
    rintro (hnot | ⟨w, hw, hnot, -⟩)
    · exact hnot
    · exact absurd (hnone w hw) hnot
  · rw [if_pos hk1, List.mem_filter]
    refine and_congr_right fun _ => ?_
    rw [← h.exists_slot_iff hk hu fun w => ¬ (blockGraph g subgraph).Adj v w]
    simp

theorem notCuts_nodup (hB : IsBlock g subgraph nadj) (h : Inv g subgraph k impl) {u : ℕ}
    (hu : u < subgraph.size) : (impl.notCuts g subgraph nadj k u).Nodup := by
  unfold notCuts
  split_ifs
  · exact h.cands_nodup.filter _
  · exact (hB.nodup_nadj hu).filter _

/-- A scan for the smallest value of `f` ends at its start or at an entry of the list. -/
theorem foldl_smallest_fst (f : ℕ → ℕ) (l : List ℕ) (s : ℕ × ℕ) :
    (l.foldl (fun s u => if f u < s.2 then (u, f u) else s) s).1 = s.1 ∨
      (l.foldl (fun s u => if f u < s.2 then (u, f u) else s) s).1 ∈ l := by
  induction l generalizing s with
  | nil => exact Or.inl rfl
  | cons u l ih =>
    rw [List.foldl_cons]
    rcases ih (if f u < s.2 then (u, f u) else s) with h | h
    · rw [h]
      split_ifs
      · exact Or.inr List.mem_cons_self
      · exact Or.inl rfl
    · exact Or.inr (List.mem_cons_of_mem _ h)

variable (g subgraph nadj k) in
/-- The pivot is a candidate or an excluded index. -/
theorem best_mem (hne : impl.cands ≠ []) :
    impl.best g subgraph nadj k ∈ impl.cands ∨ impl.best g subgraph nadj k ∈ impl.excluded := by
  have hhead : impl.cands.headD 0 ∈ impl.cands := by
    cases hc : impl.cands with
    | nil => exact absurd hc hne
    | cons u l => exact List.mem_cons_self
  set f : ℕ → ℕ := fun u => (impl.notCuts g subgraph nadj k u).length with hf
  have hbest : impl.best g subgraph nadj k = (impl.excluded.foldl
      (fun s u => if f u < s.2 then (u, f u) else s) (impl.cands.foldl
        (fun s u => if f u < s.2 then (u, f u) else s)
        (impl.cands.headD 0, impl.cands.length))).1 := rfl
  rw [hbest]
  rcases foldl_smallest_fst f impl.excluded _ with h | h
  · left
    rw [h]
    rcases foldl_smallest_fst f impl.cands (impl.cands.headD 0, impl.cands.length) with h' | h'
    · rw [h']
      exact hhead
    · exact h'
  · exact Or.inr h

/-! ### `IsReallyMaximal` -/

/-- **`HasDiameterTwo`**, which is wrong about a single vertex when `k` is at least 3. -/
theorem hasDiameterTwo_iff (h : Inv g subgraph k impl) (hk : 1 ≤ k) :
    impl.hasDiameterTwo g subgraph k = true ↔
      DiamTwo (blockGraph g subgraph) impl.kplex.toFinset ∧
        (3 ≤ k → 2 ≤ impl.kplex.toFinset.card) := by
  have hcard := h.card_kplex
  have hpos : 0 < impl.kplex.length := List.length_pos_of_mem h.zero_mem
  unfold hasDiameterTwo
  by_cases hlen : impl.kplex.length + 2 > 2 * k
  · rw [if_pos hlen]
    refine ⟨fun _ => ⟨h.isKplex.diamTwo (by omega), by omega⟩, fun _ => rfl⟩
  · rw [if_neg hlen]
    by_cases hk2 : k = 2
    · rw [if_pos hk2]
      refine ⟨fun _ => ⟨fun u hu v hv hne => ?_, by omega⟩, fun _ => rfl⟩
      -- two members, one of them the root, and the other has grown out of it
      left
      have hpair : impl.kplex.toFinset ⊆ {u, v} := by
        have hsub : ({u, v} : Finset ℕ) ⊆ impl.kplex.toFinset := by
          intro x hx
          rcases Finset.mem_insert.mp hx with rfl | hx
          · exact hu
          · exact Finset.mem_singleton.mp hx ▸ hv
        exact (Finset.eq_of_subset_of_card_le hsub (by rw [Finset.card_pair hne]; omega)).ge
      by_cases hu0 : u = 0
      · obtain ⟨w, hw, hadj⟩ := h.grown v (List.mem_toFinset.mp hv) (by omega)
        rcases Finset.mem_insert.mp (hpair (List.mem_toFinset.mpr hw)) with rfl | hw
        · exact hadj.symm
        · exact absurd (Finset.mem_singleton.mp hw).symm hadj.ne
      · obtain ⟨w, hw, hadj⟩ := h.grown u (List.mem_toFinset.mp hu) hu0
        rcases Finset.mem_insert.mp (hpair (List.mem_toFinset.mpr hw)) with rfl | hw
        · exact absurd rfl hadj.ne
        · exact Finset.mem_singleton.mp hw ▸ hadj
    · rw [if_neg hk2]
      simp only [List.all_eq_true, Bool.or_eq_true, List.any_eq_true, Bool.and_eq_true,
        areNeighs_get, decide_eq_true_eq]
      unfold DiamTwo
      simp only [List.mem_toFinset]
      constructor
      · intro hall
        refine ⟨fun u hu v hv _ => hall v hv u hu, fun _ => ?_⟩
        by_contra hone
        rcases hall 0 h.zero_mem 0 h.zero_mem with hadj | ⟨x, hx, hadj, -⟩
        · exact absurd rfl hadj.ne
        · have htwo : 2 ≤ impl.kplex.toFinset.card := by
            rw [← Finset.card_pair hadj.ne]
            apply Finset.card_le_card
            intro y hy
            rcases Finset.mem_insert.mp hy with rfl | hy
            · exact List.mem_toFinset.mpr h.zero_mem
            · exact Finset.mem_singleton.mp hy ▸ List.mem_toFinset.mpr hx
          exact hone htwo
      · rintro ⟨hdiam, htwo⟩ v hv u hu
        by_cases hne : u = v
        · subst hne
          obtain ⟨w, hw, hwu⟩ := Finset.exists_mem_ne (htwo (by omega)) u
          have hw := List.mem_toFinset.mp hw
          right
          rcases hdiam u hu w hw hwu.symm with hadj | ⟨x, hx, hadj, -⟩
          · exact ⟨w, hw, hadj, hadj⟩
          · exact ⟨x, hx, hadj, hadj⟩
        · exact hdiam u hu v hv hne

/-- **The test against vertices before the root** looks at neighbours of the first `k` members,
which is enough. -/
theorem hasSmaller_iff (hB : IsBlock g subgraph nadj) (h : Inv g subgraph k impl) (hk : k ≤ 255)
    (hroot : ∀ i < subgraph.size, subgraph.get 0 ≤ subgraph.get i) :
    impl.hasSmaller g subgraph k = true ↔
      ¬ MaximalIn g.toSimpleGraph k (Finset.range (subgraph.get 0))
        (impl.kplex.toFinset.image subgraph.get) := by
  have hsmall : ∀ m < subgraph.get 0, m ∉ impl.kplex.toFinset.image subgraph.get := by
    intro m hm hmem
    obtain ⟨i, hi, rfl⟩ := Finset.mem_image.mp hmem
    have := hroot i (h.lt_size i (List.mem_toFinset.mp hi))
    omega
  have hneighs : ∀ v, (g.neighs v).takeWhile (· < subgraph.get 0)
      = (g.neighs v).filter (· < subgraph.get 0) := fun v =>
    Graph.takeWhile_eq_filter (fun a b hab hb => by simp at hb ⊢; omega) (g.neighs_pairwise v)
  have hsmaller : impl.hasSmaller g subgraph k = true ↔ ∃ i ∈ impl.kplex.take k,
      ∃ m < subgraph.get 0, g.toSimpleGraph.Adj m (subgraph.get i) ∧
        Addable g.toSimpleGraph k (impl.kplex.toFinset.image subgraph.get) m := by
    unfold hasSmaller
    simp only [List.any_eq_true, hneighs, List.mem_filter, decide_eq_true_eq]
    refine exists_congr fun i => and_congr_right fun _ => exists_congr fun m => ?_
    constructor
    · rintro ⟨⟨hm, hlt⟩, hadd⟩
      exact ⟨hlt, (g.adj_iff_mem.mpr hm).symm,
        (canAddVertex_iff hB hk h.toCounted h.isKplex (hsmall m hlt)).mp hadd⟩
    · rintro ⟨hlt, hadj, hadd⟩
      exact ⟨⟨g.adj_iff_mem.mp hadj.symm, hlt⟩,
        (canAddVertex_iff hB hk h.toCounted h.isKplex (hsmall m hlt)).mpr hadd⟩
  rw [hsmaller]
  unfold MaximalIn
  push Not
  constructor
  · rintro ⟨i, hi, m, hlt, hadj, hadd⟩
    refine ⟨m, Finset.mem_range.mpr hlt, hadd, subgraph.get i, ?_, hadj⟩
    exact Finset.mem_image_of_mem _ (List.mem_toFinset.mpr (List.mem_of_mem_take hi))
  · rintro ⟨m, hlt, hadd, u, hu, hadj⟩
    have hlt := Finset.mem_range.mp hlt
    by_cases hlen : impl.kplex.length ≤ k
    · obtain ⟨i, hi, rfl⟩ := Finset.mem_image.mp hu
      refine ⟨i, ?_, m, hlt, hadj, hadd⟩
      rw [List.take_of_length_le hlen]
      exact List.mem_toFinset.mp hi
    · -- among `k` members there is a neighbour of a vertex that can be added
      have hsub : (impl.kplex.take k).toFinset ⊆ impl.kplex.toFinset := by
        intro x hx
        exact List.mem_toFinset.mpr (List.mem_of_mem_take (List.mem_toFinset.mp hx))
      have hinj : Set.InjOn subgraph.get ((impl.kplex.take k).toFinset : Set ℕ) :=
        hB.injOn_coe fun i hi => h.lt_size i (List.mem_toFinset.mp (hsub hi))
      have hcard : ((impl.kplex.take k).toFinset.image subgraph.get).card = k := by
        rw [Finset.card_image_of_injOn hinj,
          List.toFinset_card_of_nodup (h.nodup.sublist (List.take_sublist k _)),
          List.length_take]
        omega
      obtain ⟨w, hw, hadj'⟩ := hadd.exists_adj (Finset.image_subset_image hsub) hcard.ge
      obtain ⟨i, hi, rfl⟩ := Finset.mem_image.mp hw
      exact ⟨i, List.mem_toFinset.mp hi, m, hlt, hadj', hadd⟩

/-- **The nodes that are reported.** -/
theorem isReallyMaximal_iff (hB : IsBlock g subgraph nadj) (h : Inv g subgraph k impl)
    (hk : 1 ≤ k) (hk' : k ≤ 255)
    (hroot : ∀ i < subgraph.size, subgraph.get 0 ≤ subgraph.get i) :
    impl.isReallyMaximal g subgraph k q = true ↔
      MaximalIn (blockGraph g subgraph) k (Finset.range subgraph.size) impl.kplex.toFinset ∧
      q ≤ impl.kplex.toFinset.card ∧
      (DiamTwo (blockGraph g subgraph) impl.kplex.toFinset ∧
        (3 ≤ k → 2 ≤ impl.kplex.toFinset.card)) ∧
      MaximalIn g.toSimpleGraph k (Finset.range (subgraph.get 0))
        (impl.kplex.toFinset.image subgraph.get) := by
  rw [← isMaximal_iff h hk', ← hasDiameterTwo_iff h hk, h.card_kplex]
  have hsmaller := hasSmaller_iff hB h hk' hroot
  unfold isReallyMaximal
  by_cases h1 : impl.isMaximal k = true
  · by_cases h2 : impl.kplex.length < q
    · simp [h1, h2]
    · by_cases h3 : impl.hasDiameterTwo g subgraph k = true
      · have h2' := not_lt.mp h2
        by_cases h4 : impl.hasSmaller g subgraph k = true
        · simp [h1, h3, h4, hsmaller.mp h4]
        · have := not_not.mp fun hn => h4 (hsmaller.mpr hn)
          simp [h1, h2, h2', h3, h4, this]
      · simp [h1, h3]
  · simp [h1]

end ParallelEnum.Diam2Kplex.Impl
