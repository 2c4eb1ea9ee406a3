import ParallelEnum.Enumerable.Equiv.Diam2Kplex.Reachable

/-!
# The counters of eight bits

`CountersExact` says that the entries read for a node are exact.  Up to `k = 255` they are, in
every node of every graph, and beyond that they are not (`countersExact_iff`).

The graph for a larger `k` is a star.  Its leaves join the centre one after the other, each of them
counted for every leaf, and the entry of each of the 256 leaves that have joined goes from 255
back to 0.
-/

namespace ParallelEnum.Diam2Kplex

open Kplex

/-- The entry of each index in a list of the node is the number of members not adjacent to it. -/
def CountersExact (g : Graph) (subgraph : Vec ℕ) (impl : Impl) : Prop :=
  ∀ i, i ∈ impl.kplex ∨ i ∈ impl.cands ∨ i ∈ impl.excluded →
    impl.counter i
      = (impl.kplex.filter fun u => !decide ((blockGraph g subgraph).Adj i u)).length

/-! ### Stars -/

/-- A block in which index `0` is adjacent to every other index, and no other two are. -/
structure IsStar (g : Graph) (subgraph : Vec ℕ) (nadj : ℕ → List ℕ) : Prop
    extends IsBlock g subgraph nadj where
  adj_iff : ∀ i < subgraph.size, ∀ j < subgraph.size,
    (blockGraph g subgraph).Adj i j ↔ (i = 0 ↔ j ≠ 0)

/-- A node that holds the centre and some leaves, with the other leaves as candidates. -/
structure HoldsLeaves (subgraph : Vec ℕ) (leaves : List ℕ) (impl : Impl) : Prop where
  kplex_eq : impl.kplex = 0 :: leaves
  isLeaf : ∀ i ∈ leaves, i ≠ 0 ∧ i < subgraph.size
  cands_nodup : impl.cands.Nodup
  mem_cands : ∀ i, i ∈ impl.cands ↔ i ≠ 0 ∧ i < subgraph.size ∧ i ∉ leaves
  excluded_eq : impl.excluded = []
  size_counters : impl.counters.size = subgraph.size
  size_status : impl.status.size = subgraph.size
  /-- The leaves that have joined are counted for each leaf, modulo 256. -/
  counter_eq : ∀ i, i ≠ 0 → i < subgraph.size → impl.counter i = leaves.length % 256
  status_cand : ∀ i ∈ impl.cands, impl.status.get i = .inCand

section Star

variable {g : Graph} {subgraph : Vec ℕ} {nadj : ℕ → List ℕ} {k q : ℕ} {enablePivoting : Bool}
  {std : StdSort} {impl : Impl} {leaves : List ℕ}

theorem IsStar.mem_nadj_leaf (hS : IsStar g subgraph nadj) {i j : ℕ} (hi : i ≠ 0)
    (hlt : i < subgraph.size) : j ∈ nadj i ↔ j ≠ 0 ∧ j < subgraph.size := by
  rw [hS.mem_nadj hlt]
  constructor
  · rintro ⟨hj, hnot⟩
    refine ⟨fun hj0 => hnot ?_, hj⟩
    rw [hS.adj_iff i hlt j hj]
    omega
  · rintro ⟨hj0, hj⟩
    refine ⟨hj, fun hadj => ?_⟩
    rw [hS.adj_iff i hlt j hj] at hadj
    omega

/-- The root node of a star. -/
theorem holdsLeaves_init (hS : IsStar g subgraph nadj) (hk : 1 ≤ k) :
    HoldsLeaves subgraph [] (Impl.init subgraph nadj k) := by
  obtain ⟨hkplex, hcands, hexcl, hsize, hstatus⟩ := init_frame subgraph nadj k
  constructor
  case kplex_eq => exact hkplex
  case isLeaf => exact fun i hi => absurd hi List.not_mem_nil
  case cands_nodup =>
    rw [hcands]
    exact List.nodup_range'
  case mem_cands =>
    intro i
    rw [hcands, mem_range'_one]
    simp
  case excluded_eq => exact hexcl
  case size_counters => exact hsize
  case size_status =>
    rw [hstatus, Vec.size_setAll, Vec.size_set, Vec.size_zeros]
  case counter_eq =>
    intro i hi0 hi
    -- the centre is counted for itself only
    have hnot : i ∉ nadj 0 := by
      rw [hS.mem_nadj hS.pos, hS.adj_iff 0 hS.pos i hi]
      omega
    have hempty : (emptyImpl subgraph k).counter i = 0 := by
      show ((Vec.zeros subgraph.size : Vec UInt8).get i).toNat = 0
      rw [Vec.get_zeros]
      rfl
    rw [init_eq hS.toIsBlock hk]
    show ((emptyImpl subgraph k).addToKplex nadj k 0).counter i = 0
    rw [Impl.counter_addToKplex 0 (hS.nodup_nadj hS.pos) fun e he =>
      ((hS.mem_nadj hS.pos).mp he).1.trans_eq (Vec.size_zeros _).symm, if_neg hnot, hempty]
  case status_cand =>
    intro i hi
    rw [hcands, mem_range'_one] at hi
    rw [status_init nadj k hi.2, if_neg hi.1]

/-- Every leaf has joined or is a candidate. -/
theorem HoldsLeaves.two_le_cands (h : HoldsLeaves subgraph leaves impl)
    (hlen : leaves.length + 3 ≤ subgraph.size) : 2 ≤ impl.cands.length := by
  have hsub : List.range' 1 (subgraph.size - 1) ⊆ impl.cands ++ leaves := by
    intro i hi
    rw [mem_range'_one] at hi
    by_cases hiL : i ∈ leaves
    · exact List.mem_append_right _ hiL
    · exact List.mem_append_left _ ((h.mem_cands i).mpr ⟨hi.1, hi.2, hiL⟩)
  have hnodup : (List.range' 1 (subgraph.size - 1)).Nodup := List.nodup_range'
  have hle := (hnodup.subperm hsub).length_le
  rw [List.length_range', List.length_append] at hle
  omega

variable (enablePivoting std) in
/-- No candidate of a star is universal while there is another one. -/
theorem HoldsLeaves.getCands (hS : IsStar g subgraph nadj) (h : HoldsLeaves subgraph leaves impl)
    (hk : 2 ≤ k) (htwo : 2 ≤ impl.cands.length) :
    (impl.getCands g subgraph nadj k enablePivoting std).1 = [] ∧
      (impl.getCands g subgraph nadj k enablePivoting std).2.Perm impl.cands := by
  have hlt : ∀ u ∈ impl.cands, u < subgraph.size := fun u hu => ((h.mem_cands u).mp hu).2.1
  have hne : impl.cands ≠ [] := fun hnil => by simp [hnil] at htwo
  have hnone : (impl.getCands g subgraph nadj k enablePivoting std).1 = [] := by
    rw [Impl.getCands_fst h.cands_nodup hlt, List.filter_eq_nil_iff]
    intro u hu huniv
    -- another candidate is not adjacent to `u`
    obtain ⟨v, hv, hvu⟩ : ∃ v ∈ impl.cands, v ≠ u := by
      by_contra hall
      push Not at hall
      have hsub : impl.cands ⊆ [u] := fun v hv => List.mem_singleton.mpr (hall v hv)
      have hle := (h.cands_nodup.subperm hsub).length_le
      rw [List.length_singleton] at hle
      omega
    obtain ⟨hv0, hvlt, -⟩ := (h.mem_cands v).mp hv
    have hmem : v ∈ nadj u :=
      (hS.mem_nadj_leaf ((h.mem_cands u).mp hu).1 (hlt u hu)).mpr ⟨hv0, hvlt⟩
    unfold Impl.isUniversal at huniv
    simp only [Bool.and_eq_true, List.all_eq_true] at huniv
    have hcontra := huniv.2 v hmem
    simp [h.status_cand v hv, hvu.symm] at hcontra
  refine ⟨hnone, (Impl.getCands_snd hne hnone).trans ?_⟩
  -- with a pivot or without one, every candidate is branched on
  have hreal : impl.realCands g subgraph nadj k enablePivoting = impl.cands := by
    unfold Impl.realCands
    split_ifs
    · have hbest := Impl.best_mem g subgraph nadj k hne
      rw [h.excluded_eq, or_iff_left List.not_mem_nil] at hbest
      unfold Impl.notCuts
      rw [if_pos (by omega : k ≠ 1), List.filter_eq_self]
      intro v hv
      rw [areNeighs_get, Bool.or_eq_true, Bool.not_eq_true', decide_eq_false_iff_not]
      left
      rw [hS.adj_iff _ (hlt _ hbest) v (hlt v hv)]
      have hb0 := ((h.mem_cands _).mp hbest).1
      have hv0 := ((h.mem_cands v).mp hv).1
      omega
    · rw [List.filter_eq_self]
      intro u hu
      rw [h.counter_eq u ((h.mem_cands u).mp hu).1 (hlt u hu), h.kplex_eq, List.length_cons,
        decide_eq_true_eq]
      omega
  rw [hreal]

/-- The first child of a node of a star: one more leaf has joined. -/
theorem HoldsLeaves.exists_child (hS : IsStar g subgraph nadj)
    (h : HoldsLeaves subgraph leaves impl) (hk : 2 ≤ k) (hq : q ≤ 1)
    (htwo : 2 ≤ impl.cands.length) : ∃ c ∈ impl.cands,
      addChild g k subgraph nadj impl [] (Vec.zeros subgraph.size) c
        ∈ children g subgraph nadj k q enablePivoting std impl := by
  obtain ⟨hnone, hperm⟩ := h.getCands enablePivoting std hS hk htwo
  have hne : impl.cands ≠ [] := fun hnil => by simp [hnil] at htwo
  obtain ⟨u, hu⟩ := List.exists_mem_of_ne_nil _ hne
  have hmaximal : impl.isMaximal k = false := by
    unfold Impl.isMaximal
    split_ifs
    · rw [List.isEmpty_eq_false_iff.mpr hne, Bool.false_and]
    · rw [Bool.and_eq_false_iff]
      left
      rw [List.all_eq_false]
      refine ⟨u, hu, ?_⟩
      rw [h.counter_eq u ((h.mem_cands u).mp hu).1 ((h.mem_cands u).mp hu).2.1, h.kplex_eq,
        List.length_cons, decide_eq_true_eq]
      omega
  have hprune : impl.canPrune q = false := by
    unfold Impl.canPrune
    rw [h.kplex_eq, List.length_cons, decide_eq_false_iff_not]
    omega
  have huniv : impl.hasUniversalInExcl nadj = false := by
    unfold Impl.hasUniversalInExcl
    rw [h.excluded_eq]
    rfl
  have heq : children g subgraph nadj k q enablePivoting std impl
      = childrenFrom g subgraph nadj k impl
          (impl.getCands g subgraph nadj k enablePivoting std).2 [] (Vec.zeros subgraph.size) := by
    unfold children
    dsimp only
    rw [hmaximal, hprune, huniv, hnone]
    rfl
  rw [heq]
  cases hcs : (impl.getCands g subgraph nadj k enablePivoting std).2 with
  | nil =>
    rw [hcs] at hperm
    exact absurd hperm.nil_eq.symm hne
  | cons c cs =>
    rw [hcs] at hperm
    exact ⟨c, hperm.subset List.mem_cons_self, List.mem_cons_self⟩

variable (nadj k) in
/-- `AddToKplex` appends the leaf and leaves the lists alone. -/
theorem HoldsLeaves.addToKplex (h : HoldsLeaves subgraph leaves impl) (c : ℕ) :
    (impl.addToKplex nadj k c).kplex = 0 :: (leaves ++ [c]) ∧
      (impl.addToKplex nadj k c).cands = impl.cands ∧
      (impl.addToKplex nadj k c).excluded = [] ∧
      (impl.addToKplex nadj k c).status = impl.status.set c .inKplex ∧
      (impl.addToKplex nadj k c).counters.size = subgraph.size := by
  obtain ⟨counters, nonNeighs, hrun, hsize, -⟩ := Impl.addToKplex_frame impl nadj k c
  rw [hrun]
  refine ⟨?_, rfl, h.excluded_eq, rfl, hsize.trans h.size_counters⟩
  show impl.kplex ++ [c] = _
  rw [h.kplex_eq, List.cons_append]

/-- What `AddToKplex` and `UpdateCandAndExcl` make of the entries of the leaves. -/
theorem HoldsLeaves.counter_addChild (hS : IsStar g subgraph nadj)
    (h : HoldsLeaves subgraph leaves impl) {c : ℕ} (hc : c ∈ impl.cands) (bits : Vec Bool) :
    (addChild g k subgraph nadj impl [] bits c).kplex = 0 :: (leaves ++ [c]) ∧
      (addChild g k subgraph nadj impl [] bits c).counters.size = subgraph.size ∧
      ∀ i, i ≠ 0 → i < subgraph.size →
        (addChild g k subgraph nadj impl [] bits c).counter i = (leaves.length + 1) % 256 := by
  obtain ⟨hc0, hclt, -⟩ := (h.mem_cands c).mp hc
  obtain ⟨hkplex, -, -, -, hsize⟩ := h.addToKplex nadj k c
  have hcounter : ∀ i, i ≠ 0 → i < subgraph.size →
      (impl.addToKplex nadj k c).counter i = (leaves.length + 1) % 256 := by
    intro i hi0 hi
    rw [Impl.counter_addToKplex c (hS.nodup_nadj hclt) fun e he => by
      rw [h.size_counters]
      exact ((hS.mem_nadj hclt).mp he).1, if_pos ((hS.mem_nadj_leaf hc0 hclt).mpr ⟨hi0, hi⟩),
      h.counter_eq i hi0 hi]
    omega
  unfold addChild
  rw [Impl.updateCandAndExcl_eq (fun e => (impl.addToKplex nadj k c).canAddVertex g subgraph k
    (subgraph.get e)) [] bits _ fun _ => rfl]
  exact ⟨hkplex, hsize, hcounter⟩

/-- With at most 255 leaves no leaf misses more than `k` members, for any `k` from 256 on:
`CanAdd` accepts every other candidate. -/
theorem HoldsLeaves.canAdd (hS : IsStar g subgraph nadj) (h : HoldsLeaves subgraph leaves impl)
    (hk : 256 ≤ k) (hlen : leaves.length ≤ 254) {c i : ℕ} (hclt : c < subgraph.size)
    (hi : i ∈ impl.cands) :
    (impl.addToKplex nadj k c).canAdd g subgraph k i = decide (i ≠ c) := by
  obtain ⟨hkplex, -, -, hstatus, -⟩ := h.addToKplex nadj k c
  obtain ⟨hi0, hilt, -⟩ := (h.mem_cands i).mp hi
  rw [Impl.canAdd_eq, hstatus, Vec.get_set, h.size_status]
  by_cases hic : i = c
  · rw [if_pos ⟨hic.symm, hclt⟩]
    simp [hic]
  · have hadd : (impl.addToKplex nadj k c).canAddVertex g subgraph k (subgraph.get i) = true := by
      unfold Impl.canAddVertex
      rw [Impl.canAddLoop_iff, hkplex]
      constructor
      · -- the centre is a neighbour, so only the leaves are missed
        have hzero : (!g.areNeighs (subgraph.get i) (subgraph.get 0)) = false := by
          rw [areNeighs_get, Bool.not_eq_false', decide_eq_true_eq, hS.adj_iff i hilt 0 hS.pos]
          omega
        have hle := List.length_filter_le (fun u => !g.areNeighs (subgraph.get i)
          (subgraph.get u)) (leaves ++ [c])
        rw [List.filter_cons_of_neg (by simpa using hzero)]
        rw [List.length_append, List.length_singleton] at hle
        omega
      · -- no entry of eight bits reaches `k`
        intro u _ _
        have hbyte : (impl.addToKplex nadj k c).counter u < 256 := UInt8.toNat_lt _
        omega
    rw [hadd, if_neg fun heq => hic heq.1.symm, h.status_cand i hi]
    simp [hic]

/-- While the entries do not wrap, the child is a node of the same kind. -/
theorem HoldsLeaves.addChild (hS : IsStar g subgraph nadj) (h : HoldsLeaves subgraph leaves impl)
    (hk : 256 ≤ k) (hlen : leaves.length ≤ 254) {c : ℕ} (hc : c ∈ impl.cands) :
    HoldsLeaves subgraph (leaves ++ [c])
      (addChild g k subgraph nadj impl [] (Vec.zeros subgraph.size) c) := by
  have hlt : ∀ i ∈ impl.cands, i < subgraph.size := fun i hi => ((h.mem_cands i).mp hi).2.1
  obtain ⟨hc0, hclt, hcL⟩ := (h.mem_cands c).mp hc
  obtain ⟨hkplex, hsizeCounters, hcounter⟩ :=
    h.counter_addChild (k := k) hS hc (Vec.zeros subgraph.size)
  obtain ⟨-, hmidC, hmidX, hmidS, -⟩ := h.addToKplex nadj k c
  set mid := impl.addToKplex nadj k c with hmid
  obtain ⟨excluded, cands, status, hupdate, hexcl, hcands, hsizeStatus, hstatus⟩ :=
    Impl.updateCandAndExcl_spec [] (Vec.zeros subgraph.size)
      mid (by simp [hmidX])
      (hmidC ▸ h.cands_nodup) (by simp [hmidX]) (by simp [hmidX])
      (fun i hi => by
        rw [hmidS, Vec.size_set, h.size_status]
        exact hlt i (hmidC ▸ hi))
      (fun i _ => by
        rw [Vec.get_zeros]
        rfl)
  have hchild : Diam2Kplex.addChild g k subgraph nadj impl [] (Vec.zeros subgraph.size) c
      = { mid with excluded := excluded, cands := cands, status := status } := hupdate
  have hmem : ∀ i, i ∈ cands ↔ i ∈ impl.cands ∧ i ≠ c := by
    intro i
    rw [hcands, hmidC, List.mem_filter]
    refine and_congr_right fun hi => ?_
    rw [h.canAdd hS hk hlen hclt hi]
    simp
  constructor
  case kplex_eq => exact hkplex
  case isLeaf =>
    intro i hi
    rcases List.mem_append.mp hi with hi | hi
    · exact h.isLeaf i hi
    · rw [List.mem_singleton.mp hi]
      exact ⟨hc0, hclt⟩
  case cands_nodup =>
    rw [hchild, hcands, hmidC]
    exact h.cands_nodup.filter _
  case mem_cands =>
    intro i
    rw [hchild]
    show i ∈ cands ↔ _
    rw [hmem, h.mem_cands, List.mem_append, List.mem_singleton]
    tauto
  case excluded_eq =>
    rw [hchild]
    show excluded = []
    rw [hexcl, hmidX]
    rfl
  case size_counters => exact hsizeCounters
  case size_status =>
    rw [hchild]
    show status.size = _
    rw [hsizeStatus, hmidS, Vec.size_set, h.size_status]
  case counter_eq =>
    intro i hi0 hi
    rw [hcounter i hi0 hi, List.length_append, List.length_singleton]
  case status_cand =>
    intro i hi
    rw [hchild] at hi ⊢
    have hi : i ∈ cands := hi
    show status.get i = _
    rw [hstatus i, hmidC, if_pos ((hmem i).mp hi).1, if_pos hi]

end Star

/-! ### The star with the centre `0` -/

/-- The graph of a centre and `m` leaves. -/
def star (m : ℕ) : Graph := Graph.ofRel (m + 1) fun i _ => i == 0

theorem adj_star {m i j : ℕ} :
    (star m).toSimpleGraph.Adj i j ↔ i < m + 1 ∧ j < m + 1 ∧ (i = 0 ↔ j ≠ 0) := by
  show j ∈ (star m).neighs i ↔ _
  rw [star, Graph.neighs_ofRel, Graph.mem_relNeighs]
  simp only [beq_iff_eq]
  omega

/-- The block of the centre holds every vertex. -/
theorem mem_block_star {k m n : ℕ} (hk : 2 ≤ k) : n ∈ block (star m) k 1 0 ↔ n < m + 1 := by
  rw [mem_block_of_small hk (by omega)]
  simp only [adj_star]
  constructor
  · rintro (rfl | ⟨hpos, ⟨-, hlt, -⟩ | ⟨x, -, -, -, hlt, -⟩⟩)
    · exact Nat.succ_pos m
    · exact hlt
    · exact hlt
  · intro hlt
    by_cases hn : n = 0
    · exact Or.inl hn
    · right
      exact ⟨Nat.pos_of_ne_zero hn, Or.inl ⟨Nat.succ_pos m, hlt, by simp [hn]⟩⟩

theorem size_blockVec_star {k m : ℕ} (hk : 2 ≤ k) :
    (blockVec (star m) k 1 0).size = m + 1 := by
  have hset : (block (star m) k 1 0).toFinset = Finset.range (m + 1) := by
    ext n
    rw [List.mem_toFinset, mem_block_star hk, Finset.mem_range]
  show (block (star m) k 1 0).toArray.size = m + 1
  rw [List.size_toArray, ← List.toFinset_card_of_nodup block_nodup, hset, Finset.card_range]

theorem isStar_star {k m : ℕ} (hk : 2 ≤ k) :
    IsStar (star m) (blockVec (star m) k 1 0)
      (blockNadj (star m) (blockVec (star m) k 1 0)) where
  toIsBlock := isBlock_block (star m) k 1 0
  adj_iff := by
    intro i hi j hj
    have hzero : ∀ x < (blockVec (star m) k 1 0).size,
        (blockVec (star m) k 1 0).get x = 0 ↔ x = 0 := by
      intro x hx
      constructor
      · intro hx0
        exact (isBlock_block (star m) k 1 0).injOn x hx 0 (isBlock_block (star m) k 1 0).pos hx0
      · rintro rfl
        rfl
    show (star m).toSimpleGraph.Adj _ _ ↔ _
    rw [adj_star, ← mem_block_star hk, ← mem_block_star (n := Vec.get _ j) hk,
      and_iff_right (block_get_mem hi), and_iff_right (block_get_mem hj), hzero i hi, ne_eq,
      hzero j hj]

section Wrap

variable {k : ℕ} (enablePivoting : Bool) (std : StdSort)

/-- The leaves of a star join one after the other. -/
theorem exists_holdsLeaves (hk : 256 ≤ k) {j : ℕ} (hj : j ≤ 255) :
    ∃ st impl leaves, leaves.length = j ∧ HoldsBlock (star 257) k 1 0 st ∧
      Reachable (star 257) k 1 enablePivoting std st (wrap impl) ∧
      HoldsLeaves (blockVec (star 257) k 1 0) leaves impl := by
  have hk2 : 2 ≤ k := by omega
  have hS := isStar_star (m := 257) hk2
  have hsize := size_blockVec_star (m := 257) hk2
  induction j with
  | zero =>
    obtain ⟨st, hholds, hreach⟩ :=
      exists_reachable_root (star 257) k 1 enablePivoting std (v := 0) (by omega)
    exact ⟨st, _, [], rfl, hholds, hreach, holdsLeaves_init hS (by omega)⟩
  | succ j ih =>
    obtain ⟨st, impl, leaves, hlen, hholds, hreach, hleaves⟩ := ih (by omega)
    have htwo : 2 ≤ impl.cands.length := hleaves.two_le_cands (by omega)
    obtain ⟨c, hc, hchild⟩ := hleaves.exists_child hS hk2 le_rfl htwo
    refine ⟨st, _, leaves ++ [c], ?_, hholds, hreach.child_of_mem hholds hchild,
      hleaves.addChild hS hk (by omega) hc⟩
    rw [List.length_append, List.length_singleton, hlen]

/-- A run that takes the entries of 256 leaves back to zero. -/
theorem exists_not_countersExact (hk : 256 ≤ k) :
    ∃ st node, Reachable (star 257) k 1 enablePivoting std st node ∧
      ¬ CountersExact (star 257) (st.memory.subgraph node) node.impl0 := by
  have hk2 : 2 ≤ k := by omega
  have hS := isStar_star (m := 257) hk2
  have hsize := size_blockVec_star (m := 257) hk2
  obtain ⟨st, impl, leaves, hlen, hholds, hreach, hleaves⟩ :=
    exists_holdsLeaves enablePivoting std hk le_rfl
  have htwo : 2 ≤ impl.cands.length := hleaves.two_le_cands (by omega)
  obtain ⟨c, hc, hchild⟩ := hleaves.exists_child hS hk2 le_rfl htwo
  obtain ⟨hkplex, -, hcounter⟩ := hleaves.counter_addChild (k := k) hS hc (Vec.zeros _)
  obtain ⟨hc0, hclt, -⟩ := (hleaves.mem_cands c).mp hc
  refine ⟨st, _, hreach.child_of_mem hholds hchild, fun hexact => ?_⟩
  -- the leaf that has joined last is counted for itself at least
  rw [(hholds _).1] at hexact
  have hmem : c ∈ 0 :: (leaves ++ [c]) := by simp
  have hcount := hexact c (Or.inl (hkplex ▸ hmem))
  unfold wrap at hcount
  rw [hcounter c hc0 hclt, hkplex, hlen] at hcount
  have hself : c ∈ (0 :: (leaves ++ [c])).filter fun u =>
      !decide ((blockGraph (star 257) (blockVec (star 257) k 1 0)).Adj c u) := by
    rw [List.mem_filter]
    exact ⟨hmem, by simp⟩
  have hpos := List.length_pos_of_mem hself
  omega

end Wrap

/-- **The entries that are read are exact for every graph and every run exactly up to
`k = 255`.** -/
theorem countersExact_iff (k : ℕ) (hk : 1 ≤ k) :
    (∀ (g : Graph) (q : ℕ) (enablePivoting : Bool) (std : StdSort) (st : Store) (node : Node),
      Reachable g k q enablePivoting std st node →
        CountersExact g (st.memory.subgraph node) node.impl0) ↔ k ≤ 255 := by
  constructor
  · intro hexact
    by_contra hlarge
    obtain ⟨st, node, hreach, hnot⟩ :=
      exists_not_countersExact (k := k) true StdSort.insertion (by omega)
    exact hnot (hexact _ 1 true StdSort.insertion st node hreach)
  · intro hk' g q enablePivoting std st node hreach
    obtain ⟨v, hblock⟩ := hreach.inBlock hk hk'
    have hsub : st.memory.subgraph node = blockVec g k q v := by
      rw [hblock.eq_wrap]
      exact (hblock.holds node.impl0).1
    rw [hsub]
    exact (hblock.inv.wellFormed hk').counter_eq

/-- The equivalence for the largest `k` that is safe. -/
theorem countersExact_iff_255 :
    (∀ (g : Graph) (q : ℕ) (enablePivoting : Bool) (std : StdSort) (st : Store) (node : Node),
      Reachable g 255 q enablePivoting std st node →
        CountersExact g (st.memory.subgraph node) node.impl0) ↔ 255 ≤ 255 :=
  countersExact_iff 255 (by decide)

/-- With `k = 256` the entries of a star with 257 leaves wrap. -/
theorem not_countersExact_star :
    ∃ st node, Reachable (star 257) 256 1 true StdSort.insertion st node ∧
      ¬ CountersExact (star 257) (st.memory.subgraph node) node.impl0 :=
  exists_not_countersExact true StdSort.insertion le_rfl

end ParallelEnum.Diam2Kplex
