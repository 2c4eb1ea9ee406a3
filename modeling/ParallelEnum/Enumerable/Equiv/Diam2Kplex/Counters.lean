import ParallelEnum.Enumerable.Diam2Kplex.Impl
import ParallelEnum.Theory.Kplex
import ParallelEnum.Util.Equiv.Graph

/-!
# The counters of a search node

`Counted` says what `counters` and `non_neighs` hold between two operations: for every index of
the block the number of members of `kplex` it is not adjacent to, modulo 256, and these members
themselves in the order in which they joined, as long as there are at most `k` of them.

* `Counted.addToKplex`: `AddToKplex` keeps this.
* `canAddVertex_iff`, `canAddVertex_get_iff`: on such a node `CanAdd` decides whether a vertex
  extends the `k`-plex.
-/

namespace ParallelEnum.Diam2Kplex

open Kplex

/-! ### Blocks -/

section Block

variable (g : Graph) (subgraph : Vec ℕ) (nadj : ℕ → List ℕ)

/-- The graph on the indices of a block. -/
def blockGraph : SimpleGraph ℕ := g.toSimpleGraph.comap subgraph.get

instance : DecidableRel (blockGraph g subgraph).Adj := fun i j =>
  inferInstanceAs (Decidable (g.toSimpleGraph.Adj (subgraph.get i) (subgraph.get j)))

/-- A nonempty block without repetitions and its lists of non-neighbours. -/
structure IsBlock : Prop where
  pos : 0 < subgraph.size
  injOn : ∀ i < subgraph.size, ∀ j < subgraph.size, subgraph.get i = subgraph.get j → i = j
  nadj_eq : ∀ i < subgraph.size,
    nadj i = (List.range subgraph.size).filter fun j => !(blockGraph g subgraph).Adj i j

variable {g subgraph nadj}

@[simp] theorem areNeighs_get (i j : ℕ) :
    g.areNeighs (subgraph.get i) (subgraph.get j) = decide ((blockGraph g subgraph).Adj i j) := rfl

theorem IsBlock.mem_nadj (hB : IsBlock g subgraph nadj) {i j : ℕ} (hi : i < subgraph.size) :
    j ∈ nadj i ↔ j < subgraph.size ∧ ¬ (blockGraph g subgraph).Adj i j := by
  rw [hB.nadj_eq i hi, List.mem_filter, List.mem_range]
  simp

theorem IsBlock.nodup_nadj (hB : IsBlock g subgraph nadj) {i : ℕ} (hi : i < subgraph.size) :
    (nadj i).Nodup := by
  rw [hB.nadj_eq i hi]
  exact List.nodup_range.filter _

/-- Sets of indices and sets of vertices correspond. -/
theorem IsBlock.injOn_coe (hB : IsBlock g subgraph nadj) {S : Finset ℕ}
    (hS : ∀ i ∈ S, i < subgraph.size) : Set.InjOn subgraph.get S :=
  fun i hi j hj h => hB.injOn i (hS i hi) j (hS j hj) h

end Block

namespace Impl

variable (g : Graph) (subgraph : Vec ℕ) (nadj : ℕ → List ℕ) (k : ℕ)

/-- The members of `kplex` that are not adjacent to `i`. -/
def missing (impl : Impl) (i : ℕ) : List ℕ :=
  impl.kplex.filter fun u => !(blockGraph g subgraph).Adj i u

/-- The contents of the arrays of a node. -/
structure Counted (impl : Impl) : Prop where
  nodup : impl.kplex.Nodup
  lt_size : ∀ i ∈ impl.kplex, i < subgraph.size
  size_counters : impl.counters.size = subgraph.size
  size_status : impl.status.size = subgraph.size
  size_nonNeighs : impl.nonNeighs.size = k * subgraph.size
  /-- An entry counts modulo 256. -/
  counter_eq : ∀ i < subgraph.size, impl.counter i = (impl.missing g subgraph i).length % 256
  /-- The slots of an index hold what its entry counts. -/
  slots_eq : ∀ i < subgraph.size, (impl.missing g subgraph i).length ≤ k →
    (List.range (impl.missing g subgraph i).length).map (fun j => impl.nonNeighs.get (k * i + j))
      = impl.missing g subgraph i

variable {g subgraph nadj k} {impl : Impl}

theorem mem_missing {i u : ℕ} :
    u ∈ impl.missing g subgraph i ↔ u ∈ impl.kplex ∧ ¬ (blockGraph g subgraph).Adj i u := by
  unfold missing
  rw [List.mem_filter]
  simp

theorem length_missing (hnodup : impl.kplex.Nodup) (i : ℕ) :
    (impl.missing g subgraph i).length
      = (nonAdj (blockGraph g subgraph) impl.kplex.toFinset i).card := by
  have hset : nonAdj (blockGraph g subgraph) impl.kplex.toFinset i
      = (impl.missing g subgraph i).toFinset := by
    ext u
    rw [mem_nonAdj, List.mem_toFinset, List.mem_toFinset, mem_missing]
  have hmissing : (impl.missing g subgraph i).Nodup := hnodup.filter _
  rw [hset, List.toFinset_card_of_nodup hmissing]

/-- A count that fits is exact. -/
theorem Counted.counter_eq_of_le (h : Counted g subgraph k impl) (hk : k ≤ 255) {i : ℕ}
    (hi : i < subgraph.size) (hle : (impl.missing g subgraph i).length ≤ k) :
    impl.counter i = (impl.missing g subgraph i).length := by
  rw [h.counter_eq i hi]
  exact Nat.mod_eq_of_lt (by omega)

/-! ### `AddToKplex` -/

theorem counter_bumpCounter (c : ℕ) {e : ℕ} (he : e < impl.counters.size) (i : ℕ) :
    (bumpCounter k c impl e).counter i
      = if i = e then (impl.counter e + 1) % 256 else impl.counter i := by
  show ((impl.counters.set e (impl.counters.get e + 1)).get i).toNat = _
  rw [Vec.get_set]
  by_cases hie : i = e
  · subst hie
    rw [if_pos ⟨rfl, he⟩, if_pos rfl, UInt8.toNat_add]
    rfl
  · rw [if_neg fun h => hie h.1.symm, if_neg hie]
    rfl

/-- Two slots are the same only for the same index. -/
theorem slot_inj {i i' j j' : ℕ} (hj : j < k) (hj' : j' < k) (h : k * i + j = k * i' + j') :
    i = i' ∧ j = j' := by
  have hk : 0 < k := by omega
  have h1 : (k * i + j) / k = i := by
    rw [Nat.mul_add_div hk, Nat.div_eq_of_lt hj, Nat.add_zero]
  have h2 : (k * i' + j') / k = i' := by
    rw [Nat.mul_add_div hk, Nat.div_eq_of_lt hj', Nat.add_zero]
  have hi : i = i' := by
    rw [← h1, h, h2]
  subst hi
  exact ⟨rfl, by omega⟩

theorem slot_bumpCounter (c : ℕ) {n e i j : ℕ} (hsize : impl.nonNeighs.size = k * n) (he : e < n)
    (hj : j < k) : (bumpCounter k c impl e).nonNeighs.get (k * i + j)
      = if i = e ∧ j = impl.counter e then c else impl.nonNeighs.get (k * i + j) := by
  show (if impl.counter e < k then impl.nonNeighs.set (k * e + impl.counter e) c
    else impl.nonNeighs).get (k * i + j) = _
  by_cases hlt : impl.counter e < k
  · have hin : k * e + impl.counter e < impl.nonNeighs.size := by
      have : k * (e + 1) ≤ k * n := Nat.mul_le_mul_left k he
      rw [hsize]
      rw [Nat.mul_add_one] at this
      omega
    rw [if_pos hlt, Vec.get_set]
    by_cases hij : i = e ∧ j = impl.counter e
    · obtain ⟨rfl, rfl⟩ := hij
      rw [if_pos ⟨rfl, hin⟩, if_pos ⟨rfl, rfl⟩]
    · rw [if_neg, if_neg hij]
      rintro ⟨heq, -⟩
      obtain ⟨h1, h2⟩ := slot_inj hlt hj heq
      exact hij ⟨h1.symm, h2.symm⟩
  · rw [if_neg hlt, if_neg]
    rintro ⟨-, rfl⟩
    exact hlt hj

theorem foldl_bumpCounter_frame (c : ℕ) (l : List ℕ) (impl : Impl) :
    ∃ counters nonNeighs, l.foldl (bumpCounter k c) impl
        = { impl with counters := counters, nonNeighs := nonNeighs } ∧
      counters.size = impl.counters.size ∧ nonNeighs.size = impl.nonNeighs.size := by
  induction l generalizing impl with
  | nil => exact ⟨_, _, rfl, rfl, rfl⟩
  | cons e l ih =>
    obtain ⟨counters, nonNeighs, hrun, h1, h2⟩ := ih (bumpCounter k c impl e)
    refine ⟨counters, nonNeighs, hrun, ?_, ?_⟩
    · rw [h1]
      exact Vec.size_set _ _ _
    · rw [h2]
      unfold bumpCounter
      dsimp only
      split_ifs
      · exact Vec.size_set _ _ _
      · rfl

/-- The loop of `AddToKplex` counts once for each index of the list. -/
theorem counter_foldl_bumpCounter (c : ℕ) {l : List ℕ} (hl : l.Nodup)
    (hlt : ∀ e ∈ l, e < impl.counters.size) (i : ℕ) :
    (l.foldl (bumpCounter k c) impl).counter i
      = if i ∈ l then (impl.counter i + 1) % 256 else impl.counter i := by
  induction l generalizing impl with
  | nil => simp
  | cons e l ih =>
    obtain ⟨hel, hl⟩ := List.nodup_cons.mp hl
    have he := hlt e List.mem_cons_self
    have hsize : (bumpCounter k c impl e).counters.size = impl.counters.size := Vec.size_set _ _ _
    rw [List.foldl_cons, ih hl (fun x hx => hsize ▸ hlt x (List.mem_cons_of_mem _ hx)),
      counter_bumpCounter c he]
    by_cases hie : i = e
    · subst hie
      simp [hel]
    · simp [hie]

/-- The loop of `AddToKplex` writes the slot that its entry points to. -/
theorem slot_foldl_bumpCounter (c : ℕ) {n : ℕ} {l : List ℕ} (hl : l.Nodup)
    (hlt : ∀ e ∈ l, e < n) (hcounters : impl.counters.size = n)
    (hsize : impl.nonNeighs.size = k * n) {i j : ℕ} (hj : j < k) :
    (l.foldl (bumpCounter k c) impl).nonNeighs.get (k * i + j)
      = if i ∈ l ∧ j = impl.counter i then c else impl.nonNeighs.get (k * i + j) := by
  induction l generalizing impl with
  | nil => simp
  | cons e l ih =>
    obtain ⟨hel, hl⟩ := List.nodup_cons.mp hl
    have he := hlt e List.mem_cons_self
    obtain ⟨_, _, hrun, h1, h2⟩ := foldl_bumpCounter_frame (k := k) c [e] impl
    have hrun : bumpCounter k c impl e = _ := hrun
    rw [List.foldl_cons, ih hl (fun x hx => hlt x (List.mem_cons_of_mem _ hx))
      (by rw [hrun]; exact h1.trans hcounters) (by rw [hrun]; exact h2.trans hsize),
      counter_bumpCounter c (hcounters ▸ he), slot_bumpCounter c hsize he hj]
    by_cases hie : i = e
    · subst hie
      simp [hel]
    · simp [hie]

theorem missing_addToKplex (c i : ℕ) :
    (impl.addToKplex nadj k c).missing g subgraph i
      = impl.missing g subgraph i ++ if (blockGraph g subgraph).Adj i c then [] else [c] := by
  obtain ⟨_, _, hrun, -, -⟩ := foldl_bumpCounter_frame (k := k) c (nadj c)
    { impl with kplex := impl.kplex ++ [c], status := impl.status.set c .inKplex }
  unfold addToKplex missing
  rw [hrun]
  show (impl.kplex ++ [c]).filter _ = _
  rw [List.filter_append]
  split_ifs with hadj <;> simp [hadj]

/-- `AddToKplex` changes `kplex`, one status and the counts. -/
theorem addToKplex_frame (impl : Impl) (nadj : ℕ → List ℕ) (k c : ℕ) :
    ∃ counters nonNeighs, impl.addToKplex nadj k c = { impl with
        kplex := impl.kplex ++ [c]
        status := impl.status.set c .inKplex
        counters := counters
        nonNeighs := nonNeighs } ∧
      counters.size = impl.counters.size ∧ nonNeighs.size = impl.nonNeighs.size :=
  foldl_bumpCounter_frame c (nadj c) _

theorem counter_addToKplex (c : ℕ) (hl : (nadj c).Nodup)
    (hlt : ∀ e ∈ nadj c, e < impl.counters.size) (i : ℕ) :
    (impl.addToKplex nadj k c).counter i
      = if i ∈ nadj c then (impl.counter i + 1) % 256 else impl.counter i := by
  unfold addToKplex
  rw [counter_foldl_bumpCounter c hl (by exact hlt)]
  rfl

theorem slot_addToKplex (c : ℕ) {n : ℕ} (hl : (nadj c).Nodup)
    (hlt : ∀ e ∈ nadj c, e < n) (hcounters : impl.counters.size = n)
    (hsize : impl.nonNeighs.size = k * n) {i j : ℕ} (hj : j < k) :
    (impl.addToKplex nadj k c).nonNeighs.get (k * i + j)
      = if i ∈ nadj c ∧ j = impl.counter i then c else impl.nonNeighs.get (k * i + j) := by
  unfold addToKplex
  rw [slot_foldl_bumpCounter c hl hlt (by exact hcounters) (by exact hsize) hj]
  rfl

/-- **`AddToKplex` keeps the counts.** -/
theorem Counted.addToKplex (hB : IsBlock g subgraph nadj) (hk : k ≤ 255)
    (h : Counted g subgraph k impl) {c : ℕ} (hc : c < subgraph.size) (hcK : c ∉ impl.kplex) :
    Counted g subgraph k (impl.addToKplex nadj k c) := by
  obtain ⟨counters, nonNeighs, hrun, h1, h2⟩ := addToKplex_frame impl nadj k c
  have hmem : ∀ i, i ∈ nadj c ↔ i < subgraph.size ∧ ¬ (blockGraph g subgraph).Adj i c := by
    intro i
    rw [hB.mem_nadj hc, SimpleGraph.adj_comm]
  have hlt : ∀ e ∈ nadj c, e < subgraph.size := fun e he => ((hmem e).mp he).1
  constructor
  case nodup =>
    rw [hrun]
    exact h.nodup.append (List.nodup_singleton c) (by simpa using hcK)
  case lt_size =>
    rw [hrun]
    intro i hi
    rcases List.mem_append.mp hi with hi | hi
    · exact h.lt_size i hi
    · rw [List.mem_singleton.mp hi]
      exact hc
  case size_counters =>
    rw [hrun]
    exact h1.trans h.size_counters
  case size_status =>
    rw [hrun]
    exact (Vec.size_set _ _ _).trans h.size_status
  case size_nonNeighs =>
    rw [hrun]
    exact h2.trans h.size_nonNeighs
  case counter_eq =>
    intro i hi
    rw [missing_addToKplex, counter_addToKplex c (hB.nodup_nadj hc)
      (fun e he => (hlt e he).trans_eq h.size_counters.symm), h.counter_eq i hi]
    by_cases hadj : (blockGraph g subgraph).Adj i c
    · rw [if_neg fun hmem' => ((hmem i).mp hmem').2 hadj, if_pos hadj, List.append_nil]
    · rw [if_pos ((hmem i).mpr ⟨hi, hadj⟩), if_neg hadj, List.length_append,
        List.length_singleton, Nat.mod_add_mod]
  case slots_eq =>
    intro i hi hle
    rw [missing_addToKplex] at hle ⊢
    have hslot : ∀ j < k, (impl.addToKplex nadj k c).nonNeighs.get (k * i + j)
        = if i ∈ nadj c ∧ j = impl.counter i then c else impl.nonNeighs.get (k * i + j) :=
      fun j hj => slot_addToKplex c (hB.nodup_nadj hc) hlt h.size_counters
        h.size_nonNeighs hj
    by_cases hadj : (blockGraph g subgraph).Adj i c
    · rw [if_pos hadj, List.append_nil] at hle ⊢
      rw [← h.slots_eq i hi hle, List.length_map, List.length_range]
      refine List.map_congr_left fun j hj => ?_
      rw [hslot j (by have := List.mem_range.mp hj; omega),
        if_neg fun h' => ((hmem i).mp h'.1).2 hadj]
    · rw [if_neg hadj, List.length_append, List.length_singleton] at hle ⊢
      -- `c` goes to the slot that the entry points to
      have hcount := h.counter_eq_of_le hk hi (by omega)
      rw [List.range_succ, List.map_append, List.map_singleton]
      congr 1
      · rw [← h.slots_eq i hi (by omega), List.length_map, List.length_range]
        refine List.map_congr_left fun j hj => ?_
        have hj := List.mem_range.mp hj
        rw [hslot j (by omega), if_neg fun h' => by omega]
      · rw [hslot _ (by omega), if_pos ⟨(hmem i).mpr ⟨hi, hadj⟩, hcount.symm⟩]

/-! ### `CanAdd` -/

theorem canAddLoop_iff {v : ℕ} (l : List ℕ) (vCnt : ℕ) :
    impl.canAddLoop g subgraph k v l vCnt = true ↔
      vCnt + (l.filter fun u => !g.areNeighs v (subgraph.get u)).length ≤ k ∧
        ∀ u ∈ l, ¬ g.toSimpleGraph.Adj v (subgraph.get u) → impl.counter u + 1 ≤ k := by
  induction l generalizing vCnt with
  | nil => simp [canAddLoop]
  | cons u l ih =>
    unfold canAddLoop
    by_cases hadj : g.areNeighs v (subgraph.get u) = true
    · have hadj' := g.areNeighs_eq_true.mp hadj
      simp only [hadj, Bool.not_true, Bool.false_eq_true, if_false, ih, List.filter_cons,
        List.forall_mem_cons, hadj', not_true_eq_false, false_imp_iff, true_and]
    · have hadj' : ¬ g.toSimpleGraph.Adj v (subgraph.get u) := fun h =>
        hadj (g.areNeighs_eq_true.mpr h)
      rw [Bool.not_eq_true] at hadj
      by_cases hcount : impl.counter u + 1 ≤ k
      · simp only [hadj, Bool.not_false, if_true, not_lt.mpr hcount, if_false, ih,
          List.filter_cons, List.length_cons, List.forall_mem_cons, hadj', not_false_eq_true,
          hcount, forall_const, true_and]
        rw [Nat.add_assoc, Nat.add_comm 1]
      · simp only [hadj, Bool.not_false, if_true, not_le.mp hcount, Bool.false_eq_true,
          List.forall_mem_cons, hadj', not_false_eq_true, hcount, forall_const, false_and,
          and_false]

/-- **`CanAdd` decides whether a vertex extends the `k`-plex**, the entries of its members being
exact. -/
theorem canAddVertex_iff (hB : IsBlock g subgraph nadj) (hk : k ≤ 255)
    (h : Counted g subgraph k impl) (hK : IsKplex (blockGraph g subgraph) k impl.kplex.toFinset)
    {v : ℕ} (hv : v ∉ impl.kplex.toFinset.image subgraph.get) :
    impl.canAddVertex g subgraph k v = true ↔
      Addable g.toSimpleGraph k (impl.kplex.toFinset.image subgraph.get) v := by
  have hinj : Set.InjOn subgraph.get (impl.kplex.toFinset : Set ℕ) :=
    hB.injOn_coe fun i hi => h.lt_size i (List.mem_toFinset.mp hi)
  have himage := (isKplex_image_iff (H := g.toSimpleGraph) (k := k) hinj
    fun _ _ _ _ => Iff.rfl).mpr hK
  rw [addable_iff himage, canAddVertex, canAddLoop_iff]
  have hcard : (nonAdj g.toSimpleGraph (impl.kplex.toFinset.image subgraph.get) v).card
      = (impl.kplex.filter fun u => !g.areNeighs v (subgraph.get u)).length := by
    rw [← List.toFinset_card_of_nodup (h.nodup.filter _)]
    rw [← Finset.card_image_of_injOn (s := (impl.kplex.filter _).toFinset)
      (hinj.mono fun u hu => by simpa using List.mem_of_mem_filter (List.mem_toFinset.mp hu))]
    congr 1
    ext x
    simp only [mem_nonAdj, Finset.mem_image, List.mem_toFinset, List.mem_filter,
      Bool.not_eq_true', Graph.areNeighs_eq_false]
    constructor
    · rintro ⟨⟨u, hu, rfl⟩, hnot⟩
      exact ⟨u, ⟨hu, hnot⟩, rfl⟩
    · rintro ⟨u, ⟨hu, hnot⟩, rfl⟩
      exact ⟨⟨u, hu, rfl⟩, hnot⟩
  have hcount : ∀ u ∈ impl.kplex, impl.counter u = (nonAdj g.toSimpleGraph
      (impl.kplex.toFinset.image subgraph.get) (subgraph.get u)).card := by
    intro u hu
    have hle := isKplex_iff_nonAdj.mp hK u (List.mem_toFinset.mpr hu)
    rw [card_nonAdj_image (G := blockGraph g subgraph) hinj fun _ _ => Iff.rfl,
      ← length_missing h.nodup]
    rw [← length_missing h.nodup] at hle
    exact h.counter_eq_of_le hk (h.lt_size u hu) hle
  rw [hcard, and_iff_right hv, Nat.add_comm 1, Finset.forall_mem_image]
  simp only [List.mem_toFinset]
  refine and_congr_right fun _ => forall₂_congr fun u hu => ?_
  rw [hcount u hu]

/-- `CanAdd` on an index outside `kplex`. -/
theorem canAddVertex_get_iff (hB : IsBlock g subgraph nadj) (hk : k ≤ 255)
    (h : Counted g subgraph k impl) (hK : IsKplex (blockGraph g subgraph) k impl.kplex.toFinset)
    {i : ℕ} (hi : i < subgraph.size) (hiK : i ∉ impl.kplex) :
    impl.canAddVertex g subgraph k (subgraph.get i) = true ↔
      Addable (blockGraph g subgraph) k impl.kplex.toFinset i := by
  have hlt : ∀ j ∈ insert i impl.kplex.toFinset, j < subgraph.size := by
    intro j hj
    rcases Finset.mem_insert.mp hj with rfl | hj
    · exact hi
    · exact h.lt_size j (List.mem_toFinset.mp hj)
  have hinj := hB.injOn_coe hlt
  have hout : subgraph.get i ∉ impl.kplex.toFinset.image subgraph.get := by
    intro hmem
    obtain ⟨j, hj, heq⟩ := Finset.mem_image.mp hmem
    have := hinj (Finset.mem_insert_of_mem hj) (Finset.mem_insert_self _ _) heq
    exact hiK (List.mem_toFinset.mp (this ▸ hj))
  rw [canAddVertex_iff hB hk h hK hout]
  exact addable_image_iff hinj fun _ _ _ _ => Iff.rfl

end Impl

end ParallelEnum.Diam2Kplex
