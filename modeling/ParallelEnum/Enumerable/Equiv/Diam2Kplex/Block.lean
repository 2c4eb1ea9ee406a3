import ParallelEnum.Enumerable.Diam2Kplex
import ParallelEnum.Enumerable.Equiv.Diam2Kplex.Node

/-!
# The block of a root

The lists `GetRoot` computes, apart from the store it keeps them in: `nearBlock` are the later
neighbours of the root that pass `filter_sg`, `farBlock` the vertices two hops away, and `block`
all of `subgraph`.

* `mem_farBlock`: a far vertex has enough neighbours among the near ones.
* `block_nodup`, `lt_of_mem_block`: the block has no repetition, and the root comes before the rest.
* `subset_block`: a `k`-plex of diameter two and of at least `q` vertices lies in the block of its
  smallest vertex.
-/

namespace ParallelEnum.Diam2Kplex

open Kplex

variable (g : Graph) (k q v : ℕ)

/-! ### Later neighbours -/

/-- The later neighbours of `v` that `filter_sg` leaves. -/
def nearBlock : List ℕ := filterLoop g k q ((g.fwdNeighs v).length + 1) (g.fwdNeighs v)

theorem filterLoop_sublist (fuel : ℕ) (sg : List ℕ) : (filterLoop g k q fuel sg).Sublist sg := by
  induction fuel generalizing sg with
  | zero => exact List.Sublist.refl sg
  | succ fuel ih =>
    unfold filterLoop
    dsimp only
    split_ifs
    · exact (ih _).trans List.filter_sublist
    · exact List.filter_sublist

/-- The loop ends with a list that `filter_sg` leaves alone. -/
theorem filterSg_filterLoop {fuel : ℕ} {sg : List ℕ} (hfuel : sg.length < fuel) :
    filterSg g k q (filterLoop g k q fuel sg) = filterLoop g k q fuel sg := by
  induction fuel generalizing sg with
  | zero => omega
  | succ fuel ih =>
    have hle : (filterSg g k q sg).length ≤ sg.length := List.length_filter_le _ _
    unfold filterLoop
    dsimp only
    split_ifs with hne
    · exact ih (by omega)
    · have heq : filterSg g k q sg = sg := List.filter_sublist.eq_of_length (not_not.mp hne)
      rw [heq, heq]

/-- A set in which every vertex has enough neighbours survives the loop. -/
theorem subset_filterLoop {T : Finset ℕ} (fuel : ℕ) {sg : List ℕ} (hT : ∀ a ∈ T, a ∈ sg)
    (hdeg : ∀ a ∈ T, q ≤ (T.filter (g.toSimpleGraph.Adj a)).card + 2 * k) :
    ∀ a ∈ T, a ∈ filterLoop g k q fuel sg := by
  induction fuel generalizing sg with
  | zero => exact hT
  | succ fuel ih =>
    have hstep : ∀ a ∈ T, a ∈ filterSg g k q sg := by
      intro a ha
      have hsub : T.filter (g.toSimpleGraph.Adj a) ⊆ (sg.filter (g.areNeighs a ·)).toFinset := by
        intro b hb
        obtain ⟨hb, hadj⟩ := Finset.mem_filter.mp hb
        exact List.mem_toFinset.mpr (List.mem_filter.mpr ⟨hT b hb, g.areNeighs_eq_true.mpr hadj⟩)
      have h1 := (Finset.card_le_card hsub).trans (List.toFinset_card_le _)
      have h2 := hdeg a ha
      refine List.mem_filter.mpr ⟨hT a ha, ?_⟩
      rw [decide_eq_true_iff, List.countP_eq_length_filter]
      omega
    unfold filterLoop
    dsimp only
    split_ifs
    · exact ih hstep
    · exact hstep

theorem nearBlock_sublist : (nearBlock g k q v).Sublist (g.fwdNeighs v) :=
  filterLoop_sublist g k q _ _

variable {g k q v} in
theorem adj_of_mem_nearBlock {n : ℕ} (hn : n ∈ nearBlock g k q v) :
    g.toSimpleGraph.Adj v n ∧ v < n :=
  g.mem_fwdNeighs.mp ((nearBlock_sublist g k q v).subset hn)

theorem nearBlock_nodup : (nearBlock g k q v).Nodup :=
  (g.fwdNeighs_nodup v).sublist (nearBlock_sublist g k q v)

/-! ### Two hops -/

/-- `subgraph_added` when the later neighbours have been marked. -/
def marks : Vec Bool := ((Vec.zeros g.size).set v true).setAll (g.fwdNeighs v) true

theorem marks_get {n : ℕ} (hn : n < g.N) (hv : v < n) :
    (marks g v).get n = decide (g.toSimpleGraph.Adj v n) := by
  have hne : v ≠ n := hv.ne
  unfold marks Graph.size
  rw [Vec.get_setAll, Vec.get_set, Vec.size_set, Vec.size_zeros, Vec.get_zeros]
  by_cases hadj : g.toSimpleGraph.Adj v n
  · rw [if_pos ⟨g.mem_fwdNeighs.mpr ⟨hadj, hv⟩, hn⟩]
    exact (decide_eq_true hadj).symm
  · rw [if_neg fun h => hadj (g.mem_fwdNeighs.mp h.1).1, if_neg fun h => hne h.1]
    exact (decide_eq_false hadj).symm

/-- `subgraph_counts` and `subgraph_candidates` when the near vertices have been scanned. -/
def twoHopScan : Vec ℕ × List ℕ :=
  (nearBlock g k q v).foldl (fun r n => (g.neighs n).foldl (countTwoHop v (marks g v)) r)
    (Vec.zeros g.size, [])

/-- What the scan knows when it has met the vertices `done`. -/
structure Counts (n : ℕ) (done : List ℕ) (r : Vec ℕ × List ℕ) : Prop where
  size : r.1.size = n
  get_eq : ∀ i < n, r.1.get i = done.count i
  zero_of_notMem : ∀ i, i ∉ r.2 → r.1.get i = 0
  nodup : r.2.Nodup
  mem_iff : ∀ i, i ∈ r.2 ↔ i ∈ done

/-- A vertex that passes the test is counted. -/
theorem Counts.countTwoHop {added : Vec Bool} {n x : ℕ} (hx : x < n)
    (htest : (decide (x > v) && !added.get x) = true) {done : List ℕ} {r : Vec ℕ × List ℕ}
    (hr : Counts n done r) : Counts n (done ++ [x]) (countTwoHop v added r x) := by
  unfold Diam2Kplex.countTwoHop
  rw [if_pos htest]
  have hcount := hr.get_eq x hx
  have hmem : ∀ i, i ∈ (if r.1.get x = 0 then r.2 ++ [x] else r.2) ↔ i ∈ r.2 ∨ i = x := by
    intro i
    split_ifs with h0
    · simp
    · -- a count that is not 0 is that of a candidate
      have hxr : x ∈ r.2 := by
        by_contra hno
        exact h0 (hr.zero_of_notMem x hno)
      refine ⟨Or.inl, ?_⟩
      rintro (hi | rfl)
      · exact hi
      · exact hxr
  constructor
  case size => exact (Vec.size_set _ _ _).trans hr.size
  case get_eq =>
    intro i hi
    rw [Vec.get_set, hr.size, List.count_append]
    by_cases hix : x = i
    · subst hix
      rw [if_pos ⟨rfl, hx⟩, hcount, List.count_singleton_self]
    · rw [if_neg fun h => hix h.1, hr.get_eq i hi, List.count_singleton,
        if_neg (by simpa using hix), Nat.add_zero]
  case zero_of_notMem =>
    intro i hi
    dsimp only at hi ⊢
    rw [hmem, not_or] at hi
    rw [Vec.get_set_of_ne _ (Ne.symm hi.2)]
    exact hr.zero_of_notMem i hi.1
  case nodup =>
    dsimp only
    split_ifs with h0
    · have hxr : x ∉ r.2 := by
        rw [hr.mem_iff, ← List.count_eq_zero, ← hcount]
        exact h0
      exact hr.nodup.append (List.nodup_singleton x) (by simpa using hxr)
    · exact hr.nodup
  case mem_iff =>
    intro i
    rw [hmem, hr.mem_iff, List.mem_append, List.mem_singleton]

theorem foldl_countTwoHop (added : Vec Bool) {n : ℕ} (xs : List ℕ) (hxs : ∀ x ∈ xs, x < n)
    {done : List ℕ} {r : Vec ℕ × List ℕ} (hr : Counts n done r) :
    Counts n (done ++ xs.filter fun x => decide (x > v) && !added.get x)
      (xs.foldl (countTwoHop v added) r) := by
  induction xs generalizing done r with
  | nil => simpa using hr
  | cons x xs ih =>
    have hxs' : ∀ y ∈ xs, y < n := fun y hy => hxs y (List.mem_cons_of_mem _ hy)
    rw [List.foldl_cons, List.filter_cons]
    by_cases htest : (decide (x > v) && !added.get x) = true
    · have hrest := ih hxs' (hr.countTwoHop v (hxs x List.mem_cons_self) htest)
      rw [if_pos htest]
      rwa [List.append_assoc] at hrest
    · have hstep : countTwoHop v added r x = r := by
        unfold countTwoHop
        rw [if_neg htest]
      rw [if_neg htest, hstep]
      exact ih hxs' hr

/-- The later vertices not next to `v` that the scan meets. -/
def twoHopMet : List ℕ :=
  ((nearBlock g k q v).flatMap g.neighs).filter fun x => decide (x > v) && !(marks g v).get x

theorem twoHopScan_spec : Counts g.N (twoHopMet g k q v) (twoHopScan g k q v) := by
  unfold twoHopScan
  rw [← List.foldl_flatMap]
  have hmem : ∀ x ∈ (nearBlock g k q v).flatMap g.neighs, x < g.N := by
    intro x hx
    obtain ⟨m, _, hx⟩ := List.mem_flatMap.mp hx
    exact (g.lt_of_adj (g.adj_iff_mem.mpr hx)).2
  have hstart : Counts g.N [] (Vec.zeros g.size, []) :=
    ⟨Vec.size_zeros _, fun i _ => by rw [Vec.get_zeros]; rfl, fun i _ => Vec.get_zeros _ _,
      List.nodup_nil, fun i => Iff.rfl⟩
  have h := foldl_countTwoHop v (marks g v) ((nearBlock g k q v).flatMap g.neighs) hmem hstart
  rwa [List.nil_append] at h

variable {g k q v} in
theorem mem_twoHopMet {n : ℕ} : n ∈ twoHopMet g k q v ↔
    v < n ∧ ¬ g.toSimpleGraph.Adj v n ∧ ∃ m ∈ nearBlock g k q v, g.toSimpleGraph.Adj m n := by
  unfold twoHopMet
  rw [List.mem_filter, List.mem_flatMap]
  simp only [Bool.and_eq_true, decide_eq_true_eq, Bool.not_eq_true', gt_iff_lt, ← g.adj_iff_mem]
  constructor
  · rintro ⟨⟨m, hm, hadj⟩, hlt, hmark⟩
    rw [marks_get g v (g.lt_of_adj hadj).2 hlt, decide_eq_false_iff_not] at hmark
    exact ⟨hlt, hmark, m, hm, hadj⟩
  · rintro ⟨hlt, hnot, m, hm, hadj⟩
    refine ⟨⟨m, hm, hadj⟩, hlt, ?_⟩
    rw [marks_get g v (g.lt_of_adj hadj).2 hlt]
    exact decide_eq_false hnot

variable {g k q v} in
/-- A vertex is met once for each near vertex next to it. -/
theorem count_twoHopMet {n : ℕ} (hn : n ∈ twoHopMet g k q v) :
    (twoHopMet g k q v).count n = (nearBlock g k q v).countP (g.areNeighs n ·) := by
  have htest := (List.mem_filter.mp hn).2
  unfold twoHopMet
  rw [List.count_filter (p := fun x => decide (x > v) && !(marks g v).get x) htest]
  generalize nearBlock g k q v = l
  induction l with
  | nil => rfl
  | cons m l ih =>
    rw [List.flatMap_cons, List.count_append, ih, List.countP_cons, Nat.add_comm]
    congr 1
    by_cases hadj : g.toSimpleGraph.Adj n m
    · rw [if_pos (g.areNeighs_eq_true.mpr hadj),
        List.count_eq_one_of_mem (g.neighs_nodup m) (g.adj_iff_mem.mp hadj.symm)]
    · rw [if_neg fun h => hadj (g.areNeighs_eq_true.mp h),
        List.count_eq_zero_of_not_mem fun h => hadj (g.adj_iff_mem.mpr h).symm]

/-- The vertices two hops away that join the block. -/
def farBlock : List ℕ :=
  if k ≠ 1 then
    (twoHopScan g k q v).2.filter fun n => decide ((twoHopScan g k q v).1.get n + 2 * k ≥ q + 2)
  else []

variable {g k q v} in
theorem mem_farBlock {n : ℕ} : n ∈ farBlock g k q v ↔ k ≠ 1 ∧ v < n ∧
    ¬ g.toSimpleGraph.Adj v n ∧ (∃ m ∈ nearBlock g k q v, g.toSimpleGraph.Adj m n) ∧
      q + 2 ≤ (nearBlock g k q v).countP (g.areNeighs n ·) + 2 * k := by
  have hscan := twoHopScan_spec g k q v
  unfold farBlock
  by_cases hk1 : k = 1
  · rw [if_neg (not_not.mpr hk1)]
    simp [hk1]
  · rw [if_pos hk1, List.mem_filter, hscan.mem_iff, decide_eq_true_iff, and_iff_right hk1,
      mem_twoHopMet]
    constructor
    · rintro ⟨⟨hlt, hnot, m, hm, hadj⟩, hcount⟩
      rw [hscan.get_eq n (g.lt_of_adj hadj).2,
        count_twoHopMet (mem_twoHopMet.mpr ⟨hlt, hnot, m, hm, hadj⟩)] at hcount
      exact ⟨hlt, hnot, ⟨m, hm, hadj⟩, hcount⟩
    · rintro ⟨hlt, hnot, ⟨m, hm, hadj⟩, hcount⟩
      refine ⟨⟨hlt, hnot, m, hm, hadj⟩, ?_⟩
      rw [hscan.get_eq n (g.lt_of_adj hadj).2,
        count_twoHopMet (mem_twoHopMet.mpr ⟨hlt, hnot, m, hm, hadj⟩)]
      exact hcount

/-! ### The block -/

/-- The vertices of the block of `v`. -/
def block : List ℕ := v :: (nearBlock g k q v ++ farBlock g k q v)

variable {g k q v}

theorem mem_block {n : ℕ} :
    n ∈ block g k q v ↔ n = v ∨ n ∈ nearBlock g k q v ∨ n ∈ farBlock g k q v := by
  unfold block
  rw [List.mem_cons, List.mem_append]

theorem lt_of_mem_block {n : ℕ} (hn : n ∈ nearBlock g k q v ++ farBlock g k q v) : v < n := by
  rcases List.mem_append.mp hn with hn | hn
  · exact (adj_of_mem_nearBlock hn).2
  · exact (mem_farBlock.mp hn).2.1

theorem block_nodup : (block g k q v).Nodup := by
  refine List.nodup_cons.mpr ⟨fun h => (lt_of_mem_block h).ne rfl, ?_⟩
  refine (nearBlock_nodup g k q v).append ?_ ?_
  · unfold farBlock
    split_ifs
    · exact (twoHopScan_spec g k q v).nodup.filter _
    · exact List.nodup_nil
  · intro n hnear hfar
    exact (mem_farBlock.mp hfar).2.2.1 (adj_of_mem_nearBlock hnear).1

theorem lt_N_of_mem_block (hv : v < g.N) {n : ℕ} (hn : n ∈ block g k q v) : n < g.N := by
  rcases mem_block.mp hn with rfl | hn | hn
  · exact hv
  · exact (g.lt_of_adj (adj_of_mem_nearBlock hn).1).2
  · obtain ⟨m, -, hadj⟩ := (mem_farBlock.mp hn).2.2.2.1
    exact (g.lt_of_adj hadj).2

/-- **The block of the smallest vertex of a `k`-plex holds the `k`-plex**, if its diameter is at
most two and it has at least `q` vertices; and the first test of `GetRoot` lets the vertex pass. -/
theorem subset_block {S : Finset ℕ} (hS : IsKplex g.toSimpleGraph k S)
    (hdiam : DiamTwo g.toSimpleGraph S) (hq : q ≤ S.card) (hvS : v ∈ S) (hmin : ∀ u ∈ S, v ≤ u) :
    q ≤ g.fwdDegree v + k ∧ ∀ u ∈ S, u ∈ block g k q v := by
  have hlt : ∀ u ∈ S, g.toSimpleGraph.Adj v u → v < u := fun u hu hadj =>
    lt_of_le_of_ne (hmin u hu) hadj.ne
  -- the neighbours of `v` in `S` pass the filter
  set T := S.filter (g.toSimpleGraph.Adj v) with hT
  have hTfwd : ∀ a ∈ T, a ∈ g.fwdNeighs v := by
    intro a ha
    obtain ⟨ha, hadj⟩ := Finset.mem_filter.mp ha
    exact g.mem_fwdNeighs.mpr ⟨hadj, hlt a ha hadj⟩
  have hcommon : ∀ u, T.filter (g.toSimpleGraph.Adj u)
      = S.filter fun x => g.toSimpleGraph.Adj v x ∧ g.toSimpleGraph.Adj u x := by
    intro u
    rw [hT, Finset.filter_filter]
  have hnear : ∀ a ∈ T, a ∈ nearBlock g k q v := by
    refine subset_filterLoop g k q _ hTfwd fun a ha => ?_
    have h1 := (card_le_card_common_add hS hvS (Finset.mem_filter.mp ha).1).1
    rw [hcommon]
    omega
  constructor
  · have hsub : T ⊆ (g.fwdNeighs v).toFinset := fun a ha => List.mem_toFinset.mpr (hTfwd a ha)
    have h1 := (Finset.card_le_card hsub).trans (List.toFinset_card_le _)
    have h2 : S.card ≤ T.card + k := hS v hvS
    unfold Graph.fwdDegree
    omega
  · intro u hu
    rw [mem_block]
    by_cases huv : u = v
    · exact Or.inl huv
    · right
      by_cases hadj : g.toSimpleGraph.Adj v u
      · exact Or.inl (hnear u (Finset.mem_filter.mpr ⟨hu, hadj⟩))
      · right
        have hnonadj : ({u, v} : Finset ℕ) ⊆ nonAdj g.toSimpleGraph S v := by
          intro x hx
          rcases Finset.mem_insert.mp hx with rfl | hx
          · exact mem_nonAdj.mpr ⟨hu, hadj⟩
          · rw [Finset.mem_singleton.mp hx]
            exact mem_nonAdj.mpr ⟨hvS, g.toSimpleGraph.loopless.irrefl v⟩
        have hk1 : k ≠ 1 := by
          have h1 := Finset.card_le_card hnonadj
          have h2 := isKplex_iff_nonAdj.mp hS v hvS
          rw [Finset.card_pair huv] at h1
          omega
        rcases hdiam v hvS u hu (Ne.symm huv) with h | ⟨m, hm, hvm, hum⟩
        · exact absurd h hadj
        · refine mem_farBlock.mpr ⟨hk1, lt_of_le_of_ne (hmin u hu) (Ne.symm huv), hadj,
            ⟨m, hnear m (Finset.mem_filter.mpr ⟨hm, hvm⟩), hum.symm⟩, ?_⟩
          have h1 := (card_le_card_common_add hS hvS hu).2 (Ne.symm huv) hadj
          have hsub : T.filter (g.toSimpleGraph.Adj u)
              ⊆ ((nearBlock g k q v).filter (g.areNeighs u ·)).toFinset := by
            intro x hx
            obtain ⟨hxT, hux⟩ := Finset.mem_filter.mp hx
            exact List.mem_toFinset.mpr
              (List.mem_filter.mpr ⟨hnear x hxT, g.areNeighs_eq_true.mpr hux⟩)
          have h2 := (Finset.card_le_card hsub).trans (List.toFinset_card_le _)
          rw [hcommon] at h2
          rw [List.countP_eq_length_filter]
          omega

/-- When `q` is small against `k`, the filters do nothing: the block holds the later vertices at
distance at most two, measured among the later vertices. -/
theorem mem_block_of_small (hk : 2 ≤ k) (hq : q + 2 ≤ 2 * k) {n : ℕ} :
    n ∈ block g k q v ↔ n = v ∨ v < n ∧ (g.toSimpleGraph.Adj v n ∨
      ∃ m, v < m ∧ g.toSimpleGraph.Adj v m ∧ g.toSimpleGraph.Adj m n) := by
  have hnear : ∀ n, n ∈ nearBlock g k q v ↔ g.toSimpleGraph.Adj v n ∧ v < n := by
    intro n
    refine ⟨adj_of_mem_nearBlock, fun h => ?_⟩
    refine subset_filterLoop g k q (T := {n}) _ (fun a ha => ?_) (fun a _ => by omega) n
      (Finset.mem_singleton_self n)
    rw [Finset.mem_singleton.mp ha]
    exact g.mem_fwdNeighs.mpr h
  rw [mem_block, mem_farBlock, hnear]
  refine or_congr_right ⟨?_, ?_⟩
  · rintro (⟨hadj, hlt⟩ | ⟨-, hlt, -, ⟨m, hm, hmn⟩, -⟩)
    · exact ⟨hlt, Or.inl hadj⟩
    · obtain ⟨hvm, hvm'⟩ := (hnear m).mp hm
      exact ⟨hlt, Or.inr ⟨m, hvm', hvm, hmn⟩⟩
  · rintro ⟨hlt, hor⟩
    by_cases hadj : g.toSimpleGraph.Adj v n
    · exact Or.inl ⟨hadj, hlt⟩
    · obtain ⟨m, hvm', hvm, hmn⟩ := hor.resolve_left hadj
      exact Or.inr ⟨by omega, hlt, hadj, ⟨m, (hnear m).mpr ⟨hvm, hvm'⟩, hmn⟩, by omega⟩

end ParallelEnum.Diam2Kplex
