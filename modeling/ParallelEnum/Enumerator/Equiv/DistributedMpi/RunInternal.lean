import Mathlib.Algebra.BigOperators.Fin
import ParallelEnum.Enumerator.DistributedMpi.RunInternal
import ParallelEnum.Enumerator.Equiv.DistributedMpi

/-!
# What the processes of `DistributedMPI` report

* `staticAgrees_iff`: in the static mode the ranks divide the roots among them, and rank `0` prints
  the number of solutions exactly when there is none in the parts of the others.
* `callsAsSequential_iff`: in both modes the item callback of the `DistributedMPI` object is called
  for every solution exactly when there is no solution.
-/

namespace ParallelEnum.DistributedMpi

open ParallelPthreadsSteal (FiniteSystem rootIds lastRootId)
open Transition

variable {Node Item : Type} {c : FiniteSystem Node}

/-! ### The parts of the ranks -/

/-- The first root of a rank. -/
def firstRoot (maxRoots numWorkers rank : ℕ) : ℕ :=
  rank * (maxRoots / numWorkers) + min rank (maxRoots % numWorkers)

/-- One iteration: as long as there are surplus roots, a range has one more. -/
theorem partitionLoop_succ (rootsPerNode iterations start surplus : ℕ) :
    partitionLoop rootsPerNode (iterations + 1) start surplus
      = (start, start + rootsPerNode + min 1 surplus) ::
        partitionLoop rootsPerNode iterations (start + rootsPerNode + min 1 surplus)
          (surplus - 1) := by
  rw [partitionLoop]
  split_ifs with hsurplus
  · rw [min_eq_left (Nat.one_le_iff_ne_zero.mpr hsurplus)]
  · obtain rfl : surplus = 0 := not_not.mp hsurplus
    rfl

theorem partitionLoop_getD (rootsPerNode : ℕ) {iterations rank : ℕ} (h : rank < iterations)
    (start surplus : ℕ) :
    (partitionLoop rootsPerNode iterations start surplus).getD rank (0, 0)
      = (start + rank * rootsPerNode + min rank surplus,
        start + (rank + 1) * rootsPerNode + min (rank + 1) surplus) := by
  induction iterations generalizing rank start surplus with
  | zero => exact absurd h (Nat.not_lt_zero _)
  | succ iterations ih =>
    have hsucc : ∀ i, (i + 1) * rootsPerNode = rootsPerNode + i * rootsPerNode := fun i => by
      rw [Nat.succ_mul, Nat.add_comm]
    rw [partitionLoop_succ]
    cases rank with
    | zero =>
      rw [List.getD_cons_zero]
      ext
      · simp
      · simp only [hsucc, Nat.zero_mul, Nat.add_zero]
    | succ rank =>
      rw [List.getD_cons_succ, ih (Nat.lt_of_succ_lt_succ h)]
      ext
      · simp only [hsucc]
        omega
      · simp only [hsucc]
        omega

theorem staticRange_eq {maxRoots numWorkers rank : ℕ} (h : rank < numWorkers) :
    staticRange maxRoots numWorkers rank
      = (firstRoot maxRoots numWorkers rank, firstRoot maxRoots numWorkers (rank + 1)) := by
  unfold staticRange firstRoot
  rw [partitionLoop_getD _ h]
  simp

theorem firstRoot_zero (maxRoots numWorkers : ℕ) : firstRoot maxRoots numWorkers 0 = 0 := by
  simp [firstRoot]

/-- The last part ends where the roots end. -/
theorem firstRoot_self {maxRoots numWorkers : ℕ} (h : 0 < numWorkers) :
    firstRoot maxRoots numWorkers numWorkers = maxRoots := by
  have hlt := Nat.mod_lt maxRoots h
  rw [firstRoot, min_eq_right hlt.le]
  exact Nat.div_add_mod maxRoots numWorkers

theorem firstRoot_mono (maxRoots numWorkers : ℕ) : Monotone (firstRoot maxRoots numWorkers) := by
  apply monotone_nat_of_le_succ
  intro rank
  unfold firstRoot
  have hmul : rank * (maxRoots / numWorkers) ≤ (rank + 1) * (maxRoots / numWorkers) :=
    Nat.mul_le_mul_right _ rank.le_succ
  exact Nat.add_le_add hmul (min_le_min_right _ rank.le_succ)

/-- An upper bound of zero means all roots, but only where there are none. -/
theorem rootIds_staticRange {P rank : ℕ} (h : rank < P) :
    rootIds c (staticRange c.maxRoots P rank).1 (staticRange c.maxRoots P rank).2
      = List.range' (firstRoot c.maxRoots P rank)
          (firstRoot c.maxRoots P (rank + 1) - firstRoot c.maxRoots P rank) := by
  rw [staticRange_eq h, rootIds, lastRootId]
  dsimp only
  split_ifs with hzero
  · have hroots : c.maxRoots = 0 := by
      obtain ⟨hmul, hmin⟩ := Nat.add_eq_zero_iff.mp hzero
      have hquot : c.maxRoots / P = 0 := (Nat.mul_eq_zero.mp hmul).resolve_left rank.succ_ne_zero
      have hrem : c.maxRoots % P = 0 := (Nat.min_eq_zero_iff.mp hmin).resolve_left rank.succ_ne_zero
      rw [← Nat.div_add_mod c.maxRoots P, hquot, hrem, Nat.mul_zero]
    rw [hzero, hroots]
  · rfl

/-- Consecutive blocks of numbers. -/
theorem flatMap_blocks {f : ℕ → ℕ} (hf : Monotone f) (hzero : f 0 = 0) (n : ℕ) :
    ((List.range n).flatMap fun i => List.range' (f i) (f (i + 1) - f i)) = List.range (f n) := by
  induction n with
  | zero => rw [hzero]; rfl
  | succ n ih =>
    rw [List.range_succ, List.flatMap_append, ih, List.flatMap_singleton]
    exact (range_eq_append (hf n.le_succ)).symm

theorem flatMap_rootIds {P : ℕ} (hP : 0 < P) :
    ((List.finRange P).flatMap fun r : Fin P => rootIds c (staticRange c.maxRoots P r).1
      (staticRange c.maxRoots P r).2) = List.range c.maxRoots := by
  have hblocks := flatMap_blocks (firstRoot_mono c.maxRoots P) (firstRoot_zero c.maxRoots P) P
  rw [firstRoot_self hP] at hblocks
  rw [← hblocks, ← List.map_coe_finRange_eq_range, List.flatMap_map]
  exact List.flatMap_congr fun r _ => rootIds_staticRange r.isLt

/-- Every root is in the part of one rank. -/
theorem existsUnique_rank {P : ℕ} (hP : 0 < P) {i : ℕ} (hi : i < c.maxRoots) :
    ∃! r : Fin P, i ∈ rootIds c (staticRange c.maxRoots P r).1 (staticRange c.maxRoots P r).2 := by
  have hmem : ∀ r : Fin P,
      i ∈ rootIds c (staticRange c.maxRoots P r).1 (staticRange c.maxRoots P r).2 ↔
        firstRoot c.maxRoots P r ≤ i ∧ i < firstRoot c.maxRoots P (r + 1) := by
    intro r
    have hle := firstRoot_mono c.maxRoots P (Nat.le_succ r)
    rw [rootIds_staticRange r.isLt, List.mem_range'_1]
    omega
  have hsome : i ∈ (List.finRange P).flatMap fun r : Fin P =>
      rootIds c (staticRange c.maxRoots P r).1 (staticRange c.maxRoots P r).2 := by
    rw [flatMap_rootIds hP]
    exact List.mem_range.mpr hi
  obtain ⟨r, _, hr⟩ := List.mem_flatMap.mp hsome
  refine ⟨r, hr, ?_⟩
  intro r' hr'
  rw [hmem] at hr hr'
  -- the parts of two ranks are one after the other
  rcases lt_trichotomy r'.val r.val with hlt | heq | hlt
  · have := firstRoot_mono c.maxRoots P (Nat.succ_le_of_lt hlt)
    have hbetween : firstRoot c.maxRoots P (r' + 1) ≤ firstRoot c.maxRoots P r := this
    omega
  · exact Fin.ext heq
  · have := firstRoot_mono c.maxRoots P (Nat.succ_le_of_lt hlt)
    have hbetween : firstRoot c.maxRoots P (r + 1) ≤ firstRoot c.maxRoots P r' := this
    omega

/-! ### Objects -/

/-- An object whose callback is not set counts, and calls nobody. -/
theorem reportSolution_of_hasCb {St : Type} (system : Enumerable St Node Item) (st : St)
    (node : Node) {o : EnumeratorObject Item} (h : o.hasCb = false) :
    o.reportSolution system st node = { o with
      treeSize := o.treeSize + 1
      solutionsFound := o.solutionsFound + if system.isSolution st node then 1 else 0 } := by
  unfold EnumeratorObject.reportSolution
  cases hsol : system.isSolution st node <;> simp [h]

/-- An object whose callback is set reports as an `Enumerator` does. -/
theorem reportSolution_toEnumerator {St : Type} (system : Enumerable St Node Item) (st : St)
    (node : Node) (o : EnumeratorObject Item) :
    (o.setItemFoundCallback.reportSolution system st node).toEnumerator
      = o.toEnumerator.reportSolution system st node := by
  unfold EnumeratorObject.reportSolution Enumerator.reportSolution
  cases hsol : system.isSolution st node <;> simp [EnumeratorObject.setItemFoundCallback]

/-- The callback of a `ParallelPthreadsSteal` object is never set. -/
theorem reportAll_eq (c : FiniteSystem Node) (isSolution : Node → Bool) (nodeToItem : Node → Item)
    (nodes : List Node) : reportAll c isSolution nodeToItem nodes
      = { solutionsFound := nodes.countP isSolution, treeSize := nodes.length } := by
  unfold reportAll
  induction nodes using List.reverseRecOn with
  | nil => rfl
  | append_singleton nodes node ih =>
    rw [List.foldl_append, ih, List.foldl_cons, List.foldl_nil, reportSolution_of_hasCb _ _ _ rfl,
      List.countP_append, List.countP_singleton, List.length_append]
    rfl

/-! ### `Sequential` -/

/-- What `Sequential` reports: the items, and how many. -/
def SequentialReports (c : FiniteSystem Node) (isSolution : Node → Bool)
    (nodeToItem : Node → Item) (items : Multiset Item) (solutionsFound : ℕ) : Prop :=
  ∃ bound, ∀ fuel > bound, ∃ e,
    Sequential.runInternal fuel (systemOf c isSolution nodeToItem) () {} = some ((), e) ∧
      ↑e.items = items ∧ e.solutionsFound = solutionsFound

/-- Without recursion the system lists its forest. -/
def listsForestOf (c : FiniteSystem Node) (isSolution : Node → Bool) (nodeToItem : Node → Item)
    (hrec : c.canUseRecursion = false) :
    Sequential.ListsForest (systemOf c isSolution nodeToItem) :=
  { c.listsForest hrec with
    sol := isSolution
    item := nodeToItem
    isSolution_eq := fun _ _ => rfl
    nodeToItem_eq := fun _ _ => rfl }

/-- With recursion the system lists the trees below its roots. -/
def listsTreesOf (c : FiniteSystem Node) (isSolution : Node → Bool) (nodeToItem : Node → Item)
    (hrec : c.canUseRecursion = true) :
    Sequential.ListsTrees (systemOf c isSolution nodeToItem) :=
  { c.listsTrees hrec with
    sol := fun _ => isSolution
    item := fun _ => nodeToItem
    isSolution_eq := fun _ _ _ _ _ => rfl
    nodeToItem_eq := fun _ _ _ _ _ => rfl }

theorem listsTreesOf_reportsRoots (c : FiniteSystem Node) (isSolution : Node → Bool)
    (nodeToItem : Node → Item) (hrec : c.canUseRecursion = true) (ids : List ℕ)
    (e : Enumerator Item) :
    (listsTreesOf c isSolution nodeToItem hrec).reportsRoots ids e
      = e.reports isSolution nodeToItem (c.nodesBelow ids) := by
  induction ids generalizing e with
  | nil => exact (Enumerator.reports_nil _ _ e).symm
  | cons i ids ih =>
    have hcons : c.nodesBelow (i :: ids)
        = c.forest.traversal (c.getRoot i) ++ c.nodesBelow ids := List.flatMap_cons
    rw [hcons, Enumerator.reports_append]
    exact ih _

/-- `Sequential` reports the solutions among the nodes of the forest. -/
theorem sequentialReports_nodes (c : FiniteSystem Node) (isSolution : Node → Bool)
    (nodeToItem : Node → Item) : SequentialReports c isSolution nodeToItem
      ↑((c.nodes.filter isSolution).map nodeToItem) (c.nodes.countP isSolution) := by
  -- whatever the order in which the nodes are reported
  have hreports : ∀ {l : List Node}, l.Perm c.nodes →
      (↑(({} : Enumerator Item).reports isSolution nodeToItem l).items : Multiset Item)
          = ↑((c.nodes.filter isSolution).map nodeToItem) ∧
        (({} : Enumerator Item).reports isSolution nodeToItem l).solutionsFound
          = c.nodes.countP isSolution := by
    intro l hl
    constructor
    · exact Multiset.coe_eq_coe.mpr ((hl.filter isSolution).map nodeToItem)
    · show 0 + (l.filter isSolution).length = _
      rw [Nat.zero_add, ← List.countP_eq_length_filter, hl.countP_eq]
  cases hrec : c.canUseRecursion with
  | false =>
    refine ⟨(listsForestOf c isSolution nodeToItem hrec).allNodes.length, ?_⟩
    intro fuel hfuel
    obtain ⟨l, hl, hrun⟩ := (listsForestOf c isSolution nodeToItem hrec).runInternal_of_listsForest
      () trivial hfuel ({} : Enumerator Item)
    exact ⟨_, hrun, hreports hl⟩
  | true =>
    obtain ⟨bound, hbound⟩ := c.exists_rank_bound
    refine ⟨bound, ?_⟩
    intro fuel hfuel
    have hranks : ∀ i < c.maxRoots, ∀ r ∈ c.getRoot i, c.forest.rank r < fuel :=
      fun i hi r hr => (hbound i hi r hr).trans_lt hfuel
    obtain ⟨_, hrun⟩ := (listsTreesOf c isSolution nodeToItem hrec).runInternal_of_listsTrees
      trivial hranks {}
    rw [listsTreesOf_reportsRoots] at hrun
    exact ⟨_, hrun, hreports (List.Perm.refl _)⟩

/-- `Sequential` reports one thing only. -/
theorem sequentialReports_iff {isSolution : Node → Bool} {nodeToItem : Node → Item}
    {items : Multiset Item} {solutionsFound : ℕ} :
    SequentialReports c isSolution nodeToItem items solutionsFound ↔
      items = ↑((c.nodes.filter isSolution).map nodeToItem) ∧
        solutionsFound = c.nodes.countP isSolution := by
  constructor
  · rintro ⟨bound, hbound⟩
    obtain ⟨bound', hbound'⟩ := sequentialReports_nodes c isSolution nodeToItem
    obtain ⟨e, hrun, rfl, rfl⟩ := hbound (bound + bound' + 1) (by omega)
    obtain ⟨e', hrun', hitems, hfound⟩ := hbound' (bound + bound' + 1) (by omega)
    obtain rfl : e = e' := congrArg Prod.snd (Option.some.inj (hrun.symm.trans hrun'))
    exact ⟨hitems, hfound⟩
  · rintro ⟨rfl, rfl⟩
    exact sequentialReports_nodes c isSolution nodeToItem

/-! ### The static mode -/

section Static

variable {P nthreads : ℕ}

/-- The runs of the threads of all ranks, each to its end. -/
structure StaticRun (c : FiniteSystem Node)
    (s : Fin P → ParallelPthreadsSteal.State Node nthreads) : Prop where
  reaches : ∀ r : Fin P,
    Reaches (ParallelPthreadsSteal.step c nthreads) Any (staticInit c P nthreads r) (s r)
  finished : ∀ r, ParallelPthreadsSteal.Finished (s r)

/-- Every root is explored by one rank, and rank `0` prints what `Sequential` prints. -/
structure StaticAgrees (c : FiniteSystem Node) (isSolution : Node → Bool)
    (nodeToItem : Node → Item) (s : Fin P → ParallelPthreadsSteal.State Node nthreads) :
    Prop where
  /-- Every root is given to the threads of one rank. -/
  explored : ∀ i < c.maxRoots, ∃! r : Fin P, i ∈ (staticInit c P nthreads r).shared.possibleRoots
  /-- These threads list and report every node below their roots once. -/
  visits : ∀ r : Fin P,
    (s r).shared.listed.Perm
        (c.nodesBelow (staticInit c P nthreads r).shared.possibleRoots) ∧
      (s r).shared.reported.Perm
        (c.nodesBelow (staticInit c P nthreads r).shared.possibleRoots)
  printed : ∀ (r : Fin P) (count : ℕ),
    printStats r (staticProcess c isSolution nodeToItem (s r)) = some count →
      count = ∑ r, (staticProcess c isSolution nodeToItem (s r)).object.solutionsFound ∧
        ∃ items, SequentialReports c isSolution nodeToItem items count

theorem StaticRun.visits {s : Fin P → ParallelPthreadsSteal.State Node nthreads}
    (h : StaticRun c s) (hn : 0 < nthreads) (r : Fin P) :
    (s r).shared.listed.Perm
        (c.nodesBelow (staticInit c P nthreads r).shared.possibleRoots) ∧
      (s r).shared.reported.Perm
        (c.nodesBelow (staticInit c P nthreads r).shared.possibleRoots) := by
  have hlast : lastRootId c (staticRange c.maxRoots P r).2 ≤ c.maxRoots := by
    rw [lastRootId, staticRange_eq r.isLt]
    split_ifs
    · exact le_rfl
    · have hmono := firstRoot_mono c.maxRoots P (Nat.succ_le_of_lt r.isLt)
      rw [firstRoot_self r.pos] at hmono
      exact hmono
  exact ParallelPthreadsSteal.finished_nodesBelow hlast (h.reaches r) hn (h.finished r)

theorem nodesBelow_append (c : FiniteSystem Node) (is js : List ℕ) :
    c.nodesBelow (is ++ js) = c.nodesBelow is ++ c.nodesBelow js := List.flatMap_append

/-- What the ranks find adds up. -/
theorem StaticRun.sum_solutionsFound {s : Fin P → ParallelPthreadsSteal.State Node nthreads}
    (h : StaticRun c s) (hP : 0 < P) (hn : 0 < nthreads) (isSolution : Node → Bool)
    (nodeToItem : Node → Item) :
    ∑ r, (staticProcess c isSolution nodeToItem (s r)).object.solutionsFound
      = c.nodes.countP isSolution := by
  have hfound : ∀ r, (staticProcess c isSolution nodeToItem (s r)).object.solutionsFound
      = (c.nodesBelow (staticInit c P nthreads r).shared.possibleRoots).countP isSolution := by
    intro r
    show (reportAll c isSolution nodeToItem (s r).shared.reported).solutionsFound = _
    rw [reportAll_eq]
    exact (h.visits hn r).2.countP_eq isSolution
  have hroots := flatMap_rootIds (c := c) hP
  rw [Fin.sum_univ_def, FiniteSystem.nodes, ← hroots, List.flatMap_assoc, List.countP_flatMap]
  exact congrArg List.sum (List.map_congr_left fun r _ => hfound r)

/-- **What rank `0` prints** is the number of solutions exactly if the roots of the other ranks
have none. -/
theorem staticAgrees_iff (c : FiniteSystem Node) (isSolution : Node → Bool)
    (nodeToItem : Node → Item) (hP : 2 ≤ P) (hn : 0 < nthreads)
    {s : Fin P → ParallelPthreadsSteal.State Node nthreads} (h : StaticRun c s) :
    StaticAgrees c isSolution nodeToItem s ↔
      ∀ i < c.maxRoots, c.maxRoots / P + min 1 (c.maxRoots % P) ≤ i →
        ∀ x ∈ c.forest.traversal (c.getRoot i), isSolution x = false := by
  have hpos : 0 < P := by omega
  have hfirst : c.maxRoots / P + min 1 (c.maxRoots % P) = firstRoot c.maxRoots P 1 := by
    rw [firstRoot, Nat.one_mul]
  have hle : firstRoot c.maxRoots P 1 ≤ c.maxRoots := by
    have hmono := firstRoot_mono c.maxRoots P (show 1 ≤ P by omega)
    rwa [firstRoot_self hpos] at hmono
  set others := List.range' (firstRoot c.maxRoots P 1) (c.maxRoots - firstRoot c.maxRoots P 1)
  -- the solutions are those of rank `0` and those of the others
  have hsplit : c.nodes.countP isSolution
      = (staticProcess c isSolution nodeToItem (s ⟨0, hpos⟩)).object.solutionsFound
        + (c.nodesBelow others).countP isSolution := by
    have hroots : (staticInit c P nthreads 0).shared.possibleRoots
        = List.range (firstRoot c.maxRoots P 1) := by
      show rootIds c _ _ = _
      rw [rootIds_staticRange hpos, firstRoot_zero, Nat.sub_zero, List.range_eq_range']
    have hfound : (staticProcess c isSolution nodeToItem (s ⟨0, hpos⟩)).object.solutionsFound
        = (c.nodesBelow (List.range (firstRoot c.maxRoots P 1))).countP isSolution := by
      show (reportAll c isSolution nodeToItem (s ⟨0, hpos⟩).shared.reported).solutionsFound = _
      rw [reportAll_eq, ← hroots]
      exact (h.visits hn ⟨0, hpos⟩).2.countP_eq isSolution
    have hrange : c.nodes = c.nodesBelow (List.range (firstRoot c.maxRoots P 1) ++ others) := by
      rw [← range_eq_append hle]
      rfl
    rw [hrange, nodesBelow_append, List.countP_append, hfound]
  have hnone : (∀ i < c.maxRoots, firstRoot c.maxRoots P 1 ≤ i →
      ∀ x ∈ c.forest.traversal (c.getRoot i), isSolution x = false) ↔
        (c.nodesBelow others).countP isSolution = 0 := by
    rw [List.countP_eq_zero]
    constructor
    · intro h x hx
      obtain ⟨i, hi, hx⟩ := List.mem_flatMap.mp hx
      obtain ⟨hge, hlt⟩ := List.mem_range'_1.mp hi
      rw [h i (by omega) hge x hx]
      exact Bool.false_ne_true
    · intro h i hi hge x hx
      have hmem : i ∈ others := List.mem_range'_1.mpr ⟨hge, by omega⟩
      exact Bool.eq_false_iff.mpr (h x (List.mem_flatMap.mpr ⟨i, hmem, hx⟩))
  rw [hfirst, hnone]
  constructor
  · intro hagrees
    obtain ⟨hsum, -⟩ := hagrees.printed ⟨0, hpos⟩ _ rfl
    rw [h.sum_solutionsFound hpos hn] at hsum
    omega
  · intro hzero
    refine ⟨fun i hi => existsUnique_rank hpos hi, h.visits hn, ?_⟩
    intro r count hprint
    have hr : r = ⟨0, hpos⟩ := by
      by_contra hne
      have hr0 : r.val ≠ 0 := fun h => hne (Fin.ext h)
      rw [printStats, if_neg hr0] at hprint
      cases hprint
    subst hr
    have hcount : count = c.nodes.countP isSolution := by
      rw [hsplit, hzero, Nat.add_zero]
      exact (Option.some.inj hprint).symm
    refine ⟨hcount.trans (h.sum_solutionsFound hpos hn isSolution nodeToItem).symm,
      ↑((c.nodes.filter isSolution).map nodeToItem), ?_⟩
    exact sequentialReports_iff.mpr ⟨rfl, hcount⟩

end Static

/-- The only thread of a rank opens the root of the rank, expands the node under it and returns. -/
def soloRun : List (ParallelPthreadsSteal.Action 1) := List.replicate 21 ⟨0, 0⟩

/-- Two ranks with one thread and one root each. -/
theorem exists_staticRun_two : ∃ s : Fin 2 → ParallelPthreadsSteal.State ℕ 1,
    StaticRun twoRoots s ∧ ∀ r, (s r).shared.reported = [r.val] := by
  have hrun : ∀ r : Fin 2, ∃ s,
      run (ParallelPthreadsSteal.step twoRoots 1) Any soloRun (staticInit twoRoots 2 1 r) = some s ∧
        ((s.threads 0).pc, s.shared.reported) = (.done, [r.val]) := by
    intro r
    apply Option.map_eq_some_iff.mp
    match r with
    | 0 => decide +kernel
    | 1 => decide +kernel
  choose s hrun hends using hrun
  refine ⟨s, ⟨fun r => reaches_of_run (hrun r), ?_⟩, fun r => (Prod.mk.inj (hends r)).2⟩
  intro r t
  obtain rfl : t = 0 := Subsingleton.elim _ _
  exact (Prod.mk.inj (hends r)).1

theorem staticAgrees_iff_two : ∃ s : Fin 2 → ParallelPthreadsSteal.State ℕ 1,
    StaticRun twoRoots s ∧
      (StaticAgrees twoRoots (fun x => x == 0) id s ↔
        ∀ i < twoRoots.maxRoots, twoRoots.maxRoots / 2 + min 1 (twoRoots.maxRoots % 2) ≤ i →
          ∀ x ∈ twoRoots.forest.traversal (twoRoots.getRoot i), (x == 0) = false) := by
  obtain ⟨s, h, -⟩ := exists_staticRun_two
  exact ⟨s, h, staticAgrees_iff twoRoots (fun x => x == 0) id le_rfl Nat.one_pos h⟩

/-- Rank `0` prints one of two solutions. -/
theorem not_staticAgrees_two : ¬∀ s : Fin 2 → ParallelPthreadsSteal.State ℕ 1,
    StaticRun twoRoots s → StaticAgrees twoRoots (fun _ => true) id s := by
  intro h
  obtain ⟨s, hrun, hreported⟩ := exists_staticRun_two
  have hfound : ∀ r, (staticProcess twoRoots (fun _ => true) id (s r)).object.solutionsFound
      = 1 := by
    intro r
    show (reportAll twoRoots (fun _ => true) id (s r).shared.reported).solutionsFound = 1
    rw [hreported, reportAll_eq]
    rfl
  obtain ⟨hsum, -⟩ := (h s hrun).printed 0 1 (congrArg some (hfound 0))
  rw [Fin.sum_univ_two, hfound, hfound] at hsum
  cases hsum

/-! ### The item callback -/

/-- The processes of a run that has come to its end, in one of the two modes. -/
inductive Finishes [DecidableEq Node] (c : FiniteSystem Node) (isSolution : Node → Bool)
    (nodeToItem : Node → Item) : (P : ℕ) → (Fin P → Process Item) → Prop
  | static {P nthreads : ℕ} {s : Fin P → ParallelPthreadsSteal.State Node nthreads}
      (hP : 2 ≤ P) (hn : 0 < nthreads) (h : StaticRun c s) :
      Finishes c isSolution nodeToItem P fun r => staticProcess c isSolution nodeToItem (s r)
  /-- Every worker is answered with a range first. -/
  | dynamic {W rootsPerNode : ℕ} [NeZero W] {s : State Node W} {last : Fin W}
      (hroots : W ≤ c.maxRoots) (hpos : 1 ≤ rootsPerNode)
      (h : Reaches (step c isSolution) Any (init c rootsPerNode) s)
      (hstarted : ∀ w, (s.workers w).StartedWithRange) (hmaster : s.master.pc = .done last)
      (hworkers : ∀ w, (s.workers w).pc = .done) :
      Finishes c isSolution nodeToItem (W + 1)
        (Fin.cons (masterProcess s) fun w => workerProcess c isSolution nodeToItem (s.workers w))

/-- Over all processes the item callback is called as `Sequential` calls it. -/
def CallsAsSequential (c : FiniteSystem Node) (isSolution : Node → Bool)
    (nodeToItem : Node → Item) {P : ℕ} (ps : Fin P → Process Item) : Prop :=
  ∃ solutionsFound,
    SequentialReports c isSolution nodeToItem (∑ r, (↑(ps r).calls : Multiset Item)) solutionsFound

/-- No process calls the item callback of its `DistributedMPI` object. -/
theorem Finishes.calls_eq_nil [DecidableEq Node] {isSolution : Node → Bool}
    {nodeToItem : Node → Item} {P : ℕ} {ps : Fin P → Process Item}
    (h : Finishes c isSolution nodeToItem P ps) (r : Fin P) : (ps r).calls = [] := by
  cases h with
  | static hP hn h =>
    show [] ++ (reportAll c isSolution nodeToItem _).items = []
    rw [reportAll_eq]
    rfl
  | @dynamic W rootsPerNode _ s last hroots hpos h hstarted hmaster hworkers =>
    cases r using Fin.cases with
    | zero => rfl
    | succ w =>
      show [] ++ (reportAll c isSolution nodeToItem (s.workers w).reported).items = []
      rw [reportAll_eq]
      rfl

/-- **The item callback is called for every solution exactly if there is none.** -/
theorem callsAsSequential_iff [DecidableEq Node] (c : FiniteSystem Node)
    (isSolution : Node → Bool) (nodeToItem : Node → Item) {P : ℕ} {ps : Fin P → Process Item}
    (h : Finishes c isSolution nodeToItem P ps) :
    CallsAsSequential c isSolution nodeToItem ps ↔ ∀ x ∈ c.nodes, isSolution x = false := by
  have hcalls : ∑ r, (↑(ps r).calls : Multiset Item) = 0 := by
    apply Finset.sum_eq_zero
    intro r _
    rw [h.calls_eq_nil r]
    rfl
  have hnone : (∀ x ∈ c.nodes, isSolution x = false) ↔ c.nodes.filter isSolution = [] := by
    rw [List.filter_eq_nil_iff]
    simp
  unfold CallsAsSequential
  rw [hcalls, hnone]
  constructor
  · rintro ⟨_, hreports⟩
    have hitems := (sequentialReports_iff.mp hreports).1
    exact List.map_eq_nil_iff.mp ((Multiset.coe_eq_zero _).mp hitems.symm)
  · intro hnil
    refine ⟨_, sequentialReports_iff.mpr ⟨?_, rfl⟩⟩
    rw [hnil]
    rfl

theorem callsAsSequential_iff_two : ∃ s : Fin 2 → ParallelPthreadsSteal.State ℕ 1,
    StaticRun twoRoots s ∧
      (CallsAsSequential twoRoots (fun x => x == 2) id
        (fun r => staticProcess twoRoots (fun x => x == 2) id (s r)) ↔
          ∀ x ∈ twoRoots.nodes, (x == 2) = false) := by
  obtain ⟨s, h, -⟩ := exists_staticRun_two
  exact ⟨s, h, callsAsSequential_iff twoRoots (fun x => x == 2) id
    (Finishes.static le_rfl Nat.one_pos h)⟩

/-- Of two solutions none is passed to the callback. -/
theorem not_callsAsSequential_two : ¬∀ (P : ℕ) (ps : Fin P → Process ℕ),
    Finishes twoRoots (fun _ => true) id P ps →
      CallsAsSequential twoRoots (fun _ => true) id ps := by
  intro h
  obtain ⟨s, hrun, hreported⟩ := exists_staticRun_two
  obtain ⟨_, hreports⟩ := h 2 _ (Finishes.static le_rfl Nat.one_pos hrun)
  have hcalls : ∀ r, (staticProcess twoRoots (fun _ => true) id (s r)).calls = [] :=
    fun r => (Finishes.static le_rfl Nat.one_pos hrun).calls_eq_nil r
  obtain ⟨hitems, -⟩ := sequentialReports_iff.mp hreports
  rw [Fin.sum_univ_two, hcalls, hcalls] at hitems
  have hcard := congrArg Multiset.card hitems
  revert hcard
  decide

end ParallelEnum.DistributedMpi
