import ParallelEnum.Enumerator.Equiv.DistributedMpi.Protocol

/-!
# The ranges that the master hands out

`rangeLoop_iff`: the first loop of `Master::Run` ends, and hands out non-empty ranges that
partition the roots, exactly if there are at least as many roots as workers.  With fewer roots
`_rootsPerNode` is set to zero and the loop does not end (`not_rangeLoop_two`).
-/

namespace ParallelEnum.DistributedMpi

open ParallelPthreadsSteal (FiniteSystem)

variable {Node : Type} {W : ℕ} {c : FiniteSystem Node}

/-! ### The loop -/

/-- The roots in a range. -/
def rootsOf (range : ℕ × ℕ) : List ℕ := List.range' range.1 (range.2 - range.1)

/-- `WaitRangeRequest` answers the request that it receives with this range. -/
def AnsweredWithRange (c : FiniteSystem Node) (W : ℕ) [NeZero W] (range : ℕ × ℕ) : Prop :=
  ∀ (s : State Node W) (i : Fin W) (now count : ℕ) (rest : List (ToMaster Node)),
    s.master.pc = .wait range.1 range.2 → s.toMaster i = .rangeRequest count :: rest →
      ∃ s', s.masterStep c i now = some s' ∧
        s'.toWorker i = s.toWorker i ++ [.rangeResponse range.1 range.2]

/-- The ranges are not empty, partition the roots, and are sent to the workers that ask. -/
structure Partitions (c : FiniteSystem Node) (W : ℕ) [NeZero W] (ranges : List (ℕ × ℕ)) : Prop where
  nonempty : ∀ range ∈ ranges, range.1 < range.2
  perm : (ranges.flatMap rootsOf).Perm (List.range c.maxRoots)
  answered : ∀ range ∈ ranges, AnsweredWithRange c W range

theorem answeredWithRange [NeZero W] {range : ℕ × ℕ} (h : range.1 ≠ c.maxRoots) :
    AnsweredWithRange c W range := by
  intro s i now count rest hpc hup
  unfold State.masterStep
  rw [hpc]
  simp only [hup]
  rw [if_pos h]
  exact ⟨_, rfl, Function.update_self _ _ _⟩

/-- Without progress the loop does not end. -/
theorem rangeLoop_zero (fuel : ℕ) {nextRangeStart : ℕ} (h : 0 < nextRangeStart) :
    rangeLoop 0 fuel nextRangeStart = none := by
  induction fuel with
  | zero => rfl
  | succ fuel ih =>
    rw [rangeLoop, if_pos h]
    show (rangeLoop 0 fuel nextRangeStart).map _ = none
    rw [ih]
    rfl

/-- With progress the loop ends, and its ranges go down from where it starts. -/
theorem rangeLoop_of_pos {rootsPerNode : ℕ} (hpos : 0 < rootsPerNode) (fuel : ℕ)
    {nextRangeStart : ℕ} (h : nextRangeStart < fuel) :
    ∃ ranges, rangeLoop rootsPerNode fuel nextRangeStart = some ranges ∧
      (∀ range ∈ ranges, range.1 < range.2 ∧ range.2 ≤ nextRangeStart) ∧
      (ranges.flatMap rootsOf).Perm (List.range nextRangeStart) := by
  induction fuel generalizing nextRangeStart with
  | zero => exact absurd h (Nat.not_lt_zero _)
  | succ fuel ih =>
    rw [rangeLoop]
    split_ifs with hstart
    · obtain ⟨hlt, heq⟩ := nextRange_spec hpos hstart
      have hfuel : (nextRange rootsPerNode nextRangeStart).1 < fuel := by omega
      obtain ⟨ranges, hrun, hmem, hperm⟩ := ih hfuel
      refine ⟨nextRange rootsPerNode nextRangeStart :: ranges, ?_, ?_, ?_⟩
      · show (rangeLoop rootsPerNode fuel (nextRange rootsPerNode nextRangeStart).1).map _ = _
        rw [hrun]
        rfl
      · rw [List.forall_mem_cons]
        refine ⟨by omega, ?_⟩
        intro range hrange
        obtain ⟨h1, h2⟩ := hmem range hrange
        exact ⟨h1, by omega⟩
      · rw [List.flatMap_cons, rootsOf, heq, range_eq_append hlt.le]
        exact (hperm.append_left _).trans List.perm_append_comm
    · obtain rfl : nextRangeStart = 0 := by omega
      exact ⟨[], rfl, nofun, List.Perm.refl _⟩

/-- **The loop hands out the roots exactly if there is one for each worker.** -/
theorem rangeLoop_iff [NeZero W] (c : FiniteSystem Node) (hroots : 1 ≤ c.maxRoots)
    {rootsPerNode : ℕ} (hpos : 1 ≤ rootsPerNode) :
    (∃ fuel ranges, rangeLoop (clampRootsPerNode c.maxRoots W rootsPerNode) fuel c.maxRoots
      = some ranges ∧ Partitions c W ranges) ↔ W ≤ c.maxRoots := by
  have hW : 0 < W := Nat.pos_of_ne_zero (NeZero.ne W)
  constructor
  · rintro ⟨fuel, ranges, hrun, _⟩
    by_contra hlt
    have hzero : clampRootsPerNode c.maxRoots W rootsPerNode = 0 := by
      have hdiv : c.maxRoots / W = 0 := Nat.div_eq_of_lt (by omega)
      unfold clampRootsPerNode
      rw [hdiv, if_pos (by omega)]
    rw [hzero, rangeLoop_zero fuel hroots] at hrun
    cases hrun
  · intro hle
    obtain ⟨ranges, hrun, hmem, hperm⟩ := rangeLoop_of_pos
      (clampRootsPerNode_pos hW hle hpos) (c.maxRoots + 1) (Nat.lt_succ_self c.maxRoots)
    refine ⟨_, ranges, hrun, ?_, hperm, ?_⟩
    · exact fun range hrange => (hmem range hrange).1
    · intro range hrange
      obtain ⟨h1, h2⟩ := hmem range hrange
      apply answeredWithRange
      omega

/-- One root, and no node. -/
def oneRoot : FiniteSystem ℕ where
  canUseRecursion := false
  maxRoots := 1
  getRoot _ := []
  forest :=
    { children := fun _ => []
      Ok := fun _ => True
      rank := fun _ => 0
      ok_of_mem := fun _ _ => trivial
      rank_lt_of_mem := fun _ h => absurd h List.not_mem_nil }
  ok_getRoot _ _ _ _ := trivial

/-- With two workers for one root the loop does not end. -/
theorem not_rangeLoop_two : ¬∃ fuel ranges,
    rangeLoop (clampRootsPerNode oneRoot.maxRoots 2 1) fuel oneRoot.maxRoots = some ranges ∧
      Partitions oneRoot 2 ranges := by
  rintro ⟨fuel, ranges, hrun, _⟩
  have hzero : clampRootsPerNode oneRoot.maxRoots 2 1 = 0 := rfl
  have hroots : 0 < oneRoot.maxRoots := Nat.one_pos
  rw [hzero, rangeLoop_zero fuel hroots] at hrun
  cases hrun

/-- Seven roots, and no node. -/
def sevenRoots : FiniteSystem ℕ :=
  { oneRoot with maxRoots := 7, ok_getRoot := fun _ _ _ _ => trivial }

/-- Two workers share seven roots in ranges of two, the last of which has one root only. -/
theorem rangeLoop_iff_seven : (∃ fuel ranges,
    rangeLoop (clampRootsPerNode sevenRoots.maxRoots 2 2) fuel sevenRoots.maxRoots
        = some ranges ∧
      Partitions sevenRoots 2 ranges) ↔ 2 ≤ sevenRoots.maxRoots :=
  rangeLoop_iff sevenRoots (by decide) (by decide)

example : rangeLoop (clampRootsPerNode 7 2 2) 5 7 = some [(5, 7), (3, 5), (1, 3), (0, 1)] := by
  decide

end ParallelEnum.DistributedMpi
