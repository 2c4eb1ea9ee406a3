import Mathlib.Algebra.Group.Action.Defs
import Mathlib.Data.Fintype.EquivFin
import ParallelEnum.Enumerator.Equiv.ParallelPthreads

/-!
# `ParallelPthreads` terminates

No thread waits for another one, so no assumption on the scheduling is needed.  Every step that
lists a node, reports a node or takes a root is one of finitely many; the others bring the thread
that makes them nearer to the end of its loop (`Moves.rank_lt`).

* `terminates`: there is a bound on the length of all runs, and a run that cannot go on has ended
  with all threads returned.
-/

namespace ParallelEnum.ParallelPthreads

open Traversal Transition ConcurrentQueue
open ParallelPthreadsSteal (FiniteSystem lastRootId rootIds treesWeight treesWeight_eq_sum)

variable {Node : Type} {c : FiniteSystem Node} {n : ℕ}

/-! ### How far a thread is from the end of its loop -/

/-- How many steps a call of `dequeue` takes at most. -/
def dequeueRank : Dequeue → ℕ
  | .start => 7
  | .gotTail _ => 6
  | .gotOvercommit _ _ => 5
  | .draw _ => 4
  | .drawn _ _ => 3
  | .take => 2
  | .moveOut _ => 1
  | .giveBack => 1

theorem dequeueRank_lt {p p' : Producer Node} {d d' : Dequeue}
    (h : d.step p = some (p', .inl d')) : dequeueRank d' < dequeueRank d := by
  cases d with
  | gotOvercommit tail overcommit =>
    rw [Dequeue.step] at h
    split_ifs at h with hlt
    · cases h
      exact Nat.lt_succ_self _
    · cases h
  | draw overcommit =>
    simp only [Dequeue.step] at h
    split_ifs at h
    cases h
    exact Nat.lt_succ_self _
  | drawn overcommit myDequeueCount =>
    cases h
    split_ifs
    · exact Nat.lt_succ_self 2
    · exact Nat.lt_of_lt_of_le Nat.one_lt_two (Nat.le_succ 2)
  | moveOut index =>
    obtain ⟨x, -, hx⟩ := Option.map_eq_some_iff.mp h
    cases hx
  | giveBack => cases h
  | _ =>
    cases h
    exact Nat.lt_succ_self _

/-- The number of steps from the head of the loop to its end, when no roots are available. -/
def loopLength (n : ℕ) : ℕ := 8 * n + 25

/-- The number of steps from a place to the end of the loop, when no roots are available and no
node is found. -/
def Pc.localRank : Pc Node n → ℕ
  | .call _ (_ :: _) => 8 * n + 24
  | .enqueue _ _ _ (.start _) => 8 * n + 23
  | .enqueue _ _ _ (.store _) => 8 * n + 22
  | .report _ _ _ => 8 * n + 21
  | .call _ [] => 8 * n + 20
  | .roots => 8 * n + 19
  | .own d => 8 * n + 11 + dequeueRank d
  | .scan _ left d => 8 * left + 3 + dequeueRank d
  | .checkRoots => 2
  | .leave => 1

/-- A thread that thinks that roots are available goes through the loop once more. -/
def Pc.rank (rootsAvailable : Bool) (pc : Pc Node n) : ℕ :=
  match rootsAvailable, pc with
  | true, .roots => loopLength n
  | true, pc => loopLength n + pc.localRank
  | false, pc => pc.localRank

/-- How far a thread is from its end. -/
def Thread.rank : Thread Node n → ℕ
  | .start => loopLength n + 1
  | .run _ rootsAvailable pc => pc.rank rootsAvailable
  | .done => 0

/-- Nearer to the end of the loop. -/
theorem Pc.rank_lt {pc pc' : Pc Node n} (h : pc'.localRank < pc.localRank) (hpc : pc ≠ .roots)
    (b : Bool) : pc'.rank b < pc.rank b := by
  cases b with
  | false => exact h
  | true =>
    have hrank : pc.rank true = loopLength n + pc.localRank := by
      cases pc with
      | roots => exact absurd rfl hpc
      | _ => rfl
    have hrank' : pc'.rank true ≤ loopLength n + pc'.localRank := by
      cases pc' with
      | roots => exact Nat.le_add_right _ _
      | _ => exact le_rfl
    omega

theorem rank_call_lt (p : Fin n) (b : Bool) (caller : Caller) (rest : List Node) :
    (Thread.run p b (.call caller rest)).rank < 2 * loopLength n := by
  have hlocal : (Pc.call caller rest : Pc Node n).localRank ≤ 8 * n + 24 := by
    cases rest with
    | nil => exact Nat.add_le_add_left (by decide) _
    | cons x rest => exact le_rfl
  cases b with
  | true =>
    show loopLength n + (Pc.call caller rest : Pc Node n).localRank < _
    unfold loopLength
    omega
  | false =>
    show (Pc.call caller rest : Pc Node n).localRank < _
    unfold loopLength
    omega

/-- A step that finds a node, reports a node or takes a root. -/
def Counts (maxRootId : ℕ) (sh sh' : Shared Node n) : Prop :=
  (sh'.listed.length + sh'.reported.length = sh.listed.length + sh.reported.length + 1 ∧
      sh'.nextRoot = sh.nextRoot) ∨
    (sh'.listed.length + sh'.reported.length = sh.listed.length + sh.reported.length ∧
      sh'.nextRoot = sh.nextRoot + 1 ∧ sh.nextRoot < maxRootId)

theorem counts_of_listed (maxRootId : ℕ) (sh : Shared Node n) (gnodes : Fin n → Producer Node)
    (x : Node) : Counts maxRootId sh { sh with gnodes := gnodes, listed := sh.listed ++ [x] } := by
  refine Or.inl ⟨?_, rfl⟩
  show (sh.listed ++ [x]).length + sh.reported.length = _
  rw [List.length_append, List.length_singleton]
  omega

theorem counts_of_reported (maxRootId : ℕ) (sh : Shared Node n) (x : Node) :
    Counts maxRootId sh { sh with reported := sh.reported ++ [x] } := by
  refine Or.inl ⟨?_, rfl⟩
  show sh.listed.length + (sh.reported ++ [x]).length = _
  rw [List.length_append, List.length_singleton]
  omega

/-- Every other step brings the thread that makes it nearer to its end. -/
theorem Moves.rank_lt {maxRootId : ℕ} {sh sh' : Shared Node n} {th th' : Thread Node n}
    (h : Moves c maxRootId sh th sh' th') (hpast : th.IsPast → maxRootId ≤ sh.nextRoot) :
    (Counts maxRootId sh sh' ∧ th'.rank < 2 * loopLength n) ∨
      (sh'.listed = sh.listed ∧ sh'.reported = sh.reported ∧ sh.nextRoot ≤ sh'.nextRoot ∧
        th'.rank < th.rank) := by
  cases h with
  | takeRoot p hlt => exact Or.inl ⟨Or.inr ⟨rfl, rfl, hlt⟩, rank_call_lt _ _ _ _⟩
  | report p b caller rest x => exact Or.inl ⟨counts_of_reported _ _ _, rank_call_lt _ _ _ _⟩
  | found p b pc htakes hd => exact Or.inl ⟨counts_of_listed _ _ _ _, rank_call_lt _ _ _ _⟩
  | start p hp => exact Or.inr ⟨rfl, rfl, le_rfl, Nat.lt_succ_self _⟩
  | lastRoot p hle =>
    refine Or.inr ⟨rfl, rfl, Nat.le_succ _, ?_⟩
    show 8 * n + 11 + 7 < loopLength n
    unfold loopLength
    omega
  | noRoots p => exact Or.inr ⟨rfl, rfl, le_rfl, Nat.lt_succ_self _⟩
  | rootDone p b =>
    refine Or.inr ⟨rfl, rfl, le_rfl, Pc.rank_lt ?_ (fun h => by cases h) b⟩
    show 8 * n + 11 + 7 < 8 * n + 20
    omega
  | childrenDone p b =>
    exact Or.inr ⟨rfl, rfl, le_rfl, Pc.rank_lt (Nat.lt_succ_self _) (fun h => by cases h) b⟩
  | callBack p b caller x rest =>
    exact Or.inr ⟨rfl, rfl, le_rfl, Pc.rank_lt (Nat.lt_succ_self _) (fun h => by cases h) b⟩
  | construct p b caller rest x y =>
    exact Or.inr ⟨rfl, rfl, le_rfl, Pc.rank_lt (Nat.lt_succ_self _) (fun h => by cases h) b⟩
  | publish p b caller rest x k =>
    exact Or.inr ⟨rfl, rfl, le_rfl, Pc.rank_lt (Nat.lt_succ_self _) (fun h => by cases h) b⟩
  | @goOn p b pc q d d' p' htakes hd =>
    have hlt := dequeueRank_lt hd
    refine Or.inr ⟨rfl, rfl, le_rfl, ?_⟩
    cases pc with
    | own =>
      cases htakes
      exact Pc.rank_lt (Nat.add_lt_add_left hlt _) (fun h => by cases h) b
    | scan =>
      cases htakes
      exact Pc.rank_lt (Nat.add_lt_add_left hlt _) (fun h => by cases h) b
    | _ => cases htakes
  | @missOwn p b q d _ hd =>
    refine Or.inr ⟨rfl, rfl, le_rfl, Pc.rank_lt ?_ (fun h => by cases h) b⟩
    show 8 * n + 3 + 7 < 8 * n + 11 + dequeueRank d
    omega
  | @missScan p b q q' left d _ hd hleft =>
    refine Or.inr ⟨rfl, rfl, le_rfl, Pc.rank_lt ?_ (fun h => by cases h) b⟩
    show 8 * (left - 1) + 3 + 7 < 8 * left + 3 + dequeueRank d
    omega
  | @missLast p b q left d _ hd =>
    refine Or.inr ⟨rfl, rfl, le_rfl, Pc.rank_lt ?_ (fun h => by cases h) b⟩
    show 2 < 8 * left + 3 + dequeueRank d
    omega
  | exit p b hle =>
    exact Or.inr ⟨rfl, rfl, le_rfl, Pc.rank_lt (Nat.lt_succ_self _) (fun h => by cases h) b⟩
  | again p b hlt =>
    refine Or.inr ⟨rfl, rfl, le_rfl, ?_⟩
    cases b with
    | true => exact Nat.lt_add_of_pos_right Nat.two_pos
    | false =>
      -- a thread that has seen that no roots are available does not look for them again
      exact absurd (hpast (Or.inl rfl)) (Nat.not_le.mpr hlt)
  | leave p b =>
    refine Or.inr ⟨rfl, rfl, le_rfl, ?_⟩
    cases b with
    | true => exact Nat.succ_pos _
    | false => exact Nat.one_pos

/-! ### A bound on all runs -/

section Bound

variable (c) (minRootId maxRootId : ℕ)

/-- How often a node can be listed or reported. -/
def visits : ℕ := 2 * (c.nodesBelow (rootIds c minRootId maxRootId)).length

/-- How many steps a run can still take at most. -/
def stepsLeft (s : State Node n) : ℕ :=
  2 * loopLength n * ((visits c minRootId maxRootId
      - (s.shared.listed.length + s.shared.reported.length))
    + (lastRootId c maxRootId - s.shared.nextRoot)) + ∑ t, (s.threads t).rank

variable {c minRootId maxRootId}

theorem sum_map_one (l : List Node) : (l.map fun _ => 1).sum = l.length := by
  rw [List.map_const', List.sum_replicate, smul_eq_mul, Nat.mul_one]

theorem rootsWeight_one : rootsWeight (fun _ => 1) (fun _ => 1) c (lastRootId c maxRootId) minRootId
    = visits c minRootId maxRootId := by
  have htrees : ∀ ids : List ℕ, (ids.map fun i =>
      treesWeight (fun _ => 1) (fun _ => 1) c (c.getRoot i)).sum
        = 2 * (c.nodesBelow ids).length := by
    intro ids
    induction ids with
    | nil => rfl
    | cons i ids ih =>
      have hlen : (c.nodesBelow (i :: ids)).length
          = (c.forest.traversal (c.getRoot i)).length + (c.nodesBelow ids).length :=
        List.length_append
      have hnode : ((c.forest.traversal (c.getRoot i)).map fun _ => 1 + 1).sum
          = (c.forest.traversal (c.getRoot i)).length * 2 := by
        rw [List.map_const', List.sum_replicate, smul_eq_mul]
      rw [List.map_cons, List.sum_cons, ih, treesWeight_eq_sum, hnode, hlen]
      omega
  exact htrees _

variable (hlast : lastRootId c maxRootId ≤ c.maxRoots) {s : State Node n}

include hlast

/-- Each node is listed once and reported once at most. -/
theorem length_le_visits (h : Reaches (step c maxRootId) Any (init n minRootId) s) :
    s.shared.listed.length + s.shared.reported.length ≤ visits c minRootId maxRootId := by
  have hweight := reaches_weight hlast h (fun _ => 1) fun _ => 1
  rw [rootsWeight_one, Shared.weight, sum_map_one, sum_map_one] at hweight
  omega

theorem stepsLeft_lt {s' : State Node n} {a : Action n}
    (h : Reaches (step c maxRootId) Any (init n minRootId) s)
    (hstep : step c maxRootId s a = some s') :
    stepsLeft c minRootId maxRootId s' < stepsLeft c minRootId maxRootId s := by
  have hvisits := length_le_visits hlast (h.tail ⟨a, trivial, hstep⟩)
  obtain ⟨sh, th, hmoves, rfl⟩ := step_cases hstep
  obtain ⟨rest, hbefore, hafter⟩ := exists_sum_update Thread.rank s.threads a.thread
  change sh.listed.length + sh.reported.length ≤ _ at hvisits
  show 2 * loopLength n * (_ - (sh.listed.length + sh.reported.length) + (_ - sh.nextRoot))
    + ∑ t, (Function.update s.threads a.thread th t).rank < stepsLeft c minRootId maxRootId s
  unfold stepsLeft
  rw [hbefore, hafter]
  rcases hmoves.rank_lt ((reaches_inv hlast h).past a.thread) with
    ⟨hcounts, hrank⟩ | ⟨hlisted, hreported, hroot, hrank⟩
  · -- what is counted outweighs what the thread has to do again
    have hone : visits c minRootId maxRootId - (sh.listed.length + sh.reported.length)
          + (lastRootId c maxRootId - sh.nextRoot) + 1
        ≤ visits c minRootId maxRootId
            - (s.shared.listed.length + s.shared.reported.length)
          + (lastRootId c maxRootId - s.shared.nextRoot) := by
      rcases hcounts with ⟨hcount, hsame⟩ | ⟨hcount, hnext, hlt⟩ <;> omega
    have hmul := Nat.mul_le_mul_left (2 * loopLength n) hone
    rw [Nat.mul_add, Nat.mul_one] at hmul
    omega
  · have hle : visits c minRootId maxRootId - (sh.listed.length + sh.reported.length)
          + (lastRootId c maxRootId - sh.nextRoot)
        ≤ visits c minRootId maxRootId
            - (s.shared.listed.length + s.shared.reported.length)
          + (lastRootId c maxRootId - s.shared.nextRoot) := by
      rw [hlisted, hreported]
      omega
    have hmul := Nat.mul_le_mul_left (2 * loopLength n) hle
    omega

end Bound

/-! ### No run gets stuck -/

/-- There is a producer for a thread that has not begun. -/
theorem Inv.exists_inactive {maxRootId : ℕ} {s : State Node n} (hs : Inv c maxRootId s) {t : Fin n}
    (ht : s.threads t = .start) : ∃ p, s.shared.inactive p = true := by
  by_contra hnone
  push Not at hnone
  have hheld : ∀ p, ∃ u, (s.threads u).holder = some p := by
    intro p
    apply hs.held p
    simpa using hnone p
  choose f hf using hheld
  have hinj : Function.Injective f := by
    intro p q hpq
    have hp := hf p
    rw [hpq, hf q] at hp
    exact (Option.some.inj hp).symm
  obtain ⟨p, rfl⟩ := Finite.surjective_of_injective hinj t
  have hp := hf p
  rw [ht] at hp
  cases hp

/-- A thread that has not returned can take a step. -/
theorem Inv.exists_step {maxRootId : ℕ} {s : State Node n} (hs : Inv c maxRootId s) {t : Fin n}
    (ht : s.threads t ≠ .done) :
    ∃ pick, (Thread.step c maxRootId pick s.shared (s.threads t)).isSome := by
  cases hth : s.threads t with
  | done => exact absurd hth ht
  | start =>
    obtain ⟨p, hp⟩ := hs.exists_inactive hth
    refine ⟨p, ?_⟩
    rw [Thread.step, dif_pos p.isLt, if_pos hp]
    rfl
  | run p b pc =>
    refine ⟨0, ?_⟩
    rw [Thread.step]
    cases pc with
    | roots => cases b <;> simp only [Pc.step] <;> split_ifs <;> rfl
    | call caller rest =>
      cases rest with
      | nil => cases caller <;> rfl
      | cons x rest => rfl
    | enqueue caller rest x e => cases e <;> rfl
    | report => rfl
    | own d =>
      rw [Pc.step, Option.isSome_map]
      apply (hs.gnodes p).step_isSome (i := t)
      rw [hth]
      exact Thread.callOn_self rfl
    | scan q left d =>
      rw [Pc.step, Option.isSome_map]
      apply (hs.gnodes q).step_isSome (i := t)
      rw [hth]
      exact Thread.callOn_self rfl
    | checkRoots =>
      rw [Pc.step]
      split_ifs <;> rfl
    | leave => rfl

/-- **Every run ends, with all threads returned**, whatever the scheduling: there is a bound on the
length of all runs, and a run in which some thread has not returned can go on. -/
theorem terminates (c : FiniteSystem Node) (n minRootId maxRootId : ℕ)
    (hlast : lastRootId c maxRootId ≤ c.maxRoots) :
    ∃ bound, ∀ as s, run (step c maxRootId) Any as (init n minRootId) = some s →
      as.length ≤ bound ∧
        (Finished s ∨ ∃ a s', step c maxRootId s a = some s') := by
  refine ⟨stepsLeft c minRootId maxRootId (init n minRootId), ?_⟩
  intro as s has
  have hreaches := reaches_of_run has
  constructor
  · have hle := length_le_of_run (stepsLeft c minRootId maxRootId)
      (fun u a v hu _ hstep => stepsLeft_lt hlast hu hstep) has
    exact (Nat.le_add_right _ _).trans hle
  · rw [or_iff_not_imp_left]
    intro hnot
    obtain ⟨t, ht⟩ := not_forall.mp hnot
    obtain ⟨pick, hpick⟩ := (reaches_inv hlast hreaches).exists_step ht
    obtain ⟨r, hr⟩ := Option.isSome_iff_exists.mp hpick
    exact ⟨⟨t, pick⟩, _, Option.map_eq_some_iff.mpr ⟨r, hr, rfl⟩⟩

theorem terminates_chain :
    ∃ bound, ∀ as s, run (step chain 0) Any as (init 2 0) = some s →
      as.length ≤ bound ∧ (Finished s ∨ ∃ a s', step chain 0 s a = some s') :=
  terminates chain 2 0 0 le_rfl

end ParallelEnum.ParallelPthreads
