import Mathlib.Data.Prod.Lex
import ParallelEnum.Enumerator.Equiv.ParallelPthreadsSteal
import ParallelEnum.Theory.Fairness

/-!
# `ParallelPthreadsSteal` returns

A thread without work polls `gnodes`, `terminate` and `waiting` until another thread gives it a
node or all threads poll.  So a run can go on for ever, but only by leaving out a thread that has
work: every other step uses up something (`step_rank`), and when all threads poll, the next one
that looks at `waiting` gives up and sets `terminate`.

* `fair_terminates`: a run that does not end with all threads returned starves one of them, and
  no reachable state is a dead end.
-/

namespace ParallelEnum.ParallelPthreadsSteal

open Traversal Transition

variable {Node : Type} {c : FiniteSystem Node} {n : ℕ}

/-! ### What is left to do -/

/-- How many steps a call of `solution_cb` takes at most. -/
def Stage.rank : Stage → ℕ
  | .start => 6
  | .gotSize _ | .gotWaiting _ => 5
  | .enqueue | .keep => 4
  | .report => 3

/-- How many steps a call takes at most, without the calls of `ListChildren` in it. -/
def Call.rank : Call Node → ℕ
  | .producer rest => 1 + 7 * rest.length
  | .solutionCb _ stage => stage.rank

/-- A thread in the loop that waits for a node. -/
def Pc.polls : Pc Node → Bool
  | .dequeue | .checkTerminate | .checkWaiting => true
  | _ => false

/-- How far a thread without work is from its end; the loop that waits counts as one place. -/
def Pc.rank (terminate : Bool) : Pc Node → ℕ
  | .outer => if terminate then 1 else 8
  | .working => 8
  | .inner => 7
  | .openRoot => 6
  | .incWaiting => 5
  | .dequeue | .checkTerminate | .checkWaiting => 4
  | .decWaiting _ => 3
  | .setTerminate => 2
  | .done => 0

def Thread.rank (terminate : Bool) (th : Thread Node) : ℕ :=
  th.pc.rank terminate + (th.calls.map Call.rank).sum

/-- What a call of `ListChildren` costs. -/
def listCost (c : FiniteSystem Node) (x : Node) : ℕ := 8 + 7 * (c.listChildren x).length

/-- What a call of `GetRoot` costs. -/
def rootCost (c : FiniteSystem Node) (i : ℕ) : ℕ := 4 + 7 * (c.getRoot i).length

/-- What the calls of `ListChildren` have cost. -/
def Shared.spent (c : FiniteSystem Node) (sh : Shared Node) : ℕ := (sh.listed.map (listCost c)).sum

/-- What the calls of `GetRoot` will cost. -/
def Shared.rootsCost (c : FiniteSystem Node) (sh : Shared Node) : ℕ :=
  (sh.possibleRoots.map (rootCost c)).sum

/-- Something has been used up. -/
def UsesUp (c : FiniteSystem Node) (sh : Shared Node) (th : Thread Node) (sh' : Shared Node)
    (th' : Thread Node) : Prop :=
  sh'.rootsCost c + th'.rank sh'.terminate + sh.spent c
    < sh.rootsCost c + th.rank sh.terminate + sh'.spent c

/-- A call of `ListChildren` is paid for by what it costs. -/
theorem usesUp_list (x : Node) (sh : Shared Node) {th th' : Thread Node}
    (h : th'.rank sh.terminate ≤ th.rank sh.terminate + 6) :
    UsesUp c sh th (th'.list c x sh).1 (th'.list c x sh).2 := by
  have hrank : (th'.list c x sh).2.rank sh.terminate
      = th'.rank sh.terminate + (1 + 7 * (c.listChildren x).length) := by
    simp only [Thread.list, Thread.rank, List.map_cons, List.sum_cons, Call.rank]
    omega
  have hspent : (th'.list c x sh).1.spent c
      = sh.spent c + (8 + 7 * (c.listChildren x).length) := by
    simp [Thread.list, Shared.spent, listCost]
  show sh.rootsCost c + (th'.list c x sh).2.rank sh.terminate + sh.spent c < _
  rw [hrank, hspent]
  omega

/-- A step that leaves the shared variables alone. -/
theorem usesUp_of_rank_lt {sh : Shared Node} {th th' : Thread Node}
    (h : th'.rank sh.terminate < th.rank sh.terminate) : UsesUp c sh th sh th' := by
  show sh.rootsCost c + _ + sh.spent c < _
  omega

/-- A step from one place to another. -/
theorem usesUp_of_pc {sh sh' : Shared Node} {pc pc' : Pc Node} {l l' : List Node}
    {k : List (Call Node)} (hlisted : sh'.listed = sh.listed)
    (hroots : sh'.possibleRoots = sh.possibleRoots)
    (h : pc'.rank sh'.terminate < pc.rank sh.terminate) :
    UsesUp c sh ⟨pc, l, k⟩ sh' ⟨pc', l', k⟩ := by
  have hspent : sh'.spent c = sh.spent c := by rw [Shared.spent, hlisted, Shared.spent]
  have hcost : sh'.rootsCost c = sh.rootsCost c := by
    rw [Shared.rootsCost, hroots, Shared.rootsCost]
  show sh'.rootsCost c + (pc'.rank sh'.terminate + (k.map Call.rank).sum) + sh.spent c
    < sh.rootsCost c + (pc.rank sh.terminate + (k.map Call.rank).sum) + sh'.spent c
  omega

theorem usesUp_solutionCb (pick : ℕ) (x : Node) (stage : Stage) (l : List Node)
    (k : List (Call Node)) (sh : Shared Node) :
    let r := Thread.solutionCb c pick x k sh ⟨.working, l, .solutionCb x stage :: k⟩ stage
    UsesUp c sh ⟨.working, l, .solutionCb x stage :: k⟩ r.1 r.2 := by
  have hnext : ∀ {stage stage' : Stage} {l l' : List Node}, stage'.rank < stage.rank →
      UsesUp c sh ⟨.working, l, .solutionCb x stage :: k⟩ sh
        ⟨.working, l', .solutionCb x stage' :: k⟩ :=
    fun h => usesUp_of_rank_lt (Nat.add_lt_add_left (Nat.add_lt_add_right h _) _)
  cases stage with
  | start =>
    apply hnext
    split_ifs <;> exact Nat.lt_succ_self 5
  | gotSize size =>
    apply hnext
    split_ifs <;> exact Nat.lt_succ_self 4
  | gotWaiting waiting =>
    apply hnext
    split_ifs <;> exact Nat.lt_succ_self 4
  | enqueue => exact hnext (Nat.lt_succ_self _)
  | keep =>
    cases hrec : c.canUseRecursion with
    | false =>
      simp only [Thread.solutionCb, hrec, Bool.not_false, if_true]
      exact hnext (Nat.lt_succ_self _)
    | true =>
      simp only [Thread.solutionCb, hrec, Bool.not_true, Bool.false_eq_true, if_false]
      apply usesUp_list
      simp only [Thread.rank, List.map_cons, List.sum_cons, Call.rank, Stage.rank]
      omega
  | report =>
    show sh.rootsCost c + (8 + (k.map Call.rank).sum) + sh.spent c
      < sh.rootsCost c + (8 + (3 + (k.map Call.rank).sum)) + sh.spent c
    omega

theorem usesUp_work (pick : ℕ) (l : List Node) (k : List (Call Node)) (sh : Shared Node) :
    let r := Thread.work c pick sh ⟨.working, l, k⟩
    UsesUp c sh ⟨.working, l, k⟩ r.1 r.2 := by
  match k with
  | [] => exact usesUp_of_rank_lt (Nat.lt_succ_self 7)
  | .producer [] :: k =>
    apply usesUp_of_rank_lt
    show 8 + (k.map Call.rank).sum < 8 + (1 + 7 * 0 + (k.map Call.rank).sum)
    omega
  | .producer (x :: rest) :: k =>
    apply usesUp_of_rank_lt
    show 8 + (6 + (1 + 7 * rest.length + (k.map Call.rank).sum))
      < 8 + (1 + 7 * (rest.length + 1) + (k.map Call.rank).sum)
    omega
  | .solutionCb x stage :: k => exact usesUp_solutionCb pick x stage l k sh

/-! ### The loop that waits -/

/-- A step of the loop that waits for a node, when it goes on. -/
inductive Polls (n : ℕ) (sh : Shared Node) : Pc Node → Pc Node → Prop
  | miss : Polls n sh .dequeue .checkTerminate
  | notTerminated (h : sh.terminate = false) : Polls n sh .checkTerminate .checkWaiting
  | tryAgain (h : sh.waiting < n) : Polls n sh .checkWaiting .dequeue

/-- Every step uses something up, unless it goes on with the loop that waits for a node. -/
theorem step_rank {pick : ℕ} {sh sh' : Shared Node} {th th' : Thread Node}
    (h : Thread.step c n pick sh th = some (sh', th')) :
    UsesUp c sh th sh' th' ∨
      (sh' = sh ∧ ∃ pc, th' = { th with pc := pc } ∧ Polls n sh th.pc pc) := by
  obtain ⟨pc, l, k⟩ := th
  cases pc with
  | outer =>
    obtain ⟨rfl, rfl⟩ := Prod.mk.inj (Option.some.inj h)
    left
    apply usesUp_of_pc rfl rfl
    cases sh.terminate with
    | false => exact Nat.lt_succ_self 7
    | true => exact Nat.one_pos
  | inner =>
    left
    cases l with
    | cons x l =>
      obtain ⟨rfl, rfl⟩ := Prod.mk.inj (Option.some.inj h)
      apply usesUp_list
      show 8 + (k.map Call.rank).sum ≤ 7 + (k.map Call.rank).sum + 6
      omega
    | nil =>
      obtain ⟨rfl, rfl⟩ := Prod.mk.inj (Option.some.inj h)
      apply usesUp_of_pc rfl rfl
      split_ifs
      · exact Nat.lt_of_lt_of_le (Nat.lt_succ_self 5) (Nat.le_succ 6)
      · exact Nat.lt_succ_self 6
  | openRoot =>
    left
    rw [Thread.step, Option.map_eq_some_iff] at h
    obtain ⟨r, hr, h⟩ := h
    rcases tryDequeue_cases hr with ⟨hroots, rfl⟩ | ⟨i, roots, rfl, hperm⟩
    · obtain ⟨rfl, rfl⟩ := Prod.mk.inj h
      exact usesUp_of_pc rfl hroots.symm (Nat.lt_succ_self 5)
    · obtain ⟨rfl, rfl⟩ := Prod.mk.inj h
      have hsum := (hperm.map (rootCost c)).sum_eq
      rw [List.map_cons, List.sum_cons, rootCost] at hsum
      show (roots.map (rootCost c)).sum
          + (8 + (1 + 7 * (c.getRoot i).length + (k.map Call.rank).sum)) + sh.spent c
        < (sh.possibleRoots.map (rootCost c)).sum + (6 + (k.map Call.rank).sum) + sh.spent c
      omega
  | working =>
    have hwork := usesUp_work (c := c) pick l k sh
    rw [Thread.step, Option.some.injEq] at h
    rw [h] at hwork
    exact Or.inl hwork
  | incWaiting =>
    obtain ⟨rfl, rfl⟩ := Prod.mk.inj (Option.some.inj h)
    exact Or.inl (usesUp_of_pc rfl rfl (Nat.lt_succ_self 4))
  | dequeue =>
    rw [Thread.step, Option.map_eq_some_iff] at h
    obtain ⟨r, hr, h⟩ := h
    rcases tryDequeue_cases hr with ⟨hempty, rfl⟩ | ⟨x, gnodes, rfl, hperm⟩
    · obtain ⟨rfl, rfl⟩ := Prod.mk.inj h
      rw [← hempty]
      exact Or.inr ⟨rfl, _, rfl, Polls.miss⟩
    · obtain ⟨rfl, rfl⟩ := Prod.mk.inj h
      exact Or.inl (usesUp_of_pc rfl rfl (Nat.lt_succ_self 3))
  | checkTerminate =>
    obtain ⟨rfl, rfl⟩ := Prod.mk.inj (Option.some.inj h)
    cases hterm : sh.terminate with
    | false => exact Or.inr ⟨rfl, _, rfl, Polls.notTerminated hterm⟩
    | true => exact Or.inl (usesUp_of_pc rfl rfl (Nat.lt_succ_self 3))
  | checkWaiting =>
    obtain ⟨rfl, rfl⟩ := Prod.mk.inj (Option.some.inj h)
    split_ifs with hlt
    · exact Or.inr ⟨rfl, _, rfl, Polls.tryAgain hlt⟩
    · exact Or.inl (usesUp_of_pc rfl rfl (Nat.lt_succ_self 3))
  | decWaiting stolen =>
    left
    cases stolen with
    | none =>
      obtain ⟨rfl, rfl⟩ := Prod.mk.inj (Option.some.inj h)
      exact usesUp_of_pc rfl rfl (Nat.lt_succ_self 2)
    | some x =>
      obtain ⟨rfl, rfl⟩ := Prod.mk.inj (Option.some.inj h)
      have hle : (Thread.mk .working l k).rank sh.terminate
          ≤ (Thread.mk (.decWaiting (some x)) l k).rank sh.terminate + 6 := by
        show 8 + (k.map Call.rank).sum ≤ 3 + (k.map Call.rank).sum + 6
        omega
      exact usesUp_list x { sh with waiting := sh.waiting - 1 } hle
  | setTerminate =>
    obtain ⟨rfl, rfl⟩ := Prod.mk.inj (Option.some.inj h)
    exact Or.inl (usesUp_of_pc rfl rfl (Nat.lt_succ_self 1))
  | done => cases h

/-! ### All threads -/

theorem rank_le_of_terminate {b b' : Bool} (h : b = true → b' = true) (th : Thread Node) :
    th.rank b' ≤ th.rank b := by
  apply Nat.add_le_add_right
  cases b with
  | true => rw [h rfl]
  | false =>
    cases b' with
    | false => exact le_rfl
    | true =>
      cases th.pc with
      | outer => exact Nat.le_add_left 1 7
      | _ => exact le_rfl

/-- How many steps of the loop that waits a thread makes at most, when `terminate` is set or when
all threads wait. -/
def Pc.pollRank (terminate full : Bool) : Pc Node → ℕ
  | .checkWaiting => if terminate then 3 else 0
  | .dequeue => if terminate || full then 2 else 0
  | .checkTerminate => if terminate || full then 1 else 0
  | _ => 0

section AllThreads

variable (c) (minRootId maxRootId : ℕ)

/-- What the calls of `ListChildren` of a whole run cost. -/
def totalCost : ℕ :=
  ((rootIds c minRootId maxRootId).map fun i =>
    treesWeight (listCost c) (fun _ => 0) c (c.getRoot i)).sum

/-- How many steps can still be made, without those that go on waiting. -/
def workLeft (s : State Node n) : ℕ :=
  totalCost c minRootId maxRootId - s.shared.spent c + s.shared.rootsCost c
    + ∑ t, (s.threads t).rank s.shared.terminate

/-- How many steps can still be made that go on waiting, before something else must happen. -/
def pollsLeft (s : State Node n) : ℕ :=
  ∑ t, (s.threads t).pc.pollRank s.shared.terminate (s.shared.waiting = n)

/-- A thread whose next steps do something else than go on waiting. -/
def Helpful (s : State Node n) (t : Fin n) : Prop :=
  (s.threads t).pc ≠ .done ∧
    (s.shared.terminate = true ∨ s.shared.waiting = n ∨ (s.threads t).pc.polls = false)

variable {c minRootId maxRootId}

/-- Going on with waiting leaves the work as it is. -/
theorem Polls.rank_eq {sh : Shared Node} {pc pc' : Pc Node} (h : Polls n sh pc pc') (b : Bool) :
    pc'.rank b = pc.rank b := by
  cases h <;> rfl

theorem Polls.polls {sh : Shared Node} {pc pc' : Pc Node} (h : Polls n sh pc pc') :
    pc.polls = true := by
  cases h <;> rfl

/-- A thread that waits is not helpful, unless it is about to stop. -/
theorem not_helpful {s : State Node n} {t : Fin n} (h : (s.threads t).pc.polls = true)
    (hends : ¬ (s.shared.terminate = true ∨ s.shared.waiting = n)) : ¬ Helpful s t := by
  rintro ⟨_, hterm | hfull | hnot⟩
  · exact hends (Or.inl hterm)
  · exact hends (Or.inr hfull)
  · rw [h] at hnot
    cases hnot

/-- A thread stays helpful when another one takes a step that leaves the shared variables. -/
theorem Helpful.update {s : State Node n} {t u : Fin n} (h : Helpful s t) (hne : t ≠ u)
    (th : Thread Node) : Helpful { s with threads := Function.update s.threads u th } t := by
  have hsame : Function.update s.threads u th t = s.threads t := Function.update_of_ne hne _ _
  show (Function.update s.threads u th t).pc ≠ .done ∧
    (_ ∨ _ ∨ (Function.update s.threads u th t).pc.polls = false)
  rw [hsame]
  exact h

/-- A thread cannot go on waiting for ever when `terminate` is set or when all threads wait. -/
theorem Polls.pollRank_lt {sh : Shared Node} {pc pc' : Pc Node} (h : Polls n sh pc pc')
    (hends : sh.terminate = true ∨ sh.waiting = n) :
    pc'.pollRank sh.terminate (sh.waiting = n) < pc.pollRank sh.terminate (sh.waiting = n) := by
  cases h with
  | miss =>
    have hor : (sh.terminate || decide (sh.waiting = n)) = true := by simpa using hends
    simp only [Pc.pollRank, hor, if_true]
    exact Nat.one_lt_two
  | notTerminated hterm =>
    have hfull : sh.waiting = n := hends.resolve_left (by rw [hterm]; exact Bool.false_ne_true)
    simp [Pc.pollRank, hterm, hfull]
  | tryAgain hlt =>
    have hterm : sh.terminate = true := hends.resolve_right hlt.ne
    simp [Pc.pollRank, hterm]

/-- Otherwise a thread that goes on waiting is not counted. -/
theorem Polls.pollRank_eq {sh : Shared Node} {pc pc' : Pc Node} (h : Polls n sh pc pc')
    (hends : ¬ (sh.terminate = true ∨ sh.waiting = n)) :
    pc'.pollRank sh.terminate (sh.waiting = n) = pc.pollRank sh.terminate (sh.waiting = n) := by
  obtain ⟨hterm, hfull⟩ := not_or.mp hends
  rw [Bool.eq_false_iff.mpr hterm, decide_eq_false hfull]
  cases h <;> rfl

/-- A step of the system brings a thread nearer to its end, or lets it go on waiting. -/
theorem workLeft_step {s s' : State Node n} {a : Action n} (h : step c n s a = some s')
    (hspent : s'.shared.spent c ≤ totalCost c minRootId maxRootId) :
    workLeft c minRootId maxRootId s' < workLeft c minRootId maxRootId s ∨
      ∃ pc, Polls n s.shared (s.threads a.thread).pc pc ∧
        s' = { s with threads :=
          Function.update s.threads a.thread { s.threads a.thread with pc := pc } } := by
  obtain ⟨⟨sh, th⟩, hth, rfl⟩ := Option.map_eq_some_iff.mp h
  rcases step_rank hth with huses | ⟨rfl, pc, rfl, hpolls⟩
  · left
    have hmono := (moves_of_step hth).shared_mono.2
    have hsum := sum_update_add_le s.threads a.thread th (rank_le_of_terminate hmono)
    change sh.spent c ≤ _ at hspent
    unfold UsesUp at huses
    show totalCost c minRootId maxRootId - sh.spent c + sh.rootsCost c
      + ∑ t, (Function.update s.threads a.thread th t).rank sh.terminate < _
    unfold workLeft
    omega
  · exact Or.inr ⟨pc, hpolls, rfl⟩

theorem pollsLeft_lt {s : State Node n} {t : Fin n} {pc : Pc Node}
    (h : Polls n s.shared (s.threads t).pc pc)
    (hends : s.shared.terminate = true ∨ s.shared.waiting = n) :
    pollsLeft { s with threads := Function.update s.threads t { s.threads t with pc := pc } }
      < pollsLeft s := by
  have hlt := h.pollRank_lt hends
  obtain ⟨rest, hbefore, hafter⟩ := exists_sum_update
    (fun th : Thread Node => th.pc.pollRank s.shared.terminate (s.shared.waiting = n)) s.threads t
  show ∑ u, (Function.update s.threads t { s.threads t with pc := pc } u).pc.pollRank _ _ < _
  rw [hafter, pollsLeft, hbefore]
  exact Nat.add_lt_add_right hlt rest

theorem pollsLeft_eq {s : State Node n} {t : Fin n} {pc : Pc Node}
    (h : Polls n s.shared (s.threads t).pc pc)
    (hends : ¬ (s.shared.terminate = true ∨ s.shared.waiting = n)) :
    pollsLeft { s with threads := Function.update s.threads t { s.threads t with pc := pc } }
      = pollsLeft s := by
  have heq := h.pollRank_eq hends
  obtain ⟨rest, hbefore, hafter⟩ := exists_sum_update
    (fun th : Thread Node => th.pc.pollRank s.shared.terminate (s.shared.waiting = n)) s.threads t
  show ∑ u, (Function.update s.threads t { s.threads t with pc := pc } u).pc.pollRank _ _ = _
  rw [hafter, pollsLeft, hbefore, heq]

theorem workLeft_eq (c : FiniteSystem Node) (minRootId maxRootId : ℕ) {s : State Node n}
    {t : Fin n} {pc : Pc Node} (h : Polls n s.shared (s.threads t).pc pc) :
    workLeft c minRootId maxRootId
        { s with threads := Function.update s.threads t { s.threads t with pc := pc } }
      = workLeft c minRootId maxRootId s := by
  have heq : Thread.rank s.shared.terminate { s.threads t with pc := pc }
      = (s.threads t).rank s.shared.terminate :=
    congrArg (· + _) (h.rank_eq _)
  obtain ⟨rest, hbefore, hafter⟩ :=
    exists_sum_update (Thread.rank s.shared.terminate) s.threads t
  show _ + ∑ u, (Function.update s.threads t { s.threads t with pc := pc } u).rank _ = _
  rw [hafter, workLeft, hbefore, heq]

/-! ### Runs -/

variable (hlast : lastRootId c maxRootId ≤ c.maxRoots) {s : State Node n}

include hlast

/-- What the calls of `ListChildren` have cost is part of what those of a whole run cost. -/
theorem spent_le (h : Reaches (step c n) Any (init c n minRootId maxRootId) s) :
    s.shared.spent c ≤ totalCost c minRootId maxRootId := by
  have hweight := reaches_weight hlast h (listCost c) fun _ => 0
  rw [Shared.weight] at hweight
  unfold Shared.spent totalCost
  omega

/-- As long as a thread has not returned, some thread is helpful. -/
theorem exists_helpful (h : Reaches (step c n) Any (init c n minRootId maxRootId) s)
    (hs : ¬ Finished s) : ∃ t, Helpful s t := by
  obtain ⟨t, ht⟩ := not_forall.mp hs
  have hcontrol := (reaches_inv hlast h).control
  cases hterm : s.shared.terminate with
  | true => exact ⟨t, ht, Or.inl hterm⟩
  | false =>
    have hdone : ∀ u, (s.threads u).pc ≠ .done := fun u hu => by
      rw [(hcontrol u).done hu] at hterm
      cases hterm
    by_cases hfull : s.shared.waiting = n
    · exact ⟨t, ht, Or.inr (Or.inl hfull)⟩
    · -- not all threads wait, and one that does not wait has something to do
      by_contra hnone
      have hwaits : ∀ u, (s.threads u).pc.waits = 1 := by
        intro u
        by_contra hne
        refine hnone ⟨u, hdone u, Or.inr (Or.inr ?_)⟩
        cases hpc : (s.threads u).pc with
        | dequeue | checkTerminate | checkWaiting => rw [hpc] at hne; exact absurd rfl hne
        | _ => rfl
      apply hfull
      rw [reaches_waiting h, Finset.sum_congr rfl fun u _ => hwaits u]
      simp

end AllThreads

theorem isSome_tryDequeue {α : Type} (queue : List α) : (tryDequeue queue 0).isSome := by
  cases queue <;> rfl

/-- A thread that has not returned can take a step. -/
theorem exists_step {s : State Node n} {t : Fin n} (ht : (s.threads t).pc ≠ .done) :
    ∃ a s', a.thread = t ∧ step c n s a = some s' := by
  have hsome : (Thread.step c n 0 s.shared (s.threads t)).isSome := by
    rw [Thread.step]
    cases hpc : (s.threads t).pc with
    | done => exact absurd hpc ht
    | inner => cases (s.threads t).lnodes <;> rfl
    | openRoot => simpa using isSome_tryDequeue s.shared.possibleRoots
    | dequeue => simpa using isSome_tryDequeue s.shared.gnodes
    | decWaiting stolen => cases stolen <;> rfl
    | _ => rfl
  obtain ⟨r, hr⟩ := Option.isSome_iff_exists.mp hsome
  exact ⟨⟨t, 0⟩, _, rfl, Option.map_eq_some_iff.mpr ⟨r, hr, rfl⟩⟩

/-- The work first, and among states with the same work the steps that go on waiting. -/
def fairRank (c : FiniteSystem Node) (n minRootId : ℕ) {maxRootId : ℕ}
    (hlast : lastRootId c maxRootId ≤ c.maxRoots) :
    FairRank (step c n) Action.thread
      (Reaches (step c n) Any (init c n minRootId maxRootId)) Finished (ℕ ×ₗ ℕ) where
  rank s := toLex (workLeft c minRootId maxRootId s, pollsLeft s)
  helpful := Helpful
  exists_helpful s h hs := exists_helpful hlast h hs
  rank_step s a s' h hstep := by
    have hspent := spent_le hlast (h.tail ⟨a, trivial, hstep⟩)
    rcases workLeft_step hstep hspent with hlt | ⟨pc, hpolls, rfl⟩
    · exact Or.inl (Prod.Lex.toLex_lt_toLex.mpr (Or.inl hlt))
    · have hwork := workLeft_eq c minRootId maxRootId hpolls
      by_cases hends : s.shared.terminate = true ∨ s.shared.waiting = n
      · exact Or.inl (Prod.Lex.toLex_lt_toLex.mpr (Or.inr ⟨hwork, pollsLeft_lt hpolls hends⟩))
      · have hnot := not_helpful hpolls.polls hends
        refine Or.inr ⟨?_, hnot, ?_⟩
        · rw [hwork, pollsLeft_eq hpolls hends]
        · rintro t ht
          apply ht.update
          rintro rfl
          exact hnot ht

/-- **Every fair run ends with all threads returned**: a run that goes on for ever gives, from some
step on, no more turns to a thread that has not returned.  A thread that has not returned can
always take a step, and from every reachable state some run ends with all threads returned. -/
theorem fair_terminates (c : FiniteSystem Node) (n minRootId maxRootId : ℕ)
    (hlast : lastRootId c maxRootId ≤ c.maxRoots) :
    (∀ (state : ℕ → State Node n) (action : ℕ → Action n),
      state 0 = init c n minRootId maxRootId →
      (∀ i, step c n (state i) (action i) = some (state (i + 1))) →
      ∃ t i, ∀ j ≥ i, ((state j).threads t).pc ≠ .done ∧ (action j).thread ≠ t) ∧
    ∀ s, Reaches (step c n) Any (init c n minRootId maxRootId) s →
      (∀ t, (s.threads t).pc ≠ .done → ∃ a s', a.thread = t ∧ step c n s a = some s') ∧
      ∃ s', Reaches (step c n) Any s s' ∧ Finished s' := by
  constructor
  · intro state action hinit hrun
    have hreaches : ∀ i, Reaches (step c n) Any (init c n minRootId maxRootId) (state i) := by
      intro i
      induction i with
      | zero => rw [hinit]; exact Reaches.refl _
      | succ i ih => exact ih.tail ⟨action i, trivial, hrun i⟩
    have hfinal : ∀ i, ¬ Finished (state i) := by
      intro i hi
      have hstep := hrun i
      rw [step, Thread.step, hi] at hstep
      cases hstep
    obtain ⟨t, i, hstarved⟩ := (fairRank c n minRootId hlast).exists_starved hreaches hrun hfinal
    exact ⟨t, i, fun j hj => ⟨(hstarved j hj).1.1, (hstarved j hj).2⟩⟩
  · intro s hs
    refine ⟨fun t ht => exists_step ht, ?_⟩
    apply (fairRank c n minRootId hlast).exists_reaches_final _ _ hs
    · exact fun s a s' h hstep => h.tail ⟨a, trivial, hstep⟩
    · exact fun s t _ ht => exists_step ht.1

theorem fair_terminates_cherry :
    ∃ s, Reaches (step cherry 2) Any (init cherry 2) s ∧ Finished s :=
  ((fair_terminates cherry 2 0 0 le_rfl).2 _ (Reaches.refl _)).2

end ParallelEnum.ParallelPthreadsSteal
