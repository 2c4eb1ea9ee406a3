import Mathlib.Algebra.BigOperators.Group.List.Basic
import Mathlib.Algebra.Order.BigOperators.Group.Finset
import Mathlib.Tactic.Abel
import ParallelEnum.Enumerator.Equiv.Sequential
import ParallelEnum.Enumerator.ParallelPthreadsSteal

/-!
# What `ParallelPthreadsSteal` reports

`Moves` lists what one step of one thread can do.  Two kinds of facts about a run are derived
from it.

* **Nothing is lost** (`reaches_weight`): whatever is counted, once where a node is listed and
  once where it is reported, what has been counted and what is still to be counted below the
  nodes in the queues, on the stacks and in the calls adds up to the count of the whole forest.
* **Nothing is left** (`Inv`): a thread that leaves the inner loop has just failed to take a node
  out of `gnodes`, and takes no part in enqueuing until it has tried again.  So when all threads
  are past their last try, `gnodes` is empty.

The main result is `finished_visits`: when all threads have returned, the nodes listed and the
nodes reported are those that `Sequential` reports.
-/

namespace ParallelEnum.ParallelPthreadsSteal

open Traversal Transition

variable {Node : Type} {c : FiniteSystem Node} {n : ℕ}

/-! ### What a step does -/

theorem tryDequeue_cases {α : Type} {queue : List α} {pick : ℕ} {r : Option α × List α}
    (h : tryDequeue queue pick = some r) :
    (queue = [] ∧ r = (none, [])) ∨ ∃ x rest, r = (some x, rest) ∧ queue.Perm (x :: rest) := by
  cases queue with
  | nil =>
    left
    exact ⟨rfl, (Option.some.inj h).symm⟩
  | cons y ys =>
    right
    rw [tryDequeue, Option.map_eq_some_iff] at h
    obtain ⟨x, hx, rfl⟩ := h
    obtain ⟨hlt, rfl⟩ := List.getElem?_eq_some_iff.mp hx
    exact ⟨_, _, rfl, (List.getElem_cons_eraseIdx_perm hlt).symm⟩

/-- The stages of `solution_cb` before the node is put anywhere. -/
def Stage.IsEarly (stage : Stage) : Prop := stage ≠ .report

/-- What one step can do to the shared variables and to the thread that takes it. -/
inductive Moves (c : FiniteSystem Node) (sh : Shared Node) :
    Thread Node → Shared Node → Thread Node → Prop
  | enter (l k) (h : sh.terminate = false) : Moves c sh ⟨.outer, l, k⟩ sh ⟨.inner, l, k⟩
  | exit (l k) (h : sh.terminate = true) : Moves c sh ⟨.outer, l, k⟩ sh ⟨.done, l, k⟩
  | pop (x l k) : Moves c sh ⟨.inner, x :: l, k⟩ { sh with listed := sh.listed ++ [x] }
      ⟨.working, l, .producer (c.listChildren x) :: k⟩
  | someRoots (k) : Moves c sh ⟨.inner, [], k⟩ sh ⟨.openRoot, [], k⟩
  | noRoots (k) (h : sh.possibleRoots = []) : Moves c sh ⟨.inner, [], k⟩ sh ⟨.incWaiting, [], k⟩
  | openRoot (i roots l k) (h : sh.possibleRoots.Perm (i :: roots)) :
      Moves c sh ⟨.openRoot, l, k⟩ { sh with possibleRoots := roots }
        ⟨.working, l, .producer (c.getRoot i) :: k⟩
  | missRoot (l k) (h : sh.possibleRoots = []) :
      Moves c sh ⟨.openRoot, l, k⟩ sh ⟨.incWaiting, l, k⟩
  | goOn (l) : Moves c sh ⟨.working, l, []⟩ sh ⟨.inner, l, []⟩
  | endCall (l k) : Moves c sh ⟨.working, l, .producer [] :: k⟩ sh ⟨.working, l, k⟩
  | callBack (x rest l k) : Moves c sh ⟨.working, l, .producer (x :: rest) :: k⟩ sh
      ⟨.working, l, .solutionCb x .start :: .producer rest :: k⟩
  | look (x st st' l k) (h : Stage.IsEarly st) (h' : Stage.IsEarly st') :
      Moves c sh ⟨.working, l, .solutionCb x st :: k⟩ sh ⟨.working, l, .solutionCb x st' :: k⟩
  | enqueue (x l k) : Moves c sh ⟨.working, l, .solutionCb x .enqueue :: k⟩
      { sh with gnodes := sh.gnodes ++ [x] } ⟨.working, l, .solutionCb x .report :: k⟩
  | push (x l k) : Moves c sh ⟨.working, l, .solutionCb x .keep :: k⟩ sh
      ⟨.working, x :: l, .solutionCb x .report :: k⟩
  | recurse (x l k) : Moves c sh ⟨.working, l, .solutionCb x .keep :: k⟩
      { sh with listed := sh.listed ++ [x] }
      ⟨.working, l, .producer (c.listChildren x) :: .solutionCb x .report :: k⟩
  | report (x l k) : Moves c sh ⟨.working, l, .solutionCb x .report :: k⟩
      { sh with reported := sh.reported ++ [x] } ⟨.working, l, k⟩
  | incWaiting (l k) : Moves c sh ⟨.incWaiting, l, k⟩ { sh with waiting := sh.waiting + 1 }
      ⟨.dequeue, l, k⟩
  | steal (x gnodes l k) (h : sh.gnodes.Perm (x :: gnodes)) :
      Moves c sh ⟨.dequeue, l, k⟩ { sh with gnodes := gnodes } ⟨.decWaiting (some x), l, k⟩
  | miss (l k) (h : sh.gnodes = []) : Moves c sh ⟨.dequeue, l, k⟩ sh ⟨.checkTerminate, l, k⟩
  | notTerminated (l k) : Moves c sh ⟨.checkTerminate, l, k⟩ sh ⟨.checkWaiting, l, k⟩
  | terminated (l k) : Moves c sh ⟨.checkTerminate, l, k⟩ sh ⟨.decWaiting none, l, k⟩
  | tryAgain (l k) : Moves c sh ⟨.checkWaiting, l, k⟩ sh ⟨.dequeue, l, k⟩
  | giveUp (l k) : Moves c sh ⟨.checkWaiting, l, k⟩ sh ⟨.decWaiting none, l, k⟩
  | resume (x l k) : Moves c sh ⟨.decWaiting (some x), l, k⟩
      { sh with waiting := sh.waiting - 1, listed := sh.listed ++ [x] }
      ⟨.working, l, .producer (c.listChildren x) :: k⟩
  | leave (l k) : Moves c sh ⟨.decWaiting none, l, k⟩ { sh with waiting := sh.waiting - 1 }
      ⟨.setTerminate, l, k⟩
  | setTerminate (l k) : Moves c sh ⟨.setTerminate, l, k⟩ { sh with terminate := true }
      ⟨.outer, l, k⟩

theorem moves_solutionCb (pick : ℕ) (x : Node) (stage : Stage) (l : List Node)
    (k : List (Call Node)) (sh : Shared Node) :
    let r := Thread.solutionCb c pick x k sh ⟨.working, l, .solutionCb x stage :: k⟩ stage
    Moves c sh ⟨.working, l, .solutionCb x stage :: k⟩ r.1 r.2 := by
  cases stage with
  | start =>
    apply Moves.look x .start _ l k nofun
    split_ifs <;> nofun
  | gotSize size =>
    apply Moves.look x (.gotSize size) _ l k nofun
    split_ifs <;> nofun
  | gotWaiting waiting =>
    apply Moves.look x (.gotWaiting waiting) _ l k nofun
    split_ifs <;> nofun
  | enqueue => exact Moves.enqueue x l k
  | keep =>
    cases hrec : c.canUseRecursion with
    | false =>
      simp only [Thread.solutionCb, hrec, Bool.not_false, if_true]
      exact Moves.push x l k
    | true =>
      simp only [Thread.solutionCb, hrec, Bool.not_true, Bool.false_eq_true, if_false]
      exact Moves.recurse x l k
  | report => exact Moves.report x l k

theorem moves_work (pick : ℕ) (l : List Node) (k : List (Call Node)) (sh : Shared Node) :
    let r := Thread.work c pick sh ⟨.working, l, k⟩
    Moves c sh ⟨.working, l, k⟩ r.1 r.2 := by
  match k with
  | [] => exact Moves.goOn l
  | .producer [] :: k => exact Moves.endCall l k
  | .producer (x :: rest) :: k => exact Moves.callBack x rest l k
  | .solutionCb x stage :: k => exact moves_solutionCb pick x stage l k sh

/-- Every step of a thread is one of those listed. -/
theorem moves_of_step {pick : ℕ} {sh sh' : Shared Node} {th th' : Thread Node}
    (h : Thread.step c n pick sh th = some (sh', th')) : Moves c sh th sh' th' := by
  obtain ⟨pc, l, k⟩ := th
  cases pc with
  | outer =>
    cases hterm : sh.terminate with
    | false =>
      simp only [Thread.step, hterm, Bool.not_false, if_true, Option.some.injEq,
        Prod.mk.injEq] at h
      obtain ⟨rfl, rfl⟩ := h
      exact Moves.enter l k hterm
    | true =>
      simp only [Thread.step, hterm, Bool.not_true, Bool.false_eq_true, if_false,
        Option.some.injEq, Prod.mk.injEq] at h
      obtain ⟨rfl, rfl⟩ := h
      exact Moves.exit l k hterm
  | inner =>
    cases l with
    | cons x l =>
      simp only [Thread.step, Thread.list, Option.some.injEq, Prod.mk.injEq] at h
      obtain ⟨rfl, rfl⟩ := h
      exact Moves.pop x l k
    | nil =>
      simp only [Thread.step, List.length_eq_zero_iff, Option.some.injEq, Prod.mk.injEq] at h
      obtain ⟨rfl, rfl⟩ := h
      split_ifs with hroots
      · exact Moves.noRoots k hroots
      · exact Moves.someRoots k
  | openRoot =>
    rw [Thread.step, Option.map_eq_some_iff] at h
    obtain ⟨r, hr, h⟩ := h
    rcases tryDequeue_cases hr with ⟨hroots, rfl⟩ | ⟨i, roots, rfl, hperm⟩
    · obtain ⟨rfl, rfl⟩ := Prod.mk.inj h
      rw [← hroots]
      exact Moves.missRoot l k hroots
    · obtain ⟨rfl, rfl⟩ := Prod.mk.inj h
      exact Moves.openRoot i roots l k hperm
  | working =>
    have hwork := moves_work (c := c) pick l k sh
    rw [Thread.step, Option.some.injEq] at h
    rw [h] at hwork
    exact hwork
  | incWaiting =>
    obtain ⟨rfl, rfl⟩ := Prod.mk.inj (Option.some.inj h)
    exact Moves.incWaiting l k
  | dequeue =>
    rw [Thread.step, Option.map_eq_some_iff] at h
    obtain ⟨r, hr, h⟩ := h
    -- `try_dequeue` fails only on an empty queue, and takes any element of another
    rcases tryDequeue_cases hr with ⟨hempty, rfl⟩ | ⟨x, gnodes, rfl, hperm⟩
    · obtain ⟨rfl, rfl⟩ := Prod.mk.inj h
      rw [← hempty]
      exact Moves.miss l k hempty
    · obtain ⟨rfl, rfl⟩ := Prod.mk.inj h
      exact Moves.steal x gnodes l k hperm
  | checkTerminate =>
    obtain ⟨rfl, rfl⟩ := Prod.mk.inj (Option.some.inj h)
    cases sh.terminate with
    | false => exact Moves.notTerminated l k
    | true => exact Moves.terminated l k
  | checkWaiting =>
    obtain ⟨rfl, rfl⟩ := Prod.mk.inj (Option.some.inj h)
    split_ifs
    · exact Moves.tryAgain l k
    · exact Moves.giveUp l k
  | decWaiting stolen =>
    cases stolen with
    | none =>
      obtain ⟨rfl, rfl⟩ := Prod.mk.inj (Option.some.inj h)
      exact Moves.leave l k
    | some x =>
      obtain ⟨rfl, rfl⟩ := Prod.mk.inj (Option.some.inj h)
      exact Moves.resume x l k
  | setTerminate =>
    obtain ⟨rfl, rfl⟩ := Prod.mk.inj (Option.some.inj h)
    exact Moves.setTerminate l k
  | done => exact absurd h nofun

/-- A step of the system is a step of one thread. -/
theorem step_cases {s s' : State Node n} {a : Action n} (h : step c n s a = some s') :
    ∃ sh th, Moves c s.shared (s.threads a.thread) sh th ∧
      s' = { shared := sh, threads := Function.update s.threads a.thread th } := by
  obtain ⟨r, hr, rfl⟩ := Option.map_eq_some_iff.mp h
  exact ⟨r.1, r.2, moves_of_step hr, rfl⟩

/-! ### Nodes of the forest -/

/-- A call only holds nodes of the forest. -/
def Call.Ok (c : FiniteSystem Node) : Call Node → Prop
  | .producer rest => ∀ x ∈ rest, c.forest.Ok x
  | .solutionCb x _ => c.forest.Ok x

/-- The shared queues only hold roots and nodes of the forest. -/
structure Shared.Ok (c : FiniteSystem Node) (sh : Shared Node) : Prop where
  possibleRoots : ∀ i ∈ sh.possibleRoots, i < c.maxRoots
  gnodes : ∀ x ∈ sh.gnodes, c.forest.Ok x

/-- A thread only holds nodes of the forest. -/
structure Thread.Ok (c : FiniteSystem Node) (th : Thread Node) : Prop where
  lnodes : ∀ x ∈ th.lnodes, c.forest.Ok x
  calls : ∀ k ∈ th.calls, k.Ok c
  stolen : ∀ x, th.pc = .decWaiting (some x) → c.forest.Ok x

/-- The call of `ListChildren` for a node of the forest holds nodes of the forest. -/
theorem ok_producer {x : Node} (hx : c.forest.Ok x) :
    (Call.producer (c.listChildren x)).Ok c :=
  fun _ hy => c.forest.ok_of_mem hx hy

theorem Moves.ok {sh sh' : Shared Node} {th th' : Thread Node} (h : Moves c sh th sh' th')
    (hsh : sh.Ok c) (hth : th.Ok c) : sh'.Ok c ∧ th'.Ok c := by
  obtain ⟨hroots, hgnodes⟩ := hsh
  obtain ⟨hl, hk, hstolen⟩ := hth
  cases h with
  | pop x l k =>
    obtain ⟨hx, hl⟩ := List.forall_mem_cons.mp hl
    exact ⟨⟨hroots, hgnodes⟩, hl, List.forall_mem_cons.mpr ⟨ok_producer hx, hk⟩, nofun⟩
  | openRoot i roots l k hperm =>
    have hmem : ∀ j ∈ i :: roots, j < c.maxRoots := fun j hj => hroots j (hperm.mem_iff.mpr hj)
    obtain ⟨hi, hmem⟩ := List.forall_mem_cons.mp hmem
    exact ⟨⟨hmem, hgnodes⟩, hl, List.forall_mem_cons.mpr ⟨c.ok_getRoot i hi, hk⟩, nofun⟩
  | endCall l k => exact ⟨⟨hroots, hgnodes⟩, hl, (List.forall_mem_cons.mp hk).2, nofun⟩
  | callBack x rest l k =>
    obtain ⟨hrest, hk⟩ := List.forall_mem_cons.mp hk
    obtain ⟨hx, hrest⟩ := List.forall_mem_cons.mp hrest
    refine ⟨⟨hroots, hgnodes⟩, hl, ?_, nofun⟩
    exact List.forall_mem_cons.mpr ⟨hx, List.forall_mem_cons.mpr ⟨hrest, hk⟩⟩
  | look x st st' l k =>
    obtain ⟨hx, hk⟩ := List.forall_mem_cons.mp hk
    exact ⟨⟨hroots, hgnodes⟩, hl, List.forall_mem_cons.mpr ⟨hx, hk⟩, nofun⟩
  | enqueue x l k =>
    obtain ⟨hx, hk⟩ := List.forall_mem_cons.mp hk
    refine ⟨⟨hroots, ?_⟩, hl, List.forall_mem_cons.mpr ⟨hx, hk⟩, nofun⟩
    exact List.forall_mem_append.mpr ⟨hgnodes, List.forall_mem_singleton.mpr hx⟩
  | push x l k =>
    obtain ⟨hx, hk⟩ := List.forall_mem_cons.mp hk
    refine ⟨⟨hroots, hgnodes⟩, List.forall_mem_cons.mpr ⟨hx, hl⟩, ?_, nofun⟩
    exact List.forall_mem_cons.mpr ⟨hx, hk⟩
  | recurse x l k =>
    obtain ⟨hx, hk⟩ := List.forall_mem_cons.mp hk
    refine ⟨⟨hroots, hgnodes⟩, hl, ?_, nofun⟩
    exact List.forall_mem_cons.mpr ⟨ok_producer hx, List.forall_mem_cons.mpr ⟨hx, hk⟩⟩
  | report x l k => exact ⟨⟨hroots, hgnodes⟩, hl, (List.forall_mem_cons.mp hk).2, nofun⟩
  | steal x gnodes l k hperm =>
    -- the node that is taken was in the queue
    have hmem : ∀ y ∈ x :: gnodes, c.forest.Ok y := fun y hy => hgnodes y (hperm.mem_iff.mpr hy)
    obtain ⟨hx, hmem⟩ := List.forall_mem_cons.mp hmem
    refine ⟨⟨hroots, hmem⟩, hl, hk, ?_⟩
    intro y hy
    obtain rfl : x = y := by simpa using hy
    exact hx
  | resume x l k =>
    have hx : c.forest.Ok x := hstolen x rfl
    exact ⟨⟨hroots, hgnodes⟩, hl, List.forall_mem_cons.mpr ⟨ok_producer hx, hk⟩, nofun⟩
  | _ => exact ⟨⟨hroots, hgnodes⟩, hl, hk, nofun⟩

/-! ### Nothing is lost -/

section Weight

universe u

variable {M : Type u} [AddCommMonoid M] (list report : Node → M)

/-- The count of the tree below a node. -/
def treeWeight (c : FiniteSystem Node) (x : Node) : M :=
  ((c.forest.subtree x).map fun y => list y + report y).sum

/-- The count of the trees below some nodes. -/
def treesWeight (c : FiniteSystem Node) (l : List Node) : M :=
  (l.map (treeWeight list report c)).sum

/-- What is still to be counted for a node that has been stored, but not listed. -/
def storedWeight (c : FiniteSystem Node) (x : Node) : M :=
  list x + treesWeight list report c (c.listChildren x)

/-- What is still to be counted in a call. -/
def Call.weight (c : FiniteSystem Node) : Call Node → M
  | .producer rest => treesWeight list report c rest
  | .solutionCb x .report => report x
  | .solutionCb x _ => treeWeight list report c x

/-- What is still to be counted for the node a thread has taken out of `gnodes`. -/
def Pc.weight (c : FiniteSystem Node) : Pc Node → M
  | .decWaiting (some x) => storedWeight list report c x
  | _ => 0

/-- What is still to be counted in a thread. -/
def Thread.weight (c : FiniteSystem Node) (th : Thread Node) : M :=
  th.pc.weight list report c + (th.lnodes.map (storedWeight list report c)).sum
    + (th.calls.map (Call.weight list report c)).sum

/-- What has been counted, and what is still to be counted in the shared queues. -/
def Shared.weight (c : FiniteSystem Node) (sh : Shared Node) : M :=
  (sh.listed.map list).sum + (sh.reported.map report).sum
    + (sh.possibleRoots.map fun i => treesWeight list report c (c.getRoot i)).sum
    + (sh.gnodes.map (storedWeight list report c)).sum

@[simp] theorem treesWeight_nil : treesWeight list report c [] = 0 := rfl

@[simp] theorem treesWeight_cons (x : Node) (l : List Node) :
    treesWeight list report c (x :: l)
      = treeWeight list report c x + treesWeight list report c l := by
  simp [treesWeight]

theorem treesWeight_eq_sum (l : List Node) :
    treesWeight list report c l
      = ((c.forest.traversal l).map fun y => list y + report y).sum := by
  induction l with
  | nil => rfl
  | cons x l ih =>
    rw [treesWeight_cons, ih, Forest.traversal, Forest.traversal, List.flatMap_cons,
      List.map_append, List.sum_append]
    rfl

/-- A node is listed once and reported once, and so are the nodes below it. -/
theorem treeWeight_eq {x : Node} (hx : c.forest.Ok x) :
    treeWeight list report c x = storedWeight list report c x + report x := by
  have hbelow : ((c.forest.below x).map fun y => list y + report y).sum
      = treesWeight list report c (c.listChildren x) :=
    (treesWeight_eq_sum list report (c.listChildren x)).symm
  rw [treeWeight, Forest.subtree_eq hx, List.map_cons, List.sum_cons, hbelow, storedWeight]
  abel

theorem Call.weight_early (x : Node) {st : Stage} (h : st.IsEarly) :
    (Call.solutionCb x st).weight list report c = treeWeight list report c x := by
  cases st with
  | report => exact absurd rfl h
  | _ => rfl

/-- A step moves counts between the shared variables and the thread that takes it. -/
theorem Moves.weight {sh sh' : Shared Node} {th th' : Thread Node} (h : Moves c sh th sh' th')
    (hth : th.Ok c) :
    sh'.weight list report c + th'.weight list report c
      = sh.weight list report c + th.weight list report c := by
  -- a node that goes from a call to a store is listed later and reported now
  have hcall : ∀ x st k, th.calls = .solutionCb x st :: k →
      treeWeight list report c x = storedWeight list report c x + report x := by
    intro x st k hk
    apply treeWeight_eq
    apply hth.calls (.solutionCb x st)
    rw [hk]
    exact List.mem_cons_self
  cases h with
  | openRoot i roots l k hperm =>
    have hsum := (hperm.map fun i => treesWeight list report c (c.getRoot i)).sum_eq
    simp only [Shared.weight, Thread.weight, Pc.weight, List.map_cons, List.sum_cons,
      Call.weight] at hsum ⊢
    rw [hsum]
    abel
  | steal x gnodes l k hperm =>
    have hsum := (hperm.map (storedWeight list report c)).sum_eq
    simp only [Shared.weight, Thread.weight, Pc.weight, List.map_cons, List.sum_cons] at hsum ⊢
    rw [hsum]
    abel
  | look x st st' l k hst hst' =>
    simp only [Shared.weight, Thread.weight, Pc.weight, List.map_cons, List.sum_cons,
      Call.weight_early list report x hst, Call.weight_early list report x hst']
  | enqueue x l k =>
    simp only [Shared.weight, Thread.weight, Pc.weight, List.map_cons, List.sum_cons, Call.weight,
      List.map_append, List.sum_append, List.map_nil, List.sum_nil, hcall x .enqueue k rfl]
    abel
  | push x l k =>
    simp only [Shared.weight, Thread.weight, Pc.weight, List.map_cons, List.sum_cons, Call.weight,
      hcall x .keep k rfl]
    abel
  | recurse x l k =>
    simp only [Shared.weight, Thread.weight, Pc.weight, List.map_cons, List.sum_cons, Call.weight,
      List.map_append, List.sum_append, List.map_nil, List.sum_nil, hcall x .keep k rfl,
      storedWeight]
    abel
  | _ =>
    simp only [Shared.weight, Thread.weight, Pc.weight, List.map_cons, List.sum_cons, Call.weight,
      List.map_append, List.sum_append, List.map_nil, List.sum_nil, storedWeight, treesWeight_nil,
      treesWeight_cons]
    try abel

end Weight

/-! ### Nothing is left -/

/-- A thread with this position has found `possibleRoots` empty. -/
def Pc.pastRoots : Pc Node → Bool
  | .incWaiting | .dequeue | .checkTerminate | .checkWaiting | .decWaiting _ | .setTerminate => true
  | _ => false

/-- A thread with this position has failed to take a node out of `gnodes`, and has put none into
it since. -/
def Pc.isLate : Pc Node → Bool
  | .outer | .checkTerminate | .checkWaiting | .decWaiting none | .setTerminate | .done => true
  | _ => false

/-- What the position of a thread says about its own work and about the shared variables. -/
structure Thread.Control (sh : Shared Node) (th : Thread Node) : Prop where
  calls : th.calls ≠ [] → th.pc = .working
  lnodes : th.lnodes ≠ [] → th.pc = .inner ∨ th.pc = .working
  roots : th.pc.pastRoots = true → sh.possibleRoots = []
  done : th.pc = .done → sh.terminate = true

/-- `possibleRoots` stays empty and `terminate` stays set. -/
theorem Moves.shared_mono {sh sh' : Shared Node} {th th' : Thread Node}
    (h : Moves c sh th sh' th') :
    (sh.possibleRoots = [] → sh'.possibleRoots = []) ∧
      (sh.terminate = true → sh'.terminate = true) := by
  cases h with
  | openRoot i roots l k hperm =>
    refine ⟨?_, id⟩
    intro hnil
    rw [hnil] at hperm
    exact absurd hperm.nil_eq nofun
  | setTerminate l k => exact ⟨id, fun _ => rfl⟩
  | _ => exact ⟨id, id⟩

theorem Moves.terminate {sh sh' : Shared Node} {th th' : Thread Node}
    (h : Moves c sh th sh' th') (hth : th.Control sh)
    (hterm : sh.terminate = true → sh.possibleRoots = []) :
    sh'.terminate = true → sh'.possibleRoots = [] := by
  have hmono := h.shared_mono.1
  cases h with
  | setTerminate l k => exact fun _ => hth.roots rfl
  | _ => exact fun h => hmono (hterm h)

theorem Moves.control {sh sh' : Shared Node} {th th' : Thread Node}
    (h : Moves c sh th sh' th') (hth : th.Control sh) : th'.Control sh' := by
  obtain ⟨hcalls, hlnodes, hroots, hdone⟩ := hth
  -- away from `working` there is no call in progress
  have hidle : th.pc ≠ .working → th.calls = [] := fun hpc => by_contra fun h => hpc (hcalls h)
  have hempty : th.pc ≠ .inner → th.pc ≠ .working → th.lnodes = [] := fun h₁ h₂ =>
    by_contra fun h => (hlnodes h).elim h₁ h₂
  cases h with
  | enter l k => exact ⟨fun h => absurd (hidle nofun) h, fun _ => Or.inl rfl, nofun, nofun⟩
  | exit l k hterm =>
    exact ⟨fun h => absurd (hidle nofun) h, fun h => absurd (hempty nofun nofun) h, nofun,
      fun _ => hterm⟩
  | someRoots k =>
    exact ⟨fun h => absurd (hidle nofun) h, fun h => absurd rfl h, nofun, nofun⟩
  | noRoots k hnil =>
    exact ⟨fun h => absurd (hidle nofun) h, fun h => absurd rfl h, fun _ => hnil, nofun⟩
  | missRoot l k hnil =>
    exact ⟨fun h => absurd (hidle nofun) h, fun h => absurd (hempty nofun nofun) h,
      fun _ => hnil, nofun⟩
  | goOn l => exact ⟨fun h => absurd rfl h, fun _ => Or.inl rfl, nofun, nofun⟩
  | setTerminate l k =>
    exact ⟨fun h => absurd (hidle nofun) h, fun h => absurd (hempty nofun nofun) h, nofun, nofun⟩
  | incWaiting | steal | miss | notTerminated | terminated | tryAgain | giveUp | leave =>
    exact ⟨fun h => absurd (hidle nofun) h, fun h => absurd (hempty nofun nofun) h,
      fun _ => hroots rfl, nofun⟩
  | pop | openRoot | endCall | callBack | look | enqueue | push | recurse | report | resume =>
    exact ⟨fun _ => rfl, fun _ => Or.inr rfl, nofun, nofun⟩

/-- Another thread's step leaves what this thread knows true. -/
theorem Thread.Control.mono {sh sh' : Shared Node} {th : Thread Node} (h : th.Control sh)
    (hroots : sh.possibleRoots = [] → sh'.possibleRoots = [])
    (hterm : sh.terminate = true → sh'.terminate = true) : th.Control sh' where
  calls := h.calls
  lnodes := h.lnodes
  roots hpc := hroots (h.roots hpc)
  done hpc := hterm (h.done hpc)

/-- A thread gets past its last try by failing to take a node, and then leaves `gnodes` alone. -/
theorem Moves.late {sh sh' : Shared Node} {th th' : Thread Node} (h : Moves c sh th sh' th')
    (hlate : th'.pc.isLate = true) :
    sh'.gnodes = [] ∨ (th.pc.isLate = true ∧ sh'.gnodes = sh.gnodes) := by
  cases h with
  | miss l k hnil => exact Or.inl hnil
  | exit | notTerminated | terminated | giveUp | leave | setTerminate => exact Or.inr ⟨rfl, rfl⟩
  | _ => exact absurd hlate nofun

/-- What holds in every state of a run. -/
structure Inv (c : FiniteSystem Node) (s : State Node n) : Prop where
  okShared : s.shared.Ok c
  okThreads : ∀ t, (s.threads t).Ok c
  control : ∀ t, (s.threads t).Control s.shared
  terminate : s.shared.terminate = true → s.shared.possibleRoots = []
  /-- When all threads are past their last try, `gnodes` is empty. -/
  gnodes : (∀ t, (s.threads t).pc.isLate = true) → s.shared.gnodes = []

theorem inv_init (minRootId maxRootId : ℕ) (h : lastRootId c maxRootId ≤ c.maxRoots) :
    Inv c (init c n minRootId maxRootId) where
  okShared := by
    refine ⟨?_, nofun⟩
    intro i hi
    have hi' := List.mem_range'_1.mp hi
    omega
  okThreads _ := ⟨nofun, nofun, nofun⟩
  control _ := ⟨fun h => absurd rfl h, fun h => absurd rfl h, nofun, nofun⟩
  terminate := nofun
  gnodes _ := rfl

theorem inv_step {s s' : State Node n} {a : Action n} (hs : Inv c s)
    (h : step c n s a = some s') : Inv c s' := by
  obtain ⟨sh, th, hmoves, rfl⟩ := step_cases h
  have hok := hmoves.ok hs.okShared (hs.okThreads a.thread)
  have hmono := hmoves.shared_mono
  constructor
  case okShared => exact hok.1
  case okThreads =>
    intro t
    show (Function.update s.threads a.thread th t).Ok c
    rcases eq_or_ne t a.thread with rfl | hne
    · rw [Function.update_self]
      exact hok.2
    · rw [Function.update_of_ne hne]
      exact hs.okThreads t
  case control =>
    intro t
    show (Function.update s.threads a.thread th t).Control sh
    rcases eq_or_ne t a.thread with rfl | hne
    · rw [Function.update_self]
      exact hmoves.control (hs.control a.thread)
    · rw [Function.update_of_ne hne]
      exact (hs.control t).mono hmono.1 hmono.2
  case terminate => exact hmoves.terminate (hs.control a.thread) hs.terminate
  case gnodes =>
    intro hall
    replace hall : ∀ t, (Function.update s.threads a.thread th t).pc.isLate = true := hall
    have hlate : th.pc.isLate = true := by
      have hself := hall a.thread
      rwa [Function.update_self] at hself
    rcases hmoves.late hlate with hnil | ⟨hbefore, hsame⟩
    · exact hnil
    · show sh.gnodes = []
      rw [hsame]
      apply hs.gnodes
      intro t
      rcases eq_or_ne t a.thread with rfl | hne
      · exact hbefore
      · have hother := hall t
        rwa [Function.update_of_ne hne] at hother

/-! ### Runs -/

section Runs

variable {minRootId maxRootId : ℕ} (hlast : lastRootId c maxRootId ≤ c.maxRoots) {s : State Node n}
  (h : Reaches (step c n) Any (init c n minRootId maxRootId) s)

include hlast h

theorem reaches_inv : Inv c s :=
  h.invariant (inv_init minRootId maxRootId hlast) fun _ _ _ hs _ hstep => inv_step hs hstep

/-- **Nothing is lost.** What has been counted and what is still to be counted adds up to the
count of the trees below the roots. -/
theorem reaches_weight {M : Type*} [AddCommMonoid M] (list report : Node → M) :
    s.shared.weight list report c + ∑ t, (s.threads t).weight list report c
      = ((rootIds c minRootId maxRootId).map fun i =>
          treesWeight list report c (c.getRoot i)).sum := by
  have hstep : ∀ (s : State Node n) (a : Action n) (s' : State Node n), Inv c s →
      step c n s a = some s' →
      s'.shared.weight list report c + ∑ t, (s'.threads t).weight list report c
        = s.shared.weight list report c + ∑ t, (s.threads t).weight list report c := by
    intro s a s' hs hstep
    obtain ⟨sh, th, hmoves, rfl⟩ := step_cases hstep
    have hweight := hmoves.weight list report (hs.okThreads a.thread)
    obtain ⟨rest, hbefore, hafter⟩ :=
      exists_sum_update (fun th => Thread.weight list report c th) s.threads a.thread
    show sh.weight list report c
      + ∑ t, (Function.update s.threads a.thread th t).weight list report c = _
    rw [hbefore, hafter th, ← add_assoc, ← add_assoc, hweight]
  refine h.invariant_of
    (I := fun s => s.shared.weight list report c + ∑ t, (s.threads t).weight list report c
      = ((rootIds c minRootId maxRootId).map fun i =>
          treesWeight list report c (c.getRoot i)).sum)
    (fun u hu => reaches_inv hlast hu) ?_ ?_
  · simp [init, Shared.weight, Thread.weight, Pc.weight]
  · intro s a s' hs hsum _ hstep'
    rw [hstep s a s' hs hstep', hsum]

/-- When all threads have returned, no work is left. -/
theorem weight_of_finished (hn : 0 < n) (hs : Finished s) {M : Type*} [AddCommMonoid M]
    (list report : Node → M) :
    (s.shared.listed.map list).sum + (s.shared.reported.map report).sum
      = ((rootIds c minRootId maxRootId).map fun i =>
          treesWeight list report c (c.getRoot i)).sum := by
  have hinv := reaches_inv hlast h
  have hthread : ∀ t, (s.threads t).weight list report c = 0 := by
    intro t
    have hcontrol := hinv.control t
    have hcalls : (s.threads t).calls = [] := by
      by_contra hne
      have := hcontrol.calls hne
      rw [hs t] at this
      cases this
    have hlnodes : (s.threads t).lnodes = [] := by
      by_contra hne
      have := hcontrol.lnodes hne
      rw [hs t] at this
      rcases this with this | this <;> cases this
    simp [Thread.weight, hs t, hcalls, hlnodes, Pc.weight]
  have hgnodes : s.shared.gnodes = [] := hinv.gnodes fun t => by rw [hs t]; rfl
  have hroots : s.shared.possibleRoots = [] :=
    hinv.terminate ((hinv.control ⟨0, hn⟩).done (hs ⟨0, hn⟩))
  rw [← reaches_weight hlast h list report, Finset.sum_eq_zero fun t _ => hthread t, add_zero,
    Shared.weight, hgnodes, hroots]
  simp

end Runs

/-! ### The counter of waiting threads -/

/-- Whether a thread with this position has incremented `waiting` and not yet decremented it. -/
def Pc.waits : Pc Node → ℕ
  | .dequeue | .checkTerminate | .checkWaiting | .decWaiting _ => 1
  | _ => 0

theorem Moves.waits {sh sh' : Shared Node} {th th' : Thread Node} (h : Moves c sh th sh' th')
    (hle : th.pc.waits ≤ sh.waiting) : sh'.waiting + th.pc.waits = sh.waiting + th'.pc.waits := by
  cases h with
  | resume | leave => exact Nat.sub_add_cancel hle
  | _ => rfl

/-- `waiting` is the number of threads that wait, so `--waiting` never wraps around. -/
theorem reaches_waiting {minRootId maxRootId : ℕ} {s : State Node n}
    (h : Reaches (step c n) Any (init c n minRootId maxRootId) s) :
    s.shared.waiting = ∑ t, (s.threads t).pc.waits := by
  refine h.invariant (I := fun s => s.shared.waiting = ∑ t, (s.threads t).pc.waits) ?_ ?_
  · simp [init, Pc.waits]
  · intro s a s' hs _ hstep
    obtain ⟨sh, th, hmoves, rfl⟩ := step_cases hstep
    obtain ⟨rest, hbefore, hafter⟩ :=
      exists_sum_update (fun th : Thread Node => th.pc.waits) s.threads a.thread
    have hsum := hafter th
    rw [hbefore] at hs
    have hwaits := hmoves.waits (by omega)
    show sh.waiting = ∑ t, (Function.update s.threads a.thread th t).pc.waits
    omega

/-! ### The same visits as `Sequential` -/

namespace FiniteSystem

/-- The nodes of the forest, root after root. -/
def nodes (c : FiniteSystem Node) : List Node :=
  (List.range c.maxRoots).flatMap fun i => c.forest.traversal (c.getRoot i)

theorem forEach_lift {σ : Type} (f : Node → σ → Option (Bool × σ)) (l : List Node) (a : σ) :
    forEach (NodeCallback.lift f) l ((), a) = (forEach f l a).map fun a => ((), a) :=
  forEach_keep (fun _ _ _ => rfl) a

/-- Without recursion the system lists its forest. -/
def listsForest (c : FiniteSystem Node) (hrec : c.canUseRecursion = false) :
    Sequential.ListsForest c.system where
  Inv _ := True
  roots := c.getRoot
  forest := c.forest
  sol _ := true
  item node := node
  not_recursive := hrec
  ok_roots := c.ok_getRoot
  isSolution_eq _ _ := rfl
  nodeToItem_eq _ _ := rfl
  getRoot_eq f i _ a _ _ := forEach_lift f (c.getRoot i) a
  listChildren_eq f x _ a _ _ := forEach_lift f (c.forest.children x) a

/-- With recursion the system lists the trees below its roots. -/
def listsTrees (c : FiniteSystem Node) (hrec : c.canUseRecursion = true) :
    Sequential.ListsTrees c.system where
  Inv _ := True
  At _ _ := True
  roots := c.getRoot
  forest _ := c.forest
  sol _ _ := true
  item _ node := node
  recursive := hrec
  ok_roots := c.ok_getRoot
  isSolution_eq _ _ _ _ _ := rfl
  nodeToItem_eq _ _ _ _ _ := rfl
  getRoot_eq _ st _ _ := ⟨st, trivial, fun _ => trivial, fun _ _ => rfl⟩
  listChildren_eq _ _ _ _ _ _ _ _ := rfl

/-- A bound on the ranks of all roots. -/
theorem exists_rank_bound (c : FiniteSystem Node) :
    ∃ bound, ∀ i < c.maxRoots, ∀ r ∈ c.getRoot i, c.forest.rank r ≤ bound := by
  refine ⟨((List.range c.maxRoots).flatMap fun i => (c.getRoot i).map c.forest.rank).sum, ?_⟩
  intro i hi r hr
  apply List.single_le_sum (fun _ _ => Nat.zero_le _)
  exact List.mem_flatMap.mpr ⟨i, List.mem_range.mpr hi, List.mem_map_of_mem hr⟩

/-- `Sequential` visits the nodes of the forest, in both modes. -/
theorem sequential_items (c : FiniteSystem Node) :
    ∃ bound, ∀ fuel > bound, ∃ e, Sequential.runInternal fuel c.system () {} = some ((), e) ∧
      e.items.Perm c.nodes := by
  cases hrec : c.canUseRecursion with
  | false =>
    refine ⟨(c.listsForest hrec).allNodes.length, ?_⟩
    intro fuel hfuel
    obtain ⟨l, hl, hrun⟩ :=
      (c.listsForest hrec).runInternal_of_listsForest () trivial hfuel ({} : Enumerator Node)
    refine ⟨_, hrun, ?_⟩
    show ([] ++ (l.filter fun _ => true).map fun node => node).Perm c.nodes
    rw [List.filter_true, List.map_id', List.nil_append]
    exact hl
  | true =>
    obtain ⟨bound, hbound⟩ := c.exists_rank_bound
    refine ⟨bound, ?_⟩
    intro fuel hfuel
    have hranks : ∀ i < c.maxRoots, ∀ r ∈ c.getRoot i, c.forest.rank r < fuel :=
      fun i hi r hr => (hbound i hi r hr).trans_lt hfuel
    obtain ⟨_, hrun⟩ := (c.listsTrees hrec).runInternal_of_listsTrees trivial hranks {}
    refine ⟨_, hrun, ?_⟩
    rw [Sequential.ListsTrees.reportsRoots_items, List.nil_append]
    apply List.Perm.flatMap_left
    intro i _
    show ((((c.forest.traversal (c.getRoot i)).filter fun _ => true).map fun node => node)).Perm _
    rw [List.filter_true, List.map_id']

end FiniteSystem

/-- The threads start with all the roots. -/
theorem rootIds_default (c : FiniteSystem Node) : rootIds c 0 0 = List.range c.maxRoots := by
  rw [rootIds, lastRootId, if_pos rfl, Nat.sub_zero, List.range_eq_range']

/-- The singletons of a list add up to the list. -/
theorem sum_map_singleton (l : List Node) : (l.map fun x => ({x} : Multiset Node)).sum = ↑l := by
  induction l with
  | nil => rfl
  | cons x l ih =>
    rw [List.map_cons, List.sum_cons, ih, Multiset.singleton_add, Multiset.cons_coe]

/-- The nodes below some roots. -/
def FiniteSystem.nodesBelow (c : FiniteSystem Node) (ids : List ℕ) : List Node :=
  ids.flatMap fun i => c.forest.traversal (c.getRoot i)

theorem sum_treesWeight (list report : Node → Multiset Node) (h : ∀ x, list x + report x = {x})
    (ids : List ℕ) : (ids.map fun i => treesWeight list report c (c.getRoot i)).sum
      = (c.nodesBelow ids : Multiset Node) := by
  unfold FiniteSystem.nodesBelow
  induction ids with
  | nil => rfl
  | cons i ids ih =>
    rw [List.map_cons, List.sum_cons, ih, treesWeight_eq_sum, List.flatMap_cons,
      ← Multiset.coe_add]
    simp only [h, sum_map_singleton]

/-- When all threads have returned, every node below the roots of the range has been listed once
and reported once. -/
theorem finished_nodesBelow {minRootId maxRootId : ℕ} (hlast : lastRootId c maxRootId ≤ c.maxRoots)
    {s : State Node n} (h : Reaches (step c n) Any (init c n minRootId maxRootId) s) (hn : 0 < n)
    (hs : Finished s) :
    s.shared.listed.Perm (c.nodesBelow (rootIds c minRootId maxRootId)) ∧
      s.shared.reported.Perm (c.nodesBelow (rootIds c minRootId maxRootId)) := by
  constructor
  · have hweight := weight_of_finished hlast h hn hs (fun x => ({x} : Multiset Node)) fun _ => 0
    rw [sum_treesWeight _ _ fun _ => add_zero _, sum_map_singleton] at hweight
    rw [← Multiset.coe_eq_coe, ← hweight]
    simp
  · have hweight := weight_of_finished hlast h hn hs (fun _ => 0) fun x => ({x} : Multiset Node)
    rw [sum_treesWeight _ _ fun _ => zero_add _, sum_map_singleton] at hweight
    rw [← Multiset.coe_eq_coe, ← hweight]
    simp

/-- **The threads visit what `Sequential` visits.** When all threads have returned,
`ListChildren` has been called once for every node of the forest, `ReportSolution` has been
called once for every node of the forest, and these are the nodes that `Sequential` visits. -/
theorem finished_visits (c : FiniteSystem Node) (hn : 0 < n) {s : State Node n}
    (h : Reaches (step c n) Any (init c n) s) (hs : Finished s) :
    s.shared.listed.Perm c.nodes ∧ s.shared.reported.Perm c.nodes ∧
      ∃ bound, ∀ fuel > bound, ∃ e, Sequential.runInternal fuel c.system () {} = some ((), e) ∧
        s.shared.reported.Perm e.items := by
  have hlast : lastRootId c 0 ≤ c.maxRoots := le_of_eq (if_pos rfl)
  obtain ⟨hlisted, hreported⟩ := finished_nodesBelow hlast h hn hs
  rw [rootIds_default] at hlisted hreported
  obtain ⟨bound, hbound⟩ := c.sequential_items
  refine ⟨hlisted, hreported, bound, ?_⟩
  intro fuel hfuel
  obtain ⟨e, hrun, hitems⟩ := hbound fuel hfuel
  exact ⟨e, hrun, hreported.trans hitems.symm⟩

/-- A root with two leaves below it. -/
def cherry : FiniteSystem ℕ where
  canUseRecursion := false
  maxRoots := 1
  getRoot _ := [0]
  forest :=
    { children := fun x => if x = 0 then [1, 2] else []
      Ok := fun _ => True
      rank := fun x => 1 - x
      ok_of_mem := fun _ _ => trivial
      rank_lt_of_mem := by
        intro x y _ hy
        split_ifs at hy with hx
        · have hpos : 0 < y := by rcases List.mem_pair.mp hy with rfl | rfl <;> decide
          omega
        · exact absurd hy List.not_mem_nil }
  ok_getRoot _ _ _ _ := trivial

/-- A run of two threads: the second one takes the root, and one of its children, out of
`gnodes`. -/
def cherryRun : List (Action 2) :=
  [(0, 3), (1, 3), (0, 9), (1, 31), (0, 5)].flatMap fun turn =>
    List.replicate turn.2 ⟨turn.1, 0⟩

theorem finished_visits_cherry :
    ∃ s, run (step cherry 2) Any cherryRun (init cherry 2) = some s ∧
      s.shared.listed.Perm cherry.nodes ∧ s.shared.reported.Perm cherry.nodes := by
  have hpcs : (run (step cherry 2) Any cherryRun (init cherry 2)).map
      (fun s => ((s.threads 0).pc, (s.threads 1).pc)) = some (.done, .done) := by
    decide +kernel
  obtain ⟨s, hrun, hdone⟩ := Option.map_eq_some_iff.mp hpcs
  obtain ⟨h0, h1⟩ := Prod.mk.inj hdone
  have hfinished : Finished s := by
    intro t
    match t with
    | 0 => exact h0
    | 1 => exact h1
  obtain ⟨hlisted, hreported, _⟩ :=
    finished_visits cherry Nat.two_pos (reaches_of_run hrun) hfinished
  exact ⟨s, hrun, hlisted, hreported⟩

end ParallelEnum.ParallelPthreadsSteal
