import ParallelEnum.Enumerator.ParallelPthreadsSteal
import ParallelEnum.Util.ConcurrentQueue

/-!
# `ParallelPthreads`: threads that share one queue

`ParallelPthreads::RunInternal` of `enumerator/parallel_pthreads.hpp`.  Each thread puts the nodes
it finds into the queue of its own producer token, and takes nodes out of that queue first and then
out of those of all tokens.

A step is one operation on an atomic variable of the queue, on `nextRoot`, or on a token.  Two
things are left open by the source and resolved by the number `pick`: the producer that
`recycle_or_create_producer` hands to a token, which is any that no token has, and the producer at
which the rotation of the consumer token has arrived when `try_dequeue` begins.  A producer that has
not been created is one whose queue is empty.

A scan comes to every producer.  In the source it goes on from `producerListTail` as it was read, so
that it may leave out producers that have been created since; such a scan is no step here.
-/

namespace ParallelEnum.ParallelPthreads

open Transition ConcurrentQueue
open ParallelPthreadsSteal (FiniteSystem lastRootId)

variable {Node : Type} {n : ℕ}

/-- The variables that all threads share. -/
structure Shared (Node : Type) (n : ℕ) where
  nextRoot : ℕ
  /-- `gnodes`, the queues of its producers. -/
  gnodes : Fin n → Producer Node := fun _ => {}
  /-- Whether a producer has no token. -/
  inactive : Fin n → Bool := fun _ => true
  /-- The nodes `ListChildren` was called for. -/
  listed : List Node := []
  /-- The nodes `ReportSolution` was called for. -/
  reported : List Node := []

/-- The function that calls `solution_cb`. -/
inductive Caller where
  | getRoot
  | listChildren
deriving DecidableEq

/-- Where in its loop a thread is. -/
inductive Pc (Node : Type) (n : ℕ) where
  /-- Before the test of `rootsAvailable`. -/
  | roots
  /-- In `GetRoot` or `ListChildren`, with the nodes not yet passed to `solution_cb`. -/
  | call (caller : Caller) (rest : List Node)
  /-- In `gnodes.enqueue` for a node passed to `solution_cb`. -/
  | enqueue (caller : Caller) (rest : List Node) (node : Node) (enqueue : Enqueue Node)
  /-- Before `ReportSolution`. -/
  | report (caller : Caller) (rest : List Node) (node : Node)
  /-- In `gnodes.try_dequeue_from_producer`. -/
  | own (dequeue : Dequeue)
  /-- In `gnodes.try_dequeue`, at a producer, with the number of those still to be tried. -/
  | scan (producer : Fin n) (left : ℕ) (dequeue : Dequeue)
  /-- Before `nextRoot` is compared after no node has been found. -/
  | checkRoots
  /-- Before the tokens are destroyed. -/
  | leave

/-- A thread. -/
inductive Thread (Node : Type) (n : ℕ) where
  /-- Before the tokens are made. -/
  | start
  | run (ptok : Fin n) (rootsAvailable : Bool) (pc : Pc Node n)
  /-- The thread has returned. -/
  | done

/-- Begin a call of `ListChildren`. -/
def list (c : FiniteSystem Node) (node : Node) (ptok : Fin n) (rootsAvailable : Bool)
    (sh : Shared Node n) : Shared Node n × Thread Node n :=
  ({ sh with listed := sh.listed ++ [node] },
    .run ptok rootsAvailable (.call .listChildren (c.listChildren node)))

/-- One step in the loop of a thread. -/
def Pc.step (c : FiniteSystem Node) (maxRootId pick : ℕ) (sh : Shared Node n) (ptok : Fin n)
    (rootsAvailable : Bool) : Pc Node n → Option (Shared Node n × Thread Node n)
  | .roots =>
    if rootsAvailable then
      let tmp := sh.nextRoot
      let sh := { sh with nextRoot := tmp + 1 }
      if tmp < maxRootId then some (sh, .run ptok rootsAvailable (.call .getRoot (c.getRoot tmp)))
      else some (sh, .run ptok false (.own .start))
    else some (sh, .run ptok rootsAvailable (.own .start))
  | .call caller [] =>
    match caller with
    | .getRoot => some (sh, .run ptok rootsAvailable (.own .start))
    | .listChildren => some (sh, .run ptok rootsAvailable .roots)
  | .call caller (node :: rest) =>
    some (sh, .run ptok rootsAvailable (.enqueue caller rest node (.start node)))
  | .enqueue caller rest node e =>
    let r := e.step (sh.gnodes ptok)
    let sh := { sh with gnodes := Function.update sh.gnodes ptok r.1 }
    match r.2 with
    | some e => some (sh, .run ptok rootsAvailable (.enqueue caller rest node e))
    | none => some (sh, .run ptok rootsAvailable (.report caller rest node))
  | .report caller rest node =>
    some ({ sh with reported := sh.reported ++ [node] },
      .run ptok rootsAvailable (.call caller rest))
  | .own d =>
    (d.step (sh.gnodes ptok)).map fun r =>
      let sh := { sh with gnodes := Function.update sh.gnodes ptok r.1 }
      match r.2 with
      | .inl d => (sh, .run ptok rootsAvailable (.own d))
      | .inr (some node) => list c node ptok rootsAvailable sh
      | .inr none =>
        (sh, .run ptok rootsAvailable (.scan ⟨pick % n, Nat.mod_lt _ ptok.pos⟩ n .start))
  | .scan producer left d =>
    (d.step (sh.gnodes producer)).map fun r =>
      let sh := { sh with gnodes := Function.update sh.gnodes producer r.1 }
      match r.2 with
      | .inl d => (sh, .run ptok rootsAvailable (.scan producer left d))
      | .inr (some node) => list c node ptok rootsAvailable sh
      | .inr none =>
        if left ≤ 1 then (sh, .run ptok rootsAvailable .checkRoots)
        else
          -- `next_prod`, or the last producer again after the first
          (sh, .run ptok rootsAvailable
            (.scan ⟨(producer.val + 1) % n, Nat.mod_lt _ ptok.pos⟩ (left - 1) .start))
  | .checkRoots =>
    if sh.nextRoot ≥ maxRootId then some (sh, .run ptok rootsAvailable .leave)
    else some (sh, .run ptok rootsAvailable .roots)
  | .leave => some ({ sh with inactive := Function.update sh.inactive ptok true }, .done)

/-- One step of a thread. -/
def Thread.step (c : FiniteSystem Node) (maxRootId pick : ℕ) (sh : Shared Node n) :
    Thread Node n → Option (Shared Node n × Thread Node n)
  | .start =>
    if h : pick < n then
      if sh.inactive ⟨pick, h⟩ then
        some ({ sh with inactive := Function.update sh.inactive ⟨pick, h⟩ false },
          .run ⟨pick, h⟩ true .roots)
      else none
    else none
  | .run ptok rootsAvailable pc => pc.step c maxRootId pick sh ptok rootsAvailable
  | .done => none

/-! ### All threads -/

/-- The state of a run with `n` threads. -/
structure State (Node : Type) (n : ℕ) where
  shared : Shared Node n
  threads : Fin n → Thread Node n

/-- Which thread takes the next step, and how the step resolves what the source leaves open. -/
structure Action (n : ℕ) where
  thread : Fin n
  pick : ℕ

/-- One step of one thread, with the constructor's `maxRootId`. -/
def step (c : FiniteSystem Node) (maxRootId : ℕ) (s : State Node n) (a : Action n) :
    Option (State Node n) :=
  (Thread.step c (lastRootId c maxRootId) a.pick s.shared (s.threads a.thread)).map fun r =>
    { shared := r.1, threads := Function.update s.threads a.thread r.2 }

/-- The state in which the threads start. -/
def init (n minRootId : ℕ) : State Node n where
  shared := { nextRoot := minRootId }
  threads _ := .start

/-- All threads have returned. -/
def Finished (s : State Node n) : Prop := ∀ t, s.threads t = .done

end ParallelEnum.ParallelPthreads
