import ParallelEnum.Enumerator.Enumerator
import ParallelEnum.Theory.Transition
import ParallelEnum.Theory.Traversal

/-!
# `ParallelPthreadsSteal`: threads that steal nodes from each other

`ParallelPthreadsSteal::RunInternal` of `enumerator/parallel_pthreads_steal.hpp`, run without the
callbacks to other computing nodes (`_moreWorkCb`, `_checkStealCb` and `_sendStealCb` are `NULL`).
`ServeSteal` does nothing then, and a thread that leaves the inner loop sets `terminate`.

Every operation on a concurrent queue, on `waiting` or on `terminate` is one step of one thread,
and any thread may take the next step.  What the source leaves open in a step is resolved by the
number `pick`: the element `try_dequeue` takes out of a queue, and the operand that
`gnodes.size_approx() < waiting` reads first.

The queues are taken to be linearizable: `try_dequeue` fails on an empty queue only, and
`size_approx` is the number of elements.  In the queue of the source a call of `try_dequeue` may
also fail while another one has drawn a ticket that it has to give back; `ParallelPthreads` goes
down to these steps.
-/

namespace ParallelEnum.ParallelPthreadsSteal

open Traversal Transition

/-- Two threads are `0` and `1`. -/
instance neZero_two : NeZero 2 := ⟨two_ne_zero⟩

variable {Node : Type}

/-- A system whose nodes are immutable values: the lists of nodes that `GetRoot` and
`ListChildren` pass to a callback that always answers `true`. -/
structure FiniteSystem (Node : Type) where
  canUseRecursion : Bool
  maxRoots : ℕ
  getRoot : ℕ → List Node
  /-- The finite forest whose children `ListChildren` lists. -/
  forest : Forest Node
  /-- The roots are nodes of the forest. -/
  ok_getRoot : ∀ i < maxRoots, ∀ r ∈ getRoot i, forest.Ok r

namespace FiniteSystem

/-- `ListChildren` -/
def listChildren (c : FiniteSystem Node) (node : Node) : List Node := c.forest.children node

/-- The system as an enumerator sees it; every node is a solution and its own item. -/
def system (c : FiniteSystem Node) : Enumerable Unit Node Node where
  canUseRecursion := c.canUseRecursion
  maxRoots := c.maxRoots
  getRoot i cb s := forEach cb (c.getRoot i) s
  listChildren node cb s := forEach cb (c.listChildren node) s
  nodeToItem _ node := node

end FiniteSystem

/-! ### What the threads share -/

/-- The variables that all threads share. -/
structure Shared (Node : Type) where
  /-- Global roots. -/
  possibleRoots : List ℕ
  /-- Global nodes. -/
  gnodes : List Node := []
  /-- Waiting threads (on internal stealing). -/
  waiting : ℕ := 0
  terminate : Bool := false
  /-- The nodes `ListChildren` was called for. -/
  listed : List Node := []
  /-- The nodes `ReportSolution` was called for. -/
  reported : List Node := []

/-- `try_dequeue`: the element at position `pick` and the elements that stay.  It fails on an
empty queue only. -/
def tryDequeue {α : Type} (queue : List α) (pick : ℕ) : Option (Option α × List α) :=
  match queue with
  | [] => some (none, [])
  | _ :: _ => queue[pick]?.map fun x => (some x, queue.eraseIdx pick)

/-! ### One thread -/

/-- How far a call of `solution_cb` has come. -/
inductive Stage where
  | start
  /-- `gnodes.size_approx()` has been read. -/
  | gotSize (size : ℕ)
  /-- `waiting` has been read. -/
  | gotWaiting (waiting : ℕ)
  /-- About to put the node into `gnodes`. -/
  | enqueue
  /-- About to keep the node for this thread. -/
  | keep
  /-- About to call `ReportSolution`. -/
  | report
deriving DecidableEq

/-- A call in progress. -/
inductive Call (Node : Type) where
  /-- `GetRoot` or `ListChildren`, with the nodes not yet passed to `solution_cb`. -/
  | producer (rest : List Node)
  /-- `solution_cb` -/
  | solutionCb (node : Node) (stage : Stage)

/-- Where in `worker_thread` a thread is. -/
inductive Pc (Node : Type) where
  /-- Before `while (!terminate)`. -/
  | outer
  /-- Before the test of `lnodes.empty()` and `possibleRoots.size_approx()`. -/
  | inner
  /-- In `OpenRoot`, before `possibleRoots.try_dequeue`. -/
  | openRoot
  /-- In a call of `GetRoot` or `ListChildren`, after which `localData` is true. -/
  | working
  /-- Before `++waiting`. -/
  | incWaiting
  /-- Before `gnodes.try_dequeue`. -/
  | dequeue
  /-- Before the test of `terminate` that follows a failed `gnodes.try_dequeue`. -/
  | checkTerminate
  /-- Before the test of `waiting` against `_nthreads`. -/
  | checkWaiting
  /-- Before `--waiting`, with the node taken out of `gnodes` if there is one. -/
  | decWaiting (stolen : Option Node)
  /-- Before `terminate = true`. -/
  | setTerminate
  /-- The thread has returned. -/
  | done
deriving DecidableEq

/-- The variables of one thread. -/
structure Thread (Node : Type) where
  pc : Pc Node := .outer
  /-- Local nodes, the back of the vector first. -/
  lnodes : List Node := []
  /-- The calls in progress, the innermost first. -/
  calls : List (Call Node) := []

namespace Thread

/-- Begin a call of `ListChildren`. -/
def list (c : FiniteSystem Node) (node : Node) (sh : Shared Node) (th : Thread Node) :
    Shared Node × Thread Node :=
  ({ sh with listed := sh.listed ++ [node] },
    { th with calls := .producer (c.listChildren node) :: th.calls })

/-- One step of a call of `solution_cb` that is the innermost one and lies above `calls`. -/
def solutionCb (c : FiniteSystem Node) (pick : ℕ) (node : Node) (calls : List (Call Node))
    (sh : Shared Node) (th : Thread Node) : Stage → Shared Node × Thread Node
  | .start =>
    -- the operands of `<` are read in either order
    let stage := if pick = 0 then .gotSize sh.gnodes.length else .gotWaiting sh.waiting
    (sh, { th with calls := .solutionCb node stage :: calls })
  | .gotSize size =>
    let stage := if size < sh.waiting then .enqueue else .keep
    (sh, { th with calls := .solutionCb node stage :: calls })
  | .gotWaiting waiting =>
    let stage := if sh.gnodes.length < waiting then .enqueue else .keep
    (sh, { th with calls := .solutionCb node stage :: calls })
  | .enqueue =>
    ({ sh with gnodes := sh.gnodes ++ [node] },
      { th with calls := .solutionCb node .report :: calls })
  | .keep =>
    if !c.canUseRecursion then
      (sh, { th with lnodes := node :: th.lnodes, calls := .solutionCb node .report :: calls })
    else
      list c node sh { th with calls := .solutionCb node .report :: calls }
  | .report => ({ sh with reported := sh.reported ++ [node] }, { th with calls := calls })

/-- One step of the innermost call; without one, the inner loop goes on. -/
def work (c : FiniteSystem Node) (pick : ℕ) (sh : Shared Node) (th : Thread Node) :
    Shared Node × Thread Node :=
  match th.calls with
  | [] => (sh, { th with pc := .inner })
  | .producer [] :: calls => (sh, { th with calls := calls })
  | .producer (node :: rest) :: calls =>
    (sh, { th with calls := .solutionCb node .start :: .producer rest :: calls })
  | .solutionCb node stage :: calls => solutionCb c pick node calls sh th stage

/-- One step of `worker_thread`. -/
def step (c : FiniteSystem Node) (nthreads pick : ℕ) (sh : Shared Node) (th : Thread Node) :
    Option (Shared Node × Thread Node) :=
  match th.pc with
  | .outer => some (sh, { th with pc := if !sh.terminate then .inner else .done })
  | .inner =>
    match th.lnodes with
    | node :: lnodes => some (list c node sh { th with pc := .working, lnodes := lnodes })
    | [] => some (sh, { th with pc := if sh.possibleRoots.length = 0 then .incWaiting
                                      else .openRoot })
  | .openRoot =>
    (tryDequeue sh.possibleRoots pick).map fun r =>
      match r with
      | (some i, roots) =>
        ({ sh with possibleRoots := roots },
          { th with pc := .working, calls := .producer (c.getRoot i) :: th.calls })
      | (none, roots) => ({ sh with possibleRoots := roots }, { th with pc := .incWaiting })
  | .working => some (work c pick sh th)
  | .incWaiting => some ({ sh with waiting := sh.waiting + 1 }, { th with pc := .dequeue })
  | .dequeue =>
    (tryDequeue sh.gnodes pick).map fun r =>
      match r with
      | (some node, gnodes) =>
        ({ sh with gnodes := gnodes }, { th with pc := .decWaiting (some node) })
      | (none, gnodes) => ({ sh with gnodes := gnodes }, { th with pc := .checkTerminate })
  | .checkTerminate =>
    some (sh, { th with pc := if !sh.terminate then .checkWaiting else .decWaiting none })
  | .checkWaiting =>
    some (sh, { th with pc := if sh.waiting < nthreads then .dequeue else .decWaiting none })
  | .decWaiting (some node) =>
    some (list c node { sh with waiting := sh.waiting - 1 } { th with pc := .working })
  | .decWaiting none =>
    some ({ sh with waiting := sh.waiting - 1 }, { th with pc := .setTerminate })
  | .setTerminate => some ({ sh with terminate := true }, { th with pc := .outer })
  | .done => none

end Thread

/-! ### All threads -/

/-- The state of a run with `n` threads. -/
structure State (Node : Type) (n : ℕ) where
  shared : Shared Node
  threads : Fin n → Thread Node

/-- Which thread takes the next step, and how the step resolves what the source leaves open. -/
structure Action (n : ℕ) where
  thread : Fin n
  pick : ℕ

/-- One step of one thread. -/
def step (c : FiniteSystem Node) (n : ℕ) (s : State Node n) (a : Action n) :
    Option (State Node n) :=
  (Thread.step c n a.pick s.shared (s.threads a.thread)).map fun r =>
    { shared := r.1, threads := Function.update s.threads a.thread r.2 }

/-- `_maxRootId` after `RunInternal` has replaced zero by `MaxRoots()`. -/
def lastRootId (c : FiniteSystem Node) (maxRootId : ℕ) : ℕ :=
  if maxRootId = 0 then c.maxRoots else maxRootId

/-- The ids that `RunInternal` puts into `possibleRoots`. -/
def rootIds (c : FiniteSystem Node) (minRootId maxRootId : ℕ) : List ℕ :=
  List.range' minRootId (lastRootId c maxRootId - minRootId)

/-- The state in which the threads start; the constructor's default range is `0`, `0`. -/
def init (c : FiniteSystem Node) (n : ℕ) (minRootId : ℕ := 0) (maxRootId : ℕ := 0) :
    State Node n where
  shared := { possibleRoots := rootIds c minRootId maxRootId }
  threads _ := {}

/-- All threads have returned. -/
def Finished {n : ℕ} (s : State Node n) : Prop := ∀ t, (s.threads t).pc = .done

end ParallelEnum.ParallelPthreadsSteal
