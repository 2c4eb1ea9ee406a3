import ParallelEnum.Enumerable.Enumerable
import ParallelEnum.Enumerator.ParallelPthreadsSteal
import ParallelEnum.Theory.Barrier

/-!
# `ParallelPthreadsSteal` with callbacks, over nodes that share buffers

`ParallelPthreadsSteal::RunInternal` of `enumerator/parallel_pthreads_steal.hpp`, with or without
the callbacks to other computing nodes, for a system whose nodes refer to a buffer: `GetRoot`
overwrites the buffer of its thread, and the descendants of the root all refer to it.

As before every operation on a queue, a flag, a counter or a barrier is one step of one thread, and
the queues are taken to be linearizable, with an exact `size_approx`.  A step in which a callback
returns is given what it returns.
-/

namespace ParallelEnum.ParallelPthreadsSteal.Callbacks

variable {n : ℕ} {Buffer Value : Type}

/-- A system whose nodes consist of a reference to a buffer and a value of their own. -/
structure BufferSystem (Buffer Value : Type) where
  canUseRecursion : Bool
  maxRoots : ℕ
  /-- The buffer of a thread before its first call of `GetRoot`. -/
  fresh : Buffer
  /-- `GetRoot`: what it makes of the buffer, and the nodes that it passes to its callback. -/
  getRoot : ℕ → Buffer → Buffer × List Value
  /-- `ListChildren`: the nodes that it passes to its callback. -/
  listChildren : Buffer → Value → List Value
  /-- `IsSolution` -/
  isSolution : Buffer → Value → Bool

/-- A system whose nodes are immutable values has no use for buffers. -/
def ofFiniteSystem {Node : Type} (c : FiniteSystem Node) : BufferSystem Unit Node where
  canUseRecursion := c.canUseRecursion
  maxRoots := c.maxRoots
  fresh := ()
  getRoot i _ := ((), c.getRoot i)
  listChildren _ node := c.listChildren node
  isSolution _ _ := true

/-- A callback that notes the nodes. -/
def note {St Node : Type} : NodeCallback St Node (List Node) :=
  fun node s => some (true, (s.1, s.2 ++ [node]))

/-- A system whose nodes refer to the state that `GetRoot` changes: each thread has its own. -/
def ofEnumerable {St Node Item : Type} (e : Enumerable St Node Item) (fresh : St) :
    BufferSystem St Node where
  canUseRecursion := e.canUseRecursion
  maxRoots := e.maxRoots
  fresh := fresh
  getRoot i st := (e.getRoot i note (st, [])).getD (st, [])
  listChildren st node := ((e.listChildren node note (st, [])).map Prod.snd).getD []
  isSolution st node := e.isSolution st node

/-- A reference to a buffer. -/
inductive Ref (n : ℕ) where
  /-- The `thread_local` buffer that `GetRoot` overwrites in this thread. -/
  | thread (t : Fin n)
  /-- The buffer of a node that was deserialized. -/
  | received (i : ℕ)
deriving DecidableEq

structure Node (n : ℕ) (Value : Type) where
  ref : Ref n
  value : Value
deriving DecidableEq

/-- `MoreWorkData`, by its `info`; also what is passed to the `SendSteal` callback. -/
inductive MoreWorkData (Buffer Value : Type) where
  /-- Assigned roots. -/
  | range (first second : ℕ)
  /-- Stolen roots. -/
  | roots (roots : List ℕ)
  /-- Stolen subtree. -/
  | subtree (nodes : List (Buffer × Value))
  | nothing
deriving DecidableEq

/-! ### What the threads share -/

/-- The variables that all threads share. -/
structure Shared (n : ℕ) (Buffer Value : Type) where
  /-- Global roots. -/
  possibleRoots : List ℕ
  /-- Global nodes. -/
  gnodes : List (Node n Value) := []
  /-- Waiting threads (on internal stealing). -/
  waiting : ℕ := 0
  terminate : Bool := false
  checkingSteal : Bool := false
  /-- `bar_t barrier` -/
  barrier : Barrier.Bar
  /-- `solutions_found_` -/
  solutionsFound : ℕ := 0
  /-- The `thread_local` buffers. -/
  buffers : Fin n → Buffer
  /-- The buffers of nodes that were deserialized. -/
  received : List Buffer := []
  /-- How often `solutions_found_` has been incremented. -/
  solutions : ℕ := 0
  /-- What has been passed to the `MoreWork` callback. -/
  passed : List ℕ := []

/-- The buffer that a node refers to. -/
def Shared.buffer (c : BufferSystem Buffer Value) (sh : Shared n Buffer Value) : Ref n → Buffer
  | .thread t => sh.buffers t
  | .received i => sh.received.getD i c.fresh

/-! ### `ServeSteal` -/

/-- How far a call of `ServeSteal` has come. -/
inductive ServeStage (Buffer Value : Type) where
  /-- Before `checkingSteal.test_and_set()`, if there are callbacks. -/
  | testAndSet
  /-- In the `CheckSteal` callback. -/
  | checkSteal
  /-- Before the first `possibleRoots.size_approx()` of the loop condition, with `rootsToSend`. -/
  | readSize (rootsToSend : List ℕ)
  /-- Before the second one. -/
  | compareSize (rootsToSend : List ℕ)
  /-- Before `possibleRoots.try_dequeue`. -/
  | dequeueRoot (rootsToSend : List ℕ)
  /-- After the loop. -/
  | choose (rootsToSend : List ℕ)
  /-- In the `SendSteal` callback. -/
  | sendSteal (data : MoreWorkData Buffer Value)
  /-- Before `checkingSteal.clear()`. -/
  | clear (offloadedNode : Bool)
deriving DecidableEq

/-- One step of `ServeSteal`; when the call returns, whether it gave the node away. -/
def ServeStage.step (c : BufferSystem Buffer Value) (callbacks : Bool) (pick : ℕ)
    (node : Option (Node n Value)) (sh : Shared n Buffer Value) :
    ServeStage Buffer Value → Option (Shared n Buffer Value × (ServeStage Buffer Value ⊕ Bool))
  | .testAndSet =>
    if callbacks && !sh.checkingSteal then
      some ({ sh with checkingSteal := true }, .inl .checkSteal)
    else some (sh, .inr false)
  | .checkSteal => some (sh, .inl (if pick = 0 then .clear false else .readSize []))
  | .readSize roots =>
    some (sh, .inl (if sh.possibleRoots.length = 0 then .choose roots else .compareSize roots))
  | .compareSize roots =>
    some (sh, .inl (if roots.length < sh.possibleRoots.length then .dequeueRoot roots
      else .choose roots))
  | .dequeueRoot roots =>
    (tryDequeue sh.possibleRoots pick).map fun r =>
      match r with
      | (some i, left) => ({ sh with possibleRoots := left }, .inl (.readSize (roots ++ [i])))
      | (none, left) => ({ sh with possibleRoots := left }, .inl (.readSize roots))
  | .choose roots =>
    if !roots.isEmpty then some (sh, .inl (.sendSteal (.roots roots)))
    else
      match node with
      | some node => some (sh, .inl (.sendSteal (.subtree [(sh.buffer c node.ref, node.value)])))
      | none => some (sh, .inl (.clear false))
  | .sendSteal (.subtree _) => some (sh, .inl (.clear true))
  | .sendSteal _ => some (sh, .inl (.clear false))
  | .clear offloadedNode => some ({ sh with checkingSteal := false }, .inr offloadedNode)

/-! ### The part of the loop that gets more work -/

/-- How far a thread has come between the two barriers. -/
inductive MoreWorkStage (Buffer Value : Type) where
  /-- Before `checkingSteal.test_and_set()`. -/
  | testAndSet
  /-- Before the test of `lnodes.empty()`. -/
  | readLnodes
  /-- Before `possibleRoots.size_approx()`. -/
  | readRoots
  /-- Before `gnodes.size_approx()`. -/
  | readGnodes
  /-- Before the test of `terminate`. -/
  | readTerminate
  /-- In the `MoreWork` callback. -/
  | moreWork
  /-- Before `solutions_found_ = 0`. -/
  | reset (mwd : MoreWorkData Buffer Value)
  /-- In a loop that puts roots into `possibleRoots`. -/
  | enqueueRoots (roots : List ℕ)
  /-- In the loop that puts the deserialized nodes into `gnodes`. -/
  | enqueueNodes (nodes : List (Buffer × Value))
  /-- Before `terminate = true`. -/
  | setTerminate
  /-- Before `checkingSteal.clear()`. -/
  | clear
  /-- Before `--waiting`. -/
  | decWaiting
deriving DecidableEq

/-- One step between the barriers; `none` when the thread comes to the second one. -/
def MoreWorkStage.step (answer : MoreWorkData Buffer Value) (lnodes : List (Node n Value))
    (sh : Shared n Buffer Value) :
    MoreWorkStage Buffer Value → Shared n Buffer Value × Option (MoreWorkStage Buffer Value)
  | .testAndSet =>
    if !sh.checkingSteal then ({ sh with checkingSteal := true }, some .readLnodes)
    else (sh, some .decWaiting)
  | .readLnodes => (sh, some (if lnodes.isEmpty then .readRoots else .clear))
  | .readRoots => (sh, some (if sh.possibleRoots.length = 0 then .readGnodes else .clear))
  | .readGnodes => (sh, some (if sh.gnodes.length = 0 then .readTerminate else .clear))
  | .readTerminate =>
    if !sh.terminate then ({ sh with passed := sh.passed ++ [sh.solutionsFound] }, some .moreWork)
    else (sh, some .clear)
  | .moreWork => (sh, some (.reset answer))
  | .reset mwd =>
    ({ sh with solutionsFound := 0 },
      match mwd with
      | .range first second => some (.enqueueRoots (List.range' first (second - first)))
      | .roots roots => some (.enqueueRoots roots)
      | .subtree nodes => some (.enqueueNodes nodes)
      | .nothing => some .setTerminate)
  | .enqueueRoots [] => (sh, some .clear)
  | .enqueueRoots (i :: roots) =>
    ({ sh with possibleRoots := sh.possibleRoots ++ [i] }, some (.enqueueRoots roots))
  | .enqueueNodes [] => (sh, some .clear)
  | .enqueueNodes ((buffer, value) :: nodes) =>
    ({ sh with
        received := sh.received ++ [buffer]
        gnodes := sh.gnodes ++ [⟨.received sh.received.length, value⟩] },
      some (.enqueueNodes nodes))
  | .setTerminate => ({ sh with terminate := true }, some .clear)
  | .clear => ({ sh with checkingSteal := false }, some .decWaiting)
  | .decWaiting => ({ sh with waiting := sh.waiting - 1 }, none)

/-! ### One thread -/

/-- How far a call of `solution_cb` has come. -/
inductive Stage (Buffer Value : Type) where
  /-- In `ServeSteal`. -/
  | serve (stage : ServeStage Buffer Value)
  /-- Before `gnodes.size_approx() < waiting`. -/
  | start
  /-- `gnodes.size_approx()` has been read. -/
  | gotSize (size : ℕ)
  /-- `waiting` has been read. -/
  | gotWaiting (waiting : ℕ)
  /-- About to put the node into `gnodes`. -/
  | enqueue
  /-- About to keep the node for this thread. -/
  | keep
  /-- About to call `ReportSolution`. -/
  | report

/-- A call in progress. -/
inductive Call (n : ℕ) (Buffer Value : Type) where
  /-- `GetRoot`, with what it has not yet passed to `solution_cb`. -/
  | getRoot (rest : List Value)
  /-- `ListChildren`, with the number of children passed to `solution_cb`. -/
  | listChildren (node : Node n Value) (i : ℕ)
  /-- `solution_cb` -/
  | solutionCb (node : Node n Value) (stage : Stage Buffer Value)

/-- Where in `worker_thread` a thread is. -/
inductive Pc (n : ℕ) (Buffer Value : Type) where
  /-- Before `while (!terminate)`. -/
  | outer
  /-- Before the test of `lnodes.empty()` and `possibleRoots.size_approx()`. -/
  | inner
  /-- In `OpenRoot`, before `possibleRoots.try_dequeue`. -/
  | openRoot
  /-- In `OpenRoot`, before `GetRoot`. -/
  | getRoot (i : ℕ)
  /-- In a call of `GetRoot` or of `ListChildren`, for a node of its own or a stolen one. -/
  | working (stolen : Bool)
  /-- In `ServeSteal(dummyNode, false)`. -/
  | serve (localData : Bool) (stage : ServeStage Buffer Value)
  /-- Before the `++waiting` of the inner loop. -/
  | incWaiting
  /-- Before `gnodes.try_dequeue`. -/
  | dequeue
  /-- Before the test of `terminate` that follows a failed `gnodes.try_dequeue`. -/
  | checkTerminate
  /-- Before the test of `waiting` against `_nthreads`. -/
  | checkWaiting
  /-- Before `--waiting`, with the node taken out of `gnodes` if there is one. -/
  | decWaiting (stolen : Option (Node n Value))
  /-- Before the `++waiting` that precedes the barriers. -/
  | enterMoreWork
  /-- At the first or at the second barrier. -/
  | barrier (second : Bool) (wait : Barrier.Wait)
  /-- Between the barriers. -/
  | moreWork (stage : MoreWorkStage Buffer Value)
  /-- Before the `terminate = true` of a run without callbacks. -/
  | setTerminate
  /-- The thread has returned. -/
  | done
deriving DecidableEq

/-- The variables of one thread. -/
structure Thread (n : ℕ) (Buffer Value : Type) where
  pc : Pc n Buffer Value := .outer
  /-- Local nodes, the back of the vector first. -/
  lnodes : List (Node n Value) := []
  /-- The calls in progress, the innermost first. -/
  calls : List (Call n Buffer Value) := []

namespace Thread

/-- Begin a call of `ListChildren`. -/
def list (node : Node n Value) (th : Thread n Buffer Value) : Thread n Buffer Value :=
  { th with calls := .listChildren node 0 :: th.calls }

/-- What `solution_cb` does after `ServeSteal`. -/
def afterServe : ServeStage Buffer Value ⊕ Bool → Stage Buffer Value
  | .inl stage => .serve stage
  | .inr true => .report
  | .inr false => .start

/-- One step of a call of `solution_cb` that is the innermost one and lies above `calls`. -/
def solutionCb (c : BufferSystem Buffer Value) (callbacks : Bool) (pick : ℕ) (node : Node n Value)
    (calls : List (Call n Buffer Value)) (sh : Shared n Buffer Value) (th : Thread n Buffer Value) :
    Stage Buffer Value → Option (Shared n Buffer Value × Thread n Buffer Value)
  | .serve stage =>
    (stage.step c callbacks pick (some node) sh).map fun r =>
      (r.1, { th with calls := .solutionCb node (afterServe r.2) :: calls })
  | .start =>
    -- the operands of `<` are read in either order
    let stage := if pick = 0 then .gotSize sh.gnodes.length else .gotWaiting sh.waiting
    some (sh, { th with calls := .solutionCb node stage :: calls })
  | .gotSize size =>
    let stage := if size < sh.waiting then .enqueue else .keep
    some (sh, { th with calls := .solutionCb node stage :: calls })
  | .gotWaiting waiting =>
    let stage := if sh.gnodes.length < waiting then .enqueue else .keep
    some (sh, { th with calls := .solutionCb node stage :: calls })
  | .enqueue =>
    some ({ sh with gnodes := sh.gnodes ++ [node] },
      { th with calls := .solutionCb node .report :: calls })
  | .keep =>
    if !c.canUseRecursion then
      some (sh, { th with lnodes := node :: th.lnodes, calls := .solutionCb node .report :: calls })
    else some (sh, list node { th with calls := .solutionCb node .report :: calls })
  | .report =>
    let sh :=
      if c.isSolution (sh.buffer c node.ref) node.value then
        { sh with solutionsFound := sh.solutionsFound + 1, solutions := sh.solutions + 1 }
      else sh
    some (sh, { th with calls := calls })

/-- One step of the innermost call; without one, the inner loop goes on. -/
def work (c : BufferSystem Buffer Value) (callbacks : Bool) (t : Fin n) (pick : ℕ) (stolen : Bool)
    (sh : Shared n Buffer Value) (th : Thread n Buffer Value) :
    Option (Shared n Buffer Value × Thread n Buffer Value) :=
  match th.calls with
  | [] => some (sh, { th with pc := if stolen then .inner else .serve true .testAndSet })
  | .getRoot [] :: calls => some (sh, { th with calls := calls })
  | .getRoot (value :: rest) :: calls =>
    some (sh, { th with
      calls := .solutionCb ⟨.thread t, value⟩ (.serve .testAndSet) :: .getRoot rest :: calls })
  | .listChildren node i :: calls =>
    match (c.listChildren (sh.buffer c node.ref) node.value)[i]? with
    | none => some (sh, { th with calls := calls })
    | some value =>
      some (sh, { th with
        calls := .solutionCb ⟨node.ref, value⟩ (.serve .testAndSet) ::
          .listChildren node (i + 1) :: calls })
  | .solutionCb node stage :: calls => solutionCb c callbacks pick node calls sh th stage

/-- One step of `worker_thread`. -/
def step (c : BufferSystem Buffer Value) (callbacks : Bool) (t : Fin n) (pick : ℕ)
    (answer : MoreWorkData Buffer Value) (sh : Shared n Buffer Value)
    (th : Thread n Buffer Value) : Option (Shared n Buffer Value × Thread n Buffer Value) :=
  match th.pc with
  | .outer => some (sh, { th with pc := if !sh.terminate then .inner else .done })
  | .inner =>
    match th.lnodes with
    | node :: lnodes => some (sh, list node { th with pc := .working false, lnodes := lnodes })
    | [] => some (sh, { th with pc := if sh.possibleRoots.length = 0 then .serve false .testAndSet
                                      else .openRoot })
  | .openRoot =>
    (tryDequeue sh.possibleRoots pick).map fun r =>
      match r with
      | (some i, roots) => ({ sh with possibleRoots := roots }, { th with pc := .getRoot i })
      | (none, roots) =>
        ({ sh with possibleRoots := roots }, { th with pc := .serve false .testAndSet })
  | .getRoot i =>
    let r := c.getRoot i (sh.buffers t)
    some ({ sh with buffers := Function.update sh.buffers t r.1 },
      { th with pc := .working false, calls := .getRoot r.2 :: th.calls })
  | .working stolen => work c callbacks t pick stolen sh th
  | .serve localData stage =>
    (stage.step c callbacks pick none sh).map fun r =>
      match r.2 with
      | .inl stage => (r.1, { th with pc := .serve localData stage })
      | .inr _ => (r.1, { th with pc := if localData then .inner else .incWaiting })
  | .incWaiting => some ({ sh with waiting := sh.waiting + 1 }, { th with pc := .dequeue })
  | .dequeue =>
    (tryDequeue sh.gnodes pick).map fun r =>
      match r with
      | (some node, gnodes) =>
        ({ sh with gnodes := gnodes }, { th with pc := .decWaiting (some node) })
      | (none, gnodes) => ({ sh with gnodes := gnodes }, { th with pc := .checkTerminate })
  | .checkTerminate =>
    some (sh, { th with pc := if !sh.terminate then .checkWaiting else .decWaiting none })
  | .checkWaiting =>
    some (sh, { th with pc := if sh.waiting < n then .dequeue else .decWaiting none })
  | .decWaiting (some node) =>
    some ({ sh with waiting := sh.waiting - 1 }, list node { th with pc := .working true })
  | .decWaiting none =>
    some ({ sh with waiting := sh.waiting - 1 },
      { th with pc := if callbacks then .enterMoreWork else .setTerminate })
  | .enterMoreWork =>
    some ({ sh with waiting := sh.waiting + 1 }, { th with pc := .barrier false .start })
  | .barrier second wait =>
    let r := wait.step sh.barrier
    let pc :=
      match r.2 with
      | some wait => .barrier second wait
      | none => if second then .outer else .moreWork .testAndSet
    some ({ sh with barrier := r.1 }, { th with pc := pc })
  | .moreWork stage =>
    let r := stage.step answer th.lnodes sh
    let pc :=
      match r.2 with
      | some stage => .moreWork stage
      | none => .barrier true .start
    some (r.1, { th with pc := pc })
  | .setTerminate => some ({ sh with terminate := true }, { th with pc := .outer })
  | .done => none

end Thread

/-! ### All threads -/

/-- The state of a run with `n` threads. -/
structure State (n : ℕ) (Buffer Value : Type) where
  shared : Shared n Buffer Value
  threads : Fin n → Thread n Buffer Value

/-- Which thread takes the next step, and how the step resolves what the source leaves open. -/
structure Action (n : ℕ) (Buffer Value : Type) where
  thread : Fin n
  /-- The element that a queue gives, the operand that is read first, or whether the `CheckSteal`
  callback answers `true`. -/
  pick : ℕ
  /-- What the `MoreWork` callback returns. -/
  answer : MoreWorkData Buffer Value

/-- One step of one thread. -/
def step (c : BufferSystem Buffer Value) (callbacks : Bool) (s : State n Buffer Value)
    (a : Action n Buffer Value) : Option (State n Buffer Value) :=
  (Thread.step c callbacks a.thread a.pick a.answer s.shared (s.threads a.thread)).map fun r =>
    { shared := r.1, threads := Function.update s.threads a.thread r.2 }

/-- `_maxRootId` after `RunInternal` has replaced zero by `MaxRoots()`. -/
def lastRootId (c : BufferSystem Buffer Value) (maxRootId : ℕ) : ℕ :=
  if maxRootId = 0 then c.maxRoots else maxRootId

/-- The state in which the threads start. -/
def init (c : BufferSystem Buffer Value) (n minRootId maxRootId : ℕ) : State n Buffer Value where
  shared :=
    { possibleRoots := List.range' minRootId (lastRootId c maxRootId - minRootId)
      barrier := { count := n, spaces := n, generation := 0 }
      buffers := fun _ => c.fresh }
  threads _ := {}

end ParallelEnum.ParallelPthreadsSteal.Callbacks
