import Mathlib.Data.Fintype.Basic
import Mathlib.Data.List.FinRange
import ParallelEnum.Enumerator.ParallelPthreadsSteal

/-!
# `DistributedMPI`: a master that hands out roots, and workers that steal

The dynamic mode of `enumerator/distributed_mpi.hpp`: one master and `W` workers that exchange
messages over point-to-point channels.  A channel is a list, the message to be received next
first; sends are buffered and never block.

A worker is what the master can see of the process: the roots and subtrees that its threads still
hold (`work`), which they expand, may split off for a stealer, and ask for when they have run out.

`Master::WaitRangeRequest` and the `MoreWork` lambda of `Worker::Run` follow the source receive by
receive; what a party sends after a receive is sent in the same step.  Assertions are not
checked.  A message that the source answers with an exception leaves its receiver without a step.
-/

namespace ParallelEnum.DistributedMpi

open ParallelPthreadsSteal (FiniteSystem rootIds)

variable {Node : Type} {W : ℕ}

/-- What a worker looks like to the master. -/
inductive WorkerState where
  /-- Normal execution, searching for roots. -/
  | roots
  /-- Roots terminated, waiting for a subtree. -/
  | stealWait
  /-- Roots terminated, processing a subtree. -/
  | stealProcessing
deriving DecidableEq

inductive MoreWorkInfo where
  /-- Assigned roots. -/
  | range
  /-- Stolen roots. -/
  | roots
  /-- Stolen subtree. -/
  | subtree
  | nothing
deriving DecidableEq

/-- A piece of work: a root to be opened, or a node that has been reported and whose children are
to be listed. -/
inductive Work (Node : Type) where
  | root (i : ℕ)
  | subtree (node : Node)
deriving DecidableEq

/-! ### Messages -/

/-- The messages that a worker sends. -/
inductive ToMaster (Node : Type) where
  /-- `MPI_MESSAGE_RANGE_REQUEST`, with the count of solutions found. -/
  | rangeRequest (count : ℕ)
  /-- `MPI_MESSAGE_STEAL_RESPONSE_LEN_ROOTS` or `MPI_MESSAGE_STEAL_RESPONSE_LEN_SUBTREE`. -/
  | stealResponseLen (areRoots : Bool)
  /-- The serialized roots or subtree that follow. -/
  | data (items : List (Work Node))
deriving DecidableEq

/-- The messages that the master sends. -/
inductive ToWorker (Node : Type) where
  /-- `MPI_MESSAGE_RANGE_RESPONSE` -/
  | rangeResponse (rangeBegin rangeEnd : ℕ)
  /-- `MPI_MESSAGE_STEAL_REQUEST` -/
  | stealRequest
  /-- `MPI_MESSAGE_STEAL_RESPONSE_LEN_ROOTS` or `MPI_MESSAGE_STEAL_RESPONSE_LEN_SUBTREE`. -/
  | stealResponseLen (areRoots : Bool)
  /-- The serialized roots or subtree that follow. -/
  | data (items : List (Work Node))
  /-- `MPI_MESSAGE_TERMINATION` -/
  | termination
deriving DecidableEq

/-! ### `Worker` -/

/-- Where a worker is. -/
inductive Worker.Pc where
  /-- In `MoreWork`, before `MPI_Send(req, 2, ..)`. -/
  | send (count : ℕ)
  /-- In `MoreWork`, before `MPI_Recv(response, 3, ..)`. -/
  | recv
  /-- In `MoreWork`, before `MPI_Recv(subtree, ..)`. -/
  | recvData (areRoots : Bool)
  /-- In `ParallelPthreadsSteal::Run`. -/
  | running
  /-- `Run` has returned. -/
  | done
deriving DecidableEq

structure Worker (Node : Type) where
  pc : Worker.Pc := .send 0
  /-- The roots and subtrees that this process still has to expand. -/
  work : List (Work Node) := []
  /-- `solutions_found_` -/
  solutionsFound : ℕ := 0
  /-- `mwd.info` of the first call of `MoreWork`, once it has returned. -/
  firstInfo : Option MoreWorkInfo := none
  /-- Whether `MPI_MESSAGE_TERMINATION` has been received. -/
  terminated : Bool := false
  /-- The roots opened here. -/
  opened : List ℕ := []
  /-- The nodes whose children were listed here. -/
  listed : List Node := []
  /-- The nodes reported here. -/
  reported : List Node := []
  /-- The roots and subtrees split off here, one list a steal. -/
  split : List (List (Work Node)) := []
  /-- The roots and subtrees received here from a steal. -/
  received : List (List (Work Node)) := []

/-- What the process does next.  `garbage` is what `mwd.range` holds if it has not been set. -/
inductive WorkerAction (Node : Type) where
  | send
  | receive (garbage : ℕ × ℕ)
  /-- Expand one piece of work and keep the others. -/
  | expand (item : Work Node) (kept : List (Work Node))
  /-- Answer a steal request with some roots. -/
  | splitRoots (roots : List ℕ) (kept : List (Work Node))
  /-- Answer a steal request with one subtree. -/
  | splitSubtree (node : Node) (kept : List (Work Node))
  /-- Call `MoreWork`. -/
  | request

namespace Worker

/-- `MoreWork` returns.  The first call is that of `Worker::Run`, which asserts that it has
received a range and starts the threads on `mwd.range`; the later calls are those of the threads. -/
def moreWork (c : FiniteSystem Node) (garbage : ℕ × ℕ) (info : MoreWorkInfo)
    (items : List (Work Node)) (w : Worker Node) : Worker Node :=
  match w.firstInfo with
  | none =>
    let roots := rootIds c garbage.1 garbage.2
    { w with
      pc := .running
      firstInfo := some info
      -- only a range sets `mwd.range`, and only `mwd.range` is read
      work := if info = .range then items else roots.map .root }
  | some _ =>
    match info with
    | .nothing => { w with pc := .done }
    | _ => { w with pc := .running, work := w.work ++ items }

/-- The roots of a range: the constructor of `ParallelPthreadsSteal` gets the first range, the
threads enqueue the later ones. -/
def rangeItems (c : FiniteSystem Node) (w : Worker Node) (rangeBegin rangeEnd : ℕ) :
    List (Work Node) :=
  match w.firstInfo with
  | none => (rootIds c rangeBegin rangeEnd).map .root
  | some _ => (List.range' rangeBegin (rangeEnd - rangeBegin)).map .root

/-- A receive in `MoreWork`. -/
def receive (c : FiniteSystem Node) (garbage : ℕ × ℕ) (msg : ToWorker Node) (w : Worker Node) :
    Option (Worker Node) :=
  match w.pc, msg with
  | .recv, .stealRequest => some { w with pc := .send 0 }
  | .recv, .stealResponseLen areRoots => some { w with pc := .recvData areRoots }
  | .recv, .rangeResponse rangeBegin rangeEnd =>
    some (w.moreWork c garbage .range (w.rangeItems c rangeBegin rangeEnd))
  | .recv, .termination => some ({ w with terminated := true }.moreWork c garbage .nothing [])
  | .recvData areRoots, .data items =>
    some ({ w with received := w.received ++ [items] }.moreWork c garbage
      (if areRoots then .roots else .subtree) items)
  | _, _ => none

/-- Report the nodes that `GetRoot` or `ListChildren` has found, and keep them. -/
def found (isSolution : Node → Bool) (nodes : List Node) (w : Worker Node) : Worker Node :=
  { w with
    work := w.work ++ nodes.map .subtree
    solutionsFound := w.solutionsFound + nodes.countP isSolution
    reported := w.reported ++ nodes }

/-- Open a root, or list the children of a node. -/
def expand (c : FiniteSystem Node) (isSolution : Node → Bool) (item : Work Node)
    (kept : List (Work Node)) (w : Worker Node) : Worker Node :=
  match item with
  | .root i =>
    { w with work := kept, opened := w.opened ++ [i] }.found isSolution (c.getRoot i)
  | .subtree node =>
    { w with work := kept, listed := w.listed ++ [node] }.found isSolution (c.listChildren node)

/-- `SendSteal` -/
def sendSteal (areRoots : Bool) (items kept : List (Work Node)) (w : Worker Node)
    (toMaster : List (ToMaster Node)) (toWorker : List (ToWorker Node)) :
    Option (Worker Node × List (ToMaster Node) × List (ToWorker Node)) :=
  match toWorker with
  | .stealRequest :: rest =>
    some ({ w with work := kept, split := w.split ++ [items] },
      toMaster ++ [.stealResponseLen areRoots, .data items], rest)
  | _ => none

/-- One step of a worker, on the worker and its two channels. -/
def step [DecidableEq Node] (c : FiniteSystem Node) (isSolution : Node → Bool)
    (a : WorkerAction Node) (w : Worker Node) (toMaster : List (ToMaster Node))
    (toWorker : List (ToWorker Node)) :
    Option (Worker Node × List (ToMaster Node) × List (ToWorker Node)) :=
  match a with
  | .send =>
    match w.pc with
    | .send count => some ({ w with pc := .recv }, toMaster ++ [.rangeRequest count], toWorker)
    | _ => none
  | .receive garbage =>
    match toWorker with
    | [] => none
    | msg :: rest => (w.receive c garbage msg).map fun w => (w, toMaster, rest)
  | .expand item kept =>
    if w.pc = .running ∧ w.work.Perm (item :: kept) then
      some (w.expand c isSolution item kept, toMaster, toWorker)
    else none
  | .splitRoots roots kept =>
    if w.pc = .running ∧ roots ≠ [] ∧ w.work.Perm (roots.map .root ++ kept) then
      w.sendSteal true (roots.map .root) kept toMaster toWorker
    else none
  | .splitSubtree node kept =>
    if w.pc = .running ∧ w.work.Perm (.subtree node :: kept) then
      w.sendSteal false [.subtree node] kept toMaster toWorker
    else none
  | .request =>
    if w.pc = .running ∧ w.work = [] then
      some ({ w with pc := .send w.solutionsFound, solutionsFound := 0 }, toMaster, toWorker)
    else none

end Worker

/-! ### `Master` -/

/-- Where the master is. -/
inductive Master.Pc (W : ℕ) where
  /-- In `WaitRangeRequest`, before the receive from `MPI_ANY_SOURCE`. -/
  | wait (rangeBegin rangeEnd : ℕ)
  /-- In `WaitRangeRequest`, before the receive of the answer of the victim. -/
  | steal (stealer victim : Fin W)
  /-- In `WaitRangeRequest`, before the receive of the serialized data of the victim. -/
  | data (stealer victim : Fin W) (areRoots : Bool)
  /-- `Run` has returned, after a request of `stealer`. -/
  | done (stealer : Fin W)
deriving DecidableEq

structure Master (W : ℕ) where
  pc : Master.Pc W
  rootsPerNode : ℕ
  nextRangeStart : ℕ
  /-- Whether `Run` is in its first loop, which hands out the ranges. -/
  inRangeLoop : Bool
  workersStates : Fin W → WorkerState
  lastRequest : Fin W → ℕ
  lastStealVictim : Fin W
  solutionsCount : ℕ

/-- `_rootsPerNode` after the check that `Run` begins with. -/
def clampRootsPerNode (maxRoots numWorkers rootsPerNode : ℕ) : ℕ :=
  if maxRoots / numWorkers < rootsPerNode then maxRoots / numWorkers else rootsPerNode

/-- The next range, `nextRangeStart` and `rangeEnd` (`INVERTED_SCHEDULING`). -/
def nextRange (rootsPerNode nextRangeStart : ℕ) : ℕ × ℕ :=
  if rootsPerNode ≤ nextRangeStart then
    (nextRangeStart - rootsPerNode, nextRangeStart - rootsPerNode + rootsPerNode)
  else (0, nextRangeStart)

/-- The ranges that `while (nextRangeStart > 0)` passes to `WaitRangeRequest`, whose result it
ignores; `none` is a loop that the fuel does not bring to its end. -/
def rangeLoop (rootsPerNode : ℕ) : ℕ → ℕ → Option (List (ℕ × ℕ))
  | 0, _ => none
  | fuel + 1, nextRangeStart =>
    if 0 < nextRangeStart then
      let range := nextRange rootsPerNode nextRangeStart
      (rangeLoop rootsPerNode fuel range.1).map (range :: ·)
    else some []

namespace Master

def terminated (m : Master W) : Bool :=
  (List.finRange W).all fun i => m.workersStates i = .stealWait

/-- `GetStealVictim` -/
def getStealVictim [NeZero W] (m : Master W) : Fin W :=
  let scan := (List.finRange W).foldl
    (fun (r : Option ℕ × Fin W) i =>
      if i ≠ m.lastStealVictim ∧ r.1.all (fun minimum => m.lastRequest i < minimum) ∧
          m.workersStates i ≠ .stealWait then
        (some (m.lastRequest i), i)
      else r)
    (none, 0)
  scan.2

/-- The next call of `WaitRangeRequest` that the first loop of `Run` makes, or the first call
after it. -/
def nextCall (maxRoots : ℕ) (m : Master W) : Master W :=
  if 0 < m.nextRangeStart then
    let range := nextRange m.rootsPerNode m.nextRangeStart
    { m with nextRangeStart := range.1, pc := .wait range.1 range.2 }
  else
    { m with inRangeLoop := false, pc := .wait maxRoots 0 }

/-- `WaitRangeRequest` has returned, after a request of `stealer`. -/
def returned (maxRoots : ℕ) (stealer : Fin W) (result : Bool) (m : Master W) : Master W :=
  if m.inRangeLoop then m.nextCall maxRoots
  else { m with pc := if !result then .wait maxRoots 0 else .done stealer }

/-- `_workersStates.at(i) = state` -/
def setState (i : Fin W) (state : WorkerState) (m : Master W) : Master W :=
  { m with workersStates := Function.update m.workersStates i state }

/-- `_lastRequest.at(i) = now` and `_solutionsCount += count` -/
def addRequest (i : Fin W) (now count : ℕ) (m : Master W) : Master W :=
  { m with
    lastRequest := Function.update m.lastRequest i now
    solutionsCount := m.solutionsCount + count }

end Master

/-! ### All parties -/

structure State (Node : Type) (W : ℕ) where
  master : Master W
  workers : Fin W → Worker Node
  /-- The channel from each worker to the master. -/
  toMaster : Fin W → List (ToMaster Node)
  /-- The channel from the master to each worker. -/
  toWorker : Fin W → List (ToWorker Node)
  /-- The ranges sent to each worker. -/
  given : Fin W → List (ℕ × ℕ)

namespace State

/-- Receive the first message of worker `i`, before the messages `rest`. -/
def recvFrom (i : Fin W) (rest : List (ToMaster Node)) (s : State Node W) : State Node W :=
  { s with toMaster := Function.update s.toMaster i rest }

/-- Send messages to worker `i`. -/
def sendTo (i : Fin W) (msgs : List (ToWorker Node)) (s : State Node W) : State Node W :=
  { s with toWorker := Function.update s.toWorker i (s.toWorker i ++ msgs) }

def mapMaster (f : Master W → Master W) (s : State Node W) : State Node W :=
  { s with master := f s.master }

/-- `MPI_MESSAGE_TERMINATION` to every worker. -/
def broadcastTermination (s : State Node W) : State Node W :=
  { s with toWorker := fun i => s.toWorker i ++ [.termination] }

/-- The end of `WaitRangeRequest`, after its `while` loop. -/
def leaveSteal (maxRoots : ℕ) (stealer : Fin W) (s : State Node W) : State Node W :=
  if s.master.terminated then
    s.broadcastTermination.mapMaster (·.returned maxRoots stealer true)
  else s.mapMaster (·.returned maxRoots stealer false)

/-- `while (!somethingSent && !terminated())`, as long as nothing has been sent: take something
from the next victim. -/
def stealFromNext [NeZero W] (maxRoots : ℕ) (stealer : Fin W) (s : State Node W) :
    State Node W :=
  if !s.master.terminated then
    let victim := s.master.getStealVictim
    (s.sendTo victim [.stealRequest]).mapMaster fun m =>
      { m with lastStealVictim := victim, pc := .steal stealer victim }
  else s.leaveSteal maxRoots stealer

/-- One receive of the master, of a message of worker `i` where the source is not fixed. -/
def masterStep [NeZero W] (c : FiniteSystem Node) (i : Fin W) (now : ℕ) (s : State Node W) :
    Option (State Node W) :=
  match s.master.pc with
  | .wait rangeBegin rangeEnd =>
    match s.toMaster i with
    | .rangeRequest count :: rest =>
      let s := (s.recvFrom i rest).mapMaster (·.addRequest i now count)
      if rangeBegin ≠ c.maxRoots then
        let s := s.sendTo i [.rangeResponse rangeBegin rangeEnd]
        some { s.mapMaster (·.returned c.maxRoots i false) with
          given := Function.update s.given i (s.given i ++ [(rangeBegin, rangeEnd)]) }
      else
        some ((s.mapMaster (·.setState i .stealWait)).stealFromNext c.maxRoots i)
    | _ => none
  | .steal stealer victim =>
    match s.toMaster victim with
    | .stealResponseLen areRoots :: rest =>
      some ((s.recvFrom victim rest).mapMaster ({ · with pc := .data stealer victim areRoots }))
    | .rangeRequest count :: rest =>
      -- the victim needs some data itself
      some (((s.recvFrom victim rest).mapMaster fun m =>
        (m.addRequest victim now count).setState victim .stealWait).stealFromNext
          c.maxRoots stealer)
    | _ => none
  | .data stealer victim areRoots =>
    match s.toMaster victim with
    | .data items :: rest =>
      some ((((s.recvFrom victim rest).sendTo stealer
        [.stealResponseLen areRoots, .data items]).mapMaster
          (·.setState stealer .stealProcessing)).leaveSteal c.maxRoots stealer)
    | _ => none
  | .done _ => none

end State

/-- The next step of the system. -/
inductive Action (Node : Type) (W : ℕ) where
  /-- The master receives at time `now`; where any source will do, from worker `i`. -/
  | master (i : Fin W) (now : ℕ)
  | worker (i : Fin W) (a : WorkerAction Node)

def step [DecidableEq Node] [NeZero W] (c : FiniteSystem Node) (isSolution : Node → Bool)
    (s : State Node W) : Action Node W → Option (State Node W)
  | .master i now => s.masterStep c i now
  | .worker i a =>
    ((s.workers i).step c isSolution a (s.toMaster i) (s.toWorker i)).map fun r =>
      { s with
        workers := Function.update s.workers i r.1
        toMaster := Function.update s.toMaster i r.2.1
        toWorker := Function.update s.toWorker i r.2.2 }

/-- The state in which `Master::Run` and `Worker::Run` make their first calls. -/
def init [NeZero W] (c : FiniteSystem Node) (rootsPerNode : ℕ) : State Node W where
  master := Master.nextCall c.maxRoots
    { pc := .wait 0 0
      rootsPerNode := clampRootsPerNode c.maxRoots W rootsPerNode
      nextRangeStart := c.maxRoots
      inRangeLoop := true
      workersStates := fun _ => .roots
      lastRequest := fun _ => 0
      lastStealVictim := 0
      solutionsCount := 0 }
  workers _ := {}
  toMaster _ := []
  toWorker _ := []
  given _ := []

end ParallelEnum.DistributedMpi
