import ParallelEnum.Enumerator.DistributedMpi
import ParallelEnum.Enumerator.ParallelPthreadsSteal.Callbacks

/-!
# `DistributedMPI` with the threads of its workers

The dynamic mode of `enumerator/distributed_mpi.hpp` down to the steps of the threads: a worker
process executes `Worker::Run`, whose `ParallelPthreadsSteal` object has `nthreads` threads that
call the lambdas `mr`, `cs` and `ss` back.

The master and the channels are those of `DistributedMpi`.  A step of a process is a step of one of
its threads, or a send or a receive in `MoreWork`.  The queues of a process are linearizable, with
an exact `size_approx`.
-/

namespace ParallelEnum.DistributedMpi.Threads

open ParallelPthreadsSteal (FiniteSystem)
open ParallelPthreadsSteal.Callbacks (BufferSystem MoreWorkData ServeStage Thread ofFiniteSystem)

variable {Value : Type} {W nthreads : ℕ}

/-- The system of a process, with its solutions. -/
def systemOf (c : FiniteSystem Value) (isSolution : Value → Bool) : BufferSystem Unit Value :=
  { ofFiniteSystem c with isSolution := fun _ value => isSolution value }

/-- The threads of a process, and what they share. -/
abbrev Group (nthreads : ℕ) (Value : Type) :=
  ParallelPthreadsSteal.Callbacks.State nthreads Unit Value

namespace Group

/-- The state in which the threads start on a range. -/
abbrev init (c : FiniteSystem Value) (isSolution : Value → Bool)
    (nthreads minRootId maxRootId : ℕ) : Group nthreads Value :=
  ParallelPthreadsSteal.Callbacks.init (systemOf c isSolution) nthreads minRootId maxRootId

/-- One step of thread `t`, which gets `mwd` if it returns from `MoreWork`. -/
abbrev step (c : FiniteSystem Value) (isSolution : Value → Bool) (t : Fin nthreads) (pick : ℕ)
    (mwd : MoreWorkData Unit Value) (s : Group nthreads Value) : Option (Group nthreads Value) :=
  ParallelPthreadsSteal.Callbacks.step (systemOf c isSolution) true s ⟨t, pick, mwd⟩

end Group

/-! ### What the threads call -/

/-- A call that leaves `ParallelPthreadsSteal`. -/
inductive Callback (Value : Type) where
  /-- `mr` -/
  | moreWork
  /-- `cs` -/
  | checkSteal
  /-- `ss` -/
  | sendSteal (data : MoreWorkData Unit Value)
  | reportSolution (value : Value)

/-- The callback that `ServeSteal` is about to make. -/
def serveCallback : ServeStage Unit Value → Option (Callback Value)
  | .checkSteal => some .checkSteal
  | .sendSteal data => some (.sendSteal data)
  | _ => none

/-- The callback that a thread is about to make, or is in. -/
def callback (th : Thread nthreads Unit Value) : Option (Callback Value) :=
  match th.pc with
  | .serve _ stage => serveCallback stage
  | .working _ =>
    match th.calls with
    | .solutionCb _ (.serve stage) :: _ => serveCallback stage
    | .solutionCb node .report :: _ => some (.reportSolution node.value)
    | _ => none
  | .moreWork .moreWork => some .moreWork
  | _ => none

/-- The serialized data, and whether they are roots. -/
def serialize : MoreWorkData Unit Value → Bool × List (Work Value)
  | .roots roots => (true, roots.map .root)
  | .subtree nodes => (false, nodes.map fun node => .subtree node.2)
  | .range first second => (true, (List.range' first (second - first)).map .root)
  | .nothing => (false, [])

def rootOf : Work Value → Option ℕ
  | .root i => some i
  | .subtree _ => none

def nodeOf : Work Value → Option (Unit × Value)
  | .root _ => none
  | .subtree node => some ((), node)

/-- The data as `MoreWork` returns them; `none` if they are not of the kind announced. -/
def deserialize (areRoots : Bool) (items : List (Work Value)) : Option (MoreWorkData Unit Value) :=
  if areRoots then (items.mapM rootOf).map .roots else (items.mapM nodeOf).map .subtree

/-! ### `Worker` -/

/-- A worker process. -/
structure Process (nthreads : ℕ) (Value : Type) where
  /-- Where `MoreWork` is; `running` when it is not being executed, `done` when it has returned
  `MORE_WORK_NOTHING`. -/
  pc : Worker.Pc := .send 0
  /-- `mwd.info` of the first call of `MoreWork`, once it has returned. -/
  firstInfo : Option MoreWorkInfo := none
  /-- The threads, once they have been started. -/
  threads : Option (Group nthreads Value) := none
  /-- The nodes `ReportSolution` was called for. -/
  reported : List Value := []

def infoOf : MoreWorkData Unit Value → MoreWorkInfo
  | .range _ _ => .range
  | .roots _ => .roots
  | .subtree _ => .subtree
  | .nothing => .nothing

/-- `mwd.range`, which only a range sets. -/
def rangeOf (garbage : ℕ × ℕ) : MoreWorkData Unit Value → ℕ × ℕ
  | .range first second => (first, second)
  | _ => garbage

namespace Process

/-- `MoreWork` returns: the first call to `Worker::Run`, which starts the threads on `mwd.range`,
the later ones to the thread `t` that has made the call. -/
def moreWork (c : FiniteSystem Value) (isSolution : Value → Bool) (garbage : ℕ × ℕ)
    (t : Fin nthreads) (mwd : MoreWorkData Unit Value) (p : Process nthreads Value) :
    Option (Process nthreads Value) :=
  match p.threads with
  | none =>
    some { p with
      pc := .running
      firstInfo := some (infoOf mwd)
      threads := some (Group.init c isSolution nthreads (rangeOf garbage mwd).1
        (rangeOf garbage mwd).2) }
  | some s =>
    match callback (s.threads t) with
    | some .moreWork =>
      (Group.step c isSolution t 0 mwd s).map fun s =>
        { p with pc := if infoOf mwd = .nothing then .done else .running, threads := some s }
    | _ => none

/-- A receive in `MoreWork`. -/
def receive (c : FiniteSystem Value) (isSolution : Value → Bool) (garbage : ℕ × ℕ)
    (t : Fin nthreads) (msg : ToWorker Value) (p : Process nthreads Value) :
    Option (Process nthreads Value) :=
  match p.pc, msg with
  | .recv, .stealRequest => some { p with pc := .send 0 }
  | .recv, .stealResponseLen areRoots => some { p with pc := .recvData areRoots }
  | .recv, .rangeResponse rangeBegin rangeEnd =>
    p.moreWork c isSolution garbage t (.range rangeBegin rangeEnd)
  | .recv, .termination => p.moreWork c isSolution garbage t .nothing
  | .recvData areRoots, .data items =>
    (deserialize areRoots items).bind fun mwd => p.moreWork c isSolution garbage t mwd
  | _, _ => none

/-- One step of the thread `t`, whose callback is not `MoreWork`.  A thread that invokes `MoreWork`
passes `solutions_found_` on. -/
def run (c : FiniteSystem Value) (isSolution : Value → Bool) (t : Fin nthreads) (pick : ℕ)
    (s : Group nthreads Value) (p : Process nthreads Value) :
    Option (Process nthreads Value) :=
  (Group.step c isSolution t pick .nothing s).map fun s' =>
    match callback (s'.threads t) with
    | some .moreWork => { p with pc := .send s.shared.solutionsFound, threads := some s' }
    | _ => { p with threads := some s' }

/-- A step of a process, on the process and its two channels. -/
structure Result (nthreads : ℕ) (Value : Type) where
  process : Process nthreads Value
  toMaster : List (ToMaster Value)
  toWorker : List (ToWorker Value)

/-- One step of one thread. -/
def threadStep (c : FiniteSystem Value) (isSolution : Value → Bool) (t : Fin nthreads) (pick : ℕ)
    (p : Process nthreads Value) (toMaster : List (ToMaster Value))
    (toWorker : List (ToWorker Value)) : Option (Result nthreads Value) :=
  match p.threads with
  | none => none
  | some s =>
    match callback (s.threads t) with
    | none => (p.run c isSolution t pick s).map fun p => ⟨p, toMaster, toWorker⟩
    | some (.reportSolution value) =>
      (p.run c isSolution t pick s).map fun p =>
        ⟨{ p with reported := p.reported ++ [value] }, toMaster, toWorker⟩
    | some .checkSteal =>
      -- `MPI_Iprobe` finds a message only if there is one
      if pick ≠ 0 ∧ toWorker = [] then none
      else (p.run c isSolution t pick s).map fun p => ⟨p, toMaster, toWorker⟩
    | some (.sendSteal data) =>
      match toWorker with
      | .stealRequest :: rest =>
        (p.run c isSolution t pick s).map fun p =>
          ⟨p, toMaster ++ [.stealResponseLen (serialize data).1, .data (serialize data).2], rest⟩
      | _ => none
    | some .moreWork => none

end Process

/-! ### All parties -/

structure State (nthreads : ℕ) (Value : Type) (W : ℕ) where
  master : Master W
  processes : Fin W → Process nthreads Value
  /-- The channel from each worker to the master. -/
  toMaster : Fin W → List (ToMaster Value)
  /-- The channel from the master to each worker. -/
  toWorker : Fin W → List (ToWorker Value)
  /-- The ranges sent to each worker. -/
  given : Fin W → List (ℕ × ℕ)

/-- The next step of the system. -/
inductive Action (nthreads W : ℕ) where
  /-- The master receives at time `now`; where any source will do, from worker `i`. -/
  | master (i : Fin W) (now : ℕ)
  /-- `MPI_Send(req, 2, ..)` in `MoreWork`. -/
  | send (i : Fin W)
  /-- A receive in `MoreWork`, called by thread `t` unless it is the first call.  `garbage` is what
  `mwd.range` holds if it has not been set. -/
  | receive (i : Fin W) (garbage : ℕ × ℕ) (t : Fin nthreads)
  /-- A step of thread `t`. -/
  | thread (i : Fin W) (t : Fin nthreads) (pick : ℕ)

namespace State

/-- The master and the channels, which are all that the master sees; its steps do not look at the
workers. -/
def net (s : State nthreads Value W) (workers : Fin W → Worker Value) :
    DistributedMpi.State Value W where
  master := s.master
  workers := workers
  toMaster := s.toMaster
  toWorker := s.toWorker
  given := s.given

/-- Process `i` has taken a step. -/
def setProcess (i : Fin W) (r : Process.Result nthreads Value) (s : State nthreads Value W) :
    State nthreads Value W :=
  { s with
    processes := Function.update s.processes i r.process
    toMaster := Function.update s.toMaster i r.toMaster
    toWorker := Function.update s.toWorker i r.toWorker }

end State

def step [NeZero W] (c : FiniteSystem Value) (isSolution : Value → Bool)
    (s : State nthreads Value W) : Action nthreads W → Option (State nthreads Value W)
  | .master i now =>
    ((s.net fun _ => {}).masterStep c i now).map fun r =>
      { s with
        master := r.master
        toMaster := r.toMaster
        toWorker := r.toWorker
        given := r.given }
  | .send i =>
    match (s.processes i).pc with
    | .send count =>
      some (s.setProcess i ⟨{ s.processes i with pc := .recv },
        s.toMaster i ++ [.rangeRequest count], s.toWorker i⟩)
    | _ => none
  | .receive i garbage t =>
    match s.toWorker i with
    | [] => none
    | msg :: rest =>
      ((s.processes i).receive c isSolution garbage t msg).map fun p =>
        s.setProcess i ⟨p, s.toMaster i, rest⟩
  | .thread i t pick =>
    ((s.processes i).threadStep c isSolution t pick (s.toMaster i) (s.toWorker i)).map fun r =>
      s.setProcess i r

/-- The state in which `Master::Run` and `Worker::Run` make their first calls. -/
def init [NeZero W] (c : FiniteSystem Value) (nthreads rootsPerNode : ℕ) :
    State nthreads Value W where
  master := (DistributedMpi.init c rootsPerNode : DistributedMpi.State Value W).master
  processes _ := {}
  toMaster _ := []
  toWorker _ := []
  given _ := []

end ParallelEnum.DistributedMpi.Threads
