import ParallelEnum.Theory.Transition

/-!
# `ConcurrentQueue`: what one producer puts in, and many threads take out

The queue of one producer (`ExplicitProducer` of `util/concurrentqueue.hpp`) with its four counters.
Every operation on an atomic variable is one step, and so are the construction of an element and
its removal.  The blocks that hold the elements are one array without end, indexed by `index_t`;
the counters are natural numbers, on which `circular_less_than` is `<`.  This is the queue as long
as its counters do not wrap and a block can be had for every element; `Wrapping` has the counters of
the source.

A step of `Dequeue` is `none` if the source has no meaning for it: the assertion fails, or no
object stands where one is moved from.
-/

namespace ParallelEnum.ConcurrentQueue

variable {T : Type}

/-- `ExplicitProducer` -/
structure Producer (T : Type) where
  /-- Where to enqueue to next. -/
  tailIndex : ℕ := 0
  /-- Where to dequeue from next. -/
  headIndex : ℕ := 0
  dequeueOptimisticCount : ℕ := 0
  dequeueOvercommit : ℕ := 0
  /-- The objects that have been constructed and not been destroyed. -/
  elements : ℕ → Option T := fun _ => none

/-- How far a call of `enqueue` has come. -/
inductive Enqueue (T : Type) where
  | start (element : T)
  /-- The element has been constructed; before `tailIndex.store`. -/
  | store (newTailIndex : ℕ)

/-- One step of a call of `enqueue`; `none` when the call returns. -/
def Enqueue.step (p : Producer T) : Enqueue T → Producer T × Option (Enqueue T)
  | .start element =>
    let currentTailIndex := p.tailIndex
    let newTailIndex := 1 + currentTailIndex
    ({ p with elements := Function.update p.elements currentTailIndex (some element) },
      some (.store newTailIndex))
  | .store newTailIndex => ({ p with tailIndex := newTailIndex }, none)

/-- How far a call of `dequeue` has come. -/
inductive Dequeue where
  | start
  /-- `tailIndex` has been read. -/
  | gotTail (tail : ℕ)
  /-- `dequeueOvercommit` has been read; before `dequeueOptimisticCount` is. -/
  | gotOvercommit (tail overcommit : ℕ)
  /-- Before `dequeueOptimisticCount.fetch_add`. -/
  | draw (overcommit : ℕ)
  /-- Before `tailIndex` is read again. -/
  | drawn (overcommit myDequeueCount : ℕ)
  /-- Before `headIndex.fetch_add`. -/
  | take
  /-- Before the element is moved out. -/
  | moveOut (index : ℕ)
  /-- Before `dequeueOvercommit.fetch_add`. -/
  | giveBack
deriving DecidableEq

/-- One step of a call of `dequeue`: how the call goes on, or the element that it returns. -/
def Dequeue.step (p : Producer T) : Dequeue → Option (Producer T × (Dequeue ⊕ Option T))
  | .start => some (p, .inl (.gotTail p.tailIndex))
  | .gotTail tail => some (p, .inl (.gotOvercommit tail p.dequeueOvercommit))
  | .gotOvercommit tail overcommit =>
    if p.dequeueOptimisticCount - overcommit < tail then some (p, .inl (.draw overcommit))
    else some (p, .inr none)
  | .draw overcommit =>
    let myDequeueCount := p.dequeueOptimisticCount
    -- `assert(overcommit <= myDequeueCount)`
    if overcommit ≤ myDequeueCount then
      some ({ p with dequeueOptimisticCount := myDequeueCount + 1 },
        .inl (.drawn overcommit myDequeueCount))
    else none
  | .drawn overcommit myDequeueCount =>
    some (p, .inl (if myDequeueCount - overcommit < p.tailIndex then .take else .giveBack))
  | .take => some ({ p with headIndex := p.headIndex + 1 }, .inl (.moveOut p.headIndex))
  | .moveOut index =>
    (p.elements index).map fun element =>
      ({ p with elements := Function.update p.elements index none }, .inr (some element))
  | .giveBack => some ({ p with dequeueOvercommit := p.dequeueOvercommit + 1 }, .inr none)

/-! ### One producer and many consumers -/

/-- A thread that calls `dequeue` again and again. -/
structure Consumer (T : Type) where
  /-- The call in progress. -/
  call : Option Dequeue := none
  /-- The elements that its calls have returned. -/
  dequeued : List T := []

/-- A queue with the threads that use it. -/
structure State (T : Type) (n : ℕ) where
  producer : Producer T := {}
  /-- The call of `enqueue` in progress. -/
  call : Option (Enqueue T) := none
  /-- The elements that `enqueue` has been called with. -/
  enqueued : List T := []
  consumers : Fin n → Consumer T := fun _ => {}

/-- What happens next. -/
inductive Action (T : Type) (n : ℕ) where
  /-- The producer calls `enqueue`. -/
  | enqueue (element : T)
  /-- A step of the producer's call. -/
  | produce
  /-- A consumer begins a call of `dequeue`, or goes on with it. -/
  | consume (consumer : Fin n)

/-- One step of a consumer. -/
def Consumer.step (p : Producer T) (t : Consumer T) : Option (Producer T × Consumer T) :=
  match t.call with
  | none => some (p, { t with call := some .start })
  | some d => (d.step p).map fun r =>
    match r.2 with
    | .inl d => (r.1, { t with call := some d })
    | .inr none => (r.1, { t with call := none })
    | .inr (some element) => (r.1, { call := none, dequeued := t.dequeued ++ [element] })

/-- One step of one thread. -/
def step {n : ℕ} (s : State T n) : Action T n → Option (State T n)
  | .enqueue element =>
    match s.call with
    | none => some { s with call := some (.start element), enqueued := s.enqueued ++ [element] }
    | some _ => none
  | .produce => s.call.map fun e =>
    let r := e.step s.producer
    { s with producer := r.1, call := r.2 }
  | .consume i => (Consumer.step s.producer (s.consumers i)).map fun r =>
    { s with producer := r.1, consumers := Function.update s.consumers i r.2 }

end ParallelEnum.ConcurrentQueue
