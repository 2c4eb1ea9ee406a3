import ParallelEnum.Util.ConcurrentQueue

/-!
# The queue of one producer, with counters that wrap

The queue of `ConcurrentQueue` with the counters of the source: `index_t` is a word of 64 bits, the
counters wrap, and `circular_less_than` compares them.  When the tail has come to the end of a
block, `enqueue` looks for another one, and returns `false` if there is none.

The storage is assumed: every index has a cell of its own, which stands for the block that the block
index leads to.  What the circular list of blocks and the allocator have to offer is resolved by the
number `pick`, and the constructor of an element does not throw.  A step is `none` if the source has
no meaning for it: an assertion fails, or no object stands where one is moved from.
-/

namespace ParallelEnum.ConcurrentQueue.Wrapping

variable {T : Type}

/-- `index_t` -/
abbrev Index := BitVec 64

/-- `BLOCK_SIZE` -/
def blockSize : Index := 32

/-- `circular_less_than` -/
def circularLessThan (a b : Index) : Bool := decide (a - b > (1 : Index) <<< 63)

/-- `ExplicitProducer` -/
structure Producer (T : Type) where
  /-- Where to enqueue to next. -/
  tailIndex : Index := 0
  /-- Where to dequeue from next. -/
  headIndex : Index := 0
  dequeueOptimisticCount : Index := 0
  dequeueOvercommit : Index := 0
  /-- The objects that have been constructed and not been destroyed. -/
  elements : Index → Option T := fun _ => none

/-- How far a call of `enqueue` has come. -/
inductive Enqueue (T : Type) where
  | start (element : T)
  /-- The block ahead is not empty; before `headIndex` is read. -/
  | readHead (element : T)
  /-- Before the block index and a block are allocated. -/
  | allocate (element : T)
  /-- Before the element is constructed. -/
  | construct (element : T)
  /-- The element has been constructed; before `tailIndex.store`. -/
  | store (newTailIndex : Index)

/-- One step of a call of `enqueue`: how the call goes on, or what it returns.  The size of a queue
is not limited, `MAX_SUBQUEUE_SIZE` is the largest `size_t`. -/
def Enqueue.step (pick : ℕ) (p : Producer T) :
    Enqueue T → Option (Producer T × (Enqueue T ⊕ Bool))
  | .start element =>
    let currentTailIndex := p.tailIndex
    if currentTailIndex &&& (blockSize - 1) = 0 then
      -- whether there is a block ahead that is empty
      some (p, .inl (if pick = 0 then .construct element else .readHead element))
    else some (p, .inl (.construct element))
  | .readHead element =>
    let currentTailIndex := p.tailIndex
    let head := p.headIndex
    -- `assert(!details::circular_less_than<index_t>(currentTailIndex, head))`
    if circularLessThan currentTailIndex head then none
    else if !circularLessThan head (currentTailIndex + blockSize) then some (p, .inr false)
    else some (p, .inl (.allocate element))
  | .allocate element =>
    -- whether there is memory
    some (p, if pick = 0 then .inl (.construct element) else .inr false)
  | .construct element =>
    let currentTailIndex := p.tailIndex
    let newTailIndex := 1 + currentTailIndex
    some ({ p with elements := Function.update p.elements currentTailIndex (some element) },
      .inl (.store newTailIndex))
  | .store newTailIndex => some ({ p with tailIndex := newTailIndex }, .inr true)

/-- How far a call of `dequeue` has come. -/
inductive Dequeue where
  | start
  /-- `tailIndex` has been read. -/
  | gotTail (tail : Index)
  /-- `dequeueOvercommit` has been read; before `dequeueOptimisticCount` is. -/
  | gotOvercommit (tail overcommit : Index)
  /-- Before `dequeueOptimisticCount.fetch_add`. -/
  | draw (overcommit : Index)
  /-- Before `tailIndex` is read again. -/
  | drawn (overcommit myDequeueCount : Index)
  /-- Before `headIndex.fetch_add`. -/
  | take
  /-- Before the element is moved out. -/
  | moveOut (index : Index)
  /-- Before `dequeueOvercommit.fetch_add`. -/
  | giveBack
deriving DecidableEq

/-- One step of a call of `dequeue`: how the call goes on, or the element that it returns. -/
def Dequeue.step (p : Producer T) : Dequeue → Option (Producer T × (Dequeue ⊕ Option T))
  | .start => some (p, .inl (.gotTail p.tailIndex))
  | .gotTail tail => some (p, .inl (.gotOvercommit tail p.dequeueOvercommit))
  | .gotOvercommit tail overcommit =>
    if circularLessThan (p.dequeueOptimisticCount - overcommit) tail then
      some (p, .inl (.draw overcommit))
    else some (p, .inr none)
  | .draw overcommit =>
    let myDequeueCount := p.dequeueOptimisticCount
    -- `assert(overcommit <= myDequeueCount)`
    if overcommit ≤ myDequeueCount then
      some ({ p with dequeueOptimisticCount := myDequeueCount + 1 },
        .inl (.drawn overcommit myDequeueCount))
    else none
  | .drawn overcommit myDequeueCount =>
    some (p, .inl (if circularLessThan (myDequeueCount - overcommit) p.tailIndex then .take
      else .giveBack))
  | .take => some ({ p with headIndex := p.headIndex + 1 }, .inl (.moveOut p.headIndex))
  | .moveOut index =>
    (p.elements index).map fun element =>
      ({ p with elements := Function.update p.elements index none }, .inr (some element))
  | .giveBack => some ({ p with dequeueOvercommit := p.dequeueOvercommit + 1 }, .inr none)

/-! ### One producer and many consumers -/

/-- A thread that calls `dequeue` again and again. -/
structure Consumer (T : Type) where
  /-- The call in progress. -/
  call : Option Dequeue := none
  /-- The elements that its calls have returned. -/
  dequeued : List T := []

/-- A queue with the threads that use it. -/
structure State (T : Type) (n : ℕ) where
  producer : Producer T := {}
  /-- The call of `enqueue` in progress. -/
  call : Option (Enqueue T) := none
  /-- The elements that `enqueue` has constructed. -/
  enqueued : List T := []
  consumers : Fin n → Consumer T := fun _ => {}

/-- What happens next. -/
inductive Action (T : Type) (n : ℕ) where
  /-- The producer calls `enqueue`. -/
  | enqueue (element : T)
  /-- A step of the producer's call. -/
  | produce (pick : ℕ)
  /-- A consumer begins a call of `dequeue`, or goes on with it. -/
  | consume (consumer : Fin n)

/-- One step of a consumer. -/
def Consumer.step (p : Producer T) (t : Consumer T) : Option (Producer T × Consumer T) :=
  match t.call with
  | none => some (p, { t with call := some .start })
  | some d => (d.step p).map fun r =>
    match r.2 with
    | .inl d => (r.1, { t with call := some d })
    | .inr none => (r.1, { t with call := none })
    | .inr (some element) => (r.1, { call := none, dequeued := t.dequeued ++ [element] })

/-- The element that a step of a call of `enqueue` constructs. -/
def Enqueue.constructs : Enqueue T → List T
  | .construct element => [element]
  | _ => []

/-- One step of one thread. -/
def step {n : ℕ} (s : State T n) : Action T n → Option (State T n)
  | .enqueue element =>
    match s.call with
    | none => some { s with call := some (.start element) }
    | some _ => none
  | .produce pick =>
    match s.call with
    | none => none
    | some e => (e.step pick s.producer).map fun r =>
      { s with
        producer := r.1
        call := r.2.getLeft?
        enqueued := s.enqueued ++ e.constructs }
  | .consume i => (Consumer.step s.producer (s.consumers i)).map fun r =>
    { s with producer := r.1, consumers := Function.update s.consumers i r.2 }

end ParallelEnum.ConcurrentQueue.Wrapping
