import ParallelEnum.Theory.Barrier

/-!
# `bar_t`: the barrier of the refill phase

`bar_t` of `enumerator/parallel_pthreads_steal.hpp`, on 32-bit words, and threads that call `wait`
any number of times.  Each access to an atomic variable is one step of one thread, and any thread
may take the next step.  The stages of a call are those of `Barrier.Wait`.
-/

namespace ParallelEnum.ParallelPthreadsSteal

open Barrier

/-- `bar_t` -/
structure BarT where
  count : BitVec 32
  spaces : BitVec 32
  generation : BitVec 32

namespace BarT

/-- The constructor. -/
def init (count : BitVec 32) : BarT := { count := count, spaces := count, generation := 0 }

/-- One step of a call of `wait`; `none` when the call returns. -/
def wait (b : BarT) : Wait → BarT × Option Wait
  | .start => (b, some (.read b.generation))
  | .read myGeneration =>
    -- `--spaces` and the test of its result are one atomic operation
    let spaces := b.spaces - 1
    ({ b with spaces := spaces }, some (if spaces = 0 then .reset else .spin myGeneration))
  | .reset => ({ b with spaces := b.count }, some .release)
  | .release => ({ b with generation := b.generation + 1 }, none)
  | .spin myGeneration =>
    (b, if b.generation = myGeneration then some (.spin myGeneration) else none)

end BarT

/-- A thread that calls `wait` again and again. -/
structure Caller where
  /-- How many calls it has begun. -/
  entered : ℕ := 0
  /-- How many calls have returned. -/
  returned : ℕ := 0
  /-- The call in progress. -/
  wait : Option Wait := none
deriving DecidableEq

/-- The next step of a thread, on the barrier and on the thread: between two calls it begins one. -/
def Caller.step (b : BarT) (t : Caller) : BarT × Caller :=
  match t.wait with
  | none => (b, { t with entered := t.entered + 1, wait := some .start })
  | some w =>
    match b.wait w with
    | (b, some w) => (b, { t with wait := some w })
    | (b, none) => (b, { t with returned := t.returned + 1, wait := none })

/-- A barrier and the threads that use it. -/
structure Callers (n : ℕ) where
  bar : BarT
  threads : Fin n → Caller

namespace Callers

/-- The threads of a barrier before the first call. -/
def init (count : BitVec 32) : Callers count.toNat where
  bar := BarT.init count
  threads _ := {}

/-- The thread `i` takes a step. -/
def step {n : ℕ} (s : Callers n) (i : Fin n) : Option (Callers n) :=
  some
    { bar := ((s.threads i).step s.bar).1
      threads := Function.update s.threads i ((s.threads i).step s.bar).2 }

end Callers

end ParallelEnum.ParallelPthreadsSteal
