import ParallelEnum.Enumerator.Enumerator
import ParallelEnum.Theory.DigitRuns

/-!
# What `PrintStats` prints

`Enumerator::PrintStats` of `enumerator/enumerator.hpp`.  What the clocks say is given, and so is
the text of a floating-point number.
-/

namespace ParallelEnum

/-- The bytes of a text. -/
def bytes (text : String) : List UInt8 := text.toUTF8.toList

/-- What `%ld` prints. -/
def printLong (i : ℤ) : List UInt8 := (if i < 0 then [45] else []) ++ DigitRuns.decimal i.natAbs

/-- What the clocks say, in milliseconds, and how the solutions per millisecond are written. -/
structure Measured where
  /-- From `start_time_` to `read_done_time_`. -/
  readingTime : ℤ
  /-- From `read_done_time_` to `run_start_time_`. -/
  setupTime : ℤ
  /-- From `run_start_time_` to `run_done_time_`. -/
  runTime : ℤ
  /-- What `%f` prints for the quotient of a number of solutions and a time. -/
  quotient : ℕ → ℤ → List UInt8
  /-- That is part of a line. -/
  quotient_line : ∀ solutions time, ∀ c ∈ quotient solutions time, (c == 10) = false

namespace Enumerator

variable {Item : Type}

/-- The lines of `PrintStats`; no enumerator has a `PrintStatsInternal` of its own. -/
def statsLines (m : Measured) (e : Enumerator Item) : List (List UInt8) :=
  [bytes "Reading time: " ++ printLong m.readingTime ++ bytes " ms",
    bytes "Setup time: " ++ printLong m.setupTime ++ bytes " ms",
    bytes "Run time: " ++ printLong m.runTime ++ bytes " ms",
    bytes "Solutions found: " ++ DigitRuns.decimal e.solutionsFound,
    bytes "Computational tree size: " ++ DigitRuns.decimal e.treeSize,
    bytes "Solutions per ms: " ++ m.quotient e.solutionsFound m.runTime]

/-- `PrintStats` -/
def printStats (m : Measured) (e : Enumerator Item) : List UInt8 :=
  (e.statsLines m).flatMap fun line => line ++ [10]

end Enumerator

end ParallelEnum
