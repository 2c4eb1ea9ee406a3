import ParallelEnum.Enumerable.Equiv.Clique.Threads
import ParallelEnum.Enumerator.ParallelPthreadsSteal.Reports
import ParallelEnum.Ui.TextUi

/-!
# The program with several threads

`CliqueMain` and `D2KplexMain` of `ui/text_ui.cpp` with `--enumerator=parallel`: `MakeEnumerator`
returns a `ParallelPthreadsSteal` with `--n` threads, whose constructor prints a line.  Each thread
prints the solutions it reports, and `PrintStats` has the last lines unless `--quiet` is set.

The queues of the threads are those of `ParallelPthreadsSteal`: linearizable, with an exact
`size_approx`.
-/

namespace ParallelEnum.TextUi

open Cuckoo Transition

/-- The line that the constructor of `ParallelPthreadsSteal` prints, with or without `--quiet`. -/
def banner (n : ℕ) : List UInt8 :=
  (bytes "Parallel enumerator (Pthreads): running with " ++ DigitRuns.decimal n
    ++ bytes " threads.") ++ [10]

/-- The object that `n` threads may leave behind, in one interleaving, when they run on
`CliqueEnumeration`. -/
def CliqueReports (g : Graph) (n : ℕ) (e : Enumerator (List ℕ)) : Prop :=
  ∃ s, Reaches (ParallelPthreadsSteal.step (Clique.finiteSystem g) n) Any
      (ParallelPthreadsSteal.init (Clique.finiteSystem g) n) s ∧
    ParallelPthreadsSteal.Finished s ∧
    e = s.shared.reported.foldl
      (fun e node => e.reportSolution (Clique.cliqueEnumeration g) {} node) {}

/-- The object that `n` threads may leave behind, in one interleaving, when they run on
`Diam2KplexEnumeration`. -/
def D2KplexReports (flags : Flags) (std : StdSort) (g : Graph) (n : ℕ)
    (e : Enumerator (List ℕ)) : Prop :=
  let system := Diam2Kplex.diam2KplexEnumeration g flags.k flags.q flags.enablePivoting std
  ∃ r, Reaches (ParallelPthreadsSteal.Callbacks.Reporting.step system {} false) Any
      (ParallelPthreadsSteal.Callbacks.Reporting.init system {} n 0 0) r ∧
    r.Finished ∧ e = r.enumerator

/-- `CliqueMain` with `n` threads may print `out`. -/
def CliqueMainParallel (flags : Flags) (n : ℕ) (T : KeyType) (fuel : ℕ)
    (file : Option (List UInt8)) (out : List UInt8) : Prop :=
  ∃ graph, (readFastGraph flags T fuel file).bind permuted = .ok graph ∧
    ∃ e, CliqueReports graph.toGraph n e ∧ ∃ m, out = banner n ++ output flags m e

/-- `D2KplexMain` with `n` threads may print `out`. -/
def D2KplexMainParallel (flags : Flags) (n : ℕ) (T : KeyType) (std : StdSort) (fuel : ℕ)
    (file : Option (List UInt8)) (out : List UInt8) : Prop :=
  ∃ graph, (readFastGraph flags T fuel file).bind permuted = .ok graph ∧
    ∃ e, D2KplexReports flags std graph.toGraph n e ∧ ∃ m, out = banner n ++ output flags m e

/-- `main`, with one graph as its argument and `n` threads, may print `out`. -/
def MainParallel (flags : Flags) (n : ℕ) (std : StdSort) (fuel : ℕ) (file : Option (List UInt8))
    (out : List UInt8) : Prop :=
  match flags.system with
  | .clique => CliqueMainParallel flags n (nodeType flags) fuel file out
  | .d2kplex => D2KplexMainParallel flags n (nodeType flags) std fuel file out

end ParallelEnum.TextUi
