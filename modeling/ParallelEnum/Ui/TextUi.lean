import ParallelEnum.Enumerable.Clique
import ParallelEnum.Enumerable.Diam2Kplex
import ParallelEnum.Enumerator.PrintStats
import ParallelEnum.Enumerator.Sequential
import ParallelEnum.Permute.Permute
import ParallelEnum.Util.ReadGraph

/-!
# The program

`ui/text_ui.cpp` with the sequential enumerator: a graph is read from a file, the constructor of an
enumeration renumbers it, every solution is printed on a line of its own if `--print` is set, and
`PrintStats` has the last lines unless `--quiet` is set.
-/

namespace ParallelEnum

/-- The graph that the sorted arrays hold.  The enumerations run on it: it answers all that they
ask as the `fast_graph_t` does. -/
def FastGraph.toGraph {T : Cuckoo.KeyType} (G : FastGraph T) : Graph :=
  Graph.ofRel G.N fun a b => decide (b ∈ (G.neighs a).toList)

namespace TextUi

open Cuckoo ReadGraph

/-- `--system` -/
inductive System where
  | clique
  | d2kplex
deriving DecidableEq

/-- `--graph_format` -/
inductive GraphFormat where
  | nde
  | oly
deriving DecidableEq

/-- The flags that matter for the output of the sequential enumerator. -/
structure Flags where
  k : ℕ := 2
  q : ℕ := 1
  system : System := .d2kplex
  graphFormat : GraphFormat := .nde
  fastGraph : Bool := true
  hugeGraph : Bool := false
  oneBased : Bool := false
  quiet : Bool := false
  print : Bool := false
  enablePivoting : Bool := true

/-- The reasons for which nothing, or not all, is printed. -/
inductive Failure where
  | couldNotOpen
  | read (e : ReadFailure)
  | permute (e : BuildFailure)
  | outOfFuel

/-- `ReadFastGraph`, of an undirected graph; `none` is a file that cannot be opened. -/
def readFastGraph (flags : Flags) (T : KeyType) (fuel : ℕ) (file : Option (List UInt8)) :
    Except Failure (FastGraph T) :=
  match file with
  | none => .error .couldNotOpen
  | some input =>
    let graph :=
      match flags.graphFormat with
      | .nde => readNde T false fuel input
      | .oly =>
        if flags.fastGraph then readOlympiadsFormat T false flags.oneBased fuel input
        else readOlympiadsFormat T false flags.oneBased fuel input
    graph.mapError .read

/-- What both constructors put into `graph_`. -/
def permuted {T : KeyType} (graph : FastGraph T) : Except Failure (FastGraph T) :=
  (graph.permute (degeneracyOrder graph.toGraph)).mapError .permute

/-- The line that `PrintSolutionsOnStdout` prints for an item. -/
def printItem (item : List ℕ) : List UInt8 :=
  (item.flatMap fun i => DigitRuns.decimal i ++ [32]) ++ [10]

/-- What an enumerator has printed when its run is over and its statistics have been asked for. -/
def output (flags : Flags) (m : Measured) (e : Enumerator (List ℕ)) : List UInt8 :=
  (if flags.print then e.items.flatMap printItem else []) ++
    if !flags.quiet then e.printStats m else []

/-- What a run has printed. -/
def printed {St : Type} (flags : Flags) (m : Measured)
    (run : Option (St × Enumerator (List ℕ))) : Except Failure (List UInt8) :=
  match run with
  | none => .error .outOfFuel
  | some (_, e) => .ok (output flags m e)

/-- `CliqueMain` -/
def cliqueMain (flags : Flags) (m : Measured) (T : KeyType) (fuel : ℕ)
    (file : Option (List UInt8)) : Except Failure (List UInt8) :=
  (readFastGraph flags T fuel file).bind fun graph =>
    (permuted graph).bind fun graph =>
      printed flags m (Sequential.runInternal fuel (Clique.cliqueEnumeration graph.toGraph) {} {})

/-- `D2KplexMain` -/
def d2kplexMain (flags : Flags) (m : Measured) (T : KeyType) (std : StdSort) (fuel : ℕ)
    (file : Option (List UInt8)) : Except Failure (List UInt8) :=
  (readFastGraph flags T fuel file).bind fun graph =>
    (permuted graph).bind fun graph =>
      printed flags m (Sequential.runInternal fuel
        (Diam2Kplex.diam2KplexEnumeration graph.toGraph flags.k flags.q flags.enablePivoting std)
        {} {})

/-- The type of vertices that `main` chooses. -/
def nodeType (flags : Flags) : KeyType := if flags.hugeGraph then .uint64 else .uint32

/-- `main`, with one graph as its argument. -/
def main (flags : Flags) (m : Measured) (std : StdSort) (fuel : ℕ) (file : Option (List UInt8)) :
    Except Failure (List UInt8) :=
  match flags.system with
  | .clique => cliqueMain flags m (nodeType flags) fuel file
  | .d2kplex => d2kplexMain flags m (nodeType flags) std fuel file

end TextUi

end ParallelEnum
