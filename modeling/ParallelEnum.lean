import ParallelEnum.Theory.Traversal
import ParallelEnum.Enumerator.Sequential
import ParallelEnum.Enumerator.Equiv.Sequential
import ParallelEnum.Theory.LexCompletion
import ParallelEnum.Util.Equiv.Graph
import ParallelEnum.Enumerable.Clique
import ParallelEnum.Enumerable.Equiv.Clique
import ParallelEnum.Enumerable.Equiv.Clique.Reachable
import ParallelEnum.Enumerable.Equiv.Clique.Scratch
import ParallelEnum.Enumerable.Diam2Kplex.Impl
import ParallelEnum.Theory.Kplex
import ParallelEnum.Enumerable.Equiv.Diam2Kplex.Counters
import ParallelEnum.Enumerable.Equiv.Diam2Kplex.Node
import ParallelEnum.Enumerable.Equiv.Diam2Kplex.Tests
import ParallelEnum.Enumerable.Equiv.Diam2Kplex.Search
import ParallelEnum.Enumerable.Diam2Kplex
import ParallelEnum.Enumerable.Equiv.Diam2Kplex.Block
import ParallelEnum.Enumerable.Equiv.Diam2Kplex.Root
import ParallelEnum.Enumerable.Equiv.Diam2Kplex
import ParallelEnum.Enumerable.Equiv.Diam2Kplex.Small
import ParallelEnum.Enumerable.Equiv.Diam2Kplex.Copies
import ParallelEnum.Enumerable.Equiv.Diam2Kplex.Reachable
import ParallelEnum.Permute.Permute
import ParallelEnum.Theory.Degeneracy
import ParallelEnum.Theory.Outcome
import ParallelEnum.Permute.Equiv.Degeneracy
import ParallelEnum.Enumerable.Equiv.Labels
import ParallelEnum.Enumerator.Equiv.ParallelPthreadsSteal
import ParallelEnum.Enumerator.DistributedMpi
import ParallelEnum.Enumerator.Equiv.DistributedMpi.Links
import ParallelEnum.Enumerator.Equiv.DistributedMpi.Work
import ParallelEnum.Enumerator.Equiv.DistributedMpi
import ParallelEnum.Enumerator.Equiv.DistributedMpi.Ranges
import ParallelEnum.Enumerator.Equiv.DistributedMpi.FirstAnswer
import ParallelEnum.Enumerator.Equiv.DistributedMpi.Victims
import ParallelEnum.Enumerator.DistributedMpi.RunInternal
import ParallelEnum.Enumerator.Equiv.DistributedMpi.RunInternal
import ParallelEnum.Enumerable.Diam2Kplex.Serialize
import ParallelEnum.Util.Equiv.Serialize
import ParallelEnum.Enumerable.Equiv.Diam2Kplex.Serialize
import ParallelEnum.Enumerable.Equiv.Diam2Kplex.Destination
import ParallelEnum.Util.Cuckoo
import ParallelEnum.Util.Cuckoo.Bulk
import ParallelEnum.Util.Equiv.Cuckoo.Insert
import ParallelEnum.Util.Equiv.Cuckoo.Growth
import ParallelEnum.Util.Equiv.Cuckoo
import ParallelEnum.Util.Equiv.Cuckoo.Capacity
import ParallelEnum.Util.Equiv.Cuckoo.Bulk
import ParallelEnum.Theory.Barrier
import ParallelEnum.Enumerator.ParallelPthreadsSteal.Callbacks
import ParallelEnum.Enumerator.Equiv.ParallelPthreadsSteal.Control
import ParallelEnum.Enumerator.Equiv.ParallelPthreadsSteal.MoreWork
import ParallelEnum.Enumerator.Equiv.ParallelPthreadsSteal.Buffers
import ParallelEnum.Theory.ConnectedHereditary
import ParallelEnum.Enumerable.ConnectedHereditary
import ParallelEnum.Enumerable.Equiv.ConnectedHereditary.Lawful
import ParallelEnum.Enumerable.Equiv.ConnectedHereditary.Resort
import ParallelEnum.Enumerable.Equiv.ConnectedHereditary.Distance
import ParallelEnum.Enumerable.Equiv.ConnectedHereditary.Complete
import ParallelEnum.Enumerable.Equiv.ConnectedHereditary.Completer
import ParallelEnum.Enumerable.Equiv.ConnectedHereditary.Children
import ParallelEnum.Enumerable.Equiv.Commutable
import ParallelEnum.Enumerable.Equiv.ConnectedHereditary
import ParallelEnum.Enumerable.Equiv.Diam2Kplex.Overflow
import ParallelEnum.Util.BinarySearch
import ParallelEnum.Util.Equiv.BinarySearch
import ParallelEnum.Util.FastGraph
import ParallelEnum.Util.Equiv.FastGraph
import ParallelEnum.Util.Equiv.FastGraph.Permute
import ParallelEnum.Util.FastGraph.Serialize
import ParallelEnum.Util.Equiv.FastGraph.Serialize
import ParallelEnum.Theory.DigitRuns
import ParallelEnum.Util.Fastio
import ParallelEnum.Util.ReadGraph
import ParallelEnum.Util.Equiv.Fastio
import ParallelEnum.Util.Equiv.ReadGraph
import ParallelEnum.Enumerable.Equiv.Diam2Kplex.Status
import ParallelEnum.Enumerator.Equiv.ParallelPthreadsSteal.Barrier
import ParallelEnum.Util.Cuckoo.Allocation
import ParallelEnum.Util.Dynarray
import ParallelEnum.Util.Equiv.Cuckoo.Allocation
import ParallelEnum.Util.Equiv.Dynarray
import ParallelEnum.Enumerable.Equiv.ConnectedHereditary.Order
import ParallelEnum.Theory.PackedBits
import ParallelEnum.Util.Bitset
import ParallelEnum.Util.Equiv.Bitset
import ParallelEnum.Enumerator.Equiv.ParallelPthreads
import ParallelEnum.Enumerator.Equiv.ParallelPthreads.Termination
import ParallelEnum.Enumerator.Equiv.ParallelPthreadsSteal.Progress
import ParallelEnum.Theory.Renaming
import ParallelEnum.Ui.Equiv.TextUi
import ParallelEnum.Enumerator.DistributedMpi.Threads
import ParallelEnum.Enumerator.Equiv.DistributedMpi.Threads
import ParallelEnum.Enumerable.Equiv.Clique.Threads
import ParallelEnum.Enumerable.Equiv.Diam2Kplex.Threads
import ParallelEnum.Ui.Equiv.TextUi.Parallel
import ParallelEnum.Util.ConcurrentQueue.Wrapping
import ParallelEnum.Util.Equiv.ConcurrentQueue.Wrapping
