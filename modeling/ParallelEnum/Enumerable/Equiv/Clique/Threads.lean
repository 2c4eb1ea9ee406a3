import ParallelEnum.Enumerable.Equiv.Clique.Scratch
import ParallelEnum.Enumerator.Equiv.ParallelPthreadsSteal.Progress

/-!
# `CliqueEnumeration` with several threads

Every thread has its own scratch, and a callback that only moves the node does not touch it, so the
calls of `GetRoot` and `ListChildren` list the same nodes whoever makes them:
`getRoot_finiteSystem`, `listChildren_finiteSystem`.

* `listsMaximalCliques`: what visits the nodes of this system once visits the maximal cliques once.
-/

namespace ParallelEnum.Clique

open ParallelPthreadsSteal (FiniteSystem)
open Traversal

variable (g : Graph)

/-- `CliqueEnumeration` as a system of immutable nodes. -/
def finiteSystem : FiniteSystem Node where
  canUseRecursion := false
  maxRoots := g.size
  getRoot := roots g
  forest := forest g
  ok_getRoot _ hi _ hr := ((mem_roots_iff g hi).mp hr).1

/-! ### What a thread calls -/

section Calls

variable {σ : Type} (f : Answering σ)

theorem getRoot_finiteSystem (i : ℕ) (a : σ) :
    (cliqueEnumeration g).getRoot i f.callback (Scratch.clean g, a)
      = (forEach (fun x a => some (f x a)) ((finiteSystem g).getRoot i) a).map
          fun a => (Scratch.clean g, a) :=
  getRoot_eq g _ i _

theorem listChildren_finiteSystem (x : Node) (a : σ) :
    (cliqueEnumeration g).listChildren x f.callback (Scratch.clean g, a)
      = (forEach (fun x a => some (f x a)) ((finiteSystem g).listChildren x) a).map
          fun a => (Scratch.clean g, a) :=
  listChildren_eq g _ x a

end Calls

/-! ### The nodes -/

theorem nodes_finiteSystem : (finiteSystem g).nodes = (listsForest g).allNodes := rfl

/-- Nodes that stand for the maximal cliques, each once, as ascending lists. -/
structure ListsMaximalCliques (nodes : List Node) : Prop where
  sorted : ∀ x ∈ nodes, x.1.Pairwise (· < ·)
  nodup : (nodes.map fun x => x.1.toFinset).Nodup
  mem_iff : ∀ S, S ∈ nodes.map (fun x => x.1.toFinset) ↔
    LexCompletion.IsMaximalClique g.toSimpleGraph g.vertices S

theorem listsMaximalCliques {nodes : List Node} (h : nodes.Perm (finiteSystem g).nodes) :
    ListsMaximalCliques g nodes := by
  rw [nodes_finiteSystem] at h
  constructor
  case sorted => exact fun x hx => ((mem_allNodes g).mp (h.mem_iff.mp hx)).1
  case nodup => exact map_toFinset_nodup g h
  case mem_iff =>
    intro S
    rw [List.mem_map]
    exact exists_node_iff g h

/-! ### `ParallelPthreadsSteal` -/

section Parallel

open ParallelPthreadsSteal Transition

/-- When all threads have returned, they have reported every maximal clique once. -/
theorem listsMaximalCliques_of_finished {n : ℕ} (hn : 0 < n)
    {s : ParallelPthreadsSteal.State Node n}
    (h : Reaches (ParallelPthreadsSteal.step (finiteSystem g) n) Any
      (ParallelPthreadsSteal.init (finiteSystem g) n) s) (hs : Finished s) :
    ListsMaximalCliques g s.shared.reported := by
  have hlast : lastRootId (finiteSystem g) 0 ≤ (finiteSystem g).maxRoots := le_of_eq (if_pos rfl)
  have hreported := (finished_nodesBelow hlast h hn hs).2
  rw [rootIds_default] at hreported
  exact listsMaximalCliques g hreported

/-- Some run of the threads comes to its end. -/
theorem exists_finished (n : ℕ) : ∃ s, Reaches (ParallelPthreadsSteal.step (finiteSystem g) n) Any
    (ParallelPthreadsSteal.init (finiteSystem g) n) s ∧ Finished s := by
  have hlast : lastRootId (finiteSystem g) 0 ≤ (finiteSystem g).maxRoots := le_of_eq (if_pos rfl)
  apply (fairRank (finiteSystem g) n 0 hlast).exists_reaches_final
  · exact fun s a s' h hstep => h.tail ⟨a, trivial, hstep⟩
  · exact fun s t _ ht => exists_step ht.1
  · exact Reaches.refl _

end Parallel

end ParallelEnum.Clique
