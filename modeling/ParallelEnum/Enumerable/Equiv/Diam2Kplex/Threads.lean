import ParallelEnum.Enumerable.Equiv.Diam2Kplex
import ParallelEnum.Enumerator.Equiv.ParallelPthreadsSteal.Reports

/-!
# `Diam2KplexEnumeration` with several threads

Every thread builds its roots in vectors of its own, so that `ParallelPthreadsSteal` reports what
`Sequential` reports.

* `listsReported_of_finished`: the reported sets are those of `IsReported`, each once.
-/

namespace ParallelEnum.Diam2Kplex

open ParallelPthreadsSteal.Callbacks (Reporting)
open Transition

variable {g : Graph} {k q : ℕ} (enablePivoting : Bool) (std : StdSort)

/-- Items that stand for the sets that are reported, each once. -/
structure ListsReported (g : Graph) (k q : ℕ) (items : List (List ℕ)) : Prop where
  nodup_item : ∀ item ∈ items, item.Nodup
  nodup : (items.map List.toFinset).Nodup
  mem_iff : ∀ S, S ∈ items.map List.toFinset ↔ ∃ v, IsReported g k q v S

theorem ListsReported.of_perm {items items' : List (List ℕ)} (h : ListsReported g k q items)
    (hperm : items'.Perm items) : ListsReported g k q items' := by
  have hmap := hperm.map List.toFinset
  constructor
  case nodup_item => exact fun item hitem => h.nodup_item item (hperm.mem_iff.mp hitem)
  case nodup => exact hmap.nodup_iff.mpr h.nodup
  case mem_iff => exact fun S => hmap.mem_iff.trans (h.mem_iff S)

/-- What is reported for the nodes below all roots. -/
theorem listsReported (hk : 1 ≤ k) (hk' : k ≤ 255) {nodes : List (ℕ × Node)}
    (hnodes : nodes.Perm ((listsTrees (g := g) (q := q) enablePivoting std hk hk').finiteSystem
      |>.nodesBelow (List.range g.N))) :
    ListsReported g k q ((listsTrees (g := g) (q := q) enablePivoting std hk hk').reports
      nodes {}).items := by
  let L := listsTrees (g := g) (q := q) enablePivoting std hk hk'
  -- what `Sequential` reports, once more
  obtain ⟨bound, hbound⟩ := L.exists_runInternal (alone_empty g)
  obtain ⟨st, hrun⟩ := hbound (max bound g.N + 1) (by omega)
  obtain ⟨st', e, hrun', hitem, hnodup, hmem⟩ :=
    runInternal_reported enablePivoting std (g := g) (q := q) hk hk'
      (show g.N < max bound g.N + 1 by omega)
  obtain rfl := (Prod.mk.inj (Option.some.inj (hrun'.symm.trans hrun))).2
  have hlists : ListsReported g k q
      (L.reports (L.finiteSystem.nodesBelow (List.range g.N)) {}).items := ⟨hitem, hnodup, hmem⟩
  exact hlists.of_perm (Enumerator.reports_perm _ _ _ hnodes).1

/-! ### `ParallelPthreadsSteal` -/

section Parallel

variable {n : ℕ} {r : Reporting n Store Node (List ℕ)}

/-- When all threads have returned, they have reported every set once. -/
theorem listsReported_of_finished (hk : 1 ≤ k) (hk' : k ≤ 255) (hn : 0 < n)
    (h : Reaches (Reporting.step (diam2KplexEnumeration g k q enablePivoting std) {} false) Any
      (Reporting.init (diam2KplexEnumeration g k q enablePivoting std) {} n 0 0) r)
    (hr : r.Finished) : ListsReported g k q r.enumerator.items := by
  let L := listsTrees (g := g) (q := q) enablePivoting std hk hk'
  have hlast : ParallelPthreadsSteal.lastRootId L.finiteSystem 0 ≤ L.finiteSystem.maxRoots :=
    le_of_eq (if_pos rfl)
  obtain ⟨nodes, hnodes, hperm, -⟩ :=
    ParallelPthreadsSteal.Callbacks.reports_of_finished L (alone_empty g) hlast hn h hr
  rw [ParallelPthreadsSteal.rootIds_default] at hperm
  rw [hnodes]
  exact listsReported enablePivoting std hk hk' hperm

/-- Some run of the threads comes to its end. -/
theorem exists_finished (hk : 1 ≤ k) (hk' : k ≤ 255) (n : ℕ) :
    ∃ r, Reaches (Reporting.step (diam2KplexEnumeration g k q enablePivoting std) {} false) Any
        (Reporting.init (diam2KplexEnumeration g k q enablePivoting std) {} n 0 0) r ∧
      r.Finished := by
  let L := listsTrees (g := g) (q := q) enablePivoting std hk hk'
  have hlast : ParallelPthreadsSteal.lastRootId L.finiteSystem 0 ≤ L.finiteSystem.maxRoots :=
    le_of_eq (if_pos rfl)
  exact ParallelPthreadsSteal.Callbacks.exists_finished L (alone_empty g) hlast (Reaches.refl _)

end Parallel

end ParallelEnum.Diam2Kplex
