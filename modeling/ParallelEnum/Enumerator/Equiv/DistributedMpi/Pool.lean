import Mathlib.Data.Multiset.Count
import Mathlib.Data.Multiset.Filter
import ParallelEnum.Enumerator.DistributedMpi
import ParallelEnum.Enumerator.Equiv.ParallelPthreadsSteal

/-!
# The pool of work

What the master and its workers are for, with everything about messages left out: there is one
pool of roots and subtrees, and a step takes a piece of work out of the pool, expands it and puts
the nodes found into the pool.

`Pool.complete`: once the pool is empty every root has been opened once, and every node of the
forest has been listed once, reported once and counted once if it is a solution.
-/

namespace ParallelEnum.DistributedMpi

open Traversal
open ParallelPthreadsSteal (FiniteSystem treesWeight treeWeight storedWeight treeWeight_eq
  treesWeight_nil treesWeight_cons treesWeight_eq_sum sum_map_singleton)

variable {Node : Type}

/-- The work that is left, and what has been done so far. -/
@[ext] structure Pool (Node : Type) where
  items : Multiset (Work Node)
  opened : Multiset ℕ := 0
  listed : Multiset Node := 0
  reported : Multiset Node := 0
  /-- The number of solutions found. -/
  found : ℕ := 0

namespace Pool

variable {c : FiniteSystem Node} {isSolution : Node → Bool}

/-- The nodes that the expansion of a piece of work finds. -/
def successors (c : FiniteSystem Node) : Work Node → List Node
  | .root i => c.getRoot i
  | .subtree node => c.listChildren node

/-- The roots that the expansion of a piece of work opens. -/
def openedBy : Work Node → Multiset ℕ
  | .root i => {i}
  | .subtree _ => 0

/-- The nodes that the expansion of a piece of work lists. -/
def listedBy : Work Node → Multiset Node
  | .root _ => 0
  | .subtree node => {node}

/-- Expand one piece of work. -/
inductive Step (c : FiniteSystem Node) (isSolution : Node → Bool) : Pool Node → Pool Node → Prop
  | expand (p : Pool Node) (item : Work Node) (rest : Multiset (Work Node))
      (h : p.items = item ::ₘ rest) :
      Step c isSolution p
        { items := rest + ↑((successors c item).map Work.subtree)
          opened := p.opened + openedBy item
          listed := p.listed + listedBy item
          reported := p.reported + ↑(successors c item)
          found := p.found + (successors c item).countP isSolution }

/-- The pool at the beginning. -/
def start (c : FiniteSystem Node) : Pool Node where
  items := ↑((List.range c.maxRoots).map (Work.root : ℕ → Work Node))

/-! ### What is left to be counted -/

section Weight

universe u

variable {M : Type u} [AddCommMonoid M] (open_ : ℕ → M) (list report : Node → M)

/-- What is still to be counted for a piece of work. -/
def itemWeight (c : FiniteSystem Node) : Work Node → M
  | .root i => open_ i + treesWeight list report c (c.getRoot i)
  | .subtree node => storedWeight list report c node

/-- What has been counted, and what is still to be counted. -/
def weight (c : FiniteSystem Node) (p : Pool Node) : M :=
  (p.opened.map open_).sum + (p.listed.map list).sum + (p.reported.map report).sum
    + (p.items.map (itemWeight open_ list report c)).sum

@[simp] theorem itemWeight_root (i : ℕ) : itemWeight open_ list report c (.root i)
    = open_ i + treesWeight list report c (c.getRoot i) := rfl

@[simp] theorem itemWeight_subtree (node : Node) : itemWeight open_ list report c (.subtree node)
    = list node + treesWeight list report c (c.listChildren node) := rfl

/-- Nodes that are found are reported, and stored. -/
theorem treesWeight_split {l : List Node} (h : ∀ x ∈ l, c.forest.Ok x) :
    treesWeight list report c l
      = ((↑(l.map Work.subtree) : Multiset (Work Node)).map
          (itemWeight open_ list report c)).sum
        + ((l : Multiset Node).map report).sum := by
  induction l with
  | nil => simp
  | cons x l ih =>
    obtain ⟨hx, h⟩ := List.forall_mem_cons.mp h
    rw [treesWeight_cons, ih h, treeWeight_eq list report hx]
    simp only [List.map_cons, ← Multiset.cons_coe, Multiset.map_cons, Multiset.sum_cons,
      itemWeight_subtree, storedWeight]
    abel

end Weight

/-- A piece of work of the forest. -/
def Ok (c : FiniteSystem Node) : Work Node → Prop
  | .root i => i < c.maxRoots
  | .subtree node => c.forest.Ok node

theorem ok_successors {item : Work Node} (h : Ok c item) :
    ∀ x ∈ successors c item, c.forest.Ok x := by
  cases item with
  | root i => exact c.ok_getRoot i h
  | subtree node => exact fun x hx => c.forest.ok_of_mem h hx

theorem Step.ok {p q : Pool Node} (h : Step c isSolution p q) (hp : ∀ item ∈ p.items, Ok c item) :
    ∀ item ∈ q.items, Ok c item := by
  cases h with
  | expand item rest hitems =>
    rw [hitems] at hp
    obtain ⟨hitem, hrest⟩ := Multiset.forall_mem_cons.mp hp
    intro other hother
    rcases Multiset.mem_add.mp hother with h | h
    · exact hrest other h
    · obtain ⟨x, hx, rfl⟩ := List.mem_map.mp (Multiset.mem_coe.mp h)
      exact ok_successors hitem x hx

theorem Step.weight {M : Type*} [AddCommMonoid M] (open_ : ℕ → M) (list report : Node → M)
    {p q : Pool Node} (h : Step c isSolution p q) (hp : ∀ item ∈ p.items, Ok c item) :
    q.weight open_ list report c = p.weight open_ list report c := by
  cases h with
  | expand item rest hitems =>
    rw [hitems] at hp
    have hok := ok_successors (hp item (Multiset.mem_cons_self item rest))
    have hsplit := treesWeight_split open_ list report hok
    simp only [Pool.weight, hitems, Multiset.map_add, Multiset.sum_add, Multiset.map_cons,
      Multiset.sum_cons]
    cases item with
    | root i =>
      simp only [successors] at hsplit
      simp only [openedBy, listedBy, itemWeight_root, successors, Multiset.map_singleton,
        Multiset.sum_singleton, Multiset.map_zero, Multiset.sum_zero, hsplit]
      abel
    | subtree node =>
      simp only [successors] at hsplit
      simp only [openedBy, listedBy, itemWeight_subtree, successors, Multiset.map_singleton,
        Multiset.sum_singleton, Multiset.map_zero, Multiset.sum_zero, hsplit]
      abel

theorem Step.found {p q : Pool Node} (h : Step c isSolution p q)
    (hp : p.found = p.reported.countP (isSolution ·)) :
    q.found = q.reported.countP (isSolution ·) := by
  cases h with
  | expand item rest hitems =>
    show p.found + _ = (p.reported + _).countP _
    rw [hp, Multiset.countP_add, Multiset.coe_countP]
    simp

/-- What holds of the pool all along. -/
structure Good (c : FiniteSystem Node) (isSolution : Node → Bool) (p : Pool Node) : Prop where
  ok : ∀ item ∈ p.items, Ok c item
  found : p.found = p.reported.countP (isSolution ·)
  weight : ∀ (M : Type) [AddCommMonoid M] (open_ : ℕ → M) (list report : Node → M),
    p.weight open_ list report c = (start c).weight open_ list report c

theorem good_start : Good c isSolution (start c) where
  ok item hitem := by
    obtain ⟨i, hi, rfl⟩ := List.mem_map.mp (Multiset.mem_coe.mp hitem)
    exact List.mem_range.mp hi
  found := rfl
  weight _ _ _ _ _ := rfl

theorem Step.good {p q : Pool Node} (h : Step c isSolution p q) (hp : Good c isSolution p) :
    Good c isSolution q where
  ok := h.ok hp.ok
  found := h.found hp.found
  weight M _ open_ list report :=
    (h.weight open_ list report hp.ok).trans (hp.weight M open_ list report)

/-! ### The empty pool -/

/-- The count of all roots and nodes. -/
theorem weight_start {M : Type*} [AddCommMonoid M] (open_ : ℕ → M) (list report : Node → M) :
    (start c).weight open_ list report c = ((List.range c.maxRoots).map open_).sum
      + (c.nodes.map fun x => list x + report x).sum := by
  have hroots : ∀ is : List ℕ,
      ((is.map (Work.root : ℕ → Work Node)).map (itemWeight open_ list report c)).sum
        = (is.map open_).sum
          + ((is.flatMap fun i => c.forest.traversal (c.getRoot i)).map
              fun x => list x + report x).sum := by
    intro is
    induction is with
    | nil => simp
    | cons i is ih =>
      rw [List.map_cons, List.map_cons, List.sum_cons, ih, itemWeight_root, treesWeight_eq_sum,
        List.map_cons, List.sum_cons, List.flatMap_cons, List.map_append, List.sum_append]
      abel
  have hstart : (start c).weight open_ list report c
      = (((List.range c.maxRoots).map (Work.root : ℕ → Work Node)).map
          (itemWeight open_ list report c)).sum := by
    simp [Pool.weight, start]
  rw [hstart, hroots]
  rfl

/-- **An empty pool is complete.** Every root has been opened once, and every node of the forest
has been listed once, reported once and counted once if it is a solution. -/
theorem complete {p : Pool Node} (hp : Good c isSolution p) (hempty : p.items = 0) :
    p.opened = ↑(List.range c.maxRoots) ∧ p.listed = ↑c.nodes ∧ p.reported = ↑c.nodes ∧
      p.found = c.nodes.countP isSolution := by
  have hreported : p.reported = ↑c.nodes := by
    have h := hp.weight (Multiset Node) (fun _ => 0) (fun _ => 0) fun x => {x}
    rw [weight_start] at h
    simpa [Pool.weight, hempty, sum_map_singleton] using h
  have hlisted : p.listed = ↑c.nodes := by
    have h := hp.weight (Multiset Node) (fun _ => 0) (fun x => {x}) fun _ => 0
    rw [weight_start] at h
    simpa [Pool.weight, hempty, sum_map_singleton] using h
  have hopened : p.opened = ↑(List.range c.maxRoots) := by
    have h := hp.weight (Multiset ℕ) (fun i => {i}) (fun _ => 0) fun _ => 0
    rw [weight_start] at h
    simpa [Pool.weight, hempty, sum_map_singleton] using h
  refine ⟨hopened, hlisted, hreported, ?_⟩
  rw [hp.found, hreported, Multiset.coe_countP]
  simp

end Pool

end ParallelEnum.DistributedMpi
