import ParallelEnum.Util.Vector
import Mathlib.Combinatorics.SimpleGraph.Basic
import Mathlib.Data.List.Sort

/-!
# `fast_graph_t`

A simple undirected graph as `util/graph.hpp` keeps it: one strictly ascending list of neighbours
for each vertex.  The programs enumerate over `fast_graph_t`, which answers `are_neighs` from hash
sets and `fwd_neighs` from stored offsets; both are built from the lists and are read off them here.
-/

namespace ParallelEnum

/-- A simple undirected `fast_graph_t`.  The laws are those of the graphs that reading a file or
permuting a graph produces. -/
structure Graph where
  /-- `N_` -/
  N : ℕ
  /-- `edges_` -/
  edges : Vec (List ℕ)
  size_edges : edges.size = N
  /-- Adjacency lists are strictly ascending. -/
  sorted : ∀ i, (edges.get i).Pairwise (· < ·)
  /-- Adjacency lists name vertices. -/
  lt_N : ∀ i, ∀ x ∈ edges.get i, x < N
  /-- Edges go both ways. -/
  symm : ∀ i j, j ∈ edges.get i → i ∈ edges.get j
  /-- There are no loops. -/
  irrefl : ∀ i, i ∉ edges.get i

namespace Graph

variable (g : Graph)

/-- `size` -/
def size : ℕ := g.N

/-- `neighs` -/
def neighs (i : ℕ) : List ℕ := g.edges.get i

/-- `degree` -/
def degree (i : ℕ) : ℕ := (g.neighs i).length

/-- `are_neighs` -/
def areNeighs (a b : ℕ) : Bool := decide (b ∈ g.neighs a)

/-- `fwd_neighs`: the adjacency list from `upper_bound(n)` on. -/
def fwdNeighs (n : ℕ) : List ℕ := (g.neighs n).dropWhile (· ≤ n)

/-- `fwd_degree` -/
def fwdDegree (n : ℕ) : ℕ := (g.fwdNeighs n).length

/-- The graph on the vertices. -/
def toSimpleGraph : SimpleGraph ℕ where
  Adj a b := b ∈ g.neighs a
  symm := ⟨fun a b h => g.symm a b h⟩
  loopless := ⟨fun a h => g.irrefl a h⟩

/-- The vertices. -/
def vertices : Finset ℕ := Finset.range g.N

/-- The loop of `Permute` that fills `new_pos`; it starts from `-1` as a `uint32_t`. -/
def newPos (newOrder : List ℕ) : Vec ℕ :=
  (List.range g.size).foldl (fun v i => v.set (newOrder.getD i 0) i)
    (Array.replicate g.size (2 ^ 32 - 1))

/-- The loop of `Permute` that fills `new_edges`.  Equal numbers cannot be told apart, so any
`std::sort` leaves the list that insertion sort does. -/
def newEdges (newOrder : List ℕ) : Vec (List ℕ) :=
  let newPos := g.newPos newOrder
  (List.range g.size).foldl
    (fun edges i =>
      let edges := (g.neighs i).foldl
        (fun edges x =>
          edges.set (newPos.get i) (edges.get (newPos.get i) ++ [newPos.get x])) edges
      edges.set (newPos.get i) ((edges.get (newPos.get i)).insertionSort (· ≤ ·)))
    (Vec.zeros g.size)

/-- The neighbours of `i` among `n` vertices when `r` relates the ends of the edges, in one
direction or the other. -/
def relNeighs (n : ℕ) (r : ℕ → ℕ → Bool) (i : ℕ) : List ℕ :=
  if i < n then (List.range n).filter fun j => decide (i ≠ j) && (r i j || r j i) else []

theorem mem_relNeighs {n : ℕ} {r : ℕ → ℕ → Bool} {i j : ℕ} :
    j ∈ relNeighs n r i ↔ i < n ∧ j < n ∧ i ≠ j ∧ (r i j = true ∨ r j i = true) := by
  unfold relNeighs
  by_cases hi : i < n
  · rw [if_pos hi, List.mem_filter, List.mem_range]
    simp [hi]
  · rw [if_neg hi]
    simp [hi]

theorem get_ofFn_relNeighs (n : ℕ) (r : ℕ → ℕ → Bool) (i : ℕ) :
    Vec.get (Array.ofFn fun i : Fin n => relNeighs n r i) i = relNeighs n r i := by
  unfold Vec.get
  rw [Array.getD_eq_getD_getElem?, Array.getElem?_ofFn]
  split_ifs with hi
  · rfl
  · unfold relNeighs
    rw [if_neg hi]
    rfl

/-- The graph on `n` vertices whose edges are the pairs `r` relates. -/
def ofRel (n : ℕ) (r : ℕ → ℕ → Bool) : Graph :=
  have hget := get_ofFn_relNeighs n r
  { N := n
    edges := Array.ofFn fun i : Fin n => relNeighs n r i
    size_edges := Array.size_ofFn
    sorted i := by
      rw [hget]
      unfold relNeighs
      split_ifs
      · exact List.pairwise_lt_range.filter _
      · exact List.Pairwise.nil
    lt_N i x hx := by
      rw [hget] at hx
      exact (mem_relNeighs.mp hx).2.1
    symm i j hij := by
      rw [hget] at hij ⊢
      obtain ⟨hi, hj, hne, hr⟩ := mem_relNeighs.mp hij
      exact mem_relNeighs.mpr ⟨hj, hi, hne.symm, hr.symm⟩
    irrefl i hi := by
      rw [hget] at hi
      exact (mem_relNeighs.mp hi).2.2.1 rfl }

theorem neighs_ofRel (n : ℕ) (r : ℕ → ℕ → Bool) (i : ℕ) :
    (ofRel n r).neighs i = relNeighs n r i := get_ofFn_relNeighs n r i

end Graph

end ParallelEnum
