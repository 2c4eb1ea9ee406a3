import ParallelEnum.Util.Graph
import Mathlib.Data.Finset.Range

/-!
# Adjacency lists and the graph they describe

`areNeighs` decides adjacency, `fwdNeighs` lists the larger neighbours in ascending order, and a
vertex has no smaller neighbour exactly when its two degrees agree.
-/

namespace ParallelEnum.Graph

variable (g : Graph)

@[simp] theorem mem_vertices {v : ℕ} : v ∈ g.vertices ↔ v < g.N := Finset.mem_range

@[simp] theorem areNeighs_eq_true {a b : ℕ} :
    g.areNeighs a b = true ↔ g.toSimpleGraph.Adj a b := by
  unfold areNeighs
  exact decide_eq_true_iff

@[simp] theorem areNeighs_eq_false {a b : ℕ} :
    g.areNeighs a b = false ↔ ¬ g.toSimpleGraph.Adj a b := by
  rw [← areNeighs_eq_true, Bool.not_eq_true]

theorem adj_iff_mem {a b : ℕ} : g.toSimpleGraph.Adj a b ↔ b ∈ g.neighs a := Iff.rfl

instance : DecidableRel g.toSimpleGraph.Adj :=
  fun a b => inferInstanceAs (Decidable (b ∈ g.neighs a))

theorem areNeighs_comm (a b : ℕ) : g.areNeighs a b = g.areNeighs b a := by
  rw [Bool.eq_iff_iff, areNeighs_eq_true, areNeighs_eq_true]
  exact g.toSimpleGraph.adj_comm a b

@[simp] theorem areNeighs_self (a : ℕ) : g.areNeighs a a = false := by simp

theorem lt_of_adj {a b : ℕ} (h : g.toSimpleGraph.Adj a b) : a < g.N ∧ b < g.N :=
  ⟨g.lt_N b a (g.symm a b h), g.lt_N a b h⟩

theorem neighs_pairwise (n : ℕ) : (g.neighs n).Pairwise (· < ·) := g.sorted n

theorem neighs_nodup (n : ℕ) : (g.neighs n).Nodup :=
  (g.neighs_pairwise n).imp fun h => h.ne

/-- On an ascending list, cutting the part up to a bound off is filtering. -/
theorem dropWhile_le_eq_filter {l : List ℕ} (h : l.Pairwise (· < ·)) (n : ℕ) :
    l.dropWhile (· ≤ n) = l.filter (n < ·) := by
  induction l with
  | nil => rfl
  | cons x l ih =>
    obtain ⟨hx, hl⟩ := List.pairwise_cons.mp h
    by_cases hxn : x ≤ n
    · rw [List.dropWhile_cons_of_pos (by simpa using hxn),
        List.filter_cons_of_neg (by simpa using hxn), ih hl]
    · rw [List.dropWhile_cons_of_neg (by simpa using hxn), List.filter_eq_self.mpr]
      intro y hy
      rcases List.mem_cons.mp hy with rfl | hy
      · simpa using hxn
      · have := hx y hy
        simp only [decide_eq_true_eq]
        omega

/-- On an ascending list, the part up to a bound is what the bound allows. -/
theorem takeWhile_eq_filter {p : ℕ → Bool} (hp : ∀ a b, a < b → p b = true → p a = true)
    {l : List ℕ} (h : l.Pairwise (· < ·)) : l.takeWhile p = l.filter p := by
  induction l with
  | nil => rfl
  | cons x l ih =>
    obtain ⟨hx, hl⟩ := List.pairwise_cons.mp h
    by_cases hpx : p x = true
    · rw [List.takeWhile_cons_of_pos hpx, List.filter_cons_of_pos hpx, ih hl]
    · rw [List.takeWhile_cons_of_neg hpx, eq_comm, List.filter_eq_nil_iff]
      intro y hy
      rcases List.mem_cons.mp hy with rfl | hy
      · exact hpx
      · exact fun hpy => hpx (hp x y (hx y hy) hpy)

theorem fwdNeighs_eq_filter (n : ℕ) : g.fwdNeighs n = (g.neighs n).filter (n < ·) :=
  dropWhile_le_eq_filter (g.neighs_pairwise n) n

@[simp] theorem mem_fwdNeighs {n x : ℕ} :
    x ∈ g.fwdNeighs n ↔ g.toSimpleGraph.Adj n x ∧ n < x := by
  rw [fwdNeighs_eq_filter, List.mem_filter, decide_eq_true_iff, adj_iff_mem]

theorem fwdNeighs_pairwise (n : ℕ) : (g.fwdNeighs n).Pairwise (· < ·) :=
  (g.neighs_pairwise n).sublist (List.dropWhile_sublist _)

theorem fwdNeighs_nodup (n : ℕ) : (g.fwdNeighs n).Nodup :=
  (g.fwdNeighs_pairwise n).imp fun h => h.ne

/-- The test of a root: a vertex whose two degrees agree has no smaller neighbour. -/
theorem degree_eq_fwdDegree_iff (n : ℕ) :
    g.degree n = g.fwdDegree n ↔ ∀ x, g.toSimpleGraph.Adj n x → n < x := by
  unfold degree fwdDegree
  rw [fwdNeighs_eq_filter, eq_comm, List.length_filter_eq_length_iff]
  simp only [decide_eq_true_eq, adj_iff_mem]

end ParallelEnum.Graph
