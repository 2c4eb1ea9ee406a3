import ParallelEnum.Enumerable.Equiv.ConnectedHereditary.Resort

/-!
# `Resort` on any set

`resort_eq_dist`: for a symmetric and irreflexive `IsNeigh`, `Resort` keeps the elements that are
connected to the seed inside the set, with their distances from it.
-/

namespace ParallelEnum.CHSystem

open BreadthFirst

variable (sys : CHSystem)

/-- The graph of a symmetric and irreflexive `IsNeigh`. -/
def neighGraph (hsymm : ∀ u v, sys.isNeigh u v = sys.isNeigh v u)
    (hirrefl : ∀ u, sys.isNeigh u u = false) : SimpleGraph ℕ where
  Adj u v := sys.isNeigh u v = true
  symm := ⟨fun u v h => (hsymm v u).trans h⟩
  loopless := ⟨fun u h => Bool.false_ne_true ((hirrefl u).symm.trans h)⟩

/-- **`Resort` is breadth-first search.** It terminates and replaces a set without repetitions by
the elements that are connected to the seed inside the set, each with its distance from the seed in
the graph induced on the set.  Levels and elements are strictly ascending, and are the same for
every other order of the set. -/
theorem resort_eq_dist (hsymm : ∀ u v, sys.isNeigh u v = sys.isNeigh v u)
    (hirrefl : ∀ u, sys.isNeigh u u = false) (s level : List ℕ) (hs : s.Nodup) (seed : ℕ)
    (hseed : seed ∈ s) :
    ∃ L : List (Key ℕ), sys.resort s level seed = some (nodes L, levels L) ∧
      (∀ u, u ∈ nodes L ↔ ∃ hu : u ∈ s,
        ((sys.neighGraph hsymm hirrefl).induce {u | u ∈ s}).Reachable ⟨seed, hseed⟩ ⟨u, hu⟩) ∧
      (nodes L).Nodup ∧
      (∀ k ∈ L, ∃ hk : k.node ∈ s, k.level
        = ((sys.neighGraph hsymm hirrefl).induce {u | u ∈ s}).dist ⟨seed, hseed⟩ ⟨k.node, hk⟩) ∧
      L.Pairwise (· < ·) ∧ (∀ k ∈ L, k.level < s.length) ∧
      ∀ s' level' : List ℕ, s'.Nodup → (∀ u, u ∈ s' ↔ u ∈ s) →
        sys.resort s' level' seed = some (nodes L, levels L) := by
  let instDecidable : DecidableRel (sys.neighGraph hsymm hirrefl).Adj :=
    fun u v => inferInstanceAs (Decidable (sys.isNeigh u v = true))
  have hG : ∀ (s : List ℕ), ∀ u ∈ s, ∀ v ∈ s,
      (sys.neighGraph hsymm hirrefl).Adj u v ↔ sys.isNeigh u v = true :=
    fun _ u _ v _ => Iff.rfl
  obtain ⟨L, visited, hrun, hS, -, hlayout⟩ := exists_resort (hG s) hseed level
  have hL := hlayout hs
  have hsub : ∀ u ∈ nodes L, u ∈ {u | u ∈ s} := fun u hu => hS.subset_of_done hu
  have hclosed : ∀ k ∈ L, ∀ u ∈ {u | u ∈ s}, (sys.neighGraph hsymm hirrefl).Adj k.node u →
      u ∈ nodes L := fun k hk u hu hadj => hS.mem_of_isNeigh hk hu hadj
  refine ⟨L, hrun, fun u => hL.mem_nodes_iff_reachable hsub hclosed hseed, hL.nodup_nodes,
    fun k hk => ⟨hsub _ (node_mem hk), hL.level_eq_dist hsub hclosed hseed hk _⟩, hL.pairwise_lt,
    fun k hk => ?_, fun s' level' hs' hsame => ?_⟩
  · have hlength := hS.length_le
    rw [List.length_nil, Nat.add_zero] at hlength
    exact (hL.level_lt k hk).trans_le hlength
  · have hseed' : seed ∈ s' := (hsame seed).mpr hseed
    obtain ⟨L', visited', hrun', hS', -, hlayout'⟩ := exists_resort (hG s') hseed' level'
    have hL' := hlayout' hs'
    -- both layouts have the nodes that can be reached inside the set
    have hsub' : ∀ u ∈ nodes L', u ∈ {u | u ∈ s} :=
      fun u hu => (hsame u).mp (hS'.subset_of_done hu)
    have hclosed' : ∀ k ∈ L', ∀ u ∈ {u | u ∈ s}, (sys.neighGraph hsymm hirrefl).Adj k.node u →
        u ∈ nodes L' := fun k hk u hu hadj => hS'.mem_of_isNeigh hk ((hsame u).mpr hu) hadj
    have hnodes : ∀ u, u ∈ nodes L' ↔ u ∈ nodes L := by
      intro u
      rw [hL'.mem_nodes_iff_reachable hsub' hclosed' hseed,
        hL.mem_nodes_iff_reachable hsub hclosed hseed]
    rw [hrun', hL'.eq_of_nodes hL hnodes]

/-- A system whose graph is the path of all numbers. -/
def path : CHSystem where
  base := { graphSize := 6, isGood := fun _ => true, restrictedProblem := fun _ _ => [] }
  isNeigh u v := u + 1 == v || v + 1 == u

/-- Five is not connected to the rest. -/
theorem resort_eq_dist_path : ∃ L : List (Key ℕ),
    path.resort [2, 5, 0, 1] [] 1 = some (nodes L, levels L) ∧ (nodes L).Nodup ∧
      L.Pairwise (· < ·) := by
  have hsymm : ∀ u v, path.isNeigh u v = path.isNeigh v u := fun u v => Bool.or_comm _ _
  have hirrefl : ∀ u, path.isNeigh u u = false := by
    intro u
    show (u + 1 == u || u + 1 == u) = false
    simp
  obtain ⟨L, hrun, -, hnodup, -, hsorted, -⟩ :=
    resort_eq_dist path hsymm hirrefl [2, 5, 0, 1] [] (by decide) 1 (by decide)
  exact ⟨L, hrun, hnodup, hsorted⟩

example : path.resort [2, 5, 0, 1] [] 1 = some ([1, 0, 2], [0, 1, 1]) := by decide

end ParallelEnum.CHSystem
