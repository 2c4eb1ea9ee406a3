import ParallelEnum.Enumerable.ConnectedHereditary
import ParallelEnum.Theory.ConnectedHereditary

/-!
# What a derived class of `CHSystem` has to do

`Lawful sys P` is the contract of the virtual functions: `IsGood` accepts the connected sets that
satisfy `P`, `CompleteCandNum` and `RestrictedProblem` list what they are to list, and the other
virtual functions are not overridden.  `LawfulComplete` is the part of it that `Complete` relies on.
-/

namespace ParallelEnum.CHSystem

open BreadthFirst ConnectedHereditary

variable (sys : CHSystem)

/-- The number of nodes. -/
abbrev size : ℕ := sys.base.graphSize

/-- The graph `IsNeigh` describes. -/
def graph : SimpleGraph ℕ :=
  SimpleGraph.fromRel fun u v => u < sys.size ∧ v < sys.size ∧ sys.isNeigh u v = true

instance : DecidableRel sys.graph.Adj := fun u v =>
  inferInstanceAs (Decidable (u ≠ v ∧ (_ ∨ _)))

/-- The neighbours of a node, in ascending order; those in the ground set when one is given. -/
def neighbours (groundSet : Option (List ℕ)) (u : ℕ) : List ℕ :=
  (List.range sys.size).filter fun w =>
    sys.isNeigh u w && groundSet.all fun ground => ground.contains w

/-- The contract of a derived class. -/
structure Lawful (P : Finset ℕ → Prop) : Prop where
  isNeigh_symm : ∀ u < sys.size, ∀ v < sys.size, sys.isNeigh u v = sys.isNeigh v u
  isNeigh_irrefl : ∀ u < sys.size, sys.isNeigh u u = false
  /-- `P` is inherited by subsets and true on singletons. -/
  property_mono : ∀ S T : Finset ℕ, S ⊆ T → P T → P S
  property_singleton : ∀ u < sys.size, P {u}
  /-- A good set is a connected set with the property. -/
  isGood_iff : ∀ s : List ℕ, (∀ u ∈ s, u < sys.size) →
    (sys.base.isGood s = true ↔ Good sys.graph P s.toFinset)
  completeCandNum_eq : ∀ (groundSet : Option (List ℕ)) (u iteratorNum idx : ℕ), u < sys.size →
    sys.base.completeCandNum groundSet u iteratorNum idx = (sys.neighbours groundSet u)[idx]?
  /-- `RestrictedProblem` calls back once with each maximal good subset of `s` and `v` which
  contains `v`. -/
  restrictedProblem_nodup : ∀ (s : List ℕ) (v : ℕ), s.Nodup → (∀ u ∈ s, u < sys.size) →
    sys.base.isGood s = true → v < sys.size → v ∉ s →
      ((sys.base.restrictedProblem s v).map List.toFinset).Nodup ∧
        ∀ sol ∈ sys.base.restrictedProblem s v, sol.Nodup
  mem_restrictedProblem : ∀ (s : List ℕ) (v : ℕ), s.Nodup → (∀ u ∈ s, u < sys.size) →
    sys.base.isGood s = true → v < sys.size → v ∉ s → ∀ K : Finset ℕ,
      K ∈ (sys.base.restrictedProblem s v).map List.toFinset ↔
        Maximal (fun K => Good sys.graph P K ∧ K ⊆ insert v s.toFinset ∧ v ∈ K) K
  /-- The other virtual functions are the defaults. -/
  canAdd_eq : ∀ s v, sys.base.canAdd s v = sys.base.isGood (s ++ [v])
  restrMultiple_eq : sys.base.restrMultiple = true
  restrictedCands_eq : ∀ s level, sys.base.restrictedCands s level
    = (List.range sys.size).filter fun i => !s.contains i

/-- What `Complete` relies on, for one ground set. -/
structure LawfulComplete (P : Finset ℕ → Prop) (groundSet : Option (List ℕ)) : Prop where
  isNeigh_symm : ∀ u < sys.size, ∀ v < sys.size, sys.isNeigh u v = sys.isNeigh v u
  isNeigh_irrefl : ∀ u < sys.size, sys.isNeigh u u = false
  property_mono : ∀ S T : Finset ℕ, S ⊆ T → P T → P S
  isGood_iff : ∀ s : List ℕ, (∀ u ∈ s, u < sys.size) →
    (sys.base.isGood s = true ↔ Good sys.graph P s.toFinset)
  completeCandNum_eq : ∀ u iteratorNum idx : ℕ, u < sys.size →
    sys.base.completeCandNum groundSet u iteratorNum idx = (sys.neighbours groundSet u)[idx]?
  canAdd_eq : ∀ s v, sys.base.canAdd s v = sys.base.isGood (s ++ [v])

/-- The sets of nodes with the property. -/
def Property (P : Finset ℕ → Prop) (S : Finset ℕ) : Prop := P S ∧ S ⊆ Finset.range sys.size

variable {sys} {P : Finset ℕ → Prop} {groundSet : Option (List ℕ)}

theorem graph_adj_iff
    (hsymm : ∀ u < sys.size, ∀ v < sys.size, sys.isNeigh u v = sys.isNeigh v u)
    (hirrefl : ∀ u < sys.size, sys.isNeigh u u = false) {u v : ℕ} (hu : u < sys.size)
    (hv : v < sys.size) : sys.graph.Adj u v ↔ sys.isNeigh u v = true := by
  unfold graph
  rw [SimpleGraph.fromRel_adj]
  constructor
  · rintro ⟨-, ⟨-, -, huv⟩ | ⟨-, -, hvu⟩⟩
    · exact huv
    · rwa [hsymm u hu v hv]
  · intro huv
    refine ⟨?_, Or.inl ⟨hu, hv, huv⟩⟩
    rintro rfl
    rw [hirrefl u hu] at huv
    cases huv

theorem neighbours_pairwise (groundSet : Option (List ℕ)) (u : ℕ) :
    (sys.neighbours groundSet u).Pairwise (· < ·) :=
  List.Pairwise.filter _ List.pairwise_lt_range

theorem length_neighbours_le (groundSet : Option (List ℕ)) (u : ℕ) :
    (sys.neighbours groundSet u).length ≤ sys.size := by
  refine (List.length_filter_le _ _).trans ?_
  rw [List.length_range]

namespace LawfulComplete

variable (h : LawfulComplete sys P groundSet)

include h

theorem hereditary : Hereditary (Finset.range sys.size) (sys.Property P) where
  mono hST hT := ⟨h.property_mono _ _ hST hT.1, hST.trans hT.2⟩
  subset hS := hS.2

theorem adj_iff {u v : ℕ} (hu : u < sys.size) (hv : v < sys.size) :
    sys.graph.Adj u v ↔ sys.isNeigh u v = true :=
  graph_adj_iff h.isNeigh_symm h.isNeigh_irrefl hu hv

theorem mem_neighbours {u w : ℕ} (hu : u < sys.size) :
    w ∈ sys.neighbours groundSet u ↔
      w < sys.size ∧ sys.graph.Adj u w ∧ ∀ ground, groundSet = some ground → w ∈ ground := by
  unfold neighbours
  rw [List.mem_filter, List.mem_range, Bool.and_eq_true]
  refine and_congr_right fun hw => and_congr (h.adj_iff hu hw).symm ?_
  cases groundSet with
  | none => simp
  | some ground => simp

/-- `IsGood` on a set of nodes. -/
theorem isGood_eq {s : List ℕ} (hs : ∀ u ∈ s, u < sys.size) :
    sys.base.isGood s = true ↔ Good sys.graph (sys.Property P) s.toFinset := by
  rw [h.isGood_iff s hs]
  refine and_congr_right fun _ => ⟨fun hP => ⟨hP, fun u hu => ?_⟩, fun hP => hP.1⟩
  exact Finset.mem_range.mpr (hs u (List.mem_toFinset.mp hu))

end LawfulComplete

namespace Lawful

variable (h : Lawful sys P)

include h

theorem complete (groundSet : Option (List ℕ)) : LawfulComplete sys P groundSet where
  isNeigh_symm := h.isNeigh_symm
  isNeigh_irrefl := h.isNeigh_irrefl
  property_mono := h.property_mono
  isGood_iff := h.isGood_iff
  completeCandNum_eq := h.completeCandNum_eq groundSet
  canAdd_eq := h.canAdd_eq

theorem hereditary : Hereditary (Finset.range sys.size) (sys.Property P) :=
  (h.complete none).hereditary

end Lawful

end ParallelEnum.CHSystem
