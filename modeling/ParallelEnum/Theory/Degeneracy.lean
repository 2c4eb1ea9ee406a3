import Mathlib.Combinatorics.SimpleGraph.Basic
import Mathlib.Data.Finset.Card
import Mathlib.Data.Finset.Dedup
import Mathlib.Order.Lattice.Nat

/-!
# Degeneracy

The degeneracy of a set of vertices is the least `d` such that every nonempty part of the set has a
vertex with at most `d` neighbours in that part.

An order is smallest-last when each vertex has minimum degree among itself and the later ones.  In
such an order no vertex has more later neighbours than the degeneracy
(`SmallestLast.le_degeneracy`), and some vertex has as many (`SmallestLast.exists_eq_degeneracy`).
-/

namespace Degeneracy

variable {α : Type*} (G : SimpleGraph α) [DecidableRel G.Adj]

/-- The number of neighbours of `x` in `S`. -/
def degIn (S : Finset α) (x : α) : ℕ := (S.filter (G.Adj x)).card

/-- Every nonempty part of `S` has a vertex with at most `d` neighbours in it. -/
def IsDegenerate (S : Finset α) (d : ℕ) : Prop :=
  ∀ T ⊆ S, T.Nonempty → ∃ x ∈ T, degIn G T x ≤ d

/-- The least `d` for which `S` is `d`-degenerate. -/
noncomputable def degeneracy (S : Finset α) : ℕ := sInf {d | IsDegenerate G S d}

variable {G} {S T : Finset α} {d : ℕ} {l : List α}

theorem degIn_mono (h : T ⊆ S) (x : α) : degIn G T x ≤ degIn G S x :=
  Finset.card_le_card (Finset.filter_subset_filter _ h)

variable (G) in
theorem isDegenerate_card (S : Finset α) : IsDegenerate G S S.card := by
  rintro T hT ⟨x, hx⟩
  refine ⟨x, hx, ?_⟩
  exact (Finset.card_filter_le T (G.Adj x)).trans (Finset.card_le_card hT)

variable (G) in
theorem isDegenerate_degeneracy (S : Finset α) : IsDegenerate G S (degeneracy G S) :=
  Nat.sInf_mem (s := {d | IsDegenerate G S d}) ⟨S.card, isDegenerate_card G S⟩

theorem degeneracy_le (h : IsDegenerate G S d) : degeneracy G S ≤ d := Nat.sInf_le h

/-! ### Smallest-last orders -/

variable [DecidableEq α]

/-- A vertex is not a neighbour of itself. -/
theorem degIn_insert_self (S : Finset α) (v : α) : degIn G (insert v S) v = degIn G S v := by
  unfold degIn
  rw [Finset.filter_insert, if_neg (G.loopless.irrefl v)]

variable (G) in
/-- Each vertex of the order has minimum degree among itself and the later ones. -/
def SmallestLast (l : List α) : Prop :=
  ∀ a v b, l = a ++ v :: b → ∀ x ∈ v :: b,
    degIn G (v :: b).toFinset v ≤ degIn G (v :: b).toFinset x

/-- The first vertex of the order that belongs to a set. -/
theorem exists_first (h : T.Nonempty) (hsub : T ⊆ l.toFinset) :
    ∃ a v b, l = a ++ v :: b ∧ v ∈ T ∧ T ⊆ (v :: b).toFinset := by
  induction l with
  | nil =>
    obtain ⟨x, hx⟩ := h
    exact absurd (hsub hx) (by simp)
  | cons y l ih =>
    by_cases hy : y ∈ T
    · exact ⟨[], y, l, rfl, hy, hsub⟩
    · have hsub' : T ⊆ l.toFinset := by
        intro x hx
        have hmem := hsub hx
        rw [List.toFinset_cons, Finset.mem_insert] at hmem
        exact hmem.resolve_left fun hxy => hy (hxy ▸ hx)
      obtain ⟨a, v, b, rfl, hv, hb⟩ := ih hsub'
      exact ⟨y :: a, v, b, rfl, hv, hb⟩

/-- An order in which no vertex has more than `d` later neighbours. -/
theorem isDegenerate_of_order
    (h : ∀ a v b, l = a ++ v :: b → degIn G b.toFinset v ≤ d) : IsDegenerate G l.toFinset d := by
  intro T hT hne
  -- the first vertex of `T` in the order has only later neighbours in `T`
  obtain ⟨a, v, b, hl, hv, hsub⟩ := exists_first hne hT
  refine ⟨v, hv, ?_⟩
  calc degIn G T v ≤ degIn G (v :: b).toFinset v := degIn_mono hsub v
    _ = degIn G b.toFinset v := by rw [List.toFinset_cons, degIn_insert_self]
    _ ≤ d := h a v b hl

theorem SmallestLast.le_degeneracy (h : SmallestLast G l) {a b : List α} {v : α}
    (hl : l = a ++ v :: b) : degIn G b.toFinset v ≤ degeneracy G l.toFinset := by
  have hsub : (v :: b).toFinset ⊆ l.toFinset := by
    intro x hx
    rw [List.mem_toFinset] at hx ⊢
    rw [hl]
    exact List.mem_append_right a hx
  have hne : (v :: b).toFinset.Nonempty := ⟨v, List.mem_toFinset.mpr List.mem_cons_self⟩
  obtain ⟨x, hx, hdeg⟩ := isDegenerate_degeneracy G l.toFinset _ hsub hne
  calc degIn G b.toFinset v = degIn G (v :: b).toFinset v := by
        rw [List.toFinset_cons, degIn_insert_self]
    _ ≤ degIn G (v :: b).toFinset x := h a v b hl x (List.mem_toFinset.mp hx)
    _ ≤ degeneracy G l.toFinset := hdeg

theorem SmallestLast.exists_eq_degeneracy (h : SmallestLast G l) (hne : l ≠ []) :
    ∃ a v b, l = a ++ v :: b ∧ degIn G b.toFinset v = degeneracy G l.toFinset := by
  by_contra hnot
  push Not at hnot
  have hlt : ∀ a v b, l = a ++ v :: b → degIn G b.toFinset v < degeneracy G l.toFinset :=
    fun a v b hl => lt_of_le_of_ne (h.le_degeneracy hl) (hnot a v b hl)
  -- then a smaller `d` would do
  have hle : degeneracy G l.toFinset ≤ degeneracy G l.toFinset - 1 := by
    apply degeneracy_le
    apply isDegenerate_of_order
    intro a v b hl
    have := hlt a v b hl
    omega
  cases l with
  | nil => exact hne rfl
  | cons v b =>
    have := hlt [] v b rfl
    omega

end Degeneracy
