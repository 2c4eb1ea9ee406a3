import ParallelEnum.Permute.Equiv.Permute
import ParallelEnum.Util.Equiv.Permute
import ParallelEnum.Theory.Degeneracy

/-!
# The degeneracy order attains the degeneracy

`Order.round` says that each round takes a vertex of minimum degree, so the order is smallest-last.
The larger neighbours of a vertex of `graph.Permute(DegeneracyOrder(graph))` are the later
neighbours of the vertex in the order (`fwdDegree_permute`), and so there are at most as many as the
degeneracy of the graph, and for some vertex as many.
-/

namespace ParallelEnum

open Degeneracy (SmallestLast degeneracy degIn)

variable (g : Graph)

/-- Each vertex of the order has minimum degree among the vertices that are not before it. -/
def TakesSmallest (order : List ℕ) : Prop :=
  ∀ a v b, order = a ++ v :: b → ∀ x < g.N, x ∉ a →
    degIn g.toSimpleGraph (g.vertices \ a.toFinset) v
      ≤ degIn g.toSimpleGraph (g.vertices \ a.toFinset) x

/-- What the rounds have appended so far. -/
theorem takesSmallest_rounds (m : ℕ) (hm : m ≤ g.N) :
    TakesSmallest g ((List.range m).foldl (fun s _ => Buckets.round g s)
      (Buckets.init g, 0)).1.perm := by
  induction m with
  | zero =>
    intro a v b hperm
    rw [List.range_zero, List.foldl_nil, (Buckets.placed_init g).2.1] at hperm
    exact absurd hperm.symm (by simp)
  | succ m ih =>
    obtain ⟨horder, hlen, -⟩ := Buckets.order_rounds (g := g) m (by omega) _ rfl
    rw [List.range_succ, List.foldl_append, List.foldl_cons, List.foldl_nil]
    set t := (List.range m).foldl (fun s _ => Buckets.round g s) (Buckets.init g, 0) with ht
    obtain ⟨u, -, hmin, hround, -⟩ := horder.round (horder.rest_nonempty (by omega))
    intro a v b hperm
    have hperm : t.1.perm ++ [u] = a ++ v :: b := hround.symm.trans hperm
    rcases List.eq_nil_or_concat b with rfl | ⟨b, w, rfl⟩
    · -- the vertex of this round
      obtain ⟨rfl, huv⟩ := List.append_inj' hperm rfl
      obtain ⟨rfl, -⟩ := List.cons_eq_cons.mp huv
      exact fun x hx hxa => hmin x (Buckets.mem_rest.mpr ⟨hx, hxa⟩)
    · rw [List.concat_eq_append, ← List.cons_append, ← List.append_assoc] at hperm
      exact ih (by omega) a v b (List.append_inj' hperm rfl).1

theorem takesSmallest_degeneracyOrder : TakesSmallest g (degeneracyOrder g) :=
  takesSmallest_rounds g g.N le_rfl

variable {g} {order : List ℕ}

/-- The vertices that are not before a vertex are the vertex and the later ones. -/
theorem TakesSmallest.smallestLast (h : TakesSmallest g order)
    (hperm : order.Perm (List.range g.N)) : SmallestLast g.toSimpleGraph order := by
  rintro a v b rfl x hx
  have hnodup : (a ++ v :: b).Nodup := hperm.nodup_iff.mpr List.nodup_range
  have hmem : ∀ y, y ∈ v :: b ↔ y < g.N ∧ y ∉ a := by
    intro y
    have hy : y ∈ a ++ v :: b ↔ y < g.N := by rw [hperm.mem_iff, List.mem_range]
    rw [List.mem_append] at hy
    constructor
    · intro hyb
      exact ⟨hy.mp (Or.inr hyb), fun hya => List.disjoint_of_nodup_append hnodup hya hyb⟩
    · rintro ⟨hlt, hya⟩
      exact (hy.mpr hlt).resolve_left hya
  have hset : g.vertices \ a.toFinset = (v :: b).toFinset := by
    ext y
    rw [Finset.mem_sdiff, g.mem_vertices, List.mem_toFinset, List.mem_toFinset, hmem]
  rw [← hset]
  exact h a v b rfl x ((hmem x).mp hx).1 ((hmem x).mp hx).2

/-- The larger neighbours in the permuted graph are the later neighbours in the order. -/
theorem fwdDegree_permute (hperm : order.Perm (List.range g.N)) {a b : List ℕ} {v : ℕ}
    (ho : order = a ++ v :: b) :
    (g.permute order hperm).fwdDegree a.length = degIn g.toSimpleGraph b.toFinset v := by
  subst ho
  have hlen : a.length + (b.length + 1) = g.N := by
    rw [← List.length_range (n := g.N), ← hperm.length_eq, List.length_append, List.length_cons]
  have hv : (a ++ v :: b).getD a.length 0 = v := by
    rw [List.getD_append_right _ _ _ _ le_rfl, Nat.sub_self, List.getD_cons_zero]
  have hb : ∀ j, (a ++ v :: b).getD (a.length + (j + 1)) 0 = b.getD j 0 := by
    intro j
    rw [List.getD_append_right _ _ _ _ (Nat.le_add_right _ _), Nat.add_sub_cancel_left,
      List.getD_cons_succ]
  have himage : ((g.permute (a ++ v :: b) hperm).fwdNeighs a.length).toFinset.image
      (fun j => (a ++ v :: b).getD j 0) = b.toFinset.filter (g.toSimpleGraph.Adj v) := by
    ext x
    simp only [Finset.mem_image, List.mem_toFinset, Graph.mem_fwdNeighs, Graph.permute_adj,
      Finset.mem_filter, hv]
    constructor
    · rintro ⟨j, ⟨⟨-, hj, hadj⟩, hlt⟩, rfl⟩
      obtain ⟨i, rfl⟩ : ∃ i, j = a.length + (i + 1) := ⟨j - a.length - 1, by omega⟩
      refine ⟨?_, hadj⟩
      rw [hb, List.getD_eq_getElem _ _ (by omega)]
      exact List.getElem_mem _
    · rintro ⟨hx, hadj⟩
      obtain ⟨i, hi, rfl⟩ := List.getElem_of_mem hx
      have hget : (a ++ v :: b).getD (a.length + (i + 1)) 0 = b[i] := by
        rw [hb, List.getD_eq_getElem _ _ hi]
      refine ⟨a.length + (i + 1), ⟨⟨by omega, by omega, ?_⟩, by omega⟩, hget⟩
      rw [hget]
      exact hadj
  unfold degIn Graph.fwdDegree
  rw [← himage, Finset.card_image_of_injOn, List.toFinset_card_of_nodup (Graph.fwdNeighs_nodup _ _)]
  intro i hi j hj heq
  rw [Finset.mem_coe, List.mem_toFinset, Graph.mem_fwdNeighs, Graph.permute_adj] at hi hj
  exact Graph.order_inj hperm hi.1.2.1 hj.1.2.1 heq

/-- **`DegeneracyOrder` stays within its arrays, takes a vertex of minimum degree each time, and
the graph renumbered by it attains the degeneracy.** -/
theorem degeneracyOrder_spec (g : Graph) :
    degeneracyOrderChecked g = some (degeneracyOrder g) ∧
    (degeneracyOrder g).Perm (List.range g.N) ∧
    TakesSmallest g (degeneracyOrder g) ∧
    (∀ v < g.N, (g.permute (degeneracyOrder g) (degeneracyOrder_perm g)).fwdDegree v
      ≤ degeneracy g.toSimpleGraph g.vertices) ∧
    (0 < g.N → ∃ v < g.N, (g.permute (degeneracyOrder g) (degeneracyOrder_perm g)).fwdDegree v
      = degeneracy g.toSimpleGraph g.vertices) := by
  have hperm := degeneracyOrder_perm g
  have htakes := takesSmallest_degeneracyOrder g
  have hlast := htakes.smallestLast hperm
  have hset : (degeneracyOrder g).toFinset = g.vertices := by
    ext x
    rw [List.mem_toFinset, hperm.mem_iff, List.mem_range, g.mem_vertices]
  have hlen : (degeneracyOrder g).length = g.N := by rw [hperm.length_eq, List.length_range]
  refine ⟨degeneracyOrderChecked_eq g, hperm, htakes, ?_, ?_⟩
  · intro v hv
    have hv : v < (degeneracyOrder g).length := hlen ▸ hv
    have hsplit : degeneracyOrder g = (degeneracyOrder g).take v
        ++ (degeneracyOrder g)[v] :: (degeneracyOrder g).drop (v + 1) := by
      rw [List.getElem_cons_drop, List.take_append_drop]
    have hle := hlast.le_degeneracy hsplit
    rw [← fwdDegree_permute hperm hsplit, List.length_take, Nat.min_eq_left hv.le, hset] at hle
    exact hle
  · intro hpos
    obtain ⟨a, v, b, hsplit, heq⟩ :=
      hlast.exists_eq_degeneracy (List.ne_nil_of_length_pos (hlen ▸ hpos))
    rw [← fwdDegree_permute hperm hsplit, hset] at heq
    refine ⟨a.length, ?_, heq⟩
    rw [← hlen, hsplit, List.length_append, List.length_cons]
    omega

/-- In the graph without vertices no vertex attains the degeneracy. -/
theorem not_attained_empty : ¬ ∃ v < (Graph.ofRel 0 fun _ _ => false).N,
    ((Graph.ofRel 0 fun _ _ => false).permute (degeneracyOrder _)
      (degeneracyOrder_perm _)).fwdDegree v
        = degeneracy (Graph.ofRel 0 fun _ _ => false).toSimpleGraph
          (Graph.ofRel 0 fun _ _ => false).vertices := by
  rintro ⟨v, hv, -⟩
  exact Nat.not_lt_zero v hv

end ParallelEnum
