import ParallelEnum.Util.Equiv.Graph
import Mathlib.Data.List.GetD

/-!
# `Permute`

For an order that is a permutation of the vertices, `newPos` is its inverse and `newEdges` are the
lists of neighbours of a graph again, `Graph.permute`, in which `i` and `j` are adjacent when
`newOrder[i]` and `newOrder[j]` are.
-/

namespace ParallelEnum.Graph

variable (g : Graph) {newOrder : List ℕ}

section Order

variable {g} (h : newOrder.Perm (List.range g.N))
include h

theorem order_lt {i : ℕ} (hi : i < g.N) : newOrder.getD i 0 < g.N := by
  have hlen : i < newOrder.length := by
    rw [h.length_eq, List.length_range]
    exact hi
  rw [List.getD_eq_getElem _ _ hlen]
  exact List.mem_range.mp (h.mem_iff.mp (List.getElem_mem hlen))

theorem order_inj {i j : ℕ} (hi : i < g.N) (hj : j < g.N)
    (heq : newOrder.getD i 0 = newOrder.getD j 0) : i = j := by
  have hlen : newOrder.length = g.N := by
    rw [h.length_eq, List.length_range]
  have hnodup : newOrder.Nodup := h.nodup_iff.mpr List.nodup_range
  rw [List.getD_eq_getElem _ _ (hlen ▸ hi), List.getD_eq_getElem _ _ (hlen ▸ hj)] at heq
  exact hnodup.getElem_inj_iff.mp heq

theorem exists_order {x : ℕ} (hx : x < g.N) : ∃ i < g.N, newOrder.getD i 0 = x := by
  obtain ⟨i, hi, rfl⟩ := List.getElem_of_mem (h.mem_iff.mpr (List.mem_range.mpr hx))
  refine ⟨i, ?_, List.getD_eq_getElem _ _ hi⟩
  rw [h.length_eq, List.length_range] at hi
  exact hi

/-- The loop that fills `new_pos`, from any values that it may start with. -/
theorem newPos_loop {v : Vec ℕ} (hv : v.size = g.N) {m : ℕ} (hm : m ≤ g.N) :
    ((List.range m).foldl (fun v i => v.set (newOrder.getD i 0) i) v).size = g.N ∧
      ∀ i < m, ((List.range m).foldl (fun v i => v.set (newOrder.getD i 0) i) v).get
        (newOrder.getD i 0) = i := by
  induction m with
  | zero => exact ⟨hv, fun i hi => absurd hi (Nat.not_lt_zero i)⟩
  | succ m ih =>
    obtain ⟨h1, h2⟩ := ih (by omega)
    rw [List.range_succ, List.foldl_append, List.foldl_cons, List.foldl_nil]
    refine ⟨(Vec.size_set _ _ _).trans h1, fun i hi => ?_⟩
    by_cases him : i = m
    · rw [him]
      exact Vec.get_set_self (by rw [h1]; exact order_lt h (by omega)) _
    · rw [Vec.get_set_of_ne _ fun heq =>
        him (order_inj h (by omega) (by omega) heq).symm]
      exact h2 i (by omega)

/-- `new_pos` is the inverse of `new_order`. -/
theorem newPos_order {i : ℕ} (hi : i < g.N) : (g.newPos newOrder).get (newOrder.getD i 0) = i :=
  (newPos_loop h Array.size_replicate le_rfl).2 i hi

/-- The loop writes every entry. -/
theorem newPos_eq {v : Vec ℕ} (hv : v.size = g.N) :
    (List.range g.N).foldl (fun v i => v.set (newOrder.getD i 0) i) v = g.newPos newOrder := by
  obtain ⟨hsize, hloop⟩ := newPos_loop h hv le_rfl
  have hsize' : (g.newPos newOrder).size = g.N := (newPos_loop h Array.size_replicate le_rfl).1
  apply Vec.ext_get (hsize.trans hsize'.symm)
  intro x hx
  obtain ⟨i, hi, rfl⟩ := exists_order h (hsize ▸ hx)
  rw [hloop i hi, newPos_order h hi]

theorem order_newPos {x : ℕ} (hx : x < g.N) :
    (g.newPos newOrder).get x < g.N ∧ newOrder.getD ((g.newPos newOrder).get x) 0 = x := by
  obtain ⟨i, hi, rfl⟩ := exists_order h hx
  rw [newPos_order h hi]
  exact ⟨hi, rfl⟩

theorem newPos_inj {x y : ℕ} (hx : x < g.N) (hy : y < g.N)
    (heq : (g.newPos newOrder).get x = (g.newPos newOrder).get y) : x = y := by
  rw [← (order_newPos h hx).2, heq, (order_newPos h hy).2]

end Order

/-- The loop that pushes the neighbours of a vertex. -/
theorem foldl_push (f : ℕ → ℕ) (r : ℕ) (l : List ℕ) {edges : Vec (List ℕ)} (hr : r < edges.size) :
    l.foldl (fun edges x => edges.set r (edges.get r ++ [f x])) edges
      = edges.set r (edges.get r ++ l.map f) := by
  induction l generalizing edges with
  | nil => rw [List.map_nil, List.append_nil, Vec.set_get_self]; rfl
  | cons x l ih =>
    rw [List.foldl_cons, ih (by rw [Vec.size_set]; exact hr), Vec.get_set_self hr, Vec.set_set,
      List.append_assoc]
    rfl

/-- The list of neighbours of the vertex that `Permute` puts at position `newPos[i]`. -/
def newRow (newOrder : List ℕ) (i : ℕ) : List ℕ :=
  ((g.neighs i).map (g.newPos newOrder).get).insertionSort (· ≤ ·)

theorem newEdges_spec (h : newOrder.Perm (List.range g.N)) : (g.newEdges newOrder).size = g.N ∧
    ∀ i < g.N, (g.newEdges newOrder).get i = g.newRow newOrder (newOrder.getD i 0) := by
  set pos := (g.newPos newOrder).get with hpos
  have hloop : ∀ m ≤ g.N, ∀ edges, edges = (List.range m).foldl
      (fun edges i =>
        let edges := (g.neighs i).foldl
          (fun edges x => edges.set (pos i) (edges.get (pos i) ++ [pos x])) edges
        edges.set (pos i) ((edges.get (pos i)).insertionSort (· ≤ ·)))
      (Vec.zeros g.N : Vec (List ℕ)) →
      edges.size = g.N ∧ (∀ i < m, edges.get (pos i) = g.newRow newOrder i) ∧
        ∀ i < g.N, m ≤ i → edges.get (pos i) = [] := by
    intro m
    induction m with
    | zero =>
      rintro - edges rfl
      exact ⟨Vec.size_zeros _, fun i hi => absurd hi (Nat.not_lt_zero i),
        fun i _ _ => Vec.get_zeros _ _⟩
    | succ m ih =>
      rintro hm edges hedges
      obtain ⟨h1, h2, h3⟩ := ih (by omega) _ rfl
      have hlt := (order_newPos h (show m < g.N by omega)).1
      rw [List.range_succ, List.foldl_append, List.foldl_cons, List.foldl_nil] at hedges
      dsimp only at hedges
      rw [foldl_push pos (pos m) (g.neighs m) (by rw [h1]; exact hlt), h3 m (by omega) le_rfl,
        List.nil_append, Vec.set_set, Vec.get_set_self (by rw [h1]; exact hlt)] at hedges
      subst hedges
      refine ⟨(Vec.size_set _ _ _).trans h1, fun i hi => ?_, fun i hi hmi => ?_⟩
      · by_cases him : i = m
        · rw [him]
          exact Vec.get_set_self (by rw [h1]; exact hlt) _
        · rw [Vec.get_set_of_ne _ fun heq =>
            him (newPos_inj h (by omega) (by omega) heq).symm]
          exact h2 i (by omega)
      · rw [Vec.get_set_of_ne _ fun heq => by
          have := newPos_inj h (show m < g.N by omega) hi heq
          omega]
        exact h3 i hi (by omega)
  obtain ⟨h1, h2, -⟩ := hloop g.N le_rfl (g.newEdges newOrder) rfl
  refine ⟨h1, fun i hi => ?_⟩
  have hrow := h2 _ (order_lt h hi)
  rw [hpos, newPos_order h hi] at hrow
  exact hrow

theorem mem_newEdges (h : newOrder.Perm (List.range g.N)) {i j : ℕ} :
    j ∈ (g.newEdges newOrder).get i ↔
      i < g.N ∧ j < g.N ∧ g.toSimpleGraph.Adj (newOrder.getD i 0) (newOrder.getD j 0) := by
  obtain ⟨hsize, hrow⟩ := g.newEdges_spec h
  by_cases hi : i < g.N
  · rw [hrow i hi, and_iff_right hi]
    unfold newRow
    rw [List.mem_insertionSort, List.mem_map]
    constructor
    · rintro ⟨x, hx, rfl⟩
      obtain ⟨hlt, horder⟩ := order_newPos h (g.lt_of_adj hx).2
      rw [horder]
      exact ⟨hlt, hx⟩
    · rintro ⟨hj, hadj⟩
      exact ⟨_, hadj, newPos_order h hj⟩
  · rw [Vec.get_of_size_le (by omega)]
    exact iff_of_false List.not_mem_nil fun h' => hi h'.1

/-- `Permute`: vertex `newOrder[i]` goes to position `i`. -/
def permute (newOrder : List ℕ) (h : newOrder.Perm (List.range g.N)) : Graph where
  N := g.N
  edges := g.newEdges newOrder
  size_edges := (g.newEdges_spec h).1
  sorted i := by
    by_cases hi : i < g.N
    · rw [(g.newEdges_spec h).2 i hi]
      have hnodup : (g.newRow newOrder (newOrder.getD i 0)).Nodup := by
        unfold newRow
        rw [(List.perm_insertionSort _ _).nodup_iff]
        exact (g.neighs_nodup _).map_on fun x hx y hy heq =>
          newPos_inj h (g.lt_of_adj hx).2 (g.lt_of_adj hy).2 heq
      exact (List.pairwise_insertionSort (· ≤ ·) _).imp₂ (fun a b hle hne => lt_of_le_of_ne hle hne)
        hnodup
    · rw [Vec.get_of_size_le (by rw [(g.newEdges_spec h).1]; omega)]
      exact List.Pairwise.nil
  lt_N _ _ hx := ((g.mem_newEdges h).mp hx).2.1
  symm _ _ hij := by
    obtain ⟨hi, hj, hadj⟩ := (g.mem_newEdges h).mp hij
    exact (g.mem_newEdges h).mpr ⟨hj, hi, hadj.symm⟩
  irrefl _ hi := g.toSimpleGraph.loopless.irrefl _ ((g.mem_newEdges h).mp hi).2.2

theorem permute_adj (h : newOrder.Perm (List.range g.N)) {i j : ℕ} :
    (g.permute newOrder h).toSimpleGraph.Adj i j ↔
      i < g.N ∧ j < g.N ∧ g.toSimpleGraph.Adj (newOrder.getD i 0) (newOrder.getD j 0) :=
  g.mem_newEdges h

/-! ### Orders that change nothing, together or alone -/

variable {g}

/-- The order that undoes `newOrder`. -/
def inverseOrder (newOrder : List ℕ) : List ℕ :=
  (List.range newOrder.length).map newOrder.idxOf

section Inverse

variable (h : newOrder.Perm (List.range g.N))
include h

theorem getD_inverseOrder {x : ℕ} (hx : x < g.N) :
    (inverseOrder newOrder).getD x 0 = newOrder.idxOf x := by
  have hlen : newOrder.length = g.N := by rw [h.length_eq, List.length_range]
  unfold inverseOrder
  rw [List.getD_eq_getElem _ _ (by rw [List.length_map, List.length_range]; omega),
    List.getElem_map, List.getElem_range]

theorem order_inverseOrder {x : ℕ} (hx : x < g.N) :
    newOrder.getD ((inverseOrder newOrder).getD x 0) 0 = x := by
  have hlt : newOrder.idxOf x < newOrder.length :=
    List.idxOf_lt_length_of_mem (h.mem_iff.mpr (List.mem_range.mpr hx))
  rw [getD_inverseOrder h hx, List.getD_eq_getElem _ _ hlt, List.getElem_idxOf]

theorem inverseOrder_perm : (inverseOrder newOrder).Perm (List.range g.N) := by
  have hlen : newOrder.length = g.N := by rw [h.length_eq, List.length_range]
  have hmem : ∀ x ∈ List.range g.N, x ∈ newOrder := fun x hx => h.mem_iff.mpr hx
  unfold inverseOrder
  rw [hlen]
  have hnodup : ((List.range g.N).map newOrder.idxOf).Nodup := by
    refine List.nodup_range.map_on fun x hx y hy heq => ?_
    exact (List.idxOf_inj (hmem x hx)).mp heq
  have hsub : (List.range g.N).map newOrder.idxOf ⊆ List.range g.N := by
    intro i hi
    obtain ⟨x, hx, rfl⟩ := List.mem_map.mp hi
    rw [List.mem_range, ← hlen]
    exact List.idxOf_lt_length_of_mem (hmem x hx)
  exact (List.subperm_of_subset hnodup hsub).perm_of_length_le (by simp)

end Inverse

/-- A graph is known by its edges. -/
theorem ext_adj {g g' : Graph} (hN : g.N = g'.N)
    (hadj : ∀ i j, g.toSimpleGraph.Adj i j ↔ g'.toSimpleGraph.Adj i j) : g = g' := by
  have hneighs : ∀ i, g.edges.get i = g'.edges.get i := fun i =>
    (g.sorted i).eq_of_mem_iff (g'.sorted i) (hadj i)
  have hedges : g.edges = g'.edges := by
    apply Vec.ext_get
    · rw [g.size_edges, g'.size_edges, hN]
    · exact fun i _ => hneighs i
  cases g
  cases g'
  cases hN
  cases hedges
  rfl

/-- A permutation of a graph that has the edges of another one. -/
theorem permute_eq_of_adj {g' : Graph} (h : newOrder.Perm (List.range g.N)) (hN : g.N = g'.N)
    (hadj : ∀ i < g.N, ∀ j < g.N, g.toSimpleGraph.Adj (newOrder.getD i 0) (newOrder.getD j 0) ↔
      g'.toSimpleGraph.Adj i j) : g.permute newOrder h = g' := by
  refine ext_adj (g := g.permute newOrder h) hN fun i j => ?_
  rw [permute_adj]
  constructor
  · rintro ⟨hi, hj, hij⟩
    exact (hadj i hi j hj).mp hij
  · intro hij
    obtain ⟨hi, hj⟩ := g'.lt_of_adj hij
    rw [← hN] at hi hj
    exact ⟨hi, hj, (hadj i hi j hj).mpr hij⟩

theorem permute_range : g.permute (List.range g.N) (List.Perm.refl _) = g := by
  have hget : ∀ i < g.N, (List.range g.N).getD i 0 = i := by
    intro i hi
    rw [List.getD_eq_getElem _ _ (by rwa [List.length_range]), List.getElem_range]
  refine permute_eq_of_adj _ rfl fun i hi j hj => ?_
  rw [hget i hi, hget j hj]

theorem permute_inverseOrder (h : newOrder.Perm (List.range g.N)) :
    (g.permute newOrder h).permute (inverseOrder newOrder) (inverseOrder_perm h) = g := by
  refine permute_eq_of_adj _ rfl fun i hi j hj => ?_
  have hlt : ∀ x < g.N, (inverseOrder newOrder).getD x 0 < g.N := fun x hx =>
    order_lt (inverseOrder_perm h) hx
  rw [permute_adj, order_inverseOrder h hi, order_inverseOrder h hj]
  exact ⟨fun hij => hij.2.2, fun hij => ⟨hlt i hi, hlt j hj, hij⟩⟩

end ParallelEnum.Graph
