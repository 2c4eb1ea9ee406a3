import ParallelEnum.Theory.ConnectedHereditary

/-!
# The order in which search meets the elements of a layout

Search from the first node of a layout that adds to the layout whatever it can meets the elements of
the layout too, but a node that has been added can bring an element closer, so that it is met before
elements that come before it in the layout.

* `Meets`: the keys that search meets, up to the first node below the one it starts from.
* `MeetsInOrder`: the elements of the layout are met in their order, also when search starts again
  from such a node.
* `Meets.isPrefix_total`: there is one search; `Meets.unique`: it stops at one node.
-/

namespace ConnectedHereditary

open BreadthFirst

variable {α : Type*} [LinearOrder α] (G : SimpleGraph α) [DecidableRel G.Adj] (H : Finset α → Prop)

/-- The keys of `A` are those that search from `m` meets first, when it adds to `S` every node that
it can; none of them is below `m`. -/
inductive Meets (S : Finset α) (m : α) : List (Key α) → Prop
  | root : Meets S m [⟨0, m⟩]
  | snoc {A : List (Key α)} {k : Key α} : Meets S m A → IsNext G H (S ∪ nodeSet A) A k →
      m ≤ k.node → Meets S m (A ++ [k])

/-- The nodes of `A` that are in `L` are the first ones of `L`, in their order. -/
def Follows (A L : List (Key α)) : Prop := (nodes A).filter (· ∈ nodes L) <+: nodes L

/-- Search from `m` meets the elements of `L` in their order, up to the first node below `m`, and
from there on search meets what has been found in its order again. -/
inductive MeetsInOrder : α → List (Key α) → Prop
  | intro {m : α} {L : List (Key α)} : (∀ A, Meets G H (nodeSet L) m A → Follows A L) →
      (∀ A k M, Meets G H (nodeSet L) m A → IsNext G H (nodeSet L ∪ nodeSet A) A k → k.node < m →
        Layout G k.node M → nodeSet M = insert k.node (nodeSet L ∪ nodeSet A) →
        MeetsInOrder k.node M) →
      MeetsInOrder m L

variable {G H} {S : Finset α} {m : α} {A B L : List (Key α)} {k l : Key α}

/-! ### The search -/

namespace Meets

theorem exists_cons (h : Meets G H S m A) : ∃ R, A = ⟨0, m⟩ :: R := by
  induction h with
  | root => exact ⟨[], rfl⟩
  | snoc _ _ _ ih =>
    obtain ⟨R, rfl⟩ := ih
    exact ⟨R ++ [_], rfl⟩

theorem ne_nil (h : Meets G H S m A) : A ≠ [] := by
  obtain ⟨R, rfl⟩ := h.exists_cons
  exact List.cons_ne_nil _ _

theorem root_mem (h : Meets G H S m A) : m ∈ nodes A := by
  obtain ⟨R, rfl⟩ := h.exists_cons
  exact List.mem_cons_self

theorem nodup_nodes (h : Meets G H S m A) : (nodes A).Nodup := by
  induction h with
  | root => exact List.nodup_singleton m
  | snoc _ hk _ ih =>
    rw [nodes_append]
    refine List.nodup_append.mpr ⟨ih, List.nodup_singleton _, ?_⟩
    rintro u hu v hv rfl
    exact hk.1.2.1 (List.mem_singleton.mp hv ▸ hu)

theorem le (h : Meets G H S m A) : ∀ u ∈ nodes A, m ≤ u := by
  induction h with
  | root => simp
  | snoc _ _ hm ih =>
    intro u hu
    rw [nodes_append, List.mem_append] at hu
    rcases hu with hu | hu
    · exact ih u hu
    · rwa [List.mem_singleton.mp hu]

/-- Search that has met more than `A` has met the smallest key that could be added to `A`. -/
theorem eq_or_isPrefix (h : Meets G H S m B) (hAB : A <+: B) (hA : A ≠ [])
    (hk : IsNext G H (S ∪ nodeSet A) A k) : A = B ∨ A ++ [k] <+: B ∧ m ≤ k.node := by
  induction h with
  | root => exact Or.inl (hAB.eq_of_length_le (List.length_pos_iff.mpr hA))
  | @snoc B b _ hb hm ih =>
    rcases List.prefix_concat_iff.mp hAB with hAB | hAB
    · exact Or.inl (by simpa using hAB)
    · rcases ih hAB with rfl | ⟨hpre, hle⟩
      · obtain rfl := hb.unique hk
        exact Or.inr ⟨List.prefix_refl _, hm⟩
      · exact Or.inr ⟨hpre.trans (List.prefix_append _ _), hle⟩

/-- Search ends where nothing can be added. -/
theorem eq_of_done (h : Meets G H S m B) (hAB : A <+: B) (hA : A ≠ [])
    (hnone : ∀ k, ¬ IsCand G H (S ∪ nodeSet A) A k) : A = B := by
  induction h with
  | root => exact hAB.eq_of_length_le (List.length_pos_iff.mpr hA)
  | @snoc B b _ hb _ ih =>
    rcases List.prefix_concat_iff.mp hAB with hAB | hAB
    · simpa using hAB
    · obtain rfl := ih hAB
      exact absurd hb.1 (hnone b)

/-- **There is one search.** -/
theorem isPrefix_total (hA : Meets G H S m A) (hB : Meets G H S m B) : A <+: B ∨ B <+: A := by
  induction hA with
  | root =>
    obtain ⟨R, rfl⟩ := hB.exists_cons
    exact Or.inl ⟨R, rfl⟩
  | snoc hA hk _ ih =>
    rcases ih with hAB | hBA
    · rcases hB.eq_or_isPrefix hAB hA.ne_nil hk with rfl | ⟨hpre, -⟩
      · exact Or.inr (List.prefix_append _ _)
      · exact Or.inl hpre
    · exact Or.inr (hBA.trans (List.prefix_append _ _))

/-- Search does not go on at a node below the one it has started from. -/
theorem eq_of_lt (hB : Meets G H S m B) (hAB : A <+: B) (hA : A ≠ [])
    (hk : IsNext G H (S ∪ nodeSet A) A k) (hlt : k.node < m) : A = B := by
  rcases hB.eq_or_isPrefix hAB hA hk with h | ⟨-, hle⟩
  · exact h
  · exact absurd hlt (not_lt.mpr hle)

/-- **There is one node at which search stops.** -/
theorem unique (hA : Meets G H S m A) (hk : IsNext G H (S ∪ nodeSet A) A k) (hkm : k.node < m)
    (hB : Meets G H S m B) (hl : IsNext G H (S ∪ nodeSet B) B l) (hlm : l.node < m) :
    A = B ∧ k = l := by
  have hAB : A = B := by
    rcases hA.isPrefix_total hB with hAB | hBA
    · exact hB.eq_of_lt hAB hA.ne_nil hk hkm
    · exact (hA.eq_of_lt hBA hB.ne_nil hl hlm).symm
  subst hAB
  exact ⟨rfl, hk.unique hl⟩

/-- Search that ends where nothing can be added does not stop before at a smaller node. -/
theorem le_of_done (hA : Meets G H S m A) (hnone : ∀ k, ¬ IsCand G H (S ∪ nodeSet A) A k)
    (hB : Meets G H S m B) (hk : IsNext G H (S ∪ nodeSet B) B k) : m ≤ k.node := by
  rcases hA.isPrefix_total hB with hAB | hBA
  · obtain rfl := hB.eq_of_done hAB hA.ne_nil hnone
    exact absurd hk.1 (hnone k)
  · rcases hA.eq_or_isPrefix hBA hB.ne_nil hk with rfl | ⟨-, hle⟩
    · exact absurd hk.1 (hnone k)
    · exact hle

/-- One element has one order. -/
theorem follows_root (h : Meets G H S m A) : Follows A [⟨0, m⟩] := by
  have hnd := h.nodup_nodes
  obtain ⟨R, rfl⟩ := h.exists_cons
  rw [nodes_cons, List.nodup_cons] at hnd
  have hR : (nodes R).filter (· ∈ [m]) = [] := by
    refine List.filter_eq_nil_iff.mpr fun u hu => ?_
    simp only [List.mem_singleton, decide_eq_true_eq]
    rintro rfl
    exact hnd.1 hu
  show (m :: nodes R).filter (· ∈ [m]) <+: [m]
  rw [List.filter_cons_of_pos (by simp), hR]

end Meets

/-! ### The order -/

theorem meetsInOrder_iff : MeetsInOrder G H m L ↔
    (∀ A, Meets G H (nodeSet L) m A → Follows A L) ∧
      ∀ A k M, Meets G H (nodeSet L) m A → IsNext G H (nodeSet L ∪ nodeSet A) A k → k.node < m →
        Layout G k.node M → nodeSet M = insert k.node (nodeSet L ∪ nodeSet A) →
        MeetsInOrder G H k.node M := by
  constructor
  · rintro ⟨horder, hrestart⟩
    exact ⟨horder, hrestart⟩
  · rintro ⟨horder, hrestart⟩
    exact .intro horder hrestart

/-- Where search ends without a smaller node, the order counts only once. -/
theorem meetsInOrder_of_done (hA : Meets G H (nodeSet L) m A)
    (hnone : ∀ k, ¬ IsCand G H (nodeSet L ∪ nodeSet A) A k) :
    MeetsInOrder G H m L ↔ ∀ B, Meets G H (nodeSet L) m B → Follows B L := by
  rw [meetsInOrder_iff, and_iff_left_iff_imp]
  intro _ B k M hB hk hlt
  exact absurd hlt (not_lt.mpr (hA.le_of_done hnone hB hk))

/-- Where search starts again, it goes on with the layout of what has been found. -/
theorem meetsInOrder_of_lt (hA : Meets G H (nodeSet L) m A)
    (hk : IsNext G H (nodeSet L ∪ nodeSet A) A k) (hlt : k.node < m) {M : List (Key α)}
    (hM : Layout G k.node M) (hset : nodeSet M = insert k.node (nodeSet L ∪ nodeSet A)) :
    MeetsInOrder G H m L ↔
      (∀ B, Meets G H (nodeSet L) m B → Follows B L) ∧ MeetsInOrder G H k.node M := by
  rw [meetsInOrder_iff]
  refine and_congr_right fun _ => ⟨fun hall => hall A k M hA hk hlt hM hset, ?_⟩
  intro hnext B l N hB hl hlm hN hNset
  obtain ⟨rfl, rfl⟩ := hA.unique hk hlt hB hl hlm
  have hNM : N = M := by
    refine hN.eq_of_nodes hM fun u => ?_
    rw [← mem_nodeSet, hNset, ← hset, mem_nodeSet]
  rwa [hNM]

end ConnectedHereditary
