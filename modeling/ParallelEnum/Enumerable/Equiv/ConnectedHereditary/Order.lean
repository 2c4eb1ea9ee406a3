import ParallelEnum.Enumerable.Equiv.ConnectedHereditary.Children
import ParallelEnum.Theory.SearchOrder

/-!
# `Complete` repeats the elements it meets out of order

The inner loop of `Complete` takes a key for the next element of `s` only if it is that element; an
element of `s` which is found before the elements it comes after in `s` is added a second time.
`Resort` keeps both occurrences, so they are there at the end.

* `LoopRun.nodup_iff`: the inner loop adds no element twice exactly if the search meets the elements
  in their order.
* `CompleteRun.nodup_iff`: so does `Complete`, with what it has found at each seed change.
* `completesTo_iff`: the rest of what it returns is right in every case.
-/

namespace ParallelEnum.CHSystem

open BreadthFirst ConnectedHereditary CommutableSystem

variable {sys : CHSystem} {P : Finset ℕ → Prop} {H : Finset ℕ → Prop} {args : CompleteArgs}
  {m : ℕ} {L : List (Key ℕ)} {s t level : List ℕ} {A : List (Key ℕ)} {j : ℕ} {e : Ending}
  {k : Key ℕ} {groundSet : Option (List ℕ)}

/-! ### The search of the inner loop -/

/-- The inner loop on the nodes of `L` after it has added the keys of `A`. -/
structure Searches (sys : CHSystem) (H : Finset ℕ → Prop) (m : ℕ) (L : List (Key ℕ)) (s : List ℕ)
    (A : List (Key ℕ)) : Prop where
  meets : Meets sys.graph H (nodeSet L) m A
  elems_eq : s.toFinset = nodeSet L ∪ nodeSet A
  front_eq : front s = m
  min : ∀ u ∈ nodes L, m ≤ u

namespace Searches

theorem isNext (h : Searches sys H m L s A) (hk : IsNext sys.graph H s.toFinset A k) :
    IsNext sys.graph H (nodeSet L ∪ nodeSet A) A k := h.elems_eq ▸ hk

theorem mem (h : Searches sys H m L s A) {u : ℕ} : u ∈ s ↔ u ∈ nodes L ∨ u ∈ nodes A := by
  rw [← List.mem_toFinset, h.elems_eq, Finset.mem_union, mem_nodeSet, mem_nodeSet]

theorem le (h : Searches sys H m L s A) {u : ℕ} (hu : u ∈ s) : m ≤ u := by
  rcases h.mem.mp hu with hu | hu
  · exact h.min u hu
  · exact h.meets.le u hu

theorem ne_nil (h : Searches sys H m L s A) : s ≠ [] :=
  List.ne_nil_of_mem (h.mem.mpr (Or.inr h.meets.root_mem))

/-- The loop adds the smallest key. -/
theorem step (h : Searches sys H m L s A) (hk : IsNext sys.graph H s.toFinset A k)
    (hle : m ≤ k.node) (ht : t.toFinset = insert k.node s.toFinset) (hfront : front t = front s) :
    Searches sys H m L t (A ++ [k]) where
  meets := h.meets.snoc (h.isNext hk) hle
  elems_eq := by
    rw [ht, h.elems_eq, nodeSet_snoc, Finset.union_insert]
  front_eq := hfront.trans h.front_eq
  min := h.min

theorem matched (h : Searches sys H m L s A) (hk : IsNext sys.graph H s.toFinset A k)
    (hmem : k.node ∈ s) : Searches sys H m L s (A ++ [k]) :=
  h.step hk (h.le hmem) (Finset.insert_eq_of_mem (List.mem_toFinset.mpr hmem)).symm rfl

theorem pushed (h : Searches sys H m L s A) (hk : IsNext sys.graph H s.toFinset A k)
    (hge : ¬ k.node < front (s ++ [k.node])) : Searches sys H m L (s ++ [k.node]) (A ++ [k]) := by
  have hfront := front_snoc h.ne_nil k.node
  refine h.step hk ?_ ?_ hfront
  · rw [hfront, h.front_eq] at hge
    exact not_lt.mp hge
  · ext u
    simp

end Searches

/-- Where the inner loop on the nodes of `L` ends. -/
def Ends (sys : CHSystem) (H : Finset ℕ → Prop) (m : ℕ) (L : List (Key ℕ)) : Ending → Prop
  | .finished t _ => ∃ A, Meets sys.graph H (nodeSet L) m A ∧
      (∀ k, ¬ IsCand sys.graph H (nodeSet L ∪ nodeSet A) A k) ∧
      t.toFinset = nodeSet L ∪ nodeSet A ∧ front t = m
  | .failed => False
  | .seedChange t _ => ∃ A k, Meets sys.graph H (nodeSet L) m A ∧
      IsNext sys.graph H (nodeSet L ∪ nodeSet A) A k ∧ k.node < m ∧
      t.toFinset = insert k.node (nodeSet L ∪ nodeSet A) ∧ front t = k.node

theorem LoopRun.ends (hargs : NeverFails args) (hrun : LoopRun sys H args s level A j e)
    (h : Searches sys H m L s A) : Ends sys H m L e := by
  induction hrun with
  | finished hnone => exact ⟨_, h.meets, h.elems_eq ▸ hnone, h.elems_eq, h.front_eq⟩
  | matched hk hj _ ih => exact ih (h.matched hk (List.mem_of_getElem? hj))
  | failed _ _ hf => exact absurd hf (hargs _ _)
  | @seedChange s level A j k hk _ _ hlt =>
    rw [front_snoc h.ne_nil, h.front_eq] at hlt
    refine ⟨A, k, h.meets, h.isNext hk, hlt, ?_, ?_⟩
    · rw [toFinset_swapFrontBack h.ne_nil, h.elems_eq]
    · rw [swapFrontBack_snoc h.ne_nil]
      rfl
  | pushed hk _ _ hge _ ih => exact ih (h.pushed hk hge)

/-! ### Repeated elements -/

theorem perm_swapFrontBack (hs : s ≠ []) (x : ℕ) : (swapFrontBack (s ++ [x])).Perm (x :: s) := by
  rw [swapFrontBack_snoc hs]
  cases s with
  | nil => exact absurd rfl hs
  | cons y s => exact (List.perm_append_singleton y s).cons x

/-- What is repeated stays repeated. -/
theorem LoopRun.nodup_of_elems (hargs : NeverFails args)
    (hrun : LoopRun sys H args s level A j e) (hs : s ≠ []) (hnd : (elems e).Nodup) : s.Nodup := by
  induction hrun with
  | finished => exact hnd
  | matched _ _ _ ih => exact ih hs hnd
  | failed _ _ hf => exact absurd hf (hargs _ _)
  | seedChange => exact (List.nodup_cons.mp ((perm_swapFrontBack hs _).nodup_iff.mp hnd)).2
  | pushed _ _ _ _ _ ih => exact (List.nodup_append.mp (ih (by simp) hnd)).1

/-- The loop has met the elements of `L` in their order so far, the first `j` of them. -/
structure InStep (L : List (Key ℕ)) (s : List ℕ) (A : List (Key ℕ)) (j : ℕ) : Prop where
  nodup : s.Nodup
  split : ∃ E, s = nodes L ++ E ∧ ∀ u ∈ E, u ∈ nodes A
  filter_eq : (nodes A).filter (· ∈ nodes L) = (nodes L).take j

namespace InStep

theorem follows (h : InStep L s A j) : Follows A L := by
  unfold Follows
  rw [h.filter_eq]
  exact List.take_prefix j (nodes L)

/-- An element that has not been met is one of `L`. -/
theorem mem_nodes (h : InStep L s A j) {u : ℕ} (hu : u ∈ s) (hA : u ∉ nodes A) : u ∈ nodes L := by
  obtain ⟨E, rfl, hE⟩ := h.split
  rcases List.mem_append.mp hu with hu | hu
  · exact hu
  · exact absurd (hE u hu) hA

theorem getElem?_eq (h : InStep L s A j) {u : ℕ} (hA : u ∉ nodes A) :
    s[j]? = some u ↔ (nodes L)[j]? = some u := by
  obtain ⟨E, rfl, hE⟩ := h.split
  by_cases hj : j < (nodes L).length
  · rw [List.getElem?_append_left hj]
  · rw [List.getElem?_append_right (not_lt.mp hj), List.getElem?_eq_none (not_lt.mp hj)]
    constructor
    · intro hu
      exact absurd (hE u (List.mem_of_getElem? hu)) hA
    · intro hu
      cases hu

/-- The next element in the order. -/
theorem matched (h : InStep L s A j) (hA : k.node ∉ nodes A) (hj : s[j]? = some k.node) :
    InStep L s (A ++ [k]) (j + 1) where
  nodup := h.nodup
  split := by
    obtain ⟨E, hs, hE⟩ := h.split
    refine ⟨E, hs, fun u hu => ?_⟩
    rw [nodes_append]
    exact List.mem_append_left _ (hE u hu)
  filter_eq := by
    have hL := (h.getElem?_eq hA).mp hj
    rw [nodes_append, List.filter_append, h.filter_eq, List.take_add_one, hL]
    simp [List.mem_of_getElem? hL]

/-- A node that is not an element yet. -/
theorem pushed (h : InStep L s A j) (hs : k.node ∉ s) :
    InStep L (s ++ [k.node]) (A ++ [k]) j where
  nodup := by
    refine List.nodup_append.mpr ⟨h.nodup, List.nodup_singleton _, ?_⟩
    rintro u hu v hv rfl
    exact hs (List.mem_singleton.mp hv ▸ hu)
  split := by
    obtain ⟨E, rfl, hE⟩ := h.split
    refine ⟨E ++ [k.node], List.append_assoc _ _ _, fun u hu => ?_⟩
    rw [nodes_append]
    rcases List.mem_append.mp hu with hu | hu
    · exact List.mem_append_left _ (hE u hu)
    · exact List.mem_append_right _ hu
  filter_eq := by
    have hL : k.node ∉ nodes L := by
      obtain ⟨E, rfl, -⟩ := h.split
      exact fun hmem => hs (List.mem_append_left _ hmem)
    rw [nodes_append, List.filter_append, h.filter_eq]
    simp [hL]

/-- An element that is not the next one is out of order. -/
theorem not_follows (h : InStep L s A j) (hA : k.node ∉ nodes A) (hs : k.node ∈ s)
    (hj : s[j]? ≠ some k.node) : ¬ Follows (A ++ [k]) L := by
  have hL := h.mem_nodes hs hA
  have hfilter : (nodes (A ++ [k])).filter (· ∈ nodes L) = (nodes L).take j ++ [k.node] := by
    rw [nodes_append, List.filter_append, h.filter_eq]
    simp [hL]
  unfold Follows
  rw [hfilter]
  rintro ⟨R, hR⟩
  have hdrop : k.node :: R = (nodes L).drop j := by
    have happ : (nodes L).take j ++ k.node :: R = (nodes L).take j ++ (nodes L).drop j := by
      rw [List.take_append_drop]
      rwa [List.append_assoc] at hR
    exact List.append_cancel_left happ
  refine hj ((h.getElem?_eq hA).mpr ?_)
  have hhead : ((nodes L).drop j)[0]? = some k.node := by
    rw [← hdrop]
    rfl
  rwa [List.getElem?_drop, Nat.add_zero] at hhead

end InStep

/-- **The inner loop adds no element twice exactly if it meets the elements in their order.** -/
theorem LoopRun.nodup_iff (hargs : NeverFails args) (hrun : LoopRun sys H args s level A j e)
    (h : Searches sys H m L s A) (hI : InStep L s A j) :
    (elems e).Nodup ↔ ∀ B, Meets sys.graph H (nodeSet L) m B → A <+: B → Follows B L := by
  -- what is met after the smallest key, when that is met itself
  have hnext : ∀ {s : List ℕ} {A : List (Key ℕ)} {k : Key ℕ} {j : ℕ},
      Searches sys H m L s A → InStep L s A j → IsNext sys.graph H s.toFinset A k →
      ((∀ B, Meets sys.graph H (nodeSet L) m B → A <+: B → Follows B L) ↔
        ∀ B, Meets sys.graph H (nodeSet L) m B → A ++ [k] <+: B → Follows B L) := by
    intro s A k j h hI hk
    refine ⟨fun hall B hB hAB => hall B hB ((List.prefix_append A [k]).trans hAB), ?_⟩
    intro hall B hB hAB
    rcases hB.eq_or_isPrefix hAB h.meets.ne_nil (h.isNext hk) with rfl | ⟨hpre, -⟩
    · exact hI.follows
    · exact hall B hB hpre
  induction hrun with
  | finished hnone =>
    refine iff_of_true hI.nodup fun B hB hAB => ?_
    rw [← hB.eq_of_done hAB h.meets.ne_nil (h.elems_eq ▸ hnone)]
    exact hI.follows
  | matched hk hj _ ih =>
    exact (ih (h.matched hk (List.mem_of_getElem? hj)) (hI.matched hk.1.2.1 hj)).trans
      (hnext h hI hk).symm
  | failed _ _ hf => exact absurd hf (hargs _ _)
  | @seedChange s level A j k hk _ _ hlt =>
    rw [front_snoc h.ne_nil, h.front_eq] at hlt
    refine iff_of_true ?_ fun B hB hAB => ?_
    · refine (perm_swapFrontBack h.ne_nil k.node).nodup_iff.mpr (List.nodup_cons.mpr ⟨?_, hI.nodup⟩)
      exact fun hmem => absurd (h.le hmem) (not_le.mpr hlt)
    · rw [← hB.eq_of_lt hAB h.meets.ne_nil (h.isNext hk) hlt]
      exact hI.follows
  | @pushed s level A j k e hk hj _ hge hrest ih =>
    have hS := h.pushed hk hge
    by_cases hmem : k.node ∈ s
    · -- the element is there twice from now on
      refine iff_of_false (fun hnd => ?_) fun hall => ?_
      · have hnd := hrest.nodup_of_elems hargs (by simp) hnd
        exact (List.nodup_append.mp hnd).2.2 k.node hmem k.node (by simp) rfl
      · exact hI.not_follows hk.1.2.1 hmem hj (hall _ hS.meets (List.prefix_append A [k]))
    · exact (ih hS (hI.pushed hmem)).trans (hnext h hI hk).symm

/-- The inner loop from its start. -/
theorem Searches.init (hL : Layout sys.graph m L) (hmin : ∀ u ∈ nodes L, m ≤ u) :
    Searches sys H m L (nodes L) [⟨0, m⟩] where
  meets := .root
  elems_eq := by
    refine (Finset.union_eq_left.mpr fun u hu => ?_).symm
    rw [mem_nodeSet, nodes_cons, nodes_nil, List.mem_singleton] at hu
    rw [hu]
    exact List.mem_toFinset.mpr hL.root_mem
  front_eq := front_nodes hL
  min := hmin

theorem InStep.init (hL : Layout sys.graph m L) : InStep L (nodes L) [⟨0, m⟩] 1 where
  nodup := hL.nodup_nodes
  split := ⟨[], (List.append_nil _).symm, fun u hu => absurd hu List.not_mem_nil⟩
  filter_eq := by
    obtain ⟨R, rfl⟩ := hL.exists_cons
    simp

section

variable (hargs : NeverFails args) (hL : Layout sys.graph m L) (hmin : ∀ u ∈ nodes L, m ≤ u)
  (hrun : LoopRun sys H args (nodes L) level [⟨0, front (nodes L)⟩] 1 e)

include hargs hL hmin hrun

theorem LoopRun.ends_layout : Ends sys H m L e := by
  rw [front_nodes hL] at hrun
  exact hrun.ends hargs (.init hL hmin)

theorem LoopRun.nodup_layout :
    (elems e).Nodup ↔ ∀ B, Meets sys.graph H (nodeSet L) m B → Follows B L := by
  rw [front_nodes hL] at hrun
  rw [hrun.nodup_iff hargs (.init hL hmin) (.init hL)]
  refine forall₂_congr fun B hB => ⟨fun hall => hall ?_, fun hF _ => hF⟩
  obtain ⟨R, rfl⟩ := hB.exists_cons
  exact List.prefix_append [_] R

/-- With one element nothing can be repeated. -/
theorem LoopRun.nodup_or_nontrivial : (elems e).Nodup ∨ (elems e).toFinset.Nontrivial := by
  have hmem : ∀ u ∈ nodes L, u ∈ (elems e).toFinset := fun u hu =>
    List.mem_toFinset.mpr (hrun.mem_elems hargs (List.ne_nil_of_mem hL.root_mem) hu)
  obtain ⟨R, hR⟩ := hL.exists_cons
  cases R with
  | nil =>
    refine Or.inl ((hrun.nodup_layout hargs hL hmin).mpr fun B hB => ?_)
    rw [hR]
    exact hB.follows_root
  | cons k R =>
    refine Or.inr ⟨m, hmem m hL.root_mem, k.node, hmem k.node (by simp [hR]), ?_⟩
    have hnd := hL.nodup_nodes
    rw [hR, nodes_cons, nodes_cons] at hnd
    rintro rfl
    exact (List.nodup_cons.mp hnd).1 List.mem_cons_self

end

/-! ### Runs of `Complete` -/

section

variable {o : Option CommutableNode} {r : CommutableNode}

/-- `Resort` of a good set without repeated elements. -/
theorem exists_layout_of_resort (h : LawfulComplete sys P groundSet)
    (ht : Good sys.graph (sys.InGround P groundSet) t.toFinset) (hnd : t.Nodup)
    (hr : sys.resort t level (front t) = some r) :
    ∃ M, Layout sys.graph (front t) M ∧ nodeSet M = t.toFinset ∧ r = (nodes M, levels M) := by
  obtain ⟨M, hrun, hset, -, hlayout⟩ := resort_spec h
    (fun u hu => Finset.mem_range.mp (ht.2.1.2 (List.mem_toFinset.mpr hu)))
    (front_mem (ne_nil_of_good ht)) ht.1 level
  exact ⟨M, hlayout hnd, hset, Option.some.inj (hr.symm.trans hrun)⟩

/-- `Resort` of a good set of more than one element keeps what is repeated. -/
theorem nodup_resort_iff (h : LawfulComplete sys P groundSet)
    (ht : Good sys.graph (sys.InGround P groundSet) t.toFinset)
    (hor : t.Nodup ∨ t.toFinset.Nontrivial) (hr : sys.resort t level (front t) = some r) :
    r.1.Nodup ↔ t.Nodup := by
  rcases hor with hnd | htwo
  · obtain ⟨M, hM, -, rfl⟩ := exists_layout_of_resort h ht hnd hr
    exact iff_of_true hM.nodup_nodes hnd
  · have hlt : ∀ u ∈ t, u < sys.size := fun u hu =>
      Finset.mem_range.mp (ht.2.1.2 (List.mem_toFinset.mpr hu))
    exact (perm_of_resort h hlt (front_mem (ne_nil_of_good ht)) ht.1 htwo hr).nodup_iff

/-- `Complete` does not remove a repeated element. -/
theorem CompleteRun.nodup_of_result (h : LawfulComplete sys P groundSet) (hargs : NeverFails args)
    (hrun : CompleteRun sys (sys.InGround P groundSet) args s level o)
    (hS : Good sys.graph (sys.InGround P groundSet) s.toFinset) (htwo : s.toFinset.Nontrivial)
    (hr : o = some r) (hnd : r.1.Nodup) : s.Nodup := by
  induction hrun with
  | failed => cases hr
  | @finished s level t lt r' hloop hresort =>
    obtain rfl := Option.some.inj hr
    obtain ⟨hst, -, hmax⟩ := hloop.reached h (.init hS (front_mem (ne_nil_of_good hS)))
    exact hloop.nodup_of_elems hargs (ne_nil_of_good hS)
      ((nodup_resort_iff h hmax.prop (Or.inr (htwo.mono hst)) hresort).mp hnd)
  | @seedChange s level t lt r' o hloop hresort _ ih =>
    obtain ⟨hst, -, hgood⟩ := hloop.reached h (.init hS (front_mem (ne_nil_of_good hS)))
    have hset := toFinset_of_resort h hgood hresort
    have hnd' := ih (hset ▸ hgood) (hset ▸ htwo.mono hst) hr
    exact hloop.nodup_of_elems hargs (ne_nil_of_good hS)
      ((nodup_resort_iff h hgood (Or.inr (htwo.mono hst)) hresort).mp hnd')

/-- **`Complete` returns a list without repeated elements exactly if the elements are met in their
order**, and then it returns a layout from the smallest element. -/
theorem CompleteRun.nodup_iff (h : LawfulComplete sys P groundSet) (hargs : NeverFails args)
    (hrun : CompleteRun sys (sys.InGround P groundSet) args s level o) (hs : s = nodes L)
    (hL : Layout sys.graph m L) (hmin : ∀ u ∈ nodes L, m ≤ u)
    (hset : sys.InGround P groundSet (nodeSet L)) (hr : o = some r) :
    (r.1.Nodup ↔ MeetsInOrder sys.graph (sys.InGround P groundSet) m L) ∧
      (r.1.Nodup → ∃ m' M, Layout sys.graph m' M ∧ (∀ u ∈ nodes M, m' ≤ u) ∧
        r = (nodes M, levels M)) := by
  induction hrun generalizing m L with
  | failed => cases hr
  | @finished s level t lt r' hloop hresort =>
    obtain rfl := Option.some.inj hr
    subst hs
    have hgood : Good sys.graph (sys.InGround P groundSet) (nodes L).toFinset :=
      ⟨hL.connected, hset⟩
    obtain ⟨-, -, hmax⟩ := hloop.reached h (.init hgood (front_mem (ne_nil_of_good hgood)))
    obtain ⟨A, hA, hnone, htset, hfront⟩ := hloop.ends_layout hargs hL hmin
    have hnodup := hloop.nodup_layout hargs hL hmin
    have hiff := nodup_resort_iff h hmax.prop (hloop.nodup_or_nontrivial hargs hL hmin) hresort
    rw [hiff, meetsInOrder_of_done hA hnone]
    refine ⟨hnodup, fun hnd => ?_⟩
    obtain ⟨M, hM, hMset, rfl⟩ := exists_layout_of_resort h hmax.prop hnd hresort
    refine ⟨front t, M, hM, fun u hu => ?_, rfl⟩
    rw [← mem_nodeSet, hMset, htset, Finset.mem_union, mem_nodeSet, mem_nodeSet] at hu
    rw [hfront]
    exact hu.elim (hmin u) (hA.le u)
  | @seedChange s level t lt r' o hloop hresort hrest ih =>
    subst hs
    have hgood : Good sys.graph (sys.InGround P groundSet) (nodes L).toFinset :=
      ⟨hL.connected, hset⟩
    obtain ⟨-, -, htgood⟩ := hloop.reached h (.init hgood (front_mem (ne_nil_of_good hgood)))
    obtain ⟨A, k, hA, hk, hlt, htset, hfront⟩ := hloop.ends_layout hargs hL hmin
    have hnodup := hloop.nodup_layout hargs hL hmin
    have htwo : t.toFinset.Nontrivial := by
      refine ⟨k.node, ?_, m, ?_, hlt.ne⟩
      · simp [htset]
      · simp [htset, hA.root_mem]
    have hset' := toFinset_of_resort h htgood hresort
    -- what is repeated at the seed change is repeated at the end
    have hkeep : r.1.Nodup → t.Nodup := fun hnd =>
      (nodup_resort_iff h htgood (Or.inr htwo) hresort).mp
        (hrest.nodup_of_result h hargs (hset' ▸ htgood) (hset' ▸ htwo) hr hnd)
    by_cases hnd : t.Nodup
    · obtain ⟨M, hM, hMset, rfl⟩ := exists_layout_of_resort h htgood hnd hresort
      rw [hfront] at hM
      have hMmin : ∀ u ∈ nodes M, k.node ≤ u := by
        intro u hu
        rw [← mem_nodeSet, hMset, htset, Finset.mem_insert, Finset.mem_union, mem_nodeSet,
          mem_nodeSet] at hu
        rcases hu with rfl | hu | hu
        · exact le_refl _
        · exact hlt.le.trans (hmin u hu)
        · exact hlt.le.trans (hA.le u hu)
      obtain ⟨hiff, hlayout⟩ := ih rfl hM hMmin (hMset ▸ htgood.2) hr
      refine ⟨?_, hlayout⟩
      rw [hiff, meetsInOrder_of_lt hA hk hlt hM (hMset.trans htset),
        and_iff_right (hnodup.mp hnd)]
    · refine ⟨iff_of_false (fun hnd' => hnd (hkeep hnd')) fun hmeets => ?_, fun hnd' =>
        absurd (hkeep hnd') hnd⟩
      exact hnd (hnodup.mpr (meetsInOrder_iff.mp hmeets).1)

end

/-! ### `Complete` without options -/

/-- `Complete` without options returns, and leaves a maximal good set around `s` without repeated
elements, in the order and with the levels of `Resort` from its smallest element. -/
def CompletesTo (sys : CHSystem) (P : Finset ℕ → Prop) (s level : List ℕ) : Prop :=
  ∃ r : CommutableNode,
    (∃ n, ∀ fuel > n, sys.system.complete {} fuel s level = some (some r)) ∧
      r.1.Nodup ∧ s ⊆ r.1 ∧ Maximal (Good sys.graph (sys.Property P)) r.1.toFinset ∧
        sys.resort r.1 r.2 (minElem r.1) = some r

/-- `Complete` without options returns. -/
theorem exists_complete (h : LawfulComplete sys P none) (level : List ℕ)
    (hS : Good sys.graph (sys.InGround P none) s.toFinset) :
    ∃ r, CompleteRun sys (sys.InGround P none) {} s level (some r) ∧
      ∀ fuel > completeFuel sys.size, sys.system.complete {} fuel s level = some (some r) := by
  obtain ⟨o, -, hrun⟩ := complete_run {} h level hS (Nat.lt_succ_self (completeFuel sys.size))
  obtain ⟨r, rfl⟩ := hrun.exists_some neverFails_default
  refine ⟨r, hrun, fun fuel hfuel => ?_⟩
  obtain ⟨o, ho, hrun'⟩ := complete_run {} h level hS hfuel
  rw [ho, hrun'.unique hrun]

/-- **`Complete` without options is right exactly if search from the smallest element meets the
elements in their order.** -/
theorem completesTo_iff (h : LawfulComplete sys P none) {t lt s level : List ℕ}
    (ht : ∀ u ∈ t, u < sys.size) (hnd : t.Nodup) (hgood : sys.base.isGood t = true)
    (hs : sys.resort t lt (minElem t) = some (s, level)) :
    CompletesTo sys P s level ↔
      MeetsInOrder sys.graph (sys.Property P) (minElem t) (keys (s, level)) := by
  have hin := h.inGround_none
  rw [h.isGood_eq ht] at hgood
  have htne : t ≠ [] := ne_nil_of_good hgood
  obtain ⟨hmem, hle⟩ := minElem_spec htne
  -- what `Resort` returns is a layout from the smallest element
  obtain ⟨L, hrun, hset, -, hlayout⟩ := resort_spec h ht hmem hgood.1 lt
  obtain ⟨rfl, rfl⟩ := Prod.mk.inj (Option.some.inj (hs.symm.trans hrun))
  have hL := hlayout hnd
  have hmin : ∀ u ∈ nodes L, minElem t ≤ u := fun u hu =>
    hle u (List.mem_toFinset.mp (hset ▸ mem_nodeSet.mpr hu))
  have hH : sys.InGround P none (nodeSet L) := hin ▸ hset ▸ hgood.2
  have hS : Good sys.graph (sys.InGround P none) (nodes L).toFinset := ⟨hL.connected, hH⟩
  obtain ⟨r, hr, hcomplete⟩ := exists_complete h (levels L) hS
  obtain ⟨hiff, hsorted⟩ := hr.nodup_iff h neverFails_default rfl hL hmin hH rfl
  rw [keys_nodes, ← hin, ← hiff]
  constructor
  · rintro ⟨r', ⟨n, hn⟩, hnd', -⟩
    have hbig := hn (max n (completeFuel sys.size) + 1) (by omega)
    rw [hcomplete _ (by omega)] at hbig
    rwa [← Option.some.inj (Option.some.inj hbig)] at hnd'
  · intro hnd'
    obtain ⟨hsub, hmax⟩ := hr.spec h hS rfl
    refine ⟨r, ⟨completeFuel sys.size, hcomplete⟩, hnd', fun u hu => ?_, hin ▸ hmax, ?_⟩
    · exact List.mem_toFinset.mp (hsub (List.mem_toFinset.mpr hu))
    · obtain ⟨m', M, hM, hMmin, rfl⟩ := hsorted hnd'
      have hmin' : m' = minElem (nodes M) :=
        (minElem_eq_iff (ne_nil_of_good hmax.prop) hM.root_mem).mpr hMmin
      rw [← hmin']
      refine resort_nodes h hM (fun u hu => ?_) (levels M)
      exact Finset.mem_range.mp (hmax.prop.2.1.2 (List.mem_toFinset.mpr hu))

/-! ### The connected sets of a graph -/

/-- A system of which only `Resort` is used. -/
def resorter (n : ℕ) (isNeigh : ℕ → ℕ → Bool) : CHSystem where
  base := { graphSize := n, isGood := fun _ => true, restrictedProblem := fun _ _ => [] }
  isNeigh := isNeigh

/-- `Resort` finds all of the set. -/
def spans (n : ℕ) (isNeigh : ℕ → ℕ → Bool) (s : List ℕ) : Bool :=
  ((resorter n isNeigh).resort s [] (front s)).any fun r => s.all fun u => r.1.contains u

theorem spans_iff {n : ℕ} {isNeigh : ℕ → ℕ → Bool} : spans n isNeigh s = true ↔
    ∃ r, (resorter n isNeigh).resort s [] (front s) = some r ∧ ∀ u ∈ s, u ∈ r.1 := by
  simp [spans, Option.any_eq_true]

/-- The system of the connected sets of a graph. -/
def connectedSets (n : ℕ) (isNeigh : ℕ → ℕ → Bool) : CHSystem where
  base :=
    { graphSize := n
      isGood := fun s => !s.isEmpty && spans n isNeigh s.dedup
      restrictedProblem := fun _ _ => []
      completeCandNum := fun groundSet u _ idx =>
        ((List.range n).filter fun w =>
          isNeigh u w && groundSet.all fun ground => ground.contains w)[idx]? }
  isNeigh := isNeigh

theorem connectedSets_lawful (n : ℕ) {isNeigh : ℕ → ℕ → Bool}
    (hsymm : ∀ u v, isNeigh u v = isNeigh v u) (hirrefl : ∀ u, isNeigh u u = false) :
    LawfulComplete (connectedSets n isNeigh) (fun _ => True) none where
  isNeigh_symm u _ v _ := hsymm u v
  isNeigh_irrefl u _ := hirrefl u
  property_mono _ _ _ _ := trivial
  isGood_iff s hs := by
    have hG : ∀ u ∈ s.dedup, ∀ v ∈ s.dedup,
        (connectedSets n isNeigh).graph.Adj u v ↔ (resorter n isNeigh).isNeigh u v = true :=
      fun u hu v hv => graph_adj_iff (fun u _ v _ => hsymm u v) (fun u _ => hirrefl u)
        (hs u (List.mem_dedup.mp hu)) (hs v (List.mem_dedup.mp hv))
    have hset : s.toFinset = s.dedup.toFinset := by
      ext u
      simp
    have hgood : (connectedSets n isNeigh).base.isGood s = true ↔
        s ≠ [] ∧ spans n isNeigh s.dedup = true := by
      simp [connectedSets]
    rw [hgood, spans_iff, hset]
    constructor
    · rintro ⟨hne, hspans⟩
      have hseed : front s.dedup ∈ s.dedup := front_mem (by simpa using hne)
      exact ⟨(connected_iff_resort hG hseed s.nodup_dedup []).mpr hspans, trivial⟩
    · intro hconn
      have hne : s.dedup ≠ [] := ne_nil_of_good hconn
      refine ⟨by simpa using hne, ?_⟩
      exact (connected_iff_resort hG (front_mem hne) s.nodup_dedup []).mp hconn.1
  completeCandNum_eq _ _ _ _ := rfl
  canAdd_eq _ _ := rfl

/-- The connected sets of the cycle 0, 1, 4, 3, 2. -/
def cycle : CHSystem :=
  connectedSets 5 fun u v => decide ((u, v) ∈ [(0, 1), (1, 4), (4, 3), (3, 2), (2, 0)] ∨
    (v, u) ∈ [(0, 1), (1, 4), (4, 3), (3, 2), (2, 0)])

theorem cycle_lawful : LawfulComplete cycle (fun _ => True) none := by
  refine connectedSets_lawful 5 (fun u v => decide_eq_decide.mpr or_comm) fun u => ?_
  simp
  omega

/-- The path 0, 1, 4, 3. -/
theorem completesTo_cycle_iff :
    CompletesTo cycle (fun _ => True) [0, 1, 4, 3] [0, 1, 2, 3] ↔
      MeetsInOrder cycle.graph (cycle.Property fun _ => True) 0 [⟨0, 0⟩, ⟨1, 1⟩, ⟨2, 4⟩, ⟨3, 3⟩] :=
  completesTo_iff (t := [0, 1, 3, 4]) cycle_lawful (by decide) (by decide) (by decide)
    (by decide : cycle.resort [0, 1, 3, 4] [] 0 = some ([0, 1, 4, 3], [0, 1, 2, 3]))

/-- Node 2 makes 3 come before 4, so that 3 is added a second time. -/
theorem not_completesTo_cycle : LawfulComplete cycle (fun _ => True) none ∧
    cycle.base.isGood [0, 1, 3, 4] = true ∧
      cycle.resort [0, 1, 3, 4] [] 0 = some ([0, 1, 4, 3], [0, 1, 2, 3]) ∧
        ¬ CompletesTo cycle (fun _ => True) [0, 1, 4, 3] [0, 1, 2, 3] := by
  refine ⟨cycle_lawful, by decide, by decide, ?_⟩
  rintro ⟨r, ⟨n, hn⟩, hnd, -⟩
  have hrun : cycle.system.complete {} 37 [0, 1, 4, 3] [0, 1, 2, 3]
      = some (some ([0, 1, 2, 3, 3, 4], [0, 1, 1, 2, 2, 2])) := by decide
  have hS : Good cycle.graph (cycle.InGround (fun _ => True) none) [0, 1, 4, 3].toFinset := by
    rw [cycle_lawful.inGround_none]
    exact (cycle_lawful.isGood_eq (by decide)).mp (by decide)
  obtain ⟨r', -, hcomplete⟩ := exists_complete cycle_lawful [0, 1, 2, 3] hS
  have hbig := hn (max n (completeFuel cycle.size) + 1) (by omega)
  rw [hcomplete _ (by omega), ← hcomplete 37 (by decide), hrun] at hbig
  rw [← Option.some.inj (Option.some.inj hbig)] at hnd
  exact absurd hnd (by decide)

end ParallelEnum.CHSystem
