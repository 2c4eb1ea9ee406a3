import Mathlib.Order.Minimal
import ParallelEnum.Theory.BreadthFirst

/-!
# Reverse search on connected sets with a hereditary property

A set is *good* if it is connected and satisfies a property that is inherited by subsets.  A good
set, given by a breadth-first order, is completed by adding the node with the smallest key as long
as a node can be added:

* `IsNext`: the smallest key that can be added; `Completes`: a list of keys with all that greedy
  completion adds to it.
* `Ahead`: all that can be added comes after the list, so that the completion is a layout again.
* `maximal_of_closed`: a completed set is a maximal good set.

The parent of a maximal good set is found by cutting its layout where greedy completion stops to
give it back, and completing what is left in another way (`Completer`).  `IsChild` is that relation:

* `IsChild.lt`: a child comes after its parent.
* `IsChild.unique`: a set has one parent, and `exists_isChild` every set but the roots has one.
* `IsChild.prefix_restricted`: the last node of the cut and the parent give the cut back.
-/

namespace ConnectedHereditary

open BreadthFirst

variable {α : Type*}

/-! ### Good sets -/

/-- A property of parts of `V` that subsets inherit. -/
structure Hereditary (V : Finset α) (H : Finset α → Prop) : Prop where
  mono : ∀ {S T : Finset α}, S ⊆ T → H T → H S
  subset : ∀ {S : Finset α}, H S → S ⊆ V

/-- The property `H` of the subsets of `Γ`. -/
def Within (H : Finset α → Prop) (Γ S : Finset α) : Prop := H S ∧ S ⊆ Γ

theorem Hereditary.within {V : Finset α} {H : Finset α → Prop} (hH : Hereditary V H)
    (Γ : Finset α) : Hereditary V (Within H Γ) where
  mono hST hT := ⟨hH.mono hST hT.1, hST.trans hT.2⟩
  subset hS := hH.subset hS.1

/-- Nothing changes inside a set that contains everything. -/
theorem Hereditary.within_self {V : Finset α} {H : Finset α → Prop} (hH : Hereditary V H) :
    Within H V = H :=
  funext fun _ => propext ⟨fun h => h.1, fun h => ⟨h, hH.subset h⟩⟩

variable (G : SimpleGraph α) (H : Finset α → Prop)

/-- A connected set with the property. -/
def Good (S : Finset α) : Prop := (G.induce (S : Set α)).Connected ∧ H S

variable {G H}

section

variable [DecidableEq α] {V S : Finset α}

/-- A good set is maximal if no node next to it can be added. -/
theorem maximal_of_closed (hH : Hereditary V H) (hS : Good G H S)
    (hclosed : ∀ u ∉ S, (∃ a ∈ S, G.Adj a u) → ¬ H (insert u S)) : Maximal (Good G H) S := by
  refine ⟨hS, fun T hT hST => ?_⟩
  by_contra hTS
  obtain ⟨⟨a, ha⟩⟩ := hS.1.nonempty
  obtain ⟨a, ha, u, hu, huS, hadj⟩ := exists_adj_of_connected hT.1
    (A := (S : Set α)) (by exact_mod_cast hST) ⟨a, ha⟩ (by exact_mod_cast hTS)
  refine hclosed u (by exact_mod_cast huS) ⟨a, ha, hadj⟩ (hH.mono ?_ hT.2)
  exact Finset.insert_subset (by exact_mod_cast hu) hST

/-- No node next to a maximal good set can be added to it. -/
theorem notMem_of_maximal (hS : Maximal (Good G H) S) {a u : α} (ha : a ∈ S) (hu : u ∉ S)
    (hadj : G.Adj a u) : ¬ H (insert u S) := by
  intro hins
  have hgood : Good G H (insert u S) := by
    refine ⟨?_, hins⟩
    rw [Finset.coe_insert]
    exact connected_insert hS.prop.1 ha hadj
  exact hu (hS.le_of_ge hgood (Finset.subset_insert u S) (Finset.mem_insert_self u S))

end

/-! ### The keys greedy completion adds -/

variable [LinearOrder α] (G) [DecidableRel G.Adj] (H)

/-- A key that search from `A` meets next and whose node can be added to `S`. -/
def IsCand (S : Finset α) (A : List (Key α)) (k : Key α) : Prop :=
  reach G A k.node = some k.level ∧ k.node ∉ nodes A ∧ H (insert k.node S)

/-- The smallest key that can be added. -/
def IsNext (S : Finset α) (A : List (Key α)) (k : Key α) : Prop :=
  IsCand G H S A k ∧ ∀ j, IsCand G H S A j → k ≤ j

/-- All keys that can be added come after those of `A`. -/
def Ahead (S : Finset α) (A : List (Key α)) : Prop :=
  ∀ k, IsCand G H S A k → ∀ a ∈ A, a < k

/-- Greedy completion of the first list ends with the second. -/
inductive Completes : List (Key α) → List (Key α) → Prop
  | done {L : List (Key α)} : (∀ k, ¬ IsCand G H (nodeSet L) L k) → Completes L L
  | step {L M : List (Key α)} {k : Key α} : IsNext G H (nodeSet L) L k → Completes (L ++ [k]) M →
      Completes L M

variable {G H}
variable {V S T : Finset α} {A L M P : List (Key α)} {j k : Key α} {m : α}

theorem IsCand.mem (hH : Hereditary V H) (h : IsCand G H S A k) : k.node ∈ V :=
  hH.subset h.2.2 (Finset.mem_insert_self _ _)

theorem IsNext.unique (hj : IsNext G H S A j) (hk : IsNext G H S A k) : j = k :=
  le_antisymm (hj.2 k hk.1) (hk.2 j hj.1)

/-- If a key can be added, one is the smallest. -/
theorem exists_isNext (hH : Hereditary V H) (hk : IsCand G H S A k) : ∃ j, IsNext G H S A j := by
  classical
  set cands : Finset (Key α) :=
    (V.image fun u => (⟨(reach G A u).getD 0, u⟩ : Key α)).filter (IsCand G H S A) with hcands
  have hmem : ∀ {j}, IsCand G H S A j → j ∈ cands := by
    intro j hj
    refine Finset.mem_filter.mpr ⟨Finset.mem_image.mpr ⟨j.node, hj.mem hH, ?_⟩, hj⟩
    rw [hj.1]
    rfl
  obtain ⟨j, hj, hmin⟩ := Finset.exists_min_image cands id ⟨k, hmem hk⟩
  exact ⟨j, (Finset.mem_filter.mp hj).2, fun i hi => hmin i (hmem hi)⟩

/-- What can be added after the smallest key comes after that key. -/
theorem IsNext.lt (hH : Hereditary V H) (hk : IsNext G H S A k) (hST : S ⊆ T)
    (hj : IsCand G H T (A ++ [k]) j) : k < j := by
  obtain ⟨hreach, hnot, hgood⟩ := hj
  rw [nodes_append, List.mem_append, not_or] at hnot
  cases hA : reach G A j.node with
  | some l =>
    -- `j` could be added before `k`
    rw [reach_append_of_eq_some hA] at hreach
    have hj : IsCand G H S A j :=
      ⟨hA.trans hreach, hnot.1, hH.mono (Finset.insert_subset_insert _ hST) hgood⟩
    refine lt_of_le_of_ne (hk.2 j hj) ?_
    rintro rfl
    exact hnot.2 (List.mem_singleton_self _)
  | none =>
    -- `j` is met from `k`
    rw [reach_append_of_eq_none hA] at hreach
    obtain ⟨i, hi, -, hlevel⟩ := exists_adj_of_reach hreach
    rw [List.mem_singleton.mp hi] at hlevel
    exact Key.lt_iff.mpr (Or.inl (by omega))

theorem Ahead.snoc (hH : Hereditary V H) (h : Ahead G H S A) (hk : IsNext G H S A k)
    (hST : S ⊆ T) : Ahead G H T (A ++ [k]) := by
  intro j hj a ha
  have hkj := hk.lt hH hST hj
  rcases List.mem_append.mp ha with ha | ha
  · exact (h k hk.1 a ha).trans hkj
  · rwa [List.mem_singleton.mp ha]

theorem ahead_root (m : α) : Ahead G H S [⟨0, m⟩] := by
  intro k hk a ha
  obtain ⟨i, -, -, hlevel⟩ := exists_adj_of_reach hk.1
  rw [List.mem_singleton.mp ha]
  exact Key.lt_iff.mpr (Or.inl (by simp only; omega))

theorem IsCand.layout (hA : Layout G m A) (h : Ahead G H S A) (hk : IsCand G H S A k) :
    Layout G m (A ++ [k]) :=
  hA.snoc hk.1 hk.2.1 (h k hk)

/-! ### Greedy completion -/

theorem Completes.isPrefix (h : Completes G H P L) : P <+: L := by
  induction h with
  | done => exact List.prefix_refl _
  | step _ _ ih => exact (List.prefix_append _ _).trans ih

theorem Completes.closed (h : Completes G H P L) : ∀ k, ¬ IsCand G H (nodeSet L) L k := by
  induction h with
  | done h => exact h
  | step _ _ ih => exact ih

theorem Completes.unique (h : Completes G H P L) (h' : Completes G H P M) : L = M := by
  induction h with
  | done hnone =>
    cases h' with
    | done => rfl
    | step hk _ => exact absurd hk.1 (hnone _)
  | step hk _ ih =>
    cases h' with
    | done hnone => exact absurd hk.1 (hnone _)
    | step hj h' =>
      obtain rfl := hk.unique hj
      exact ih h'

theorem Completes.layout (hH : Hereditary V H) (h : Completes G H P L) (hP : Layout G m P)
    (hahead : Ahead G H (nodeSet P) P) : Layout G m L := by
  induction h with
  | done => exact hP
  | step hk _ ih =>
    refine ih (hk.1.layout hP hahead) (hahead.snoc hH hk ?_)
    rw [nodeSet_snoc]
    exact Finset.subset_insert _ _

theorem Completes.property (h : Completes G H P L) (hP : H (nodeSet P)) : H (nodeSet L) := by
  induction h with
  | done => exact hP
  | step hk _ ih =>
    refine ih ?_
    rw [nodeSet_snoc]
    exact hk.1.2.2

theorem exists_completes (hH : Hereditary V H) (P : List (Key α)) : ∃ L, Completes G H P L := by
  induction hd : (V \ nodeSet P).card using Nat.strong_induction_on generalizing P with
  | _ d ih =>
    by_cases hcand : ∃ k, IsCand G H (nodeSet P) P k
    · obtain ⟨k, hk⟩ := exists_isNext hH hcand.choose_spec
      have hlt : (V \ nodeSet (P ++ [k])).card < (V \ nodeSet P).card := by
        refine Finset.card_lt_card (Finset.ssubset_iff_subset_ne.mpr ⟨?_, ?_⟩)
        · rw [nodeSet_snoc]
          exact Finset.sdiff_subset_sdiff (Finset.Subset.refl V) (Finset.subset_insert _ _)
        · intro h
          have hmem : k.node ∈ V \ nodeSet P :=
            Finset.mem_sdiff.mpr ⟨hk.1.mem hH, by simpa using hk.1.2.1⟩
          rw [← h, nodeSet_snoc] at hmem
          exact (Finset.mem_sdiff.mp hmem).2 (Finset.mem_insert_self _ _)
      obtain ⟨L, hL⟩ := ih _ (hd ▸ hlt) (P ++ [k]) rfl
      exact ⟨L, hL.step hk⟩
    · push Not at hcand
      exact ⟨P, .done hcand⟩

/-- What a completion adds at any point is the smallest key there, and the rest completes it. -/
theorem Completes.next (h : Completes G H P L) {Q R : List (Key α)} (hPQ : P <+: Q)
    (hL : L = Q ++ k :: R) : IsNext G H (nodeSet Q) Q k ∧ Completes G H (Q ++ [k]) L := by
  induction h with
  | done =>
    have := hPQ.length_le
    rw [hL, List.length_append, List.length_cons] at this
    omega
  | @step P M i hi h ih =>
    rcases hPQ.length_le.eq_or_lt with heq | hlt
    · obtain rfl := hPQ.eq_of_length heq
      obtain ⟨R', hR'⟩ := h.isPrefix
      rw [hL, List.append_assoc] at hR'
      obtain ⟨rfl, -⟩ := List.cons_eq_cons.mp (List.append_cancel_left hR')
      exact ⟨hi, h⟩
    · refine ih ?_ hL
      refine List.prefix_of_prefix_length_le h.isPrefix ⟨k :: R, hL.symm⟩ ?_
      rw [List.length_append, List.length_singleton]
      omega

/-! ### Completed layouts -/

/-- A completed layout is a maximal good set. -/
theorem maximal_of_layout (hH : Hereditary V H) (hL : Layout G m L) (hset : H (nodeSet L))
    (hclosed : ∀ k, ¬ IsCand G H (nodeSet L) L k) : Maximal (Good G H) (nodeSet L) := by
  refine maximal_of_closed hH ⟨hL.connected, hset⟩ ?_
  rintro u hu ⟨a, ha, hadj⟩ hins
  obtain ⟨i, hi, rfl⟩ := mem_nodes.mp (mem_nodeSet.mp ha)
  obtain ⟨l, hl⟩ := exists_reach hi hadj
  exact hclosed ⟨l, u⟩ ⟨hl, by simpa using hu, hins⟩

/-- Nothing can be added to the layout of a maximal good set. -/
theorem not_isCand_of_maximal (hL : Maximal (Good G H) (nodeSet L)) (k : Key α) :
    ¬ IsCand G H (nodeSet L) L k := by
  rintro ⟨hreach, hnot, hins⟩
  obtain ⟨i, hi, hadj, -⟩ := exists_adj_of_reach hreach
  exact notMem_of_maximal hL (mem_nodeSet.mpr (node_mem hi)) (by simpa using hnot) hadj hins

/-- The next key of a layout can be added to what comes before. -/
theorem isCand_of_append (hP : Layout G m P) (hset : H (nodeSet P)) {Q R : List (Key α)}
    {b : Key α} (hPQ : P = Q ++ b :: R) (hQ : Q ≠ []) : IsCand G H (nodeSet P) Q b := by
  rw [hPQ] at hP
  refine ⟨(hP.reach_eq hQ).1, (hP.reach_eq hQ).2, ?_⟩
  rwa [Finset.insert_eq_of_mem]
  simp [hPQ]

/-- Search that has met an initial part of a layout either takes the next key of the layout or
the smallest key that can be added to it. -/
theorem next_of_append (hP : Layout G m P) (hset : H (nodeSet P)) {Q R : List (Key α)}
    (hPQ : P = Q ++ R) (hQ : Q ≠ []) (hk : IsNext G H (nodeSet P) Q k) :
    (∃ R', R = k :: R') ∨
      (k.node ∉ nodes P ∧ IsNext G H (nodeSet P) P k ∧ ∀ b ∈ R, k < b) := by
  obtain ⟨⟨hreach, hnot, hins⟩, hmin⟩ := hk
  cases R with
  | nil =>
    rw [List.append_nil] at hPQ
    subst hPQ
    exact Or.inr ⟨hnot, ⟨⟨hreach, hnot, hins⟩, hmin⟩, by simp⟩
  | cons b R =>
    have hb := isCand_of_append hP hset hPQ hQ
    rw [hPQ] at hP
    rcases (hmin b hb).eq_or_lt with rfl | hlt
    · exact Or.inl ⟨R, rfl⟩
    have hsorted := List.pairwise_cons.mp (List.pairwise_append.mp hP.pairwise_lt).2.1
    have hkP : k.node ∉ nodes P := by
      intro hmem
      rw [hPQ, nodes_append] at hmem
      have hR := (List.mem_append.mp hmem).resolve_left hnot
      exact absurd (hP.le_of_reach hQ hR hreach) (not_le.mpr hlt)
    refine Or.inr ⟨hkP, ⟨⟨?_, hkP, hins⟩, fun j hj => ?_⟩, ?_⟩
    · rw [hPQ]
      exact reach_append_of_eq_some hreach _
    · cases hQj : reach G Q j.node with
      | some l =>
        have hl := hj.1
        rw [hPQ, reach_append_of_eq_some hQj] at hl
        refine hmin j ⟨hQj.trans hl, fun hmem => hj.2.1 ?_, hj.2.2⟩
        rw [hPQ, nodes_append]
        exact List.mem_append_left _ hmem
      | none =>
        -- `j` is met from a key after `b`
        have hl := hj.1
        rw [hPQ, reach_append_of_eq_none hQj] at hl
        obtain ⟨i, hi, -, hlevel⟩ := exists_adj_of_reach hl
        have hbi : b ≤ i := by
          rcases List.mem_cons.mp hi with rfl | hi
          · exact le_refl _
          · exact (hsorted.1 i hi).le
        have := Key.level_le hbi
        have := Key.level_le hlt.le
        exact Key.le_iff.mpr (Or.inl (by omega))
    · intro i hi
      rcases List.mem_cons.mp hi with rfl | hi
      · exact hlt
      · exact hlt.trans (hsorted.1 i hi)

/-! ### Parents and children -/

variable (G V H)

/-- Another way to complete a layout inside a set `Γ`: it ends with a maximal set and takes the
smallest key that can be added, but need not add the rest in the order of the keys. -/
structure Completer where
  comp : Finset α → List (Key α) → Finset α
  maximal : ∀ {Γ : Finset α} {m : α} {P : List (Key α)}, Layout G m P → (∀ u ∈ nodes P, m ≤ u) →
    Within H Γ (nodeSet P) → Maximal (Good G (Within H Γ)) (comp Γ P)
  subset : ∀ {Γ : Finset α} {m : α} {P : List (Key α)}, Layout G m P → (∀ u ∈ nodes P, m ≤ u) →
    Within H Γ (nodeSet P) → nodeSet P ⊆ comp Γ P
  next_mem : ∀ {Γ : Finset α} {m : α} {P : List (Key α)} {x : Key α}, Layout G m P →
    (∀ u ∈ nodes P, m ≤ u) → Within H Γ (nodeSet P) →
      IsNext G (Within H Γ) (nodeSet P) P x → x.node ∈ comp Γ P

variable {G V H}

/-- The maximal set with layout `L` is a child of `S`: it is the greedy completion of the part of
its layout up to `c`, and `S` is the completion of what comes before `c` and does not contain
`c`. -/
structure IsChild (C : Completer G H) (V S : Finset α) (P : List (Key α)) (c : Key α)
    (L : List (Key α)) (m : α) : Prop where
  ne_nil : P ≠ []
  layout : Layout G m (P ++ [c])
  min : ∀ u ∈ nodes L, m ≤ u
  property : H (nodeSet L)
  ahead : Ahead G H (nodeSet (P ++ [c])) (P ++ [c])
  completes : Completes G H (P ++ [c]) L
  parent : C.comp V P = S
  notMem : c.node ∉ S

namespace IsChild

variable {C : Completer G H} {c : Key α}

section

variable (hH : Hereditary V H) (h : IsChild C V S P c L m)

include h

theorem layout_prefix : Layout G m P := h.layout.of_append h.ne_nil

theorem nodes_subset {u : α} (hu : u ∈ nodes (P ++ [c])) : u ∈ nodes L := by
  obtain ⟨R, hR⟩ := h.completes.isPrefix
  rw [← hR, nodes_append]
  exact List.mem_append_left _ hu

theorem min_core : ∀ u ∈ nodes (P ++ [c]), m ≤ u := fun u hu => h.min u (h.nodes_subset hu)

theorem min_prefix : ∀ u ∈ nodes P, m ≤ u := fun u hu =>
  h.min_core u (by rw [nodes_append]; exact List.mem_append_left _ hu)

include hH

theorem property_core : H (nodeSet (P ++ [c])) :=
  hH.mono (fun _ hu => mem_nodeSet.mpr (h.nodes_subset (mem_nodeSet.mp hu))) h.property

theorem within_prefix : Within H V (nodeSet P) := by
  rw [hH.within_self]
  refine hH.mono ?_ (h.property_core hH)
  rw [nodeSet_snoc]
  exact Finset.subset_insert _ _

theorem prefix_subset : nodeSet P ⊆ S :=
  h.parent ▸ C.subset h.layout_prefix h.min_prefix (h.within_prefix hH)

theorem parent_maximal : Maximal (Good G H) S := by
  have := C.maximal h.layout_prefix h.min_prefix (h.within_prefix hH)
  rwa [h.parent, hH.within_self] at this

theorem next_mem {x : Key α} (hx : IsNext G H (nodeSet P) P x) : x.node ∈ S := by
  rw [← hH.within_self] at hx
  exact h.parent ▸ C.next_mem h.layout_prefix h.min_prefix (h.within_prefix hH) hx

/-- The parent contains a key which comes before `c`. -/
theorem exists_lt : ∃ x, IsNext G H (nodeSet P) P x ∧ x.node ∈ S ∧ x < c := by
  have hc : IsCand G H (nodeSet P) P c := by
    refine ⟨(h.layout.reach_eq h.ne_nil).1, (h.layout.reach_eq h.ne_nil).2, ?_⟩
    rw [← nodeSet_snoc]
    exact h.property_core hH
  obtain ⟨x, hx⟩ := exists_isNext hH hc
  have hxS := h.next_mem hH hx
  refine ⟨x, hx, hxS, lt_of_le_of_ne (hx.2 c hc) ?_⟩
  rintro rfl
  exact h.notMem hxS

/-- **A child comes after its parent.** -/
theorem lt {M : List (Key α)} {m' : α} (hM : Layout G m' M) (hMS : nodeSet M = S)
    (hmin : ∀ u ∈ S, m' ≤ u) : M < L := by
  -- the layout of the parent and the cut differ first where the parent has a smaller key
  have hMmem : ∀ {u}, u ∈ S → u ∈ nodes M := fun hu => mem_nodeSet.mp (hMS ▸ hu)
  obtain ⟨T, hT⟩ := h.completes.isPrefix
  have hmS : m ∈ S := h.prefix_subset hH (mem_nodeSet.mpr h.layout_prefix.root_mem)
  rcases (hmin m hmS).eq_or_lt with rfl | hlt
  · obtain ⟨x, hx, hxS, hxc⟩ := h.exists_lt hH
    rcases prefix_or_split (P ++ [c]) M with hpre | ⟨Q, a, R, hQ, hM' | ⟨b, R', hM', hne⟩⟩
    · -- `c` would be in the parent
      refine absurd ?_ h.notMem
      rw [← hMS, mem_nodeSet]
      obtain ⟨N, rfl⟩ := hpre
      simp
    · -- the parent would be a part of `P`
      subst hM'
      have hQP : M <+: P := by
        refine List.prefix_of_prefix_length_le ⟨_, hQ.symm⟩ (List.prefix_append P [c]) ?_
        have := congrArg List.length hQ
        simp only [List.length_append, List.length_cons, List.length_nil] at this
        omega
      obtain ⟨N, rfl⟩ := hQP
      refine absurd (hMmem hxS) fun hmem => hx.1.2.1 ?_
      rw [nodes_append]
      exact List.mem_append_left _ hmem
    · have hlayout := h.layout
      rw [hQ] at hlayout
      subst hM'
      have hQne := Layout.split_ne_nil hlayout hM hne
      have hba : b < a := by
        rcases R.eq_nil_or_concat with rfl | ⟨R, i, rfl⟩
        · -- all of `P` is common
          obtain ⟨rfl, hca⟩ := List.append_inj' hQ rfl
          obtain rfl := List.singleton_inj.mp hca
          have hxb := hMmem hxS
          rw [nodes_append] at hxb
          have hxb := (List.mem_append.mp hxb).resolve_left hx.1.2.1
          exact (hM.le_of_reach hQne hxb hx.1.1).trans_lt hxc
        · have haP : a ∈ P := by
            rw [List.concat_eq_append, ← List.cons_append, ← List.append_assoc] at hQ
            rw [List.append_inj_left' hQ rfl]
            simp
          have hab := hMmem (h.prefix_subset hH (mem_nodeSet.mpr (node_mem haP)))
          rw [nodes_append] at hab
          have hab := (List.mem_append.mp hab).resolve_left (hlayout.reach_eq hQne).2
          exact lt_of_le_of_ne (hM.le_of_reach hQne hab (hlayout.reach_eq hQne).1) (Ne.symm hne)
      rw [← hT, hQ, List.append_assoc]
      exact List.Lex.append_left _ (List.Lex.rel hba) Q
  · -- the parent has a smaller node than all of the child
    obtain ⟨N, rfl⟩ := hM.exists_cons
    obtain ⟨N', hN'⟩ := h.layout.exists_cons
    rw [← hT, hN']
    exact List.Lex.rel (Key.lt_iff.mpr (Or.inr ⟨rfl, hlt⟩))

/-- The layout of a child is not the completion of its first node. -/
theorem not_root : ¬ Completes G H [⟨0, m⟩] L := by
  intro hroot
  obtain ⟨T, hT⟩ := h.completes.isPrefix
  obtain ⟨N, hN⟩ := h.layout_prefix.exists_cons
  rw [List.append_assoc] at hT
  have hnext := (hroot.next (Q := P) ⟨N, by rw [hN]; rfl⟩ hT.symm).1
  exact h.notMem (h.next_mem hH hnext)

end

private theorem length_le_of_isChild {P' : List (Key α)} {c' : Key α} {S' : Finset α} {m' : α}
    (hH : Hereditary V H) (h : IsChild C V S P c L m) (h' : IsChild C V S' P' c' L m') :
    P'.length ≤ P.length := by
  by_contra hlt
  obtain ⟨T', hT'⟩ := h'.completes.isPrefix
  have hpre : P ++ [c] <+: P' := by
    refine List.prefix_of_prefix_length_le h.completes.isPrefix
      ((List.prefix_append P' [c']).trans ⟨T', hT'⟩) ?_
    rw [List.length_append, List.length_singleton]
    omega
  rw [List.append_assoc] at hT'
  exact h'.notMem (h'.next_mem hH (h.completes.next hpre hT'.symm).1)

/-- **A set has one parent**, and it is found by one cut. -/
theorem unique {P' : List (Key α)} {c' : Key α} {S' : Finset α} {m' : α} (hH : Hereditary V H)
    (h : IsChild C V S P c L m) (h' : IsChild C V S' P' c' L m') : P = P' ∧ c = c' ∧ S = S' := by
  obtain ⟨T, hT⟩ := h.completes.isPrefix
  obtain ⟨T', hT'⟩ := h'.completes.isPrefix
  have hlen := le_antisymm (length_le_of_isChild hH h' h) (length_le_of_isChild hH h h')
  have heq := List.append_inj_left (hT.trans hT'.symm) (by simp [hlen])
  obtain ⟨rfl, hc⟩ := List.append_inj' heq rfl
  exact ⟨rfl, List.singleton_inj.mp hc, h.parent.symm.trans h'.parent⟩

/-! ### The restricted problem -/

section

variable (h : IsChild C V S P c L m) {R : Finset α} (hR : H R) (hsub : nodeSet (P ++ [c]) ⊆ R)

include h hR hsub

/-- **The layout of a good set that contains the cut begins with it.** -/
theorem prefix_restricted (hH : Hereditary V H) {M : List (Key α)} (hM : Layout G m M)
    (hMR : nodeSet M = R) : P ++ [c] <+: M := by
  rcases prefix_or_split (P ++ [c]) M with hpre | ⟨Q, a, N, hQ, hM' | ⟨b, N', rfl, hne⟩⟩
  · exact hpre
  · have hlayout := h.layout
    rw [hQ] at hlayout hsub
    subst hM' hMR
    have ha := mem_nodeSet.mp (hsub (mem_nodeSet.mpr (node_mem (k := a) (by simp))))
    exact absurd ha (hlayout.reach_eq hM.ne_nil).2
  · exfalso
    have hlayout := h.layout
    rw [hQ] at hlayout
    have hQne := Layout.split_ne_nil hlayout hM hne
    have ha : a.node ∈ nodes (b :: N') := by
      have haM : a.node ∈ nodes (Q ++ b :: N') := by
        rw [← mem_nodeSet, hMR]
        exact hsub (by rw [mem_nodeSet, hQ]; exact node_mem (by simp))
      rw [nodes_append] at haM
      exact (List.mem_append.mp haM).resolve_left (hlayout.reach_eq hQne).2
    have hba : b < a :=
      lt_of_le_of_ne (hM.le_of_reach hQne ha (hlayout.reach_eq hQne).1) (Ne.symm hne)
    -- `b` could be added to the cut, before its end
    have hb : b.node ∉ nodes (P ++ [c]) := by
      intro hmem
      rw [hQ, nodes_append] at hmem
      have hmem := (List.mem_append.mp hmem).resolve_left (hM.reach_eq hQne).2
      exact absurd (hlayout.le_of_reach hQne hmem (hM.reach_eq hQne).1) (not_le.mpr hba)
    have hcand : IsCand G H (nodeSet (P ++ [c])) (P ++ [c]) b := by
      refine ⟨?_, hb, hH.mono (Finset.insert_subset ?_ hsub) hR⟩
      · rw [hQ]
        exact reach_append_of_eq_some (hM.reach_eq hQne).1 _
      · rw [← hMR, mem_nodeSet]
        exact node_mem (by simp)
    exact absurd (h.ahead b hcand a (by rw [hQ]; simp)) (not_lt.mpr hba.le)

/-- Its smallest node is not next to the first node of the cut. -/
theorem not_adj_restricted (hH : Hereditary V H) {v : α} (hv : v ∈ R) (hvm : v ≤ m) :
    ¬ G.Adj v m := by
  intro hadj
  have hlt := lt_of_le_of_ne hvm hadj.ne
  obtain ⟨N, hN⟩ := h.layout.exists_cons
  have hreach : reach G (P ++ [c]) v = some 1 := by
    rw [hN]
    simp [reach, hadj.symm]
  have hcand : IsCand G H (nodeSet (P ++ [c])) (P ++ [c]) ⟨1, v⟩ :=
    ⟨hreach, fun hmem => absurd (h.min_core v hmem) (not_le.mpr hlt),
      hH.mono (Finset.insert_subset hv hsub) hR⟩
  have hc := h.ahead _ hcand c (by simp)
  obtain ⟨i, -, -, hlevel⟩ := exists_adj_of_reach (h.layout.reach_eq h.ne_nil).1
  have hmc := h.min_core c.node (node_mem (by simp))
  rcases Key.lt_iff.mp hc with hc | ⟨-, hc⟩
  · simp only at hc
    omega
  · exact absurd (hlt.trans_le hmc) (not_lt.mpr hc.le)

end

end IsChild

/-- A cut that greedy completion gives the set back from, but not from one node less, makes a
child. -/
theorem isChild_of_cut (hH : Hereditary V H) (C : Completer G H) {c : Key α} {R : List (Key α)}
    (hL : Layout G m L) (hmin : ∀ u ∈ nodes L, m ≤ u) (hmax : Maximal (Good G H) (nodeSet L))
    (hPne : P ≠ []) (hsplit : L = P ++ c :: R) (hahead : Ahead G H (nodeSet (P ++ [c])) (P ++ [c]))
    (hcomp : Completes G H (P ++ [c]) L)
    (hnot : ¬ (Ahead G H (nodeSet P) P ∧ Completes G H P L)) :
    IsChild C V (C.comp V P) P c L m := by
  have hlayout : Layout G m (P ++ [c]) := by
    refine Layout.of_append (R := R) ?_ (by simp)
    rwa [List.append_assoc, List.singleton_append, ← hsplit]
  have hlP := hlayout.of_append hPne
  have hLmem : nodeSet (P ++ [c]) ⊆ nodeSet L := by
    intro u hu
    rw [hsplit, List.append_cons, mem_nodeSet, nodes_append]
    exact List.mem_append_left _ (mem_nodeSet.mp hu)
  have hPmem : nodeSet P ⊆ nodeSet L := by
    refine subset_trans ?_ hLmem
    rw [nodeSet_snoc]
    exact Finset.subset_insert _ _
  have hminP : ∀ u ∈ nodes P, m ≤ u := fun u hu =>
    hmin u (mem_nodeSet.mp (hPmem (mem_nodeSet.mpr hu)))
  have hwithin : Within H V (nodeSet P) := by
    rw [hH.within_self]
    exact hH.mono hPmem hmax.prop.2
  refine ⟨hPne, hlayout, hmin, hmax.prop.2, hahead, hcomp, rfl, fun hc => hnot ?_⟩
  have hcand : IsCand G H (nodeSet P) P c := by
    refine ⟨(hlayout.reach_eq hPne).1, (hlayout.reach_eq hPne).2, ?_⟩
    rw [← nodeSet_snoc]
    exact hH.mono hLmem hmax.prop.2
  -- if `c` were in the parent, greedy completion of `P` would already give the set back
  obtain ⟨x, hx⟩ := exists_isNext hH hcand
  have hxS := C.next_mem hlP hminP hwithin (hH.within_self ▸ hx)
  rcases (hx.2 c hcand).eq_or_lt with rfl | hlt
  · refine ⟨fun j hj a ha => ?_, .step hx hcomp⟩
    have hax : a < x := (List.pairwise_append.mp hlayout.pairwise_lt).2.2 a ha x (by simp)
    exact hax.trans_le (hx.2 j hj)
  · -- `x` could be added to the cut, before its end
    have hS := (C.maximal hlP hminP hwithin).prop.2.1
    have hxcand : IsCand G H (nodeSet (P ++ [c])) (P ++ [c]) x := by
      refine ⟨reach_append_of_eq_some hx.1.1 _, ?_, hH.mono ?_ hS⟩
      · rw [nodes_append, List.mem_append, not_or]
        refine ⟨hx.1.2.1, fun hmem => hlt.ne ?_⟩
        have hxc : x.node = c.node := List.mem_singleton.mp hmem
        have hlevel : some c.level = some x.level := by
          rw [← hcand.1, ← hxc]
          exact hx.1.1
        exact Key.ext (Option.some.inj hlevel).symm hxc
      · rw [nodeSet_snoc]
        exact Finset.insert_subset hxS (Finset.insert_subset hc (C.subset hlP hminP hwithin))
    exact absurd (hahead x hxcand c (by simp)) (not_lt.mpr hlt.le)

/-- **A maximal good set which greedy completion does not get from its smallest node has a
parent.** -/
theorem exists_isChild (hH : Hereditary V H) (C : Completer G H) (hL : Layout G m L)
    (hmin : ∀ u ∈ nodes L, m ≤ u) (hmax : Maximal (Good G H) (nodeSet L))
    (hroot : ¬ Completes G H [⟨0, m⟩] L) : ∃ S P c, IsChild C V S P c L m := by
  classical
  have hex : ∃ i, Ahead G H (nodeSet (L.take i)) (L.take i) ∧ Completes G H (L.take i) L := by
    refine ⟨L.length, ?_⟩
    rw [List.take_length]
    exact ⟨fun k hk => absurd hk (not_isCand_of_maximal hmax k),
      .done (not_isCand_of_maximal hmax)⟩
  -- the cut is the shortest part of the layout that greedy completion gives the set back from
  obtain ⟨hahead, hcomp⟩ := Nat.find_spec hex
  have hfirst := fun {i} => Nat.find_min (m := i) hex
  set n := Nat.find hex
  obtain ⟨N, hN⟩ := hL.exists_cons
  have hn0 : n ≠ 0 := by
    intro h0
    rw [h0, List.take_zero] at hcomp
    cases hcomp with
    | done => exact hL.ne_nil rfl
    | step hk _ => exact absurd hk.1.1 (by simp [reach])
  have hn1 : n ≠ 1 := by
    intro h1
    rw [h1, hN, List.take_succ_cons, List.take_zero, ← hN] at hcomp
    exact hroot hcomp
  have hlen : n ≤ L.length := by
    by_contra hgt
    refine hfirst (i := L.length) (by omega) ?_
    rw [List.take_of_length_le (by omega)] at hahead hcomp
    rw [List.take_length]
    exact ⟨hahead, hcomp⟩
  obtain ⟨i, hi⟩ : ∃ i, n = i + 1 := ⟨n - 1, by omega⟩
  have hcut : L.take n = L.take i ++ [L[i]] := by
    rw [hi]
    exact (List.take_concat_get' L i (by omega)).symm
  rw [hcut] at hahead hcomp
  refine ⟨_, L.take i, L[i], isChild_of_cut hH C (R := L.drop n) hL hmin hmax ?_ ?_ hahead hcomp
    (hfirst (by omega))⟩
  · intro h0
    have := congrArg List.length h0
    rw [List.length_take, List.length_nil] at this
    omega
  · rw [List.append_cons, ← hcut, List.take_append_drop]

end ConnectedHereditary
