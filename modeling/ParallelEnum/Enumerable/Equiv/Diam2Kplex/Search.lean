import ParallelEnum.Enumerable.Equiv.Diam2Kplex.Tests
import ParallelEnum.Theory.Traversal

/-!
# The search below a node

`children` lists what `ListChildren` passes to its callback.  A node stands for the family of the
sets between its `k`-plex and its `k`-plex with all candidates (`Impl.fam`); the children of a node
split a part of its family among them (`mem_fam_of_mem_children`, `children_disjoint`), and every
set that is to be reported stays in the family of a child until a node holds it
(`exists_child_of_good`).

* `listChildrenImpl_eq`: the function `ListChildren` lists `children`.
* `mem_keys_iff`: the sets held by the reported nodes of a tree.
-/

namespace ParallelEnum.Diam2Kplex

open Kplex Traversal

variable (g : Graph) (subgraph : Vec ℕ) (nadj : ℕ → List ℕ) (k q : ℕ) (enablePivoting : Bool)
  (std : StdSort)

/-- The children made by `branch`. -/
def childrenFrom (node : Impl) : List ℕ → List ℕ → Vec Bool → List Impl
  | [], _, _ => []
  | c :: cs, addToExcl, bits =>
    addChild g k subgraph nadj node addToExcl bits c ::
      childrenFrom node cs (addToExcl ++ [c]) (bits.set c true)

/-- The children `ListChildren` passes to its callback. -/
def children (node : Impl) : List Impl :=
  if node.isMaximal k then []
  else if node.canPrune q then []
  else if node.hasUniversalInExcl nadj then []
  else
    let cands := node.getCands g subgraph nadj k enablePivoting std
    if !cands.1.isEmpty then [fastForward g k subgraph nadj node cands.1]
    else childrenFrom g subgraph nadj k node cands.2 [] (Vec.zeros subgraph.size)

section Callback

variable {S : Type} {view : S → Vec ℕ × (ℕ → List ℕ)} {cb : Impl → S → Option (Bool × S)}
  {P : S → Prop}

theorem branch_eq (hview : ∀ s, P s → view s = (subgraph, nadj)) (node : Impl) (cs A : List ℕ)
    (bits : Vec Bool)
    (hkeep : ∀ y ∈ childrenFrom g subgraph nadj k node cs A bits, ∀ s r, P s →
      cb y s = some r → P r.2) {s : S} (hs : P s) :
    branch g k view node cb cs A bits s
      = forEach cb (childrenFrom g subgraph nadj k node cs A bits) s := by
  induction cs generalizing A bits s with
  | nil => rfl
  | cons c cs ih =>
    unfold branch
    unfold childrenFrom at hkeep ⊢
    rw [hview s hs, forEach_cons]
    cases hr : cb (addChild g k subgraph nadj node A bits c) s with
    | none => rfl
    | some r =>
      have hP : P r.2 := hkeep _ List.mem_cons_self s r hs hr
      simp only [Option.bind_some]
      split_ifs
      · exact ih _ _ (fun y hy => hkeep y (List.mem_cons_of_mem _ hy)) hP
      · rfl

/-- **The function `ListChildren` lists `children`** to a callback that leaves the block alone. -/
theorem listChildrenImpl_eq (hview : ∀ s, P s → view s = (subgraph, nadj)) (node : Impl)
    (hkeep : ∀ y ∈ children g subgraph nadj k q enablePivoting std node, ∀ s r, P s →
      cb y s = some r → P r.2) {s : S} (hs : P s) :
    listChildrenImpl g k q enablePivoting std view node cb s
      = forEach cb (children g subgraph nadj k q enablePivoting std node) s := by
  unfold listChildrenImpl
  unfold children at hkeep ⊢
  rw [hview s hs]
  dsimp only at hkeep ⊢
  split_ifs with h1 h2 h3 h4
  · rfl
  · rfl
  · rfl
  · rw [forEach_cons]
    cases cb (fastForward g k subgraph nadj node
      (node.getCands g subgraph nadj k enablePivoting std).1) s with
    | none => rfl
    | some r => simp
  · rw [if_neg h1, if_neg h2, if_neg h3, if_neg h4] at hkeep
    exact branch_eq g subgraph nadj k hview node _ _ _ hkeep hs

end Callback

/-! ### Families -/

namespace Impl

/-- The set a node holds. -/
def key (impl : Impl) : Finset ℕ := impl.kplex.toFinset

/-- The sets that may be found below a node. -/
def fam (impl : Impl) : Set (Finset ℕ) :=
  {S | impl.key ⊆ S ∧ S ⊆ impl.key ∪ impl.cands.toFinset}

variable {g subgraph nadj k} {impl child : Impl} {U A : List ℕ}

theorem key_mem_fam (impl : Impl) : impl.key ∈ impl.fam :=
  ⟨Finset.Subset.refl _, Finset.subset_union_left⟩

theorem Extends.key_eq (h : Extends g subgraph k U A impl child) :
    child.key = impl.key ∪ U.toFinset := by
  unfold key
  rw [h.kplex_eq, List.toFinset_append]

/-- The family of a child is part of the family of its parent. -/
theorem Extends.fam_subset (h : Extends g subgraph k U A impl child)
    (hU : ∀ c ∈ U, c ∈ impl.cands) : child.fam ⊆ impl.fam := by
  rintro S ⟨h1, h2⟩
  rw [h.key_eq] at h1 h2
  refine ⟨Finset.subset_union_left.trans h1, fun x hx => ?_⟩
  have hx := h2 hx
  simp only [Finset.mem_union, List.mem_toFinset] at hx ⊢
  rcases hx with (hx | hx) | hx
  · exact Or.inl hx
  · exact Or.inr (hU x hx)
  · exact Or.inr ((h.mem_cands x).mp hx).1

/-- The set a node holds is not in the family of a child. -/
theorem Extends.key_notMem (h : Extends g subgraph k U A impl child)
    {c : ℕ} (hc : c ∈ U) (hcK : c ∉ impl.kplex) : impl.key ∉ child.fam := by
  rintro ⟨h1, -⟩
  rw [h.key_eq] at h1
  have := h1 (Finset.mem_union_right _ (List.mem_toFinset.mpr hc))
  exact hcK (List.mem_toFinset.mp this)

/-- A `k`-plex in the family of a node is in the family of the child that has taken its vertices
and has not excluded any. -/
theorem Extends.mem_fam (h : Extends g subgraph k U A impl child)
    {S : Finset ℕ} (hS : S ∈ impl.fam) (hK : IsKplex (blockGraph g subgraph) k S)
    (hU : ∀ c ∈ U, c ∈ S) (hA : ∀ a ∈ A, a ∉ S) : S ∈ child.fam := by
  have hkey : child.key ⊆ S := by
    rw [h.key_eq]
    exact Finset.union_subset hS.1 fun x hx => hU x (List.mem_toFinset.mp hx)
  refine ⟨hkey, fun x hx => ?_⟩
  rw [Finset.mem_union, List.mem_toFinset]
  by_cases hxK : x ∈ child.key
  · exact Or.inl hxK
  · right
    have hxC : x ∈ impl.cands := by
      rcases Finset.mem_union.mp (hS.2 hx) with hx' | hx'
      · exact absurd (h.key_eq ▸ Finset.mem_union_left _ hx') hxK
      · exact List.mem_toFinset.mp hx'
    refine (h.mem_cands x).mpr ⟨hxC, fun hxA => hA x hxA hx, ?_⟩
    have heq : child.key = (impl.kplex ++ U).toFinset := by
      unfold key
      rw [h.kplex_eq]
    rw [← heq]
    exact addable_of_mem_kplex hK hkey hx hxK

/-- A child has fewer candidates. -/
theorem Extends.length_lt (h : Extends g subgraph k U A impl child)
    {c : ℕ} (hc : c ∈ U) (hcC : c ∈ impl.cands) : child.cands.length < impl.cands.length := by
  by_contra hle
  have heq := h.cands_sublist.eq_of_length_le (not_lt.mp hle)
  have hmem := ((h.mem_cands c).mp (heq ▸ hcC)).2.2.1
  exact hmem (by simp [hc])

/-! ### What `GetCands` returns -/

variable {enablePivoting std}

theorem getCands_fst (hnodup : impl.cands.Nodup) (hlt : ∀ u ∈ impl.cands, u < subgraph.size) :
    (impl.getCands g subgraph nadj k enablePivoting std).1
      = impl.cands.filter (impl.isUniversal nadj) := by
  have hscan := foldl_scanCand nadj impl hnodup (Vec.zeros subgraph.size) []
    (fun u hu => (hlt u hu).trans_eq (Vec.size_zeros _).symm) (fun u _ => Vec.get_zeros _ _)
  rw [List.nil_append] at hscan
  unfold getCands
  dsimp only
  split_ifs with h1 h2
  · rw [List.length_eq_zero_iff] at h1
    rw [h1]
    rfl
  · exact hscan
  · rw [Bool.not_eq_true, Bool.not_eq_false', List.isEmpty_iff] at h2
    rw [← hscan, h2]

theorem getCands_snd (hne : impl.cands ≠ [])
    (hnone : (impl.getCands g subgraph nadj k enablePivoting std).1 = []) :
    (impl.getCands g subgraph nadj k enablePivoting std).2.Perm
      (impl.realCands g subgraph nadj k enablePivoting) := by
  unfold getCands at hnone ⊢
  dsimp only at hnone ⊢
  have hlen : ¬ impl.cands.length = 0 := fun h => hne (List.length_eq_zero_iff.mp h)
  rw [if_neg hlen] at hnone ⊢
  split_ifs at hnone ⊢ with h2
  · dsimp only at hnone
    rw [hnone] at h2
    exact absurd h2 (by decide)
  · exact std.perm _ _

variable (enablePivoting) in
theorem realCands_spec (hB : IsBlock g subgraph nadj) (h : Inv g subgraph k impl) (hk : k ≤ 255)
    (hne : impl.cands ≠ []) :
    (impl.realCands g subgraph nadj k enablePivoting).Nodup ∧
      ∀ c ∈ impl.realCands g subgraph nadj k enablePivoting, c ∈ impl.cands ∧
        ∃ u ∈ impl.kplex, (blockGraph g subgraph).Adj c u := by
  unfold realCands
  split_ifs with hpivot
  · simp only [Bool.and_eq_true, decide_eq_true_eq] at hpivot
    have hbest := best_mem g subgraph nadj k hne
    refine ⟨notCuts_nodup hB h (h.lt_of_mem _ hbest), fun c hc => ?_⟩
    have hcC := ((mem_notCuts_iff hB h hk hbest).mp hc).1
    obtain ⟨u, hu, hadj⟩ := (h.addable_of_cand hcC).exists_adj (Finset.Subset.refl _)
      (by rw [h.card_kplex]; omega)
    exact ⟨hcC, u, List.mem_toFinset.mp hu, hadj⟩
  · refine ⟨h.cands_nodup.filter _, fun c hc => ?_⟩
    obtain ⟨hcC, hcount⟩ := List.mem_filter.mp hc
    refine ⟨hcC, ?_⟩
    by_contra hno
    push Not at hno
    have := (h.counter_eq_length_iff hk (Or.inl hcC)).mpr hno
    simp [this] at hcount

variable (enablePivoting) in
/-- A set to be reported below a node has a vertex among those `GetCands` branches on. -/
theorem exists_mem_realCands (hB : IsBlock g subgraph nadj) (h : Inv g subgraph k impl)
    (hk : k ≤ 255) {S : Finset ℕ} (hS : S ∈ impl.fam) (hne : impl.key ≠ S)
    (hK : IsKplex (blockGraph g subgraph) k S) (hdiam : DiamTwo (blockGraph g subgraph) S)
    (hmax : MaximalIn (blockGraph g subgraph) k (Finset.range subgraph.size) S) :
    ∃ c ∈ impl.realCands g subgraph nadj k enablePivoting, c ∈ S := by
  have hss : impl.key ⊂ S := lt_of_le_of_ne hS.1 hne
  have hcand : ∀ x ∈ S, x ∉ impl.key → x ∈ impl.cands := by
    intro x hx hxK
    rcases Finset.mem_union.mp (hS.2 hx) with hx | hx
    · exact absurd hx hxK
    · exact List.mem_toFinset.mp hx
  unfold realCands
  split_ifs
  · have hnil : impl.cands ≠ [] := by
      obtain ⟨x, hx, hxK⟩ := Finset.exists_of_ssubset hss
      exact List.ne_nil_of_mem (hcand x hx hxK)
    have hbest := best_mem g subgraph nadj k hnil
    have hlt := h.lt_of_mem _ hbest
    obtain ⟨u, hu, huK, hor⟩ := exists_mem_branch hK hss hmax (Finset.mem_range.mpr hlt)
      ((h.addable _ hlt).mp hbest)
    refine ⟨u, (mem_notCuts_iff hB h hk hbest).mpr ⟨hcand u hu huK, ?_⟩, hu⟩
    rcases hor with hnot | ⟨w, hw, h1, h2⟩
    · exact Or.inl hnot
    · exact Or.inr ⟨w, List.mem_toFinset.mp hw, h1, h2⟩
  · obtain ⟨v, hv, hvK, u, hu, hadj⟩ := hdiam.exists_adj hss
      ⟨0, List.mem_toFinset.mpr h.zero_mem⟩
    have hvC := hcand v hv hvK
    refine ⟨v, List.mem_filter.mpr ⟨hvC, ?_⟩, hv⟩
    have hcount : impl.counter v ≠ impl.kplex.length := fun heq =>
      (h.counter_eq_length_iff hk (Or.inl hvC)).mp heq u (List.mem_toFinset.mp hu) hadj
    simpa using hcount

end Impl

/-! ### The children of a node -/

section Children

open Impl

variable {g subgraph nadj k q enablePivoting std} {node : Impl}

/-- Every child of `branch` is a node that holds one vertex more. -/
theorem childrenFrom_spec {cs : List ℕ} (A : List ℕ) (bits : Vec Bool)
    (hB : IsBlock g subgraph nadj) (hk : k ≤ 255) (h : Inv g subgraph k node)
    (hnodup : (A ++ cs).Nodup) (hcands : ∀ c ∈ A ++ cs, c ∈ node.cands)
    (hgrow : ∀ c ∈ cs, ∃ u ∈ node.kplex, (blockGraph g subgraph).Adj c u)
    (hsize : bits.size = subgraph.size)
    (hbits : ∀ i < subgraph.size, bits.get i = decide (i ∈ A)) :
    (∀ child ∈ childrenFrom g subgraph nadj k node cs A bits, Inv g subgraph k child ∧
      ∃ c ∈ cs, ∃ A', A ⊆ A' ∧
        Extends g subgraph k [c] A' node child) ∧
    ((childrenFrom g subgraph nadj k node cs A bits).Pairwise
      fun c d => Disjoint c.fam d.fam) ∧
    ∀ S ∈ node.fam, IsKplex (blockGraph g subgraph) k S → (∀ a ∈ A, a ∉ S) →
      (∃ c ∈ cs, c ∈ S) →
        ∃ child ∈ childrenFrom g subgraph nadj k node cs A bits, S ∈ child.fam := by
  induction cs generalizing A bits with
  | nil => simp [childrenFrom]
  | cons c cs ih =>
    have hc : c ∈ node.cands := hcands c (by simp)
    have hclt := h.lt_of_mem c (Or.inl hc)
    have hassoc : A ++ [c] ++ cs = A ++ c :: cs := by simp
    have hcA : c ∉ A := fun hmem =>
      (List.nodup_append.mp hnodup).2.2 c hmem c List.mem_cons_self rfl
    -- the first child
    have hkplex : IsKplex (blockGraph g subgraph) k (node.kplex ++ [c]).toFinset := by
      have hset : (node.kplex ++ [c]).toFinset = insert c node.kplex.toFinset := by
        rw [List.toFinset_append, Finset.union_comm]
        rfl
      rw [hset]
      exact (h.addable_of_cand hc).2
    obtain ⟨hinv, hext⟩ := Inv.extend hB hk h (U := [c]) (A := A)
      (List.nodup_singleton c) (by simpa using hc) (List.nodup_append.mp hnodup).1
      (fun a ha => hcands a (List.mem_append_left _ ha))
      hbits hkplex (by simpa using hgrow c List.mem_cons_self)
    have hfirst : extendBy g subgraph nadj k [c] A bits node
        = addChild g k subgraph nadj node A bits c := rfl
    rw [hfirst] at hinv hext
    -- the others
    obtain ⟨ih1, ih2, ih3⟩ := @ih (A ++ [c]) (bits.set c true) (by rwa [hassoc])
      (by rwa [hassoc]) (fun x hx => hgrow x (List.mem_cons_of_mem _ hx))
      ((Vec.size_set _ _ _).trans hsize) (fun i hi => by
        rw [Vec.get_set, hsize, hbits i hi]
        by_cases hic : i = c
        · subst hic
          simp [hi]
        · simp [hic, Ne.symm hic])
    unfold childrenFrom
    refine ⟨?_, ?_, ?_⟩
    · intro child hchild
      rcases List.mem_cons.mp hchild with rfl | hchild
      · exact ⟨hinv, c, List.mem_cons_self, A, List.Subset.refl A, hext⟩
      · obtain ⟨hinv', d, hd, A', hA', hext'⟩ := ih1 child hchild
        exact ⟨hinv', d, List.mem_cons_of_mem _ hd, A',
          fun a ha => hA' (List.mem_append_left _ ha), hext'⟩
    · refine List.pairwise_cons.mpr ⟨fun child hchild => ?_, ih2⟩
      obtain ⟨-, d, hd, A', hA', hext'⟩ := ih1 child hchild
      rw [Set.disjoint_left]
      rintro S ⟨h1, -⟩ ⟨-, h2⟩
      -- `c` is in the sets of the first child and in none of a later one
      have hcS : c ∈ S := h1 (by rw [hext.key_eq]; simp)
      have hmem := h2 hcS
      rw [hext'.key_eq] at hmem
      simp only [Finset.mem_union, List.mem_toFinset, List.mem_singleton] at hmem
      rcases hmem with (hmem | hmem) | hmem
      · exact h.notMem_kplex (Or.inl hc) (List.mem_toFinset.mp hmem)
      · have hcs := (List.nodup_append.mp hnodup).2.1
        exact (List.nodup_cons.mp hcs).1 (hmem ▸ hd)
      · exact ((hext'.mem_cands c).mp hmem).2.1 (hA' (by simp))
    · intro S hS hK hAS hhit
      by_cases hcS : c ∈ S
      · exact ⟨_, List.mem_cons_self, hext.mem_fam hS hK (by simpa using hcS) hAS⟩
      · obtain ⟨d, hd, hdS⟩ := hhit
        obtain ⟨child, hchild, hmem⟩ := ih3 S hS hK
          (fun a ha => by
            rcases List.mem_append.mp ha with ha | ha
            · exact hAS a ha
            · exact List.mem_singleton.mp ha ▸ hcS)
          ⟨d, (List.mem_cons.mp hd).resolve_left fun heq => hcS (heq ▸ hdS), hdS⟩
        exact ⟨child, List.mem_cons_of_mem _ hchild, hmem⟩

/-- The child made of the universal candidates. -/
theorem fastForward_spec (hB : IsBlock g subgraph nadj) (hk : 1 ≤ k) (hk' : k ≤ 255)
    (h : Inv g subgraph k node) :
    Inv g subgraph k (fastForward g k subgraph nadj node
        (node.cands.filter (node.isUniversal nadj))) ∧
      Extends g subgraph k
        (node.cands.filter (node.isUniversal nadj)) [] node
        (fastForward g k subgraph nadj node (node.cands.filter (node.isUniversal nadj))) := by
  have huniv : ∀ c ∈ node.cands.filter (node.isUniversal nadj), c ∈ node.cands ∧
      (∀ w ∈ node.kplex, (blockGraph g subgraph).Adj c w) ∧
        ∀ v ∈ node.cands, v ≠ c → (blockGraph g subgraph).Adj c v := by
    intro c hc
    obtain ⟨hcC, htest⟩ := List.mem_filter.mp hc
    exact ⟨hcC, (isUniversal_iff hB h hk' hcC).mp htest⟩
  have hkplex : IsKplex (blockGraph g subgraph) k
      (node.kplex ++ node.cands.filter (node.isUniversal nadj)).toFinset := by
    rw [List.toFinset_append]
    refine isKplex_union hk h.isKplex (fun u hu v hv => ?_) fun u hu v hv hne => ?_
    · exact (huniv u (List.mem_toFinset.mp hu)).2.1 v (List.mem_toFinset.mp hv)
    · exact (huniv u (List.mem_toFinset.mp hu)).2.2 v
        (huniv v (List.mem_toFinset.mp hv)).1 hne
  exact Inv.extend hB hk' h (h.cands_nodup.filter _) (fun c hc => (huniv c hc).1) List.nodup_nil
    (by simp) (fun i _ => by rw [Vec.get_zeros]; rfl) hkplex
    fun c hc => ⟨0, h.zero_mem, (huniv c hc).2.1 0 h.zero_mem⟩

/-- The candidates that are branched on, in the order of the branches. -/
theorem branch_spec (hB : IsBlock g subgraph nadj) (hk : k ≤ 255) (h : Inv g subgraph k node)
    (hnone : (node.getCands g subgraph nadj k enablePivoting std).1 = []) :
    ((node.getCands g subgraph nadj k enablePivoting std).2).Nodup ∧
      (∀ c ∈ (node.getCands g subgraph nadj k enablePivoting std).2, c ∈ node.cands ∧
        ∃ u ∈ node.kplex, (blockGraph g subgraph).Adj c u) ∧
      ∀ c ∈ node.realCands g subgraph nadj k enablePivoting, node.cands ≠ [] →
        c ∈ (node.getCands g subgraph nadj k enablePivoting std).2 := by
  by_cases hne : node.cands = []
  · have hnil : (node.getCands g subgraph nadj k enablePivoting std).2 = [] := by
      unfold getCands
      rw [if_pos (by rw [hne]; rfl)]
    simp [hnil, hne]
  · have hperm := getCands_snd hne hnone
    obtain ⟨hnodup, hreal⟩ := realCands_spec enablePivoting hB h hk hne
    exact ⟨hperm.nodup_iff.mpr hnodup, fun c hc => hreal c (hperm.mem_iff.mp hc),
      fun c hc _ => hperm.mem_iff.mpr hc⟩

variable (g subgraph k q) in
/-- The sets below a node that are to be reported, apart from the test against vertices before
the root. -/
structure Good (S : Finset ℕ) : Prop where
  isKplex : IsKplex (blockGraph g subgraph) k S
  diamTwo : DiamTwo (blockGraph g subgraph) S
  card : q ≤ S.card
  maximalIn : MaximalIn (blockGraph g subgraph) k (Finset.range subgraph.size) S

/-- Everything the induction over a tree needs to know about a child. -/
structure IsChildOf (g : Graph) (subgraph : Vec ℕ) (k : ℕ) (node child : Impl) : Prop where
  inv : Inv g subgraph k child
  fam_subset : child.fam ⊆ node.fam
  key_notMem : node.key ∉ child.fam
  length_lt : child.cands.length < node.cands.length

theorem Impl.Extends.isChildOf (h : Inv g subgraph k node) {child : Impl} {U A : List ℕ}
    (hext : Extends g subgraph k U A node child)
    (hinv : Inv g subgraph k child) (hU : ∀ c ∈ U, c ∈ node.cands) (hne : U ≠ []) :
    IsChildOf g subgraph k node child := by
  obtain ⟨c, hc⟩ := List.exists_mem_of_ne_nil _ hne
  exact ⟨hinv, hext.fam_subset hU, hext.key_notMem hc (h.notMem_kplex (Or.inl (hU c hc))),
    hext.length_lt hc (hU c hc)⟩

/-- **The children of a node** split a part of its family. -/
theorem isChildOf_of_mem_children (hB : IsBlock g subgraph nadj) (hk : 1 ≤ k) (hk' : k ≤ 255)
    (h : Inv g subgraph k node) :
    (∀ child ∈ children g subgraph nadj k q enablePivoting std node,
      IsChildOf g subgraph k node child) ∧
    (children g subgraph nadj k q enablePivoting std node).Pairwise
      fun c d => Disjoint c.fam d.fam := by
  unfold children
  dsimp only
  split_ifs with h1 h2 h3 h4
  · simp
  · simp
  · simp
  · refine ⟨?_, List.pairwise_singleton _ _⟩
    rw [getCands_fst h.cands_nodup fun u hu => h.lt_of_mem u (Or.inl hu)] at h4 ⊢
    obtain ⟨hinv, hext⟩ := fastForward_spec hB hk hk' h
    intro child hchild
    rw [List.mem_singleton.mp hchild]
    refine hext.isChildOf h hinv (fun c hc => List.mem_of_mem_filter hc) ?_
    simpa using h4
  · have hnone : (node.getCands g subgraph nadj k enablePivoting std).1 = [] := by simpa using h4
    obtain ⟨hnodup, hmem, -⟩ := branch_spec hB hk' h hnone
    obtain ⟨hspec, hdisj, -⟩ := childrenFrom_spec [] (Vec.zeros subgraph.size) hB hk' h
      hnodup (fun c hc => (hmem c hc).1) (fun c hc => (hmem c hc).2) (Vec.size_zeros _)
      (fun i _ => by rw [Vec.get_zeros]; rfl)
    refine ⟨fun child hchild => ?_, hdisj⟩
    obtain ⟨hinv, c, hc, A', -, hext⟩ := hspec child hchild
    exact hext.isChildOf h hinv (by simpa using (hmem c hc).1) (List.cons_ne_nil _ _)

/-- **No set is lost**: a set to be reported below a node that does not hold it is in the family
of a child. -/
theorem exists_child_of_good (hB : IsBlock g subgraph nadj) (hk : 1 ≤ k) (hk' : k ≤ 255)
    (h : Inv g subgraph k node) {S : Finset ℕ} (hS : S ∈ node.fam) (hne : node.key ≠ S)
    (hgood : Good g subgraph k q S) :
    ∃ child ∈ children g subgraph nadj k q enablePivoting std node, S ∈ child.fam := by
  have hss : node.key ⊂ S := lt_of_le_of_ne hS.1 hne
  have h0 : 0 ∈ node.key := List.mem_toFinset.mpr h.zero_mem
  have hSne : S.Nonempty := ⟨0, hS.1 h0⟩
  -- a new vertex next to the `k`-plex: the node is not maximal
  obtain ⟨v, hv, hvK, u, hu, hadj⟩ := hgood.diamTwo.exists_adj hss ⟨0, h0⟩
  have hvC : v ∈ node.cands := by
    rcases Finset.mem_union.mp (hS.2 hv) with hv | hv
    · exact absurd hv hvK
    · exact List.mem_toFinset.mp hv
  have hnotMaximal : ¬ node.isMaximal k = true := fun hmax =>
    (isMaximal_iff h hk').mp hmax v (Finset.mem_range.mpr (h.lt_of_mem v (Or.inl hvC)))
      (h.addable_of_cand hvC) u hu hadj
  have hnotPrune : ¬ node.canPrune q = true := by
    have h1 := Finset.card_le_card hS.2
    have h2 := Finset.card_union_le node.key node.cands.toFinset
    have h3 := List.toFinset_card_le node.cands
    have h4 := h.card_kplex
    have h5 := hgood.card
    unfold canPrune key at *
    rw [decide_eq_true_iff]
    omega
  have huniv : ∀ x < subgraph.size,
      (∀ y ∈ node.key ∪ node.cands.toFinset, y ≠ x → (blockGraph g subgraph).Adj x y) → x ∈ S :=
    fun x hx hall => mem_of_universal hk hgood.isKplex hSne hgood.maximalIn hS.2
      (Finset.mem_range.mpr hx) hall
  have hnotExcl : ¬ node.hasUniversalInExcl nadj = true := by
    rw [hasUniversalInExcl_iff hB h hk']
    rintro ⟨x, hx, hxK, hxC⟩
    have hmem := huniv x (h.lt_of_mem x (Or.inr hx)) fun y hy _ => by
      rcases Finset.mem_union.mp hy with hy | hy
      · exact hxK y (List.mem_toFinset.mp hy)
      · exact hxC y (List.mem_toFinset.mp hy)
    rcases Finset.mem_union.mp (hS.2 hmem) with hmem | hmem
    · exact h.notMem_kplex (Or.inr hx) (List.mem_toFinset.mp hmem)
    · exact h.disjoint x (List.mem_toFinset.mp hmem) hx
  unfold children
  dsimp only
  rw [if_neg hnotMaximal, if_neg hnotPrune, if_neg hnotExcl]
  split_ifs with h4
  · rw [getCands_fst h.cands_nodup fun u hu => h.lt_of_mem u (Or.inl hu)]
    obtain ⟨-, hext⟩ := fastForward_spec hB hk hk' h
    refine ⟨_, List.mem_singleton_self _, hext.mem_fam hS hgood.isKplex (fun c hc => ?_) (by simp)⟩
    obtain ⟨hcC, htest⟩ := List.mem_filter.mp hc
    obtain ⟨hcK, hcC'⟩ := (isUniversal_iff hB h hk' hcC).mp htest
    refine huniv c (h.lt_of_mem c (Or.inl hcC)) fun y hy hyc => ?_
    rcases Finset.mem_union.mp hy with hy | hy
    · exact hcK y (List.mem_toFinset.mp hy)
    · exact hcC' y (List.mem_toFinset.mp hy) hyc
  · have hnone : (node.getCands g subgraph nadj k enablePivoting std).1 = [] := by simpa using h4
    obtain ⟨hnodup, hmem, hreal⟩ := branch_spec hB hk' h hnone
    obtain ⟨-, -, hcover⟩ := childrenFrom_spec [] (Vec.zeros subgraph.size) hB hk' h
      hnodup (fun c hc => (hmem c hc).1) (fun c hc => (hmem c hc).2) (Vec.size_zeros _)
      (fun i _ => by rw [Vec.get_zeros]; rfl)
    obtain ⟨c, hc, hcS⟩ := exists_mem_realCands enablePivoting hB h hk' hS hne
      hgood.isKplex hgood.diamTwo hgood.maximalIn
    exact hcover S hS hgood.isKplex (by simp) ⟨c, hreal c hc (List.ne_nil_of_mem hvC), hcS⟩

/-! ### The tree below a node -/

variable (g subgraph nadj k q enablePivoting std) in
/-- The search in a block: the candidates of a child are fewer. -/
def forest (hB : IsBlock g subgraph nadj) (hk : 1 ≤ k) (hk' : k ≤ 255) : Forest Impl where
  children := children g subgraph nadj k q enablePivoting std
  Ok := Inv g subgraph k
  rank node := node.cands.length
  ok_of_mem h hc := ((isChildOf_of_mem_children hB hk hk' h).1 _ hc).inv
  rank_lt_of_mem h hc := ((isChildOf_of_mem_children hB hk hk' h).1 _ hc).length_lt

variable (hB : IsBlock g subgraph nadj) (hk : 1 ≤ k) (hk' : k ≤ 255)

/-- No two nodes of a tree hold the same set. -/
theorem nodup_keys (h : Inv g subgraph k node) :
    (((forest g subgraph nadj k q enablePivoting std hB hk hk').subtree node).map key).Nodup := by
  refine Forest.nodup_map_subtree fam h ?_ ?_ ?_ ?_
  · exact fun y _ => key_mem_fam y
  · exact fun y c hy hc => ((isChildOf_of_mem_children hB hk hk' hy).1 c hc).fam_subset
  · exact fun y c hy hc => ((isChildOf_of_mem_children hB hk hk' hy).1 c hc).key_notMem
  · exact fun y hy => (isChildOf_of_mem_children hB hk hk' hy).2

/-- **The sets held by the nodes of a tree** that hold a set to be reported. -/
theorem mem_keys_iff (h : Inv g subgraph k node) {S : Finset ℕ} (hgood : Good g subgraph k q S) :
    S ∈ ((forest g subgraph nadj k q enablePivoting std hB hk hk').subtree node).map key ↔
      S ∈ node.fam := by
  constructor
  · intro hS
    obtain ⟨y, hy, rfl⟩ := List.mem_map.mp hS
    exact Forest.key_mem_of_mem_subtree fam h (fun y _ => key_mem_fam y)
      (fun y c hy hc => ((isChildOf_of_mem_children hB hk hk' hy).1 c hc).fam_subset) y hy
  · intro hS
    refine Forest.mem_map_subtree fam (Good g subgraph k q)
      (fun y S hy hS hgood => ?_) h hS hgood
    by_cases heq : S = y.key
    · exact Or.inl heq
    · exact Or.inr (exists_child_of_good hB hk hk' hy hS (Ne.symm heq) hgood)

end Children

end ParallelEnum.Diam2Kplex
