import ParallelEnum.Enumerable.Equiv.Diam2Kplex.Counters

/-!
# The invariant of a search node

`Inv` says what a node is: its lists are disjoint, `kplex` is a `k`-plex that starts with the root
and has grown along edges, `cands` and `excluded` are the indices that extend it, and `status`
marks the candidates.

* `foldl_sift`: the loops of `UpdateCandAndExcl`, each a filter that writes `status`.
* `updateCandAndExcl_spec`: it keeps what `CanAdd` accepts.
* `Inv.extend`: adding members and updating the lists gives a node again.
* `isMaximal_iff`, `hasDiameterTwo_iff`, `hasSmaller_iff`: what the tests on a node decide.
-/

namespace ParallelEnum.Diam2Kplex

open Kplex

namespace Impl

/-! ### The loops of `UpdateCandAndExcl` -/

/-- One iteration of a loop of `UpdateCandAndExcl`, on the list it fills and on `status`. -/
def sift (ok : ℕ → Bool) (label : Status) (s : List ℕ × Vec Status) (e : ℕ) :
    List ℕ × Vec Status :=
  if ok e && decide (s.2.get e ≠ .inKplex) then (s.1 ++ [e], s.2.set e label)
  else (s.1, s.2.set e .noStatus)

theorem foldl_sift (ok : ℕ → Bool) (label : Status) {l : List ℕ} (hl : l.Nodup)
    (s : List ℕ × Vec Status) (hlt : ∀ e ∈ l, e < s.2.size) :
    (l.foldl (sift ok label) s).1
        = s.1 ++ l.filter (fun e => ok e && decide (s.2.get e ≠ .inKplex)) ∧
      (l.foldl (sift ok label) s).2.size = s.2.size ∧
      ∀ i, (l.foldl (sift ok label) s).2.get i
        = if i ∈ l then
            if ok i && decide (s.2.get i ≠ .inKplex) then label else .noStatus
          else s.2.get i := by
  induction l generalizing s with
  | nil => simp
  | cons e l ih =>
    obtain ⟨hel, hl⟩ := List.nodup_cons.mp hl
    have he := hlt e List.mem_cons_self
    -- one iteration writes the status of `e` only
    have hsize : (sift ok label s e).2.size = s.2.size := by
      unfold sift
      split_ifs <;> exact Vec.size_set _ _ _
    have hother : ∀ i, i ≠ e → (sift ok label s e).2.get i = s.2.get i := by
      intro i hi
      unfold sift
      split_ifs <;> exact Vec.get_set_of_ne _ (Ne.symm hi) _
    have hself : (sift ok label s e).2.get e
        = if ok e && decide (s.2.get e ≠ .inKplex) then label else .noStatus := by
      unfold sift
      split_ifs <;> exact Vec.get_set_self he _
    obtain ⟨h1, h2, h3⟩ := ih hl (sift ok label s e)
      (fun x hx => hsize ▸ hlt x (List.mem_cons_of_mem _ hx))
    rw [List.foldl_cons]
    refine ⟨?_, h2.trans hsize, fun i => ?_⟩
    · have hfilter : l.filter (fun x => ok x && decide ((sift ok label s e).2.get x ≠ .inKplex))
          = l.filter fun x => ok x && decide (s.2.get x ≠ .inKplex) := by
        refine List.filter_congr fun x hx => ?_
        rw [hother x fun h => hel (h ▸ hx)]
      rw [h1, hfilter, List.filter_cons]
      unfold sift
      split_ifs
      · rw [List.append_assoc, List.singleton_append]
      · rfl
    · rw [h3]
      by_cases hie : i = e
      · subst hie
        rw [if_neg hel, hself, if_pos List.mem_cons_self]
      · rw [hother i hie]
        simp only [List.mem_cons, hie, false_or]

variable (g : Graph) (subgraph : Vec ℕ) (nadj : ℕ → List ℕ) (k : ℕ)

/-- `CanAdd` on a vertex reads `kplex` and `counters` only. -/
theorem canAddVertex_update (impl : Impl) (status : Vec Status) (cands excluded : List ℕ) (v : ℕ) :
    canAddVertex g subgraph k
        { impl with status := status, cands := cands, excluded := excluded } v
      = impl.canAddVertex g subgraph k v := by
  have hloop : ∀ (l : List ℕ) (vCnt : ℕ), canAddLoop g subgraph k
      { impl with status := status, cands := cands, excluded := excluded } v l vCnt
        = impl.canAddLoop g subgraph k v l vCnt := by
    intro l
    induction l with
    | nil => exact fun _ => rfl
    | cons u l ih =>
      intro vCnt
      unfold canAddLoop
      rw [ih, ih]
      rfl
  exact hloop impl.kplex 1

theorem canAdd_eq (impl : Impl) (e : ℕ) : impl.canAdd g subgraph k e
    = (impl.canAddVertex g subgraph k (subgraph.get e) &&
        decide (impl.status.get e ≠ .inKplex)) := by
  unfold canAdd
  by_cases h : impl.status.get e = .inKplex <;> simp [h]

variable {g subgraph nadj k}

theorem foldl_updateExcl (ok : ℕ → Bool) (l : List ℕ) (impl : Impl)
    (hok : ∀ e, impl.canAddVertex g subgraph k (subgraph.get e) = ok e) :
    l.foldl (updateExcl g subgraph k) impl
      = { impl with
          excluded := (l.foldl (sift ok .inExcl) (impl.excluded, impl.status)).1
          status := (l.foldl (sift ok .inExcl) (impl.excluded, impl.status)).2 } := by
  induction l generalizing impl with
  | nil => rfl
  | cons e l ih =>
    have hstep : updateExcl g subgraph k impl e = { impl with
        excluded := (sift ok .inExcl (impl.excluded, impl.status) e).1
        status := (sift ok .inExcl (impl.excluded, impl.status) e).2 } := by
      unfold updateExcl sift
      rw [canAdd_eq, hok]
      split_ifs <;> rfl
    rw [List.foldl_cons, hstep, ih _ fun x => by rw [canAddVertex_update, hok]]
    rfl

theorem foldl_updateCand (ok : ℕ → Bool) (bits : Vec Bool) (l : List ℕ) (impl : Impl)
    (hok : ∀ e, impl.canAddVertex g subgraph k (subgraph.get e) = ok e) :
    l.foldl (updateCand g subgraph k bits) impl
      = { impl with
          cands := (l.foldl (sift (fun e => !bits.get e && ok e) .inCand)
            (impl.cands, impl.status)).1
          status := (l.foldl (sift (fun e => !bits.get e && ok e) .inCand)
            (impl.cands, impl.status)).2 } := by
  induction l generalizing impl with
  | nil => rfl
  | cons e l ih =>
    have hstep : updateCand g subgraph k bits impl e = { impl with
        cands := (sift (fun e => !bits.get e && ok e) .inCand (impl.cands, impl.status) e).1
        status :=
          (sift (fun e => !bits.get e && ok e) .inCand (impl.cands, impl.status) e).2 } := by
      unfold updateCand sift
      rw [canAdd_eq, hok, ← Bool.and_assoc]
      split_ifs <;> rfl
    rw [List.foldl_cons, hstep, ih _ fun x => by rw [canAddVertex_update, hok]]
    rfl

/-- The lists of `UpdateCandAndExcl`. -/
theorem updateCandAndExcl_eq (ok : ℕ → Bool) (A : List ℕ) (bits : Vec Bool) (impl : Impl)
    (hok : ∀ e, impl.canAddVertex g subgraph k (subgraph.get e) = ok e) :
    impl.updateCandAndExcl g subgraph k A bits
      = let excl := (impl.excluded ++ A).foldl (sift ok .inExcl) ([], impl.status)
        let cand := impl.cands.foldl (sift (fun e => !bits.get e && ok e) .inCand) ([], excl.2)
        { impl with excluded := excl.1, cands := cand.1, status := cand.2 } := by
  unfold updateCandAndExcl
  simp only [← List.foldl_append]
  rw [foldl_updateExcl ok _ _ fun e => by
    rw [canAddVertex_update, hok]]
  dsimp only
  rw [foldl_updateCand ok _ _ _ fun e => by
    rw [canAddVertex_update, hok]]

/-- `UpdateCandAndExcl` keeps what `CanAdd` accepts, and writes the status of the rest. -/
theorem updateCandAndExcl_spec (A : List ℕ) (bits : Vec Bool) (impl : Impl)
    (hX : (impl.excluded ++ A).Nodup) (hC : impl.cands.Nodup)
    (hdisj : ∀ i ∈ impl.cands, i ∉ impl.excluded)
    (hltX : ∀ i ∈ impl.excluded ++ A, i < impl.status.size)
    (hltC : ∀ i ∈ impl.cands, i < impl.status.size)
    (hbits : ∀ i ∈ impl.cands, bits.get i = decide (i ∈ A)) :
    ∃ excluded cands status, impl.updateCandAndExcl g subgraph k A bits
        = { impl with excluded := excluded, cands := cands, status := status } ∧
      excluded = (impl.excluded ++ A).filter (impl.canAdd g subgraph k) ∧
      cands = impl.cands.filter (fun i => !decide (i ∈ A) && impl.canAdd g subgraph k i) ∧
      status.size = impl.status.size ∧
      ∀ i, status.get i =
        if i ∈ impl.cands then if i ∈ cands then .inCand else .noStatus
        else if i ∈ impl.excluded ++ A then if i ∈ excluded then .inExcl else .noStatus
        else impl.status.get i := by
  set ok : ℕ → Bool := fun e => impl.canAddVertex g subgraph k (subgraph.get e) with hok
  have hcan : ∀ i, (ok i && decide (impl.status.get i ≠ .inKplex)) = impl.canAdd g subgraph k i :=
    fun i => (canAdd_eq g subgraph k impl i).symm
  have hrun := updateCandAndExcl_eq ok A bits impl fun _ => rfl
  set excl := (impl.excluded ++ A).foldl (sift ok .inExcl) ([], impl.status)
  obtain ⟨he1, he2, he3⟩ := foldl_sift ok .inExcl hX ([], impl.status) hltX
  obtain ⟨hc1, hc2, hc3⟩ := foldl_sift (fun e => !bits.get e && ok e) .inCand hC ([], excl.2)
    fun i hi => (hltC i hi).trans_eq he2.symm
  -- the first loop does not change the status of a candidate that is not in `A`
  have hkeep : ∀ i ∈ impl.cands, (!bits.get i && ok i && decide (excl.2.get i ≠ .inKplex))
      = (!decide (i ∈ A) && impl.canAdd g subgraph k i) := by
    intro i hi
    rw [hbits i hi]
    by_cases hiA : i ∈ A
    · simp [hiA]
    · have hnot : i ∉ impl.excluded ++ A := by simp [hiA, hdisj i hi]
      have hstatus : excl.2.get i = impl.status.get i := (he3 i).trans (if_neg hnot)
      rw [hstatus, Bool.and_assoc, hcan]
  have hexcluded : excl.1 = (impl.excluded ++ A).filter (impl.canAdd g subgraph k) :=
    he1.trans (List.filter_congr fun i _ => hcan i)
  have hcands := hc1.trans (List.filter_congr hkeep)
  refine ⟨_, _, _, hrun, hexcluded, hcands, hc2.trans he2, fun i => ?_⟩
  rw [hc3, hcands, hexcluded]
  by_cases hiC : i ∈ impl.cands
  · simp only [hkeep i hiC, List.mem_filter, hiC, true_and, if_true]
  · rw [if_neg hiC, if_neg hiC]
    refine (he3 i).trans ?_
    by_cases hiX : i ∈ impl.excluded ++ A
    · simp only [hcan, List.mem_filter, hiX, true_and, if_true]
    · rw [if_neg hiX, if_neg hiX]

/-! ### The invariant -/

variable (g subgraph k) in
/-- A node of the search. -/
structure Inv (impl : Impl) : Prop extends Counted g subgraph k impl where
  /-- The root is the first member. -/
  head : ∃ rest, impl.kplex = 0 :: rest
  isKplex : IsKplex (blockGraph g subgraph) k impl.kplex.toFinset
  /-- Every other member is adjacent to a member. -/
  grown : ∀ i ∈ impl.kplex, i ≠ 0 → ∃ u ∈ impl.kplex, (blockGraph g subgraph).Adj i u
  cands_sorted : impl.cands.Pairwise (· < ·)
  excluded_nodup : impl.excluded.Nodup
  disjoint : ∀ i ∈ impl.cands, i ∉ impl.excluded
  lt_of_mem : ∀ i, i ∈ impl.cands ∨ i ∈ impl.excluded → i < subgraph.size
  /-- The candidates and the excluded indices are what extends the `k`-plex. -/
  addable : ∀ i < subgraph.size, i ∈ impl.cands ∨ i ∈ impl.excluded ↔
    Addable (blockGraph g subgraph) k impl.kplex.toFinset i
  status_cand : ∀ i < subgraph.size, impl.status.get i = .inCand ↔ i ∈ impl.cands
  status_kplex : ∀ i < subgraph.size, impl.status.get i = .inKplex → i ∈ impl.kplex

variable {impl : Impl}

theorem Inv.addable_of_cand (h : Inv g subgraph k impl) {i : ℕ} (hi : i ∈ impl.cands) :
    Addable (blockGraph g subgraph) k impl.kplex.toFinset i :=
  (h.addable i (h.lt_of_mem i (Or.inl hi))).mp (Or.inl hi)

theorem Inv.notMem_kplex (h : Inv g subgraph k impl) {i : ℕ}
    (hi : i ∈ impl.cands ∨ i ∈ impl.excluded) : i ∉ impl.kplex := fun hK =>
  ((h.addable i (h.lt_of_mem i hi)).mp hi).1 (List.mem_toFinset.mpr hK)

theorem Inv.cands_nodup (h : Inv g subgraph k impl) : impl.cands.Nodup :=
  h.cands_sorted.imp fun h => h.ne

theorem Inv.zero_mem (h : Inv g subgraph k impl) : 0 ∈ impl.kplex := by
  obtain ⟨rest, hrest⟩ := h.head
  rw [hrest]
  exact List.mem_cons_self

/-- The entry of an index that extends the `k`-plex is exact. -/
theorem Inv.counter_eq_card (h : Inv g subgraph k impl) (hk : k ≤ 255) {i : ℕ}
    (hi : i ∈ impl.cands ∨ i ∈ impl.excluded) : impl.counter i
      = (nonAdj (blockGraph g subgraph) impl.kplex.toFinset i).card := by
  have hlt := h.lt_of_mem i hi
  have hadd := (addable_iff h.isKplex).mp ((h.addable i hlt).mp hi)
  rw [← length_missing h.nodup] at hadd ⊢
  exact h.counter_eq_of_le hk hlt (by omega)

/-- Several calls of `AddToKplex`. -/
theorem foldl_addToKplex (hB : IsBlock g subgraph nadj) (hk : k ≤ 255) {U : List ℕ}
    (hU : U.Nodup) (hlt : ∀ c ∈ U, c < subgraph.size) (hnot : ∀ c ∈ U, c ∉ impl.kplex)
    (h : Counted g subgraph k impl) :
    Counted g subgraph k (U.foldl (addToKplex nadj k) impl) ∧
      (U.foldl (addToKplex nadj k) impl).kplex = impl.kplex ++ U ∧
      (U.foldl (addToKplex nadj k) impl).cands = impl.cands ∧
      (U.foldl (addToKplex nadj k) impl).excluded = impl.excluded ∧
      ∀ i < subgraph.size, (U.foldl (addToKplex nadj k) impl).status.get i
        = if i ∈ U then .inKplex else impl.status.get i := by
  induction U generalizing impl with
  | nil => simp [h]
  | cons c U ih =>
    obtain ⟨hcU, hU⟩ := List.nodup_cons.mp hU
    have hc := hlt c List.mem_cons_self
    obtain ⟨_, _, hrun, -, -⟩ := addToKplex_frame impl nadj k c
    obtain ⟨h1, h2, h3, h4, h5⟩ := @ih (impl.addToKplex nadj k c) hU
      (fun x hx => hlt x (List.mem_cons_of_mem _ hx))
      (fun x hx hmem => by
        rw [hrun] at hmem
        rcases List.mem_append.mp hmem with hmem | hmem
        · exact hnot x (List.mem_cons_of_mem _ hx) hmem
        · exact hcU (List.mem_singleton.mp hmem ▸ hx))
      (h.addToKplex hB hk hc (hnot c List.mem_cons_self))
    rw [List.foldl_cons]
    refine ⟨h1, ?_, ?_, ?_, fun i hi => ?_⟩
    · rw [h2, hrun]
      show impl.kplex ++ [c] ++ U = _
      rw [List.append_assoc, List.singleton_append]
    · rw [h3, hrun]
    · rw [h4, hrun]
    · rw [h5 i hi, hrun]
      show (if i ∈ U then Status.inKplex else (impl.status.set c .inKplex).get i) = _
      rw [Vec.get_set, h.size_status]
      by_cases hic : i = c
      · subst hic
        simp [hcU, hi]
      · simp [hic, Ne.symm hic]

variable (g subgraph nadj k) in
/-- A child of a node: `U` joins the `k`-plex, and `A` is excluded. -/
def extendBy (U A : List ℕ) (bits : Vec Bool) (impl : Impl) : Impl :=
  (U.foldl (addToKplex nadj k) impl).updateCandAndExcl g subgraph k A bits

variable (g subgraph k) in
/-- What the loops of `UpdateCandAndExcl` keep in a child. -/
structure Extends (U A : List ℕ) (impl child : Impl) : Prop where
  kplex_eq : child.kplex = impl.kplex ++ U
  cands_sublist : child.cands.Sublist impl.cands
  mem_cands : ∀ i, i ∈ child.cands ↔ i ∈ impl.cands ∧ i ∉ A ∧
    Addable (blockGraph g subgraph) k (impl.kplex ++ U).toFinset i

/-- After the calls of `AddToKplex`, `CanAdd` accepts what extends the larger `k`-plex. -/
theorem Inv.canAdd_iff (hB : IsBlock g subgraph nadj) (hk : k ≤ 255) (h : Inv g subgraph k impl)
    {U : List ℕ} (hU : U.Nodup) (hUC : ∀ c ∈ U, c ∈ impl.cands)
    (hK : IsKplex (blockGraph g subgraph) k (impl.kplex ++ U).toFinset) {i : ℕ}
    (hi : i ∈ impl.cands ∨ i ∈ impl.excluded) :
    (U.foldl (addToKplex nadj k) impl).canAdd g subgraph k i = true ↔
      Addable (blockGraph g subgraph) k (impl.kplex ++ U).toFinset i := by
  obtain ⟨hM, hMK, -, -, hMs⟩ := foldl_addToKplex hB hk hU
    (fun c hc => h.lt_of_mem c (Or.inl (hUC c hc)))
    (fun c hc => h.notMem_kplex (Or.inl (hUC c hc))) h.toCounted
  have hlt := h.lt_of_mem i hi
  rw [canAdd_eq, Bool.and_eq_true, decide_eq_true_eq, hMs i hlt, ← hMK]
  by_cases hiU : i ∈ U
  · -- a new member is marked
    rw [if_pos hiU]
    refine ⟨fun hcan => absurd rfl hcan.2, fun hadd => absurd ?_ hadd.1⟩
    simp [hMK, hiU]
  · have hfree : impl.status.get i ≠ .inKplex := fun hstatus =>
      h.notMem_kplex hi (h.status_kplex i hlt hstatus)
    have hout : i ∉ (U.foldl (addToKplex nadj k) impl).kplex := by
      rw [hMK, List.mem_append, not_or]
      exact ⟨h.notMem_kplex hi, hiU⟩
    rw [if_neg hiU, and_iff_left hfree]
    exact canAddVertex_get_iff hB hk hM (hMK ▸ hK) hlt hout

/-- **A child of a node is a node.** -/
theorem Inv.extend (hB : IsBlock g subgraph nadj) (hk : k ≤ 255) (h : Inv g subgraph k impl)
    {U A : List ℕ} {bits : Vec Bool} (hU : U.Nodup) (hUC : ∀ c ∈ U, c ∈ impl.cands)
    (hA : A.Nodup) (hAC : ∀ a ∈ A, a ∈ impl.cands)
    (hbits : ∀ i < subgraph.size, bits.get i = decide (i ∈ A))
    (hK : IsKplex (blockGraph g subgraph) k (impl.kplex ++ U).toFinset)
    (hgrow : ∀ c ∈ U, ∃ u ∈ impl.kplex, (blockGraph g subgraph).Adj c u) :
    Inv g subgraph k (extendBy g subgraph nadj k U A bits impl) ∧
      Extends g subgraph k U A impl
        (extendBy g subgraph nadj k U A bits impl) := by
  have hltC : ∀ i ∈ impl.cands, i < subgraph.size := fun i hi => h.lt_of_mem i (Or.inl hi)
  have hXA : ∀ i, i ∈ impl.excluded ++ A → i ∈ impl.cands ∨ i ∈ impl.excluded := by
    intro i hi
    rcases List.mem_append.mp hi with hi | hi
    · exact Or.inr hi
    · exact Or.inl (hAC i hi)
  -- the first loop runs over the excluded indices and `A`, the second one over the candidates
  have hnodup : (impl.excluded ++ A).Nodup :=
    h.excluded_nodup.append hA fun i hX hiA => h.disjoint i (hAC i hiA) hX
  have hcan := fun i => h.canAdd_iff hB hk hU hUC hK (i := i)
  obtain ⟨hM, hMK, hMc, hMe, hMs⟩ := foldl_addToKplex hB hk hU (fun c hc => hltC c (hUC c hc))
    (fun c hc => h.notMem_kplex (Or.inl (hUC c hc))) h.toCounted
  rw [extendBy]
  set M := U.foldl (addToKplex nadj k) impl
  obtain ⟨excluded, cands, status, hrun, hexcluded, hcands, hsize, hstatus⟩ :=
    updateCandAndExcl_spec A bits M (by rwa [hMe])
      (by rw [hMc]; exact h.cands_nodup) (by rw [hMc, hMe]; exact h.disjoint)
      (by rw [hMe, hM.size_status]; exact fun i hi => h.lt_of_mem i (hXA i hi))
      (by rw [hMc, hM.size_status]; exact hltC) (by rw [hMc]; exact fun i hi => hbits i (hltC i hi))
  -- both loops keep what extends the larger `k`-plex
  rw [hrun]
  rw [hMe] at hexcluded
  rw [hMc] at hcands
  have hmem_excl : ∀ i, i ∈ excluded ↔ (i ∈ impl.excluded ∨ i ∈ A) ∧
      Addable (blockGraph g subgraph) k (impl.kplex ++ U).toFinset i := by
    intro i
    rw [hexcluded, List.mem_filter, ← List.mem_append]
    exact and_congr_right fun hi => hcan i (hXA i hi)
  have hmem_cand : ∀ i, i ∈ cands ↔ i ∈ impl.cands ∧ i ∉ A ∧
      Addable (blockGraph g subgraph) k (impl.kplex ++ U).toFinset i := by
    intro i
    rw [hcands, List.mem_filter, Bool.and_eq_true, Bool.not_eq_true', decide_eq_false_iff_not]
    exact and_congr_right fun hi => and_congr_right fun _ => hcan i (Or.inl hi)
  have hsub : cands.Sublist impl.cands := by
    rw [hcands]
    exact List.filter_sublist
  refine ⟨?_, hMK, hsub, hmem_cand⟩
  constructor
  case toCounted =>
    exact ⟨hM.nodup, hM.lt_size, hM.size_counters, hsize.trans hM.size_status, hM.size_nonNeighs,
      hM.counter_eq, hM.slots_eq⟩
  case head =>
    obtain ⟨rest, hrest⟩ := h.head
    exact ⟨rest ++ U, by rw [hMK, hrest, List.cons_append]⟩
  case isKplex => exact hMK ▸ hK
  case grown =>
    intro i hi hi0
    rw [hMK] at hi ⊢
    rcases List.mem_append.mp hi with hi | hi
    · obtain ⟨u, hu, hadj⟩ := h.grown i hi hi0
      exact ⟨u, List.mem_append_left _ hu, hadj⟩
    · obtain ⟨u, hu, hadj⟩ := hgrow i hi
      exact ⟨u, List.mem_append_left _ hu, hadj⟩
  case cands_sorted => exact h.cands_sorted.sublist hsub
  case excluded_nodup => exact hexcluded ▸ hnodup.filter _
  case disjoint =>
    intro i hi hiX
    obtain ⟨hiC, hiA, -⟩ := (hmem_cand i).mp hi
    rcases ((hmem_excl i).mp hiX).1 with hX | hA'
    · exact h.disjoint i hiC hX
    · exact hiA hA'
  case lt_of_mem =>
    rintro i (hi | hi)
    · exact hltC i ((hmem_cand i).mp hi).1
    · exact h.lt_of_mem i (hXA i (List.mem_append.mpr ((hmem_excl i).mp hi).1))
  case addable =>
    intro i hi
    show i ∈ cands ∨ i ∈ excluded ↔ Addable _ k M.kplex.toFinset i
    rw [hmem_cand, hmem_excl, hMK]
    constructor
    · rintro (⟨-, -, h'⟩ | ⟨-, h'⟩)
      · exact h'
      · exact h'
    · intro h'
      have hsubset : impl.kplex.toFinset ⊆ (impl.kplex ++ U).toFinset := by
        intro x hx
        simp only [List.mem_toFinset] at hx ⊢
        exact List.mem_append_left _ hx
      by_cases hiA : i ∈ A
      · exact Or.inr ⟨Or.inr hiA, h'⟩
      · rcases (h.addable i hi).mpr (h'.mono hsubset) with hC | hX
        · exact Or.inl ⟨hC, hiA, h'⟩
        · exact Or.inr ⟨Or.inl hX, h'⟩
  case status_cand =>
    intro i hi
    show status.get i = .inCand ↔ i ∈ cands
    rw [hstatus, hMc, hMe]
    by_cases hiC : i ∈ impl.cands
    · rw [if_pos hiC]
      split_ifs with hkeep
      · exact ⟨fun _ => hkeep, fun _ => rfl⟩
      · exact ⟨nofun, fun h' => absurd h' hkeep⟩
    · -- only a candidate is marked as one
      rw [if_neg hiC]
      refine ⟨fun hst => ?_, fun h' => absurd ((hmem_cand i).mp h').1 hiC⟩
      split_ifs at hst
      rw [hMs i hi, if_neg fun hiU => hiC (hUC i hiU)] at hst
      exact absurd ((h.status_cand i hi).mp hst) hiC
  case status_kplex =>
    intro i hi hst
    change status.get i = .inKplex at hst
    show i ∈ M.kplex
    rw [hstatus, hMc, hMe] at hst
    rw [hMK]
    split_ifs at hst with hiC
    rw [hMs i hi, if_neg fun hiU => hiC (hUC i hiU)] at hst
    exact List.mem_append_left _ (h.status_kplex i hi hst)

end Impl

end ParallelEnum.Diam2Kplex
