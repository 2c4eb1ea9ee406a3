import ParallelEnum.Enumerable.Equiv.Diam2Kplex.Reachable

/-!
# The status array along the search

The last loop of `UpdateCandAndExcl` goes through all former candidates, and these include the
indices that have just joined the `k`-plex and those that have just been excluded.  It leaves each
of them with a status that belongs to neither list.

* `statusAgrees_iff`: the array agrees with the lists exactly in the nodes of `GetRoot`.
-/

namespace ParallelEnum.Diam2Kplex

open Kplex

/-- The status array says of every index of the block which list it is in. -/
structure StatusAgrees (subgraph : Vec ℕ) (impl : Impl) : Prop where
  inKplex_iff : ∀ i < subgraph.size, impl.status.get i = .inKplex ↔ i ∈ impl.kplex
  inCand_iff : ∀ i < subgraph.size, impl.status.get i = .inCand ↔ i ∈ impl.cands
  inExcl_iff : ∀ i < subgraph.size, impl.status.get i = .inExcl ↔ i ∈ impl.excluded
  noStatus_iff : ∀ i < subgraph.size, impl.status.get i = .noStatus ↔
    i ∉ impl.kplex ∧ i ∉ impl.cands ∧ i ∉ impl.excluded

/-! ### The loops of `UpdateCandAndExcl` -/

namespace Impl

section Sift

variable {ok : ℕ → Bool} {label : Status}

theorem fst_foldl_sift (l : List ℕ) (s : List ℕ × Vec Status) :
    ∃ l', l'.Sublist l ∧ (l.foldl (sift ok label) s).1 = s.1 ++ l' := by
  induction l generalizing s with
  | nil => exact ⟨[], List.Sublist.refl _, (List.append_nil _).symm⟩
  | cons e l ih =>
    obtain ⟨l', hsub, heq⟩ := ih (sift ok label s e)
    rw [List.foldl_cons, heq]
    unfold sift
    split_ifs
    · refine ⟨e :: l', hsub.cons_cons e, ?_⟩
      rw [List.append_assoc, List.singleton_append]
    · exact ⟨l', hsub.cons e, rfl⟩

theorem get_sift_of_ne (s : List ℕ × Vec Status) {e i : ℕ} (h : e ≠ i) :
    (sift ok label s e).2.get i = s.2.get i := by
  unfold sift
  split_ifs <;> exact Vec.get_set_of_ne _ h _

/-- An index that has been visited is not marked as a member of the `k`-plex. -/
theorem get_sift_ne_inKplex (hlabel : label ≠ .inKplex) (s : List ℕ × Vec Status) (e : ℕ) :
    (sift ok label s e).2.get e ≠ .inKplex := by
  by_cases he : e < s.2.size
  · unfold sift
    split_ifs
    · rw [Vec.get_set_self he]
      exact hlabel
    · rw [Vec.get_set_self he]
      decide
  · have hsize : (sift ok label s e).2.size = s.2.size := by
      unfold sift
      split_ifs <;> exact Vec.size_set _ _ _
    rw [Vec.get_of_size_le (by omega)]
    decide

theorem get_foldl_sift_ne_inKplex (hlabel : label ≠ .inKplex) (l : List ℕ)
    (s : List ℕ × Vec Status) {i : ℕ} (h : i ∈ l ∨ s.2.get i ≠ .inKplex) :
    (l.foldl (sift ok label) s).2.get i ≠ .inKplex := by
  induction l generalizing s with
  | nil => exact h.resolve_left List.not_mem_nil
  | cons e l ih =>
    apply ih
    by_cases hei : e = i
    · right
      rw [← hei]
      exact get_sift_ne_inKplex hlabel s e
    · rw [get_sift_of_ne s hei]
      exact h.imp_left fun hmem => (List.mem_cons.mp hmem).resolve_left (Ne.symm hei)

/-- Only the loop over the candidates marks candidates, and it lists the ones it marks. -/
theorem mem_of_get_foldl_sift (l : List ℕ) (s : List ℕ × Vec Status) {i : ℕ}
    (h : (l.foldl (sift ok label) s).2.get i = .inCand) :
    label = .inCand ∧ i ∈ (l.foldl (sift ok label) s).1 ∨ i ∉ l ∧ s.2.get i = .inCand := by
  induction l generalizing s with
  | nil => exact Or.inr ⟨List.not_mem_nil, h⟩
  | cons e l ih =>
    rw [List.foldl_cons] at h ⊢
    rcases ih _ h with hnew | ⟨hil, hget⟩
    · exact Or.inl hnew
    by_cases hei : e = i
    · -- the last visit of `i` is this one
      subst hei
      left
      obtain ⟨l', -, heq⟩ := @fst_foldl_sift ok label l (sift ok label s e)
      rw [heq]
      unfold sift at hget ⊢
      split_ifs at hget ⊢
      · rw [Vec.get_set] at hget
        split_ifs at hget with he
        · exact ⟨hget, List.mem_append_left _ (List.mem_append_right _ List.mem_cons_self)⟩
        · have hout : s.2.get e = .noStatus := Vec.get_of_size_le (by omega)
          rw [hout] at hget
          cases hget
      · rw [Vec.get_set] at hget
        split_ifs at hget with he
        have hout : s.2.get e = .noStatus := Vec.get_of_size_le (by omega)
        rw [hout] at hget
        cases hget
    · rw [get_sift_of_ne s hei] at hget
      exact Or.inr ⟨fun hmem => (List.mem_cons.mp hmem).elim (Ne.symm hei) hil, hget⟩

end Sift

/-! ### The lists of a child -/

variable {g : Graph} {subgraph : Vec ℕ} {nadj : ℕ → List ℕ} {k q : ℕ} {enablePivoting : Bool}
  {std : StdSort} {impl node child : Impl}

/-- The candidates are indices of the block, and only candidates are marked as such. -/
structure Listed (subgraph : Vec ℕ) (impl : Impl) : Prop where
  cands_sublist : impl.cands.Sublist (List.range' 1 (subgraph.size - 1))
  mem_of_inCand : ∀ i, impl.status.get i = .inCand → i ∈ impl.cands

theorem Listed.nodup (h : Listed subgraph impl) : impl.cands.Nodup :=
  h.cands_sublist.nodup List.nodup_range'

theorem Listed.lt_size (h : Listed subgraph impl) {i : ℕ} (hi : i ∈ impl.cands) :
    i < subgraph.size := by
  have hmem := List.mem_range'_1.mp (h.cands_sublist.subset hi)
  omega

theorem Listed.foldl_addToKplex (h : Listed subgraph impl) (nadj : ℕ → List ℕ) (k : ℕ)
    (U : List ℕ) : Listed subgraph (U.foldl (addToKplex nadj k) impl) ∧
      (U.foldl (addToKplex nadj k) impl).cands = impl.cands := by
  induction U generalizing impl with
  | nil => exact ⟨h, rfl⟩
  | cons c U ih =>
    obtain ⟨counters, nonNeighs, hadd, -, -⟩ := addToKplex_frame impl nadj k c
    have hstep : Listed subgraph (impl.addToKplex nadj k c) := by
      rw [hadd]
      refine ⟨h.cands_sublist, fun i hi => ?_⟩
      apply h.mem_of_inCand i
      dsimp only at hi
      rw [Vec.get_set] at hi
      split_ifs at hi
      exact hi
    rw [List.foldl_cons]
    refine ⟨(ih hstep).1, (ih hstep).2.trans ?_⟩
    rw [hadd]

theorem Listed.updateCandAndExcl (h : Listed subgraph impl) (A : List ℕ) (bits : Vec Bool) :
    Listed subgraph (impl.updateCandAndExcl g subgraph k A bits) ∧
      ∀ c ∈ impl.cands, (impl.updateCandAndExcl g subgraph k A bits).status.get c ≠ .inKplex := by
  rw [updateCandAndExcl_eq (fun e => impl.canAddVertex g subgraph k (subgraph.get e)) A bits
    impl fun _ => rfl]
  dsimp only
  refine ⟨⟨?_, fun i hi => ?_⟩, fun c hc => ?_⟩
  · obtain ⟨l', hsub, heq⟩ := fst_foldl_sift impl.cands _
    rw [heq, List.nil_append]
    exact hsub.trans h.cands_sublist
  · rcases mem_of_get_foldl_sift _ _ hi with hnew | ⟨hout, hget⟩
    · exact hnew.2
    rcases mem_of_get_foldl_sift _ _ hget with hnew | hold
    · cases hnew.1
    · exact absurd (h.mem_of_inCand i hold.2) hout
  · exact get_foldl_sift_ne_inKplex (by decide) _ _ (Or.inl hc)

/-- `c` is a member of the child that the status array does not show. -/
structure Forgotten (subgraph : Vec ℕ) (child : Impl) (c : ℕ) : Prop where
  lt_size : c < subgraph.size
  mem_kplex : c ∈ child.kplex
  status_ne : child.status.get c ≠ .inKplex

variable (g nadj k) in
/-- What adding candidates does. -/
theorem Listed.extend (h : Listed subgraph node) (U A : List ℕ) (bits : Vec Bool) :
    Listed subgraph ((U.foldl (addToKplex nadj k) node).updateCandAndExcl g subgraph k A bits) ∧
      ∀ c ∈ U, c ∈ node.cands → Forgotten subgraph
        ((U.foldl (addToKplex nadj k) node).updateCandAndExcl g subgraph k A bits) c := by
  obtain ⟨hadd, hcands⟩ := h.foldl_addToKplex nadj k U
  obtain ⟨hlisted, hstatus⟩ := hadd.updateCandAndExcl (g := g) (k := k) A bits
  refine ⟨hlisted, fun c hcU hc => ⟨h.lt_size hc, ?_, hstatus c (hcands ▸ hc)⟩⟩
  rw [kplex_updateCandAndExcl, kplex_foldl_addToKplex]
  exact List.mem_append_right _ hcU

/-- The indices `GetCands` branches on are candidates. -/
theorem Listed.mem_of_mem_realCands (h : Listed subgraph node) {c : ℕ}
    (hc : c ∈ node.realCands g subgraph nadj k enablePivoting) : c ∈ node.cands := by
  unfold realCands notCuts at hc
  split_ifs at hc
  · exact List.mem_of_mem_filter hc
  · -- for `k = 1` the candidates are recognised by their status
    apply h.mem_of_inCand c
    exact of_decide_eq_true (List.mem_filter.mp hc).2
  · exact List.mem_of_mem_filter hc

theorem Listed.of_mem_childrenFrom (h : Listed subgraph node) {cs A : List ℕ} {bits : Vec Bool}
    (hcs : ∀ c ∈ cs, c ∈ node.cands)
    (hchild : child ∈ childrenFrom g subgraph nadj k node cs A bits) :
    Listed subgraph child ∧ ∃ c, Forgotten subgraph child c := by
  induction cs generalizing A bits with
  | nil => exact absurd hchild List.not_mem_nil
  | cons c cs ih =>
    rcases List.mem_cons.mp hchild with rfl | hchild
    · obtain ⟨hlisted, hforgot⟩ := h.extend g nadj k [c] A bits
      exact ⟨hlisted, c, hforgot c List.mem_cons_self (hcs c List.mem_cons_self)⟩
    · exact ih (fun c hc => hcs c (List.mem_cons_of_mem _ hc)) hchild

/-- **Every child has a member that its status array does not show.** -/
theorem Listed.of_mem_children (h : Listed subgraph node)
    (hchild : child ∈ children g subgraph nadj k q enablePivoting std node) :
    Listed subgraph child ∧ ∃ c, Forgotten subgraph child c := by
  unfold children at hchild
  dsimp only at hchild
  split_ifs at hchild with h1 h2 h3 h4
  · exact absurd hchild List.not_mem_nil
  · exact absurd hchild List.not_mem_nil
  · exact absurd hchild List.not_mem_nil
  · rw [List.mem_singleton.mp hchild]
    rw [getCands_fst h.nodup fun u hu => h.lt_size hu] at h4 ⊢
    have hne : node.cands.filter (node.isUniversal nadj) ≠ [] := by simpa using h4
    obtain ⟨c, hc⟩ := List.exists_mem_of_ne_nil _ hne
    obtain ⟨hlisted, hforgot⟩ := h.extend g nadj k
      (node.cands.filter (node.isUniversal nadj)) [] (Vec.zeros subgraph.size)
    exact ⟨hlisted, c, hforgot c hc (List.mem_of_mem_filter hc)⟩
  · have hnone : (node.getCands g subgraph nadj k enablePivoting std).1 = [] := by simpa using h4
    refine h.of_mem_childrenFrom (fun c hc => ?_) hchild
    by_cases hnil : node.cands = []
    · -- without candidates there is nothing to branch on
      unfold getCands at hc
      rw [if_pos (List.length_eq_zero_iff.mpr hnil)] at hc
      exact absurd hc List.not_mem_nil
    · exact h.mem_of_mem_realCands ((getCands_snd hnil hnone).mem_iff.mp hc)

end Impl

/-! ### Steps from the node of a root -/

section Root

variable (subgraph : Vec ℕ) (nadj : ℕ → List ℕ) (k : ℕ)

theorem listed_init : Impl.Listed subgraph (Impl.init subgraph nadj k) := by
  obtain ⟨-, hcands, -, -, hstatus⟩ := init_frame subgraph nadj k
  refine ⟨hcands ▸ List.Sublist.refl _, fun i hi => ?_⟩
  rw [hstatus, Vec.get_setAll] at hi
  split_ifs at hi with hmem
  · rw [hcands]
    exact hmem.1
  · rw [Vec.get_set, Vec.get_zeros] at hi
    split_ifs at hi
    cases hi

theorem statusAgrees_init : StatusAgrees subgraph (Impl.init subgraph nadj k) := by
  obtain ⟨hkplex, hcands, hexcl, -, -⟩ := init_frame subgraph nadj k
  constructor
  case inKplex_iff =>
    intro i hi
    rw [status_init nadj k hi, hkplex]
    by_cases h0 : i = 0 <;> simp [h0]
  case inCand_iff =>
    intro i hi
    rw [status_init nadj k hi, hcands, mem_range'_one]
    by_cases h0 : i = 0 <;> simp [h0, hi]
  case inExcl_iff =>
    intro i hi
    rw [status_init nadj k hi, hexcl]
    by_cases h0 : i = 0 <;> simp [h0]
  case noStatus_iff =>
    intro i hi
    rw [status_init nadj k hi, hkplex, hcands, hexcl, mem_range'_one]
    by_cases h0 : i = 0 <;> simp [h0, hi]

end Root

section Steps

variable (g : Graph) (k q : ℕ) (enablePivoting : Bool) (std : StdSort)

/-- A node that a thread reaches from a node of `GetRoot` by `n` calls of `ListChildren`, and the
store at the time. -/
inductive ReachableIn : ℕ → Store → Node → Prop
  | root {cs : List Call} {v : ℕ} {go : Node → Bool} {st : Store} {nodes : List Node}
      {node : Node} :
      getRoot g k q v (keep go) ((Thread.run g k q enablePivoting std cs).store, [])
        = some (st, nodes) →
      node ∈ nodes → ReachableIn 0 st node
  | child {n : ℕ} {st st' : Store} {node child : Node} {go : Node → Bool} {nodes : List Node} :
      ReachableIn n st node →
      listChildren g k q enablePivoting std node (keep go) (st, []) = some (st', nodes) →
      child ∈ nodes → ReachableIn (n + 1) st' child

theorem reachable_iff {st : Store} {node : Node} :
    Reachable g k q enablePivoting std st node ↔
      ∃ n, ReachableIn g k q enablePivoting std n st node := by
  constructor
  · intro h
    induction h with
    | root hrun hnode => exact ⟨0, .root hrun hnode⟩
    | child _ hrun hchild ih =>
      obtain ⟨n, hn⟩ := ih
      exact ⟨n + 1, .child hn hrun hchild⟩
  · rintro ⟨n, h⟩
    induction h with
    | root hrun hnode => exact .root hrun hnode
    | child _ hrun hchild ih => exact .child ih hrun hchild

variable {g k q enablePivoting std}

/-- What the status array of a node reached in `n` steps shows, in the block of the root `v`. -/
structure ShownIn (g : Graph) (k q v n : ℕ) (st : Store) (node : Node) : Prop where
  holds : HoldsBlock g k q v st
  eq_wrap : node = wrap node.impl0
  listed : Impl.Listed (blockVec g k q v) node.impl0
  agrees_iff : StatusAgrees (blockVec g k q v) node.impl0 ↔ n = 0

theorem Impl.Forgotten.not_statusAgrees {subgraph : Vec ℕ} {impl : Impl} {c : ℕ}
    (h : Forgotten subgraph impl c) : ¬StatusAgrees subgraph impl := fun hagrees =>
  h.status_ne ((hagrees.inKplex_iff c h.lt_size).mpr h.mem_kplex)

theorem ReachableIn.shownIn {n : ℕ} {st : Store} {node : Node}
    (h : ReachableIn g k q enablePivoting std n st node) : ∃ v, ShownIn g k q v n st node := by
  induction h with
  | @root cs v go st nodes node hrun hnode =>
    have hst : Alone g (Thread.run g k q enablePivoting std cs).store := (Thread.inv_run cs).alone
    obtain ⟨-, hholds, rfl⟩ := eq_wrap_of_mem_getRoot hst hrun hnode
    exact ⟨v, hholds, rfl, listed_init _ _ k,
      iff_of_true (statusAgrees_init _ _ k) rfl⟩
  | @child n st st' node child go nodes _ hrun hchild ih =>
    obtain ⟨v, h⟩ := ih
    rw [h.eq_wrap] at hrun
    obtain ⟨rfl, y, hy, rfl⟩ := exists_child_of_mem_listChildren h.holds hrun hchild
    obtain ⟨hlisted, c, hforgot⟩ := h.listed.of_mem_children hy
    exact ⟨v, h.holds, rfl, hlisted, iff_of_false hforgot.not_statusAgrees n.succ_ne_zero⟩

/-- **The status array** agrees with the lists in the nodes of `GetRoot`, and in no node that
`ListChildren` has made. -/
theorem statusAgrees_iff (g : Graph) (k q : ℕ) (enablePivoting : Bool) (std : StdSort) (n : ℕ)
    (st : Store) (node : Node) (h : ReachableIn g k q enablePivoting std n st node) :
    StatusAgrees (st.memory.subgraph node) node.impl0 ↔ n = 0 := by
  obtain ⟨v, hshown⟩ := h.shownIn
  have hsub : st.memory.subgraph node = blockVec g k q v := by
    rw [hshown.eq_wrap]
    exact (hshown.holds node.impl0).1
  rw [hsub]
  exact hshown.agrees_iff

/-- The node of the edge `0 - 1`, for `k = 1`. -/
def edgeRoot : Node where
  subgraph := some 0
  nadj := some 0
  impl0 :=
    { kplex := [0], counters := #[1, 0], status := #[.inKplex, .inCand], nonNeighs := #[0, 0]
      cands := [1] }

/-- Its child, in which `1` has joined the `1`-plex. -/
def edgeChild : Node where
  subgraph := some 0
  nadj := some 0
  impl0 :=
    { kplex := [0, 1], counters := #[1, 1], status := #[.inKplex, .noStatus]
      nonNeighs := #[0, 1] }

theorem reachableIn_edgeChild :
    ReachableIn (Graph.ofRel 2 fun i j => j == i + 1) 1 1 true StdSort.insertion 1
      (openRoot (Graph.ofRel 2 fun i j => j == i + 1) 1 1 0 {}) edgeChild := by
  have hroot : ReachableIn (Graph.ofRel 2 fun i j => j == i + 1) 1 1 true StdSort.insertion 0
      (openRoot (Graph.ofRel 2 fun i j => j == i + 1) 1 1 0 {}) edgeRoot :=
    @ReachableIn.root _ _ _ _ _ [] 0 (fun _ => true) _ [edgeRoot] _ (by rfl) List.mem_cons_self
  exact @ReachableIn.child _ _ _ _ _ _ _ _ _ edgeChild (fun _ => true) [edgeChild] hroot
    (by rfl) List.mem_cons_self

/-- The equivalence at the child. -/
theorem statusAgrees_edgeChild_iff :
    StatusAgrees
        ((openRoot (Graph.ofRel 2 fun i j => j == i + 1) 1 1 0 {}).memory.subgraph edgeChild)
        edgeChild.impl0 ↔ 1 = 0 :=
  statusAgrees_iff (Graph.ofRel 2 fun i j => j == i + 1) 1 1 true StdSort.insertion 1
    (openRoot (Graph.ofRel 2 fun i j => j == i + 1) 1 1 0 {}) edgeChild reachableIn_edgeChild

/-- The array of the child of an edge does not show its second member. -/
theorem not_statusAgrees_edgeChild :
    Reachable (Graph.ofRel 2 fun i j => j == i + 1) 1 1 true StdSort.insertion
        (openRoot (Graph.ofRel 2 fun i j => j == i + 1) 1 1 0 {}) edgeChild ∧
      ¬StatusAgrees
        ((openRoot (Graph.ofRel 2 fun i j => j == i + 1) 1 1 0 {}).memory.subgraph edgeChild)
        edgeChild.impl0 := by
  constructor
  · exact (reachable_iff _ _ _ _ _).mpr ⟨1, reachableIn_edgeChild⟩
  · intro hagrees
    have hstatus : edgeChild.impl0.status.get 1 = .inKplex :=
      (hagrees.inKplex_iff 1 (by decide)).mpr (by decide)
    revert hstatus
    decide

end Steps

end ParallelEnum.Diam2Kplex
