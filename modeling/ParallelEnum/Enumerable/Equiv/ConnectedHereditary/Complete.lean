import ParallelEnum.Enumerable.Equiv.ConnectedHereditary.Candidates
import ParallelEnum.Enumerable.Equiv.ConnectedHereditary.Resort

/-!
# Runs of `Complete`

`LoopRun` and `CompleteRun` describe the runs of the two loops of `Complete` in terms of the
smallest key that can be added; they do not mention the queue or a fuel.

* `complete_run`: on a good set `Complete` returns what its run ends with, with any fuel from
  `completeFuel` on.
* `CompleteRun.unique`: there is one run.
-/

namespace ParallelEnum.CHSystem

open BreadthFirst ConnectedHereditary CommutableSystem

variable {sys : CHSystem} {P : Finset ℕ → Prop} {groundSet : Option (List ℕ)}

/-! ### The loop invariant -/

namespace Completing

variable {m : ℕ} {s t : List ℕ} {A : List (Key ℕ)} {k : Key ℕ}

/-- At the start of the loop one node is added. -/
theorem init (hS : Good sys.graph (sys.InGround P groundSet) s.toFinset) (hm : m ∈ s) :
    Completing sys P groundSet m s [⟨0, m⟩] where
  good := hS
  layout := .root
  ahead := ahead_root m
  subset u hu := by
    rw [nodes_cons, nodes_nil, List.mem_singleton] at hu
    rwa [hu]

/-- The loop adds the smallest key. -/
theorem step (h : LawfulComplete sys P groundSet) (hC : Completing sys P groundSet m s A)
    (hk : IsNext sys.graph (sys.InGround P groundSet) s.toFinset A k)
    (ht : t.toFinset = insert k.node s.toFinset) :
    Completing sys P groundSet m t (A ++ [k]) where
  good := by
    obtain ⟨a, ha, hadj, -⟩ := exists_adj_of_reach hk.1.1
    rw [ht]
    refine ⟨?_, hk.1.2.2⟩
    rw [Finset.coe_insert]
    exact connected_insert hC.good.1 (List.mem_toFinset.mpr (hC.subset _ (node_mem ha))) hadj
  layout := hk.1.layout hC.layout hC.ahead
  ahead := hC.ahead.snoc (h.hereditary.within _) hk (ht ▸ Finset.subset_insert _ _)
  subset u hu := by
    rw [← List.mem_toFinset, ht, Finset.mem_insert, List.mem_toFinset]
    rw [nodes_append, List.mem_append] at hu
    rcases hu with hu | hu
    · exact Or.inr (hC.subset u hu)
    · exact Or.inl (List.mem_singleton.mp hu)

theorem length_le (hC : Completing sys P groundSet m s A) : A.length ≤ sys.size := by
  rw [← length_nodes, ← List.toFinset_card_of_nodup hC.layout.nodup_nodes,
    ← Finset.card_range sys.size]
  refine Finset.card_le_card fun u hu => ?_
  exact Finset.mem_range.mpr (hC.lt (hC.subset u (List.mem_toFinset.mp hu)))

end Completing

/-! ### Runs of the inner loop -/

/-- The tests on a new node by which `Complete` returns `false`. -/
def Fails (args : CompleteArgs) (s : List ℕ) (k : Key ℕ) : Prop :=
  args.isInTarget k.node = false ∨ args.isSmaller k = true ∨
    k.node < front (s ++ [k.node]) ∧
      (args.failOnSeedChange || args.failIfSmallerThan.isSome) = true

/-- A run of the inner loop, with the keys of `A` added so far. -/
inductive LoopRun (sys : CHSystem) (H : Finset ℕ → Prop) (args : CompleteArgs) :
    List ℕ → List ℕ → List (Key ℕ) → ℕ → Ending → Prop
  | finished {s level A j} : (∀ k, ¬ IsCand sys.graph H s.toFinset A k) →
      LoopRun sys H args s level A j (.finished s level)
  /-- The key of the next element of `s`. -/
  | matched {s level A j k e} : IsNext sys.graph H s.toFinset A k → s[j]? = some k.node →
      LoopRun sys H args s level (A ++ [k]) (j + 1) e → LoopRun sys H args s level A j e
  | failed {s level A j k} : IsNext sys.graph H s.toFinset A k → s[j]? ≠ some k.node →
      Fails args s k → LoopRun sys H args s level A j .failed
  | seedChange {s level A j k} : IsNext sys.graph H s.toFinset A k → s[j]? ≠ some k.node →
      ¬ Fails args s k → k.node < front (s ++ [k.node]) →
      LoopRun sys H args s level A j
        (.seedChange (swapFrontBack (s ++ [k.node])) (level ++ [k.level]))
  | pushed {s level A j k e} : IsNext sys.graph H s.toFinset A k → s[j]? ≠ some k.node →
      ¬ Fails args s k → ¬ k.node < front (s ++ [k.node]) →
      LoopRun sys H args (s ++ [k.node]) (level ++ [k.level]) (A ++ [k]) j e →
      LoopRun sys H args s level A j e

namespace LoopRun

variable {H : Finset ℕ → Prop} {args : CompleteArgs} {s level : List ℕ} {A : List (Key ℕ)} {j : ℕ}
  {e e' : Ending} {k : Key ℕ}

/-- Where nothing can be added the loop is finished. -/
theorem of_done (h : LoopRun sys H args s level A j e)
    (hnone : ∀ k, ¬ IsCand sys.graph H s.toFinset A k) : e = .finished s level := by
  cases h with
  | finished => rfl
  | matched hk | failed hk | seedChange hk | pushed hk => exact absurd hk.1 (hnone _)

/-- What the loop does with the smallest key. -/
theorem of_next (h : LoopRun sys H args s level A j e)
    (hk : IsNext sys.graph H s.toFinset A k) :
    (s[j]? = some k.node ∧ LoopRun sys H args s level (A ++ [k]) (j + 1) e) ∨
      s[j]? ≠ some k.node ∧
        (Fails args s k ∧ e = .failed ∨
          ¬ Fails args s k ∧
            (k.node < front (s ++ [k.node]) ∧
                e = .seedChange (swapFrontBack (s ++ [k.node])) (level ++ [k.level]) ∨
              ¬ k.node < front (s ++ [k.node]) ∧
                LoopRun sys H args (s ++ [k.node]) (level ++ [k.level]) (A ++ [k]) j e)) := by
  cases h with
  | finished hnone => exact absurd hk.1 (hnone k)
  | matched hk' hj h =>
    obtain rfl := hk.unique hk'
    exact Or.inl ⟨hj, h⟩
  | failed hk' hj hf =>
    obtain rfl := hk.unique hk'
    exact Or.inr ⟨hj, Or.inl ⟨hf, rfl⟩⟩
  | seedChange hk' hj hf hlt =>
    obtain rfl := hk.unique hk'
    exact Or.inr ⟨hj, Or.inr ⟨hf, Or.inl ⟨hlt, rfl⟩⟩⟩
  | pushed hk' hj hf hge h =>
    obtain rfl := hk.unique hk'
    exact Or.inr ⟨hj, Or.inr ⟨hf, Or.inr ⟨hge, h⟩⟩⟩

/-- The inner loop has one run. -/
theorem unique (h : LoopRun sys H args s level A j e) (h' : LoopRun sys H args s level A j e') :
    e = e' := by
  induction h with
  | finished hnone => exact (h'.of_done hnone).symm
  | matched hk hj _ ih =>
    rcases h'.of_next hk with ⟨-, h'⟩ | ⟨hj', -⟩
    · exact ih h'
    · exact absurd hj hj'
  | failed hk hj hf =>
    rcases h'.of_next hk with ⟨hj', -⟩ | ⟨-, ⟨-, he⟩ | ⟨hf', -⟩⟩
    · exact absurd hj' hj
    · exact he.symm
    · exact absurd hf hf'
  | seedChange hk hj hf hlt =>
    rcases h'.of_next hk with ⟨hj', -⟩ | ⟨-, ⟨hf', -⟩ | ⟨-, ⟨-, he⟩ | ⟨hge, -⟩⟩⟩
    · exact absurd hj' hj
    · exact absurd hf' hf
    · exact he.symm
    · exact absurd hlt hge
  -- the only case besides `matched` in which the loop goes on
  | pushed hk hj hf hge _ ih =>
    rcases h'.of_next hk with ⟨hj', -⟩ | ⟨-, ⟨hf', -⟩ | ⟨-, ⟨hlt, -⟩ | ⟨-, h'⟩⟩⟩
    · exact absurd hj' hj
    · exact absurd hf' hf
    · exact absurd hlt hge
    · exact ih h'

end LoopRun

/-- The inner loop ends with what its run ends with. -/
theorem completeLoop_run (args : CompleteArgs) (h : LawfulComplete sys P args.groundSet) {m : ℕ}
    (fuel : ℕ) {s : List ℕ} (level : List ℕ) {A : List (Key ℕ)} {c : Candidates} (j : ℕ)
    (hC : Completing sys P args.groundSet m s A)
    (hT : Tracks sys P args.groundSet c A (nodes A) s.toFinset)
    (hwork : sys.work args.groundSet c ≤ sys.size * A.length)
    (hfuel : sys.size * sys.size + (sys.size - A.length) + 1 < fuel) :
    ∃ e, sys.system.completeLoop args fuel s level c j = some e ∧
      LoopRun sys (sys.InGround P args.groundSet) args s level A j e := by
  induction fuel generalizing s level A c j with
  | zero => omega
  | succ fuel ih =>
    have hlen := hC.length_le
    have hbound : sys.size * A.length ≤ sys.size * sys.size := Nat.mul_le_mul_left _ hlen
    rw [completeLoop]
    rcases next_spec h hC fuel hT (by omega) with ⟨c', hrun, hnone⟩ | ⟨k, c', hrun, hk, hT', hle⟩
    · rw [hrun]
      exact ⟨_, rfl, .finished hnone⟩
    · rw [hrun]
      simp only [Option.bind_some]
      have hklt : k.node < sys.size :=
        Finset.mem_range.mp (hk.1.2.2.1.2 (Finset.mem_insert_self _ _))
      -- the rest of the loop, from the set `t`
      have hrest : ∀ (t level' : List ℕ) (j' : ℕ), t.toFinset = insert k.node s.toFinset →
          ∃ e, sys.system.completeLoop args fuel t level' (sys.system.add args.groundSet k c') j'
            = some e ∧
          LoopRun sys (sys.InGround P args.groundSet) args t level' (A ++ [k]) j' e := by
        intro t level' j' ht
        have hC' := hC.step h hk ht
        have hadd := hT'.add h hklt (ht ▸ Finset.subset_insert _ _ : s.toFinset ⊆ t.toFinset)
        have hlen' := hC'.length_le
        have hsnoc : (A ++ [k]).length = A.length + 1 := by simp
        refine ih level' j' hC' hadd.1 (hadd.2.trans ?_) (by omega)
        rw [hsnoc, Nat.mul_succ]
        omega
      by_cases hj : s[j]? = some k.node
      · rw [if_pos hj]
        obtain ⟨e, he, hloop⟩ := hrest s level (j + 1) (by
          rw [Finset.insert_eq_of_mem]
          exact List.mem_toFinset.mpr (List.mem_of_getElem? hj))
        exact ⟨e, he, .matched hk hj hloop⟩
      · rw [if_neg hj]
        by_cases hf : Fails args s k
        · refine ⟨.failed, ?_, .failed hk hj hf⟩
          rcases hf with htarget | hsmall | ⟨hlt, hflag⟩
          · simp [htarget]
          · simp [hsmall]
          · simp only [hlt, hflag, if_true, ite_self]
        · have hntarget : args.isInTarget k.node = true := by
            by_contra hne
            exact hf (Or.inl (by simpa using hne))
          have hnsmall : args.isSmaller k = false := by
            by_contra hne
            exact hf (Or.inr (Or.inl (by simpa using hne)))
          simp only [hntarget, hnsmall, Bool.not_true, Bool.false_eq_true, if_false]
          by_cases hlt : k.node < front (s ++ [k.node])
          · have hnflag : (args.failOnSeedChange || args.failIfSmallerThan.isSome) = false := by
              by_contra hne
              exact hf (Or.inr (Or.inr ⟨hlt, by simpa only [Bool.not_eq_false] using hne⟩))
            rw [if_pos hlt, hnflag]
            exact ⟨_, rfl, .seedChange hk hj hf hlt⟩
          · rw [if_neg hlt]
            obtain ⟨e, he, hloop⟩ := hrest (s ++ [k.node]) (level ++ [k.level]) j (by
              ext u
              simp)
            exact ⟨e, he, .pushed hk hj hf hlt hloop⟩

/-! ### What the inner loop reaches -/

theorem front_mem {s : List ℕ} (hs : s ≠ []) : front s ∈ s := by
  cases s with
  | nil => exact absurd rfl hs
  | cons x s => exact List.mem_cons_self

theorem front_snoc {s : List ℕ} (hs : s ≠ []) (x : ℕ) : front (s ++ [x]) = front s := by
  cases s with
  | nil => exact absurd rfl hs
  | cons y s => rfl

theorem swapFrontBack_snoc {s : List ℕ} (hs : s ≠ []) (x : ℕ) :
    swapFrontBack (s ++ [x]) = x :: (s.tail ++ [front s]) := by
  cases s with
  | nil => exact absurd rfl hs
  | cons y s => simp [swapFrontBack, front]

theorem toFinset_swapFrontBack {s : List ℕ} (hs : s ≠ []) (x : ℕ) :
    (swapFrontBack (s ++ [x])).toFinset = insert x s.toFinset := by
  rw [swapFrontBack_snoc hs]
  cases s with
  | nil => exact absurd rfl hs
  | cons y s =>
    ext u
    simp [front]

theorem ne_nil_of_good {H : Finset ℕ → Prop} {s : List ℕ} (hS : Good sys.graph H s.toFinset) :
    s ≠ [] := by
  rintro rfl
  obtain ⟨⟨u, hu⟩⟩ := hS.1.nonempty
  simp at hu

/-- What an ending of the inner loop from `s` has reached. -/
def Reached (sys : CHSystem) (H : Finset ℕ → Prop) (s : List ℕ) : Ending → Prop
  | .finished t _ => s.toFinset ⊆ t.toFinset ∧ front t = front s ∧
      Maximal (Good sys.graph H) t.toFinset
  | .failed => True
  | .seedChange t _ => s.toFinset ⊆ t.toFinset ∧ front t < front s ∧ Good sys.graph H t.toFinset

theorem Reached.trans {H : Finset ℕ → Prop} {s t : List ℕ} {e : Ending}
    (hst : s.toFinset ⊆ t.toFinset) (hfront : front t = front s) (he : Reached sys H t e) :
    Reached sys H s e := by
  cases e with
  | finished u => exact ⟨hst.trans he.1, he.2.1.trans hfront, he.2.2⟩
  | failed => trivial
  | seedChange u => exact ⟨hst.trans he.1, hfront ▸ he.2.1, he.2.2⟩

/-- The loop ends in a maximal set, unless it stops before. -/
theorem Completing.maximal (h : LawfulComplete sys P groundSet) {m : ℕ} {s : List ℕ}
    {A : List (Key ℕ)} (hC : Completing sys P groundSet m s A)
    (hnone : ∀ k, ¬ IsCand sys.graph (sys.InGround P groundSet) s.toFinset A k) :
    Maximal (Good sys.graph (sys.InGround P groundSet)) s.toFinset := by
  have hAs : nodeSet A ⊆ s.toFinset := fun u hu =>
    List.mem_toFinset.mpr (hC.subset u (mem_nodeSet.mp hu))
  -- all of `s` has been added, as the set is connected
  have hsA : s.toFinset ⊆ nodeSet A := by
    by_contra hne
    obtain ⟨a, ha, b, hb, hbA, hadj⟩ := exists_adj_of_connected (A := (nodeSet A : Set ℕ))
      hC.good.1 (by exact_mod_cast hAs) ⟨m, by simpa using hC.layout.root_mem⟩
      (by exact_mod_cast hne)
    obtain ⟨k, hk, rfl⟩ := mem_nodes.mp (mem_nodeSet.mp (Finset.mem_coe.mp ha))
    obtain ⟨l, hl⟩ := exists_reach hk hadj
    refine hnone ⟨l, b⟩ ⟨hl, by simpa using hbA, ?_⟩
    rw [Finset.insert_eq_of_mem (Finset.mem_coe.mp hb)]
    exact hC.good.2
  refine maximal_of_closed (h.hereditary.within _) hC.good ?_
  rintro u hu ⟨a, ha, hadj⟩ hins
  obtain ⟨k, hk, rfl⟩ := mem_nodes.mp (mem_nodeSet.mp (hsA ha))
  obtain ⟨l, hl⟩ := exists_reach hk hadj
  exact hnone ⟨l, u⟩ ⟨hl, fun hmem => hu (hAs (mem_nodeSet.mpr hmem)), hins⟩

theorem LoopRun.reached (h : LawfulComplete sys P groundSet) {args : CompleteArgs}
    {m : ℕ} {s level : List ℕ} {A : List (Key ℕ)} {j : ℕ} {e : Ending}
    (hrun : LoopRun sys (sys.InGround P groundSet) args s level A j e)
    (hC : Completing sys P groundSet m s A) : Reached sys (sys.InGround P groundSet) s e := by
  induction hrun with
  | finished hnone => exact ⟨Finset.Subset.refl _, rfl, hC.maximal h hnone⟩
  | @matched s level A j k e hk hj _ ih =>
    refine ih (hC.step h hk ?_)
    rw [Finset.insert_eq_of_mem (List.mem_toFinset.mpr (List.mem_of_getElem? hj))]
  | failed => trivial
  | @seedChange s level A j k hk _ _ hlt =>
    have hne := ne_nil_of_good hC.good
    have hset := toFinset_swapFrontBack hne k.node
    refine ⟨?_, ?_, ?_⟩
    · rw [hset]
      exact Finset.subset_insert _ _
    · rw [swapFrontBack_snoc hne]
      rwa [front_snoc hne] at hlt
    · exact (hC.step h hk hset).good
  | @pushed s level A j k e hk _ _ _ _ ih =>
    have hset : (s ++ [k.node]).toFinset = insert k.node s.toFinset := by
      ext u
      simp
    refine (ih (hC.step h hk hset)).trans ?_ (front_snoc (ne_nil_of_good hC.good) _)
    rw [hset]
    exact Finset.subset_insert _ _

/-! ### Runs of `Complete` -/

/-- A run of `Complete`. -/
inductive CompleteRun (sys : CHSystem) (H : Finset ℕ → Prop) (args : CompleteArgs) :
    List ℕ → List ℕ → Option CommutableNode → Prop
  | failed {s level} : LoopRun sys H args s level [⟨0, front s⟩] 1 .failed →
      CompleteRun sys H args s level none
  | finished {s level t lt r} : LoopRun sys H args s level [⟨0, front s⟩] 1 (.finished t lt) →
      sys.resort t lt (front t) = some r → CompleteRun sys H args s level (some r)
  | seedChange {s level t lt r o} :
      LoopRun sys H args s level [⟨0, front s⟩] 1 (.seedChange t lt) →
      sys.resort t lt (front t) = some r → CompleteRun sys H args r.1 r.2 o →
      CompleteRun sys H args s level o

/-- `Complete` has one run. -/
theorem CompleteRun.unique {H : Finset ℕ → Prop} {args : CompleteArgs} {s level : List ℕ}
    {o o' : Option CommutableNode} (h : CompleteRun sys H args s level o)
    (h' : CompleteRun sys H args s level o') : o = o' := by
  induction h with
  | failed hl =>
    cases h' with
    | failed => rfl
    | finished hl' | seedChange hl' => cases hl.unique hl'
  | finished hl hr =>
    cases h' with
    | failed hl' | seedChange hl' => cases hl.unique hl'
    | finished hl' hr' =>
      cases hl.unique hl'
      exact hr.symm.trans hr'
  | seedChange hl hr _ ih =>
    cases h' with
    | failed hl' | finished hl' => cases hl.unique hl'
    | seedChange hl' hr' h' =>
      cases hl.unique hl'
      obtain rfl := Option.some.inj (hr.symm.trans hr')
      exact ih h'

/-- `Resort` of a good set, from its first element. -/
theorem resort_good (h : LawfulComplete sys P groundSet) {t : List ℕ}
    (ht : Good sys.graph (sys.InGround P groundSet) t.toFinset) (level : List ℕ) :
    ∃ L, sys.resort t level (front t) = some (nodes L, levels L) ∧ nodeSet L = t.toFinset ∧
      front (nodes L) = front t := by
  obtain ⟨L, hrun, hset, ⟨R, hR⟩, -⟩ := resort_spec h
    (fun u hu => Finset.mem_range.mp (ht.2.1.2 (List.mem_toFinset.mpr hu)))
    (front_mem (ne_nil_of_good ht)) ht.1 level
  refine ⟨L, hrun, hset, ?_⟩
  rw [hR]
  rfl

/-- A fuel that is enough for `Complete`. -/
def completeFuel (n : ℕ) : ℕ := n * n + 2 * n + 1

/-- **`Complete` returns what its run ends with.** -/
theorem complete_run (args : CompleteArgs) (h : LawfulComplete sys P args.groundSet) {fuel : ℕ}
    {s : List ℕ} (level : List ℕ) (hS : Good sys.graph (sys.InGround P args.groundSet) s.toFinset)
    (hfuel : completeFuel sys.size < fuel) :
    ∃ o, sys.system.complete args fuel s level = some o ∧
      CompleteRun sys (sys.InGround P args.groundSet) args s level o := by
  have hlt : ∀ {t : List ℕ}, Good sys.graph (sys.InGround P args.groundSet) t.toFinset →
      front t < sys.size := fun ht =>
    Finset.mem_range.mp (ht.2.1.2 (List.mem_toFinset.mpr (front_mem (ne_nil_of_good ht))))
  -- a seed change makes the first element smaller, so it bounds the calls that are left
  have hfront : sys.size * sys.size + sys.size + 1 + front s < fuel := by
    have := hlt hS
    unfold completeFuel at hfuel
    omega
  clear hfuel
  induction fuel generalizing s level with
  | zero => omega
  | succ fuel ih =>
    have hfs := hlt hS
    have hC : Completing sys P args.groundSet (front s) s [⟨0, front s⟩] :=
      .init hS (front_mem (ne_nil_of_good hS))
    -- the first element is added to an empty `Candidates`
    have hempty : Tracks sys P args.groundSet {} [] [front s] s.toFinset := .init _ _
    have hT := hempty.add h (k := ⟨0, front s⟩) hfs (Finset.Subset.refl _)
    obtain ⟨e, he, hloop⟩ := completeLoop_run args h fuel level 1 hC hT.1
      (by simpa [work] using hT.2) (by
        rw [List.length_singleton]
        omega)
    have hreached := hloop.reached h hC
    rw [complete, he]
    cases e with
    | failed => exact ⟨none, rfl, .failed hloop⟩
    | finished t lt =>
      obtain ⟨L, hresort, -⟩ := resort_good h hreached.2.2.prop lt
      have hresort' : sys.system.resort t lt (front t) = some (nodes L, levels L) := hresort
      refine ⟨some (nodes L, levels L), ?_, .finished hloop hresort⟩
      simp only [Option.bind_some, hresort', Option.map_some]
    | seedChange t lt =>
      obtain ⟨L, hresort, hset, hL⟩ := resort_good h hreached.2.2 lt
      have hresort' : sys.system.resort t lt (front t) = some (nodes L, levels L) := hresort
      obtain ⟨o, ho, hrun⟩ := ih (s := nodes L) (levels L) (by
        show Good _ _ (nodeSet L)
        rw [hset]
        exact hreached.2.2) (by
        have := hreached.2.1
        rw [hL]
        omega)
      refine ⟨o, ?_, .seedChange hloop hresort hrun⟩
      simp only [Option.bind_some, hresort']
      exact ho

end ParallelEnum.CHSystem
