import ParallelEnum.Enumerable.Equiv.ConnectedHereditary.Complete

/-!
# What `Complete` computes

The three ways in which `CommutableSystem` uses `Complete`, on the nodes and levels of a layout:

* `failing_run`: with a failure on small keys and seed changes, `Complete` is greedy completion,
  and fails when that is not a layout from the same node.
* `completer`: without, it is a `Completer`: it ends with a maximal set that contains the smallest
  key that can be added, whatever the order in which it adds the rest.
* `CompleteRun.toTarget`: with a target it fails when that set is not inside the target.
-/

namespace ParallelEnum.CHSystem

open BreadthFirst ConnectedHereditary CommutableSystem

variable {sys : CHSystem} {P : Finset ℕ → Prop} {H : Finset ℕ → Prop} {args : CompleteArgs}
  {m : ℕ} {L Q : List (Key ℕ)} {s level : List ℕ} {A : List (Key ℕ)} {j : ℕ} {e : Ending}
  {groundSet : Option (List ℕ)}

/-! ### Layouts in the inner loop -/

/-- The set an ending leaves. -/
def elems : Ending → List ℕ
  | .finished t _ => t
  | .failed => []
  | .seedChange t _ => t

/-- The loop takes the keys of the layout it is given one by one, until the smallest key that can
be added to the layout comes before the next one. -/
theorem LoopRun.sync (hL : Layout sys.graph m L) (hset : H (nodeSet L)) {R : List (Key ℕ)}
    (hLQ : L = Q ++ R) (hQ : Q ≠ [])
    (hrun : LoopRun sys H args (nodes L) level Q Q.length e) :
    LoopRun sys H args (nodes L) level L L.length e ∨
      ∃ A x, LoopRun sys H args (nodes L) level A A.length e ∧
        IsNext sys.graph H (nodeSet L) A x ∧ IsNext sys.graph H (nodeSet L) L x ∧
          x.node ∉ nodes L ∧ ∃ b ∈ L, x < b := by
  induction R generalizing Q with
  | nil =>
    rw [List.append_nil] at hLQ
    subst hLQ
    exact Or.inl hrun
  | cons b R ih =>
    -- a key that is not the next one of the layout
    have hother : ∀ {k}, IsNext sys.graph H (nodeSet L) Q k → (nodes L)[Q.length]? ≠ some k.node →
        ∃ A x, LoopRun sys H args (nodes L) level A A.length e ∧
          IsNext sys.graph H (nodeSet L) A x ∧ IsNext sys.graph H (nodeSet L) L x ∧
            x.node ∉ nodes L ∧ ∃ b ∈ L, x < b := by
      intro k hk hj
      rcases next_of_append hL hset hLQ hQ hk with ⟨R', hR⟩ | ⟨hkL, hkL', hlt⟩
      · refine absurd ?_ hj
        rw [hLQ, hR]
        simp
      · exact ⟨Q, k, hrun, hk, hkL', hkL, b, by simp [hLQ], hlt b List.mem_cons_self⟩
    cases hrun with
    | finished hnone => exact absurd (isCand_of_append hL hset hLQ hQ) (hnone b)
    | @matched _ _ _ _ k _ hk hj hrest =>
      rcases next_of_append hL hset hLQ hQ hk with ⟨R', hR⟩ | ⟨hkL, -⟩
      · obtain ⟨rfl, rfl⟩ := List.cons_eq_cons.mp hR
        refine ih (Q := Q ++ [b]) (by simp [hLQ]) (by simp) ?_
        simpa using hrest
      · exact absurd (List.mem_of_getElem? hj) hkL
    | failed hk hj => exact Or.inr (hother hk hj)
    | seedChange hk hj => exact Or.inr (hother hk hj)
    | pushed hk hj => exact Or.inr (hother hk hj)

/-! ### Greedy completion -/

/-- From a layout on, the loop is greedy completion, up to a node smaller than its first. -/
theorem LoopRun.greedy (hH : Hereditary (Finset.range sys.size) H) {M : List (Key ℕ)}
    (hflag : args.failOnSeedChange = true) (htarget : args.target = none)
    (hrun : LoopRun sys H args (nodes L) (levels L) L j e) (hcomp : Completes sys.graph H L M)
    (hL : Layout sys.graph m L) (hahead : Ahead sys.graph H (nodeSet L) L)
    (hmin : ∀ u ∈ nodes L, m ≤ u) (hbound : ∀ b, args.failIfSmallerThan = some b → b ∈ L) :
    ((∀ u ∈ nodes M, m ≤ u) → e = .finished (nodes M) (levels M)) ∧
      ((¬ ∀ u ∈ nodes M, m ≤ u) → e = .failed) := by
  induction hcomp generalizing e with
  | @done L hnone =>
    exact ⟨fun _ => hrun.of_done hnone, fun hnot => absurd hmin hnot⟩
  | @step L M k hk hrest ih =>
    have hfront : front (nodes L ++ [k.node]) = m := by
      obtain ⟨R, rfl⟩ := hL.exists_cons
      rfl
    have hkM : k.node ∈ nodes M := by
      obtain ⟨T, rfl⟩ := hrest.isPrefix
      simp
    -- a key that comes after all of the layout fails only by a seed change
    have hfails : Fails args (nodes L) k → k.node < m := by
      rintro (ht | hs | ⟨hlt, -⟩)
      · simp [CompleteArgs.isInTarget, htarget] at ht
      · exfalso
        unfold CompleteArgs.isSmaller at hs
        cases hb : args.failIfSmallerThan with
        | none => simp [hb] at hs
        | some b =>
          rw [hb] at hs
          exact absurd (hahead k hk.1 b (hbound b hb)) (not_lt.mpr (of_decide_eq_true hs).le)
      · rwa [hfront] at hlt
    rcases hrun.of_next hk with ⟨hj, -⟩ | ⟨-, ⟨hf, he⟩ | ⟨hf, ⟨hlt, -⟩ | ⟨hge, hrun⟩⟩⟩
    · exact absurd (List.mem_of_getElem? hj) hk.1.2.1
    · exact ⟨fun hall => absurd (hall _ hkM) (not_le.mpr (hfails hf)), fun _ => he⟩
    · exact absurd (Or.inr (Or.inr ⟨hlt, by simp [hflag]⟩)) hf
    · rw [hfront] at hge
      have hsub : nodeSet L ⊆ nodeSet (L ++ [k]) := by
        rw [nodeSet_snoc]
        exact Finset.subset_insert _ _
      refine ih ?_ (hk.1.layout hL hahead) (hahead.snoc hH hk hsub) ?_ fun b hb =>
        List.mem_append_left _ (hbound b hb)
      · rw [nodes_append, levels_append]
        exact hrun
      · intro u hu
        rw [nodes_append, List.mem_append] at hu
        rcases hu with hu | hu
        · exact hmin u hu
        · rw [List.mem_singleton.mp hu]
          exact not_lt.mp hge

/-- The inner loop from a layout, if it fails on seed changes and on keys that come before the
layout ends. -/
theorem LoopRun.failing (hH : Hereditary (Finset.range sys.size) H) {M : List (Key ℕ)}
    (hflag : args.failOnSeedChange = true) (htarget : args.target = none)
    (hrun : LoopRun sys H args (nodes L) (levels L) [⟨0, m⟩] 1 e)
    (hcomp : Completes sys.graph H L M) (hL : Layout sys.graph m L) (hset : H (nodeSet L))
    (hmin : ∀ u ∈ nodes L, m ≤ u) (hbound : ∀ b, args.failIfSmallerThan = some b → b ∈ L)
    (hlast : ∀ x, IsCand sys.graph H (nodeSet L) L x → ∀ b ∈ L, x < b → args.isSmaller x = true) :
    (Ahead sys.graph H (nodeSet L) L ∧ (∀ u ∈ nodes M, m ≤ u) →
        e = .finished (nodes M) (levels M)) ∧
      (¬ (Ahead sys.graph H (nodeSet L) L ∧ ∀ u ∈ nodes M, m ≤ u) → e = .failed) := by
  obtain ⟨R, hR⟩ := hL.exists_cons
  -- a key before the end of the layout makes the loop fail
  have hfails : ∀ {A : List (Key ℕ)} {x b : Key ℕ},
      LoopRun sys H args (nodes L) (levels L) A A.length e →
      IsNext sys.graph H (nodeSet L) A x → IsCand sys.graph H (nodeSet L) L x → b ∈ L → x < b →
      e = .failed := by
    intro A x b hrun hx hxL hb hlt
    refine hrun.unique (.failed hx ?_ (Or.inr (Or.inl (hlast x hxL b hb hlt))))
    exact fun hj => hxL.2.1 (List.mem_of_getElem? hj)
  rcases LoopRun.sync hL hset (Q := [⟨0, m⟩]) hR (by simp) hrun with
    hrun | ⟨A, x, hrun, hx, hxL, -, b, hb, hlt⟩
  · by_cases hahead : Ahead sys.graph H (nodeSet L) L
    · obtain ⟨hyes, hno⟩ := hrun.greedy hH hflag htarget hcomp hL hahead hmin hbound
      exact ⟨fun hcond => hyes hcond.2, fun hnot => hno fun hall => hnot ⟨hahead, hall⟩⟩
    · refine ⟨fun hcond => absurd hcond.1 hahead, fun _ => ?_⟩
      unfold Ahead at hahead
      push Not at hahead
      obtain ⟨k, hk, b, hb, hkb⟩ := hahead
      obtain ⟨x, hx⟩ := exists_isNext hH hk
      have hxb : x < b := by
        refine lt_of_le_of_ne ((hx.2 k hk).trans hkb) ?_
        rintro rfl
        exact hx.1.2.1 (node_mem hb)
      exact hfails hrun hx hx.1 hb hxb
  · refine ⟨fun hcond => absurd (hcond.1 x hxL.1 b hb) (not_lt.mpr hlt.le), fun _ => ?_⟩
    exact hfails hrun hx hxL.1 hb hlt

theorem front_nodes (hL : Layout sys.graph m L) : front (nodes L) = m := by
  obtain ⟨R, rfl⟩ := hL.exists_cons
  rfl

/-- **With the failure options `Complete` is greedy completion.** -/
theorem failing_run (h : LawfulComplete sys P groundSet) (hH : Hereditary (Finset.range sys.size) H)
    {M : List (Key ℕ)} {o : Option CommutableNode} (hflag : args.failOnSeedChange = true)
    (htarget : args.target = none) (hrun : CompleteRun sys H args (nodes L) (levels L) o)
    (hcomp : Completes sys.graph H L M) (hL : Layout sys.graph m L) (hset : H (nodeSet L))
    (hmin : ∀ u ∈ nodes L, m ≤ u) (hbound : ∀ b, args.failIfSmallerThan = some b → b ∈ L)
    (hlast : ∀ x, IsCand sys.graph H (nodeSet L) L x → ∀ b ∈ L, x < b → args.isSmaller x = true) :
    (Ahead sys.graph H (nodeSet L) L ∧ (∀ u ∈ nodes M, m ≤ u) →
        o = some (nodes M, levels M)) ∧
      (¬ (Ahead sys.graph H (nodeSet L) L ∧ ∀ u ∈ nodes M, m ≤ u) → o = none) := by
  have hloop : ∀ {e}, LoopRun sys H args (nodes L) (levels L) [⟨0, front (nodes L)⟩] 1 e →
      (Ahead sys.graph H (nodeSet L) L ∧ (∀ u ∈ nodes M, m ≤ u) →
        e = .finished (nodes M) (levels M)) ∧
      (¬ (Ahead sys.graph H (nodeSet L) L ∧ ∀ u ∈ nodes M, m ≤ u) → e = .failed) := by
    intro e he
    rw [front_nodes hL] at he
    exact he.failing hH hflag htarget hcomp hL hset hmin hbound hlast
  cases hrun with
  | failed he =>
    exact ⟨fun hcond => (nomatch (hloop he).1 hcond), fun _ => rfl⟩
  | finished he hr =>
    refine ⟨fun hcond => ?_, fun hnot => (nomatch (hloop he).2 hnot)⟩
    cases (hloop he).1 hcond
    have hM := hcomp.layout hH hL hcond.1
    have hlt : ∀ u ∈ nodes M, u < sys.size := fun u hu =>
      Finset.mem_range.mp (hH.subset (hcomp.property hset) (mem_nodeSet.mpr hu))
    rw [front_nodes hM, resort_nodes h hM hlt] at hr
    exact hr.symm
  | seedChange he =>
    by_cases hcond : Ahead sys.graph H (nodeSet L) L ∧ ∀ u ∈ nodes M, m ≤ u
    · cases (hloop he).1 hcond
    · cases (hloop he).2 hcond

/-! ### Completion without failure -/

/-- The arguments never make `Complete` fail. -/
def NeverFails (args : CompleteArgs) : Prop := ∀ s k, ¬ Fails args s k

theorem neverFails_default : NeverFails {} := by
  rintro s k (ht | hs | ⟨-, hf⟩)
  · simp [CompleteArgs.isInTarget] at ht
  · simp [CompleteArgs.isSmaller] at hs
  · simp at hf

/-- If the loop does not fail, it keeps the elements it is given. -/
theorem LoopRun.mem_elems (hargs : NeverFails args) (hrun : LoopRun sys H args s level A j e)
    (hs : s ≠ []) {u : ℕ} (hu : u ∈ s) : u ∈ elems e := by
  induction hrun with
  | finished => exact hu
  | matched _ _ _ ih => exact ih hs hu
  | failed _ _ hf => exact absurd hf (hargs _ _)
  | seedChange =>
    rw [elems, ← List.mem_toFinset, toFinset_swapFrontBack hs]
    exact Finset.mem_insert_of_mem (List.mem_toFinset.mpr hu)
  | pushed _ _ _ _ _ ih => exact ih (by simp) (List.mem_append_left _ hu)

/-- The loop takes the smallest key that can be added to a layout. -/
theorem LoopRun.next_mem (hargs : NeverFails args) (hL : Layout sys.graph m L)
    (hset : H (nodeSet L)) {x : Key ℕ} (hx : IsNext sys.graph H (nodeSet L) L x)
    (hrun : LoopRun sys H args (nodes L) level [⟨0, m⟩] 1 e) : x.node ∈ elems e := by
  obtain ⟨R, hR⟩ := hL.exists_cons
  have hne : nodes L ≠ [] := by simp [hR]
  -- once the smallest key is found, the loop pushes it
  have hpush : ∀ {A : List (Key ℕ)}, LoopRun sys H args (nodes L) level A A.length e →
      IsNext sys.graph H (nodeSet L) A x → x.node ∈ elems e := by
    intro A hrun hxA
    rcases hrun.of_next hxA with ⟨hj, -⟩ | ⟨-, ⟨hf, -⟩ | ⟨-, ⟨-, rfl⟩ | ⟨-, hrun⟩⟩⟩
    · exact absurd (List.mem_of_getElem? hj) hx.1.2.1
    · exact absurd hf (hargs _ _)
    · rw [elems, ← List.mem_toFinset, toFinset_swapFrontBack hne]
      exact Finset.mem_insert_self _ _
    · exact hrun.mem_elems hargs (by simp) (by simp)
  rcases LoopRun.sync hL hset (Q := [⟨0, m⟩]) hR (by simp) hrun with
    hrun | ⟨A, y, hrun, hyA, hyL, -⟩
  · exact hpush hrun hx
  · obtain rfl := hyL.unique hx
    exact hpush hrun hyA

theorem LoopRun.ne_failed (hargs : NeverFails args) (hrun : LoopRun sys H args s level A j e) :
    e ≠ .failed := by
  induction hrun with
  | finished | seedChange => exact fun h => nomatch h
  | matched _ _ _ ih | pushed _ _ _ _ _ ih => exact ih
  | failed _ _ hf => exact absurd hf (hargs _ _)

section

variable {o : Option CommutableNode} {r : CommutableNode}

/-- What `Resort` leaves of a good set. -/
theorem toFinset_of_resort (h : LawfulComplete sys P groundSet)
    (hs : Good sys.graph (sys.InGround P groundSet) s.toFinset)
    (hr : sys.resort s level (front s) = some r) : r.1.toFinset = s.toFinset := by
  obtain ⟨M, hM, hset, -⟩ := resort_good h hs level
  rw [hM] at hr
  rw [← Option.some.inj hr]
  exact hset

/-- `Complete` ends with a maximal set around the one it is given. -/
theorem CompleteRun.spec (h : LawfulComplete sys P groundSet)
    (hrun : CompleteRun sys (sys.InGround P groundSet) args s level o)
    (hS : Good sys.graph (sys.InGround P groundSet) s.toFinset) (hr : o = some r) :
    s.toFinset ⊆ r.1.toFinset ∧
      Maximal (Good sys.graph (sys.InGround P groundSet)) r.1.toFinset := by
  induction hrun with
  | failed => cases hr
  | @finished s level t lt r' hloop hresort =>
    obtain rfl := Option.some.inj hr
    obtain ⟨hst, -, hmax⟩ := hloop.reached h (.init hS (front_mem (ne_nil_of_good hS)))
    rw [toFinset_of_resort h hmax.prop hresort]
    exact ⟨hst, hmax⟩
  | @seedChange s level t lt r' o hloop hresort _ ih =>
    obtain ⟨hst, -, hgood⟩ := hloop.reached h (.init hS (front_mem (ne_nil_of_good hS)))
    have hset := toFinset_of_resort h hgood hresort
    obtain ⟨hsub, hmax⟩ := ih (hset ▸ hgood) hr
    exact ⟨hst.trans (hset ▸ hsub), hmax⟩

theorem CompleteRun.exists_some (hargs : NeverFails args)
    (hrun : CompleteRun sys H args s level o) : ∃ r, o = some r := by
  induction hrun with
  | failed hloop => exact absurd rfl (hloop.ne_failed hargs)
  | finished => exact ⟨_, rfl⟩
  | seedChange _ _ _ ih => exact ih

/-- `Complete` takes the smallest key that can be added to a layout. -/
theorem CompleteRun.next_mem (h : LawfulComplete sys P groundSet) (hargs : NeverFails args)
    (hL : Layout sys.graph m L) (hset : sys.InGround P groundSet (nodeSet L)) {x : Key ℕ}
    (hx : IsNext sys.graph (sys.InGround P groundSet) (nodeSet L) L x)
    (hrun : CompleteRun sys (sys.InGround P groundSet) args (nodes L) level (some r)) :
    x.node ∈ r.1 := by
  have hgood : Good sys.graph (sys.InGround P groundSet) (nodes L).toFinset :=
    ⟨hL.connected, hset⟩
  have hC : Completing sys P groundSet (front (nodes L)) (nodes L) [⟨0, front (nodes L)⟩] :=
    .init hgood (front_mem (ne_nil_of_good hgood))
  have hmem : ∀ {e}, LoopRun sys (sys.InGround P groundSet) args (nodes L) level
      [⟨0, front (nodes L)⟩] 1 e → x.node ∈ elems e := by
    intro e he
    rw [front_nodes hL] at he
    exact he.next_mem hargs hL hset hx
  cases hrun with
  | finished hloop hresort =>
    rw [← List.mem_toFinset, toFinset_of_resort h (hloop.reached h hC).2.2.prop hresort]
    exact List.mem_toFinset.mpr (hmem hloop)
  | seedChange hloop hresort hrest =>
    have hgood' := (hloop.reached h hC).2.2
    have hset' := toFinset_of_resort h hgood' hresort
    rw [← List.mem_toFinset]
    refine (hrest.spec h (hset' ▸ hgood') rfl).1 ?_
    rw [hset']
    exact List.mem_toFinset.mpr (hmem hloop)

/-! ### Targets -/

variable {args' : CompleteArgs} {T : ℕ → Prop}

/-- A loop that fails on what is not in `T`. -/
theorem LoopRun.toTarget (hargs : NeverFails args) (hT : ∀ s k, Fails args' s k ↔ ¬ T k.node)
    (hrun : LoopRun sys H args s level A j e) (hne : s ≠ []) :
    ((∀ u ∈ elems e, T u) → LoopRun sys H args' s level A j e) ∧
      ((¬ ∀ u ∈ elems e, T u) → (∀ u ∈ s, T u) → LoopRun sys H args' s level A j .failed) := by
  induction hrun with
  | finished hnone => exact ⟨fun _ => .finished hnone, fun hnot hs => absurd hs hnot⟩
  | matched hk hj _ ih =>
    obtain ⟨hyes, hno⟩ := ih hne
    exact ⟨fun hall => .matched hk hj (hyes hall), fun hnot hs => .matched hk hj (hno hnot hs)⟩
  | failed _ _ hf => exact absurd hf (hargs _ _)
  | @seedChange s level A j k hk hj _ hlt =>
    have hmem : ∀ {u}, u ∈ elems (.seedChange (swapFrontBack (s ++ [k.node]))
        (level ++ [k.level])) ↔ u = k.node ∨ u ∈ s := by
      intro u
      rw [elems, ← List.mem_toFinset, toFinset_swapFrontBack hne, Finset.mem_insert,
        List.mem_toFinset]
    refine ⟨fun hall => .seedChange hk hj ?_ hlt, fun hnot hs => .failed hk hj ?_⟩
    · rw [hT, not_not]
      exact hall _ (hmem.mpr (Or.inl rfl))
    · rw [hT]
      intro hk
      refine hnot fun u hu => ?_
      rcases hmem.mp hu with rfl | hu
      · exact hk
      · exact hs u hu
  | @pushed s level A j k e hk hj _ hge hrun ih =>
    obtain ⟨hyes, hno⟩ := ih (by simp)
    -- what is pushed is in the set at the end, so the loop fails at the first node outside `T`
    have hke : k.node ∈ elems e := hrun.mem_elems hargs (by simp) (by simp)
    refine ⟨fun hall => .pushed hk hj ?_ hge (hyes hall), fun hnot hs => ?_⟩
    · rw [hT, not_not]
      exact hall _ hke
    · by_cases hkT : T k.node
      · refine .pushed hk hj ?_ hge (hno hnot fun u hu => ?_)
        · rw [hT, not_not]
          exact hkT
        · rcases List.mem_append.mp hu with hu | hu
          · exact hs u hu
          · rwa [List.mem_singleton.mp hu]
      · exact .failed hk hj ((hT _ _).mpr hkT)

/-- **With a target `Complete` fails when what it ends with is not inside the target.** -/
theorem CompleteRun.toTarget (h : LawfulComplete sys P groundSet) (hargs : NeverFails args)
    (hT : ∀ s k, Fails args' s k ↔ ¬ T k.node)
    (hrun : CompleteRun sys (sys.InGround P groundSet) args s level o)
    (hS : Good sys.graph (sys.InGround P groundSet) s.toFinset) (hs : ∀ u ∈ s, T u)
    (hr : o = some r) :
    ((∀ u ∈ r.1, T u) → CompleteRun sys (sys.InGround P groundSet) args' s level (some r)) ∧
      ((¬ ∀ u ∈ r.1, T u) → CompleteRun sys (sys.InGround P groundSet) args' s level none) := by
  induction hrun with
  | failed => cases hr
  | @finished s level t lt r' hloop hresort =>
    obtain rfl := Option.some.inj hr
    have hmax := (hloop.reached h (.init hS (front_mem (ne_nil_of_good hS)))).2.2
    obtain ⟨hyes, hno⟩ := hloop.toTarget hargs hT (ne_nil_of_good hS)
    have hmem : ∀ {u}, u ∈ r'.1 ↔ u ∈ t := by
      intro u
      rw [← List.mem_toFinset, toFinset_of_resort h hmax.prop hresort, List.mem_toFinset]
    refine ⟨fun hall => .finished (hyes fun u hu => hall u (hmem.mpr hu)) hresort, fun hnot => ?_⟩
    exact .failed (hno (fun hall => hnot fun u hu => hall u (hmem.mp hu)) hs)
  | @seedChange s level t lt r' o hloop hresort hrest ih =>
    have hgood := (hloop.reached h (.init hS (front_mem (ne_nil_of_good hS)))).2.2
    obtain ⟨hyes, hno⟩ := hloop.toTarget hargs hT (ne_nil_of_good hS)
    have hset := toFinset_of_resort h hgood hresort
    have hmem : ∀ {u}, u ∈ r'.1 ↔ u ∈ t := by
      intro u
      rw [← List.mem_toFinset, hset, List.mem_toFinset]
    have hgood' : Good sys.graph (sys.InGround P groundSet) r'.1.toFinset := hset ▸ hgood
    by_cases htT : ∀ u ∈ t, T u
    · obtain ⟨hyes', hno'⟩ := ih hgood' (fun u hu => htT u (hmem.mp hu)) hr
      exact ⟨fun hall => .seedChange (hyes htT) hresort (hyes' hall),
        fun hnot => .seedChange (hyes htT) hresort (hno' hnot)⟩
    · refine ⟨fun hall => absurd (fun u hu => hall u ?_) htT, fun _ => .failed (hno htT hs)⟩
      have hsub := (hrest.spec h hgood' hr).1
      exact List.mem_toFinset.mp (hsub (List.mem_toFinset.mpr (hmem.mpr hu)))

end

/-! ### The completion -/

theorem inGround_toList (sys : CHSystem) (P : Finset ℕ → Prop) (Γ : Finset ℕ) :
    sys.InGround P (some Γ.toList) = Within (sys.Property P) Γ := by
  show Within (sys.Property P) Γ.toList.toFinset = _
  rw [Finset.toList_toFinset]

/-- `Complete` without target and failure options ends, with any ground set. -/
theorem exists_completeRun (h : Lawful sys P) {Γ : Finset ℕ} (hL : Layout sys.graph m L)
    (hset : Within (sys.Property P) Γ (nodeSet L)) :
    ∃ r, CompleteRun sys (Within (sys.Property P) Γ) {} (nodes L) (levels L) (some r) := by
  rw [← inGround_toList] at hset ⊢
  have hgood : Good sys.graph (sys.InGround P (some Γ.toList)) (nodes L).toFinset :=
    ⟨hL.connected, hset⟩
  have hargs : NeverFails { groundSet := some Γ.toList } := neverFails_default
  obtain ⟨o, -, hrun⟩ := complete_run { groundSet := some Γ.toList } (h.complete _)
    (levels L) hgood (Nat.lt_succ_self (completeFuel sys.size))
  obtain ⟨r, rfl⟩ := hrun.exists_some hargs
  have hT : ∀ s k, Fails {} s k ↔ ¬ (fun _ : ℕ => True) k.node := fun s k => by
    simp [neverFails_default s k]
  exact ⟨r, (hrun.toTarget (h.complete _) hargs hT hgood (fun _ _ => trivial) rfl).1
    fun _ _ => trivial⟩

open Classical in
/-- The set that `Complete` makes of a layout, inside `Γ`. -/
noncomputable def completion (sys : CHSystem) (P : Finset ℕ → Prop) (Γ : Finset ℕ)
    (L : List (Key ℕ)) : Finset ℕ :=
  if hex : ∃ r, CompleteRun sys (Within (sys.Property P) Γ) {} (nodes L) (levels L) (some r) then
    hex.choose.1.toFinset
  else ∅

theorem completion_eq {Γ : Finset ℕ} {r : CommutableNode}
    (hrun : CompleteRun sys (Within (sys.Property P) Γ) {} (nodes L) (levels L) (some r)) :
    completion sys P Γ L = r.1.toFinset := by
  have hex : ∃ r, CompleteRun sys (Within (sys.Property P) Γ) {} (nodes L) (levels L) (some r) :=
    ⟨r, hrun⟩
  unfold completion
  rw [dif_pos hex]
  rw [Option.some.inj (hex.choose_spec.unique hrun)]

/-- **`Complete` is a completer.** -/
noncomputable def completer (h : Lawful sys P) : Completer sys.graph (sys.Property P) where
  comp := completion sys P
  maximal hL _ hset := by
    obtain ⟨r, hrun⟩ := exists_completeRun h hL hset
    rw [completion_eq hrun]
    rw [← inGround_toList] at hrun hset ⊢
    exact (hrun.spec (h.complete _) ⟨hL.connected, hset⟩ rfl).2
  subset hL _ hset := by
    obtain ⟨r, hrun⟩ := exists_completeRun h hL hset
    rw [completion_eq hrun]
    rw [← inGround_toList] at hrun hset
    exact (hrun.spec (h.complete _) ⟨hL.connected, hset⟩ rfl).1
  next_mem hL _ hset hx := by
    obtain ⟨r, hrun⟩ := exists_completeRun h hL hset
    rw [completion_eq hrun]
    rw [← inGround_toList] at hrun hset hx
    exact List.mem_toFinset.mpr (hrun.next_mem (h.complete _) neverFails_default hL hset hx)

/-- `Complete` with a target. -/
theorem complete_target (h : Lawful sys P) {fuel : ℕ} (hfuel : completeFuel sys.size < fuel)
    (groundSet : Option (List ℕ)) {target : List ℕ} (hL : Layout sys.graph m L)
    (hset : sys.InGround P groundSet (nodeSet L)) (htarget : ∀ u ∈ nodes L, u ∈ target) :
    (completion sys P (sys.ground groundSet) L ⊆ target.toFinset →
      ∃ r, sys.system.complete { groundSet := groundSet, target := some target } fuel (nodes L)
          (levels L) = some (some r) ∧
        r.1.toFinset = completion sys P (sys.ground groundSet) L) ∧
      (¬ completion sys P (sys.ground groundSet) L ⊆ target.toFinset →
        sys.system.complete { groundSet := groundSet, target := some target } fuel (nodes L)
          (levels L) = some none) := by
  have hgood : Good sys.graph (sys.InGround P groundSet) (nodes L).toFinset :=
    ⟨hL.connected, hset⟩
  obtain ⟨r, hrun⟩ := exists_completeRun h hL hset
  have hfails : ∀ s k, Fails { groundSet := groundSet, target := some target } s k ↔
      ¬ k.node ∈ target := by
    intro s k
    simp [Fails, CompleteArgs.isInTarget, CompleteArgs.isSmaller]
  obtain ⟨hyes, hno⟩ := hrun.toTarget (h.complete _) neverFails_default hfails hgood htarget rfl
  obtain ⟨o, ho, hrun'⟩ := complete_run { groundSet := groundSet, target := some target }
    (h.complete _) (levels L) hgood hfuel
  rw [completion_eq hrun]
  have hsub : r.1.toFinset ⊆ target.toFinset ↔ ∀ u ∈ r.1, u ∈ target := by
    simp [Finset.subset_iff]
  rw [hsub]
  refine ⟨fun hall => ⟨r, ?_, rfl⟩, fun hnot => ?_⟩
  · rw [ho, hrun'.unique (hyes hall)]
  · rw [ho, hrun'.unique (hno hnot)]

end ParallelEnum.CHSystem
