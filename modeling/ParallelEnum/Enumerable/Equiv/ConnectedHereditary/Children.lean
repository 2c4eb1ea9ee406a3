import ParallelEnum.Enumerable.Equiv.ConnectedHereditary.Completer

/-!
# The roots and the children that are found

* `rootOf_spec`: `GetRoot` finds the greedy completion of a node, if that is its smallest element.
* `childOf_spec`: the tests of `Children` accept a restricted solution and a seed exactly when they
  cut the layout of a child.
-/

namespace ParallelEnum.CHSystem

open BreadthFirst ConnectedHereditary CommutableSystem

variable {sys : CHSystem} {P : Finset ℕ → Prop} {m : ℕ} {L M A : List (Key ℕ)} {c : Key ℕ}

/-! ### Greedy completion -/

theorem Lawful.inGround_none (h : Lawful sys P) : sys.InGround P none = sys.Property P :=
  (h.complete none).inGround_none

/-- **`Complete` with its failure options.** -/
theorem complete_failing (h : Lawful sys P) {fuel : ℕ} (hfuel : completeFuel sys.size < fuel)
    {args : CompleteArgs} (hground : args.groundSet = none) (hflag : args.failOnSeedChange = true)
    (htarget : args.target = none) (hcomp : Completes sys.graph (sys.Property P) L M)
    (hL : Layout sys.graph m L) (hset : sys.Property P (nodeSet L)) (hmin : ∀ u ∈ nodes L, m ≤ u)
    (hbound : ∀ b, args.failIfSmallerThan = some b → b ∈ L)
    (hlast : ∀ x, IsCand sys.graph (sys.Property P) (nodeSet L) L x →
      ∀ b ∈ L, x < b → args.isSmaller x = true) :
    (Ahead sys.graph (sys.Property P) (nodeSet L) L ∧ (∀ u ∈ nodes M, m ≤ u) →
        sys.system.complete args fuel (nodes L) (levels L) = some (some (nodes M, levels M))) ∧
      (¬ (Ahead sys.graph (sys.Property P) (nodeSet L) L ∧ ∀ u ∈ nodes M, m ≤ u) →
        sys.system.complete args fuel (nodes L) (levels L) = some none) := by
  have hgood : Good sys.graph (sys.InGround P args.groundSet) (nodes L).toFinset := by
    rw [hground, h.inGround_none]
    exact ⟨hL.connected, hset⟩
  obtain ⟨o, ho, hrun⟩ := complete_run args (h.complete _) (levels L) hgood hfuel
  rw [hground, h.inGround_none] at hrun
  obtain ⟨hyes, hno⟩ := failing_run (h.complete args.groundSet) h.hereditary hflag htarget hrun
    hcomp hL hset hmin hbound hlast
  exact ⟨fun hcond => by rw [ho, hyes hcond], fun hnot => by rw [ho, hno hnot]⟩

theorem back_nodes (A : List (Key ℕ)) (c : Key ℕ) : back (nodes (A ++ [c])) = c.node := by
  simp [back]

theorem back_levels (A : List (Key ℕ)) (c : Key ℕ) : back (levels (A ++ [c])) = c.level := by
  simp [back, levels]

/-- The failure options of `Children`. -/
def failArgs (c : Key ℕ) : CompleteArgs :=
  { failOnSeedChange := true, failIfSmallerThan := some c }

/-- `Complete` of the cut, as `Children` calls it. -/
theorem complete_core (h : Lawful sys P) {fuel : ℕ} (hfuel : completeFuel sys.size < fuel)
    (hcomp : Completes sys.graph (sys.Property P) (A ++ [c]) M)
    (hL : Layout sys.graph m (A ++ [c])) (hset : sys.Property P (nodeSet (A ++ [c])))
    (hmin : ∀ u ∈ nodes (A ++ [c]), m ≤ u) :
    (Ahead sys.graph (sys.Property P) (nodeSet (A ++ [c])) (A ++ [c]) ∧
        (∀ u ∈ nodes M, m ≤ u) →
        sys.system.complete (failArgs c) fuel (nodes (A ++ [c])) (levels (A ++ [c]))
          = some (some (nodes M, levels M))) ∧
      (¬ (Ahead sys.graph (sys.Property P) (nodeSet (A ++ [c])) (A ++ [c]) ∧
        ∀ u ∈ nodes M, m ≤ u) →
        sys.system.complete (failArgs c) fuel (nodes (A ++ [c])) (levels (A ++ [c]))
          = some none) := by
  refine complete_failing h hfuel rfl rfl rfl hcomp hL hset hmin ?_ ?_
  · intro b hb
    rw [← Option.some.inj hb]
    simp
  · intro x _ b hb hlt
    -- `c` is the last key of the cut
    have hbc : b ≤ c := by
      rcases List.mem_append.mp hb with hb | hb
      · exact ((List.pairwise_append.mp hL.pairwise_lt).2.2 b hb c List.mem_cons_self).le
      · rw [List.mem_singleton.mp hb]
    exact decide_eq_true (hlt.trans_le hbc)

/-! ### Roots -/

/-- The root that `GetRoot` passes to its callback. -/
def rootOf (sys : CHSystem) (fuel i : ℕ) : Option CommutableNode :=
  (sys.system.complete { failOnSeedChange := true } fuel [i] [0]).join

/-- **`GetRoot` finds the greedy completion of a node, if that is its smallest element.** -/
theorem rootOf_spec (h : Lawful sys P) {fuel i : ℕ} (hfuel : completeFuel sys.size < fuel)
    (hi : i < sys.size) :
    ∃ M, Completes sys.graph (sys.Property P) [⟨0, i⟩] M ∧
      (sys.system.complete { failOnSeedChange := true } fuel [i] [0]).isSome ∧
      ((∀ u ∈ nodes M, i ≤ u) → sys.rootOf fuel i = some (nodes M, levels M)) ∧
        ((¬ ∀ u ∈ nodes M, i ≤ u) → sys.rootOf fuel i = none) := by
  obtain ⟨M, hM⟩ := exists_completes (G := sys.graph) h.hereditary [⟨0, i⟩]
  have hset : sys.Property P (nodeSet [(⟨0, i⟩ : Key ℕ)]) := by
    refine ⟨h.property_singleton i hi, fun u hu => ?_⟩
    rw [mem_nodeSet, nodes_cons, nodes_nil, List.mem_singleton] at hu
    rw [hu]
    exact Finset.mem_range.mpr hi
  have hroot := ahead_root (G := sys.graph) (H := sys.Property P)
    (S := nodeSet [(⟨0, i⟩ : Key ℕ)]) i
  let args : CompleteArgs := { failOnSeedChange := true }
  have hground : args.groundSet = none := rfl
  obtain ⟨hyes, hno⟩ := complete_failing h hfuel hground rfl rfl hM .root hset (by simp)
    (fun b hb => by cases hb)
    fun x hx b hb hlt => absurd (hroot x hx b hb) (not_lt.mpr hlt.le)
  have hyes' : (∀ u ∈ nodes M, i ≤ u) → sys.system.complete { failOnSeedChange := true } fuel
      [i] [0] = some (some (nodes M, levels M)) := fun hall => hyes ⟨hroot, hall⟩
  have hno' : (¬ ∀ u ∈ nodes M, i ≤ u) → sys.system.complete { failOnSeedChange := true } fuel
      [i] [0] = some none := fun hnot => hno fun hcond => hnot hcond.2
  refine ⟨M, hM, ?_, fun hall => ?_, fun hnot => ?_⟩
  · by_cases hall : ∀ u ∈ nodes M, i ≤ u
    · rw [hyes' hall]
      rfl
    · rw [hno' hall]
      rfl
  · rw [rootOf, hyes' hall]
    rfl
  · rw [rootOf, hno' hnot]
    rfl

/-! ### The cut -/

theorem minElem_spec {s : List ℕ} (hs : s ≠ []) : minElem s ∈ s ∧ ∀ u ∈ s, minElem s ≤ u := by
  have hfold : ∀ (l : List ℕ) (a : ℕ),
      (l.foldl (fun min elem => if elem < min then elem else min) a = a ∨
        l.foldl (fun min elem => if elem < min then elem else min) a ∈ l) ∧
      l.foldl (fun min elem => if elem < min then elem else min) a ≤ a ∧
      ∀ u ∈ l, l.foldl (fun min elem => if elem < min then elem else min) a ≤ u := by
    intro l
    induction l with
    | nil => simp
    | cons x l ih =>
      intro a
      rw [List.foldl_cons]
      obtain ⟨hmem, hle, hall⟩ := ih (if x < a then x else a)
      have hx : (if x < a then x else a) ≤ x ∧ (if x < a then x else a) ≤ a := by
        split_ifs <;> omega
      refine ⟨?_, hle.trans hx.2, ?_⟩
      · rcases hmem with hmem | hmem
        · rw [hmem]
          split_ifs
          · exact Or.inr List.mem_cons_self
          · exact Or.inl rfl
        · exact Or.inr (List.mem_cons_of_mem _ hmem)
      · intro u hu
        rcases List.mem_cons.mp hu with rfl | hu
        · exact hle.trans hx.1
        · exact hall u hu
  obtain ⟨hmem, -, hall⟩ := hfold s (front s)
  refine ⟨?_, hall⟩
  rcases hmem with hmem | hmem
  · show s.foldl _ (front s) ∈ s
    rw [hmem]
    exact front_mem hs
  · exact hmem

theorem minElem_eq_iff {s : List ℕ} (hs : s ≠ []) {v : ℕ} (hv : v ∈ s) :
    v = minElem s ↔ ∀ u ∈ s, v ≤ u := by
  obtain ⟨hmem, hall⟩ := minElem_spec hs
  constructor
  · rintro rfl
    exact hall
  · intro hmin
    exact le_antisymm (hmin _ hmem) (hall v hv)

/-- `GetPrefix` cuts the layout after the candidate. -/
theorem getPrefix_eq {s level : List ℕ} {seed : ℕ} {T : List (Key ℕ)}
    (hresort : sys.resort s level seed = some (nodes (A ++ c :: T), levels (A ++ c :: T)))
    (hnot : c.node ∉ nodes A) :
    sys.system.getPrefix s level seed c.node
      = some (nodes (A ++ [c]), levels (A ++ [c])) := by
  have hidx : (nodes (A ++ c :: T)).idxOf c.node = A.length := by
    rw [nodes_append, List.idxOf_append_of_notMem hnot, nodes_cons, List.idxOf_cons_self,
      length_nodes]
    rfl
  have htake : ∀ f : Key ℕ → ℕ, resize ((A ++ c :: T).map f) (A.length + 1)
      = (A ++ [c]).map f := by
    intro f
    have hlen : A.length + 1 - ((A ++ c :: T).map f).length = 0 := by
      simp
    rw [resize, hlen, List.replicate_zero, List.append_nil, ← List.map_take, List.append_cons]
    congr 1
    exact List.take_left' (by simp)
  have hsystem : sys.system.resort s level seed
      = some (nodes (A ++ c :: T), levels (A ++ c :: T)) := hresort
  unfold getPrefix
  rw [hsystem, Option.map_some]
  simp only [hidx]
  exact congrArg some (Prod.ext (htake Key.node) (htake Key.level))

/-! ### Children -/

/-- `Complete` with a good set as its target ends with that set, or fails. -/
theorem complete_good (h : Lawful sys P) {fuel : ℕ} (hfuel : completeFuel sys.size < fuel)
    (groundSet : Option (List ℕ)) {K : List ℕ} (hL : Layout sys.graph m L)
    (hmin : ∀ u ∈ nodes L, m ≤ u) (hK : Good sys.graph (sys.InGround P groundSet) K.toFinset)
    (hsub : nodeSet L ⊆ K.toFinset) :
    (∃ r, sys.system.complete { groundSet := groundSet, target := some K } fuel (nodes L)
        (levels L) = some (some r) ∧ r.1.toFinset = K.toFinset ∧
          completion sys P (sys.ground groundSet) L = K.toFinset) ∨
      (sys.system.complete { groundSet := groundSet, target := some K } fuel (nodes L)
        (levels L) = some none ∧ completion sys P (sys.ground groundSet) L ≠ K.toFinset) := by
  have hset : sys.InGround P groundSet (nodeSet L) := (h.hereditary.within _).mono hsub hK.2
  obtain ⟨hyes, hno⟩ := complete_target h hfuel groundSet hL hset
    fun u hu => List.mem_toFinset.mp (hsub (mem_nodeSet.mpr hu))
  by_cases hin : completion sys P (sys.ground groundSet) L ⊆ K.toFinset
  · left
    obtain ⟨r, hr, hrset⟩ := hyes hin
    -- a completion is maximal in the ground set
    have heq : completion sys P (sys.ground groundSet) L = K.toFinset :=
      Finset.Subset.antisymm hin (((completer h).maximal hL hmin hset).le_of_ge hK hin)
    exact ⟨r, hr, hrset.trans heq, heq⟩
  · exact Or.inr ⟨hno hin, fun heq => hin heq.subset⟩

/-- The cut of a child is given by its last node. -/
theorem cut_unique {A' T T' : List (Key ℕ)} {c' : Key ℕ}
    (hA : c.node ∉ nodes A) (hA' : c'.node ∉ nodes A') (heq : A' ++ c' :: T' = A ++ c :: T)
    (hc : c'.node = c.node) : A' = A ∧ c' = c := by
  have hidx : ∀ {B U : List (Key ℕ)} {b : Key ℕ}, b.node ∉ nodes B →
      (nodes (B ++ b :: U)).idxOf b.node = B.length := by
    intro B U b hb
    rw [nodes_append, List.idxOf_append_of_notMem hb, nodes_cons, List.idxOf_cons_self,
      length_nodes]
    rfl
  have hlen : A'.length = A.length := by
    rw [← hidx (U := T') hA', ← hidx (U := T) hA, heq, hc]
  obtain ⟨rfl, hcons⟩ := List.append_inj heq hlen
  exact ⟨rfl, (List.cons_eq_cons.mp hcons).1⟩

/-- The solution of the restricted problem that a child is found from. -/
def IsFoundBy (h : Lawful sys P) (S : Finset ℕ) (cand : ℕ) (R : Finset ℕ) (seed : ℕ)
    (A : List (Key ℕ)) (c : Key ℕ) (M : List (Key ℕ)) : Prop :=
  IsChild (completer h) (Finset.range sys.size) S A c M seed ∧ c.node = cand ∧
    completion sys P (insert cand S) (A ++ [c]) = R

/-- The solution a child is found from contains its cut. -/
theorem IsFoundBy.subset {h : Lawful sys P} {S R : Finset ℕ} {cand seed : ℕ}
    (hf : IsFoundBy h S cand R seed A c M) : nodeSet (A ++ [c]) ⊆ R := by
  obtain ⟨hchild, rfl, rfl⟩ := hf
  refine (completer h).subset hchild.layout hchild.min_core
    ⟨hchild.property_core h.hereditary, ?_⟩
  rw [nodeSet_snoc]
  exact Finset.insert_subset_insert _ (hchild.prefix_subset h.hereditary)

section

variable {fuel cand seed : ℕ} {s level sol : List ℕ} {T : List (Key ℕ)}

/-- The tests of `Children` on a cut that has been made. -/
theorem childOf_cut (h : Lawful sys P) (hfuel : completeFuel sys.size < fuel)
    (hs : Maximal (Good sys.graph (sys.Property P)) s.toFinset) (hc : c.node ∉ s)
    (hR : Good sys.graph (sys.Property P) sol.toFinset)
    (hRs : sol.toFinset ⊆ insert c.node s.toFinset) (hA : A ≠ [])
    (hL : Layout sys.graph seed (A ++ [c])) (hsub : nodeSet (A ++ [c]) ⊆ sol.toFinset)
    (hcut : sys.system.getPrefix sol level seed c.node
      = some (nodes (A ++ [c]), levels (A ++ [c]))) :
    ∃ o, sys.system.childOf fuel s level c.node sol seed = some o ∧
      ∀ y, o = some y ↔ ∃ M, y = (nodes M, levels M) ∧
        IsFoundBy h s.toFinset c.node sol.toFinset seed A c M := by
  have hne : nodes (A ++ [c]) ≠ [] := by simp [nodes]
  have hmem : seed ∈ nodes (A ++ [c]) := hL.root_mem
  have hset : sys.Property P (nodeSet (A ++ [c])) := h.hereditary.mono hsub hR.2
  obtain ⟨M, hM⟩ := exists_completes (G := sys.graph) h.hereditary (A ++ [c])
  -- a child has this completion
  have hfound : ∀ {M'}, IsFoundBy h s.toFinset c.node sol.toFinset seed A c M' → M' = M :=
    fun hf => hf.1.completes.unique hM
  have hnone : (∀ M', ¬ IsFoundBy h s.toFinset c.node sol.toFinset seed A c M') →
      ∀ y, (none : Option CommutableNode) = some y ↔ ∃ M, y = (nodes M, levels M) ∧
        IsFoundBy h s.toFinset c.node sol.toFinset seed A c M :=
    fun hno y => ⟨fun hy => (nomatch hy), fun ⟨M', _, hf⟩ => absurd hf (hno M')⟩
  unfold childOf
  rw [hcut]
  simp only [Option.bind_some]
  by_cases hmin : ∀ u ∈ nodes (A ++ [c]), seed ≤ u
  swap
  · rw [if_pos fun heq => hmin ((minElem_eq_iff hne hmem).mp heq)]
    exact ⟨none, rfl, hnone fun M' hf => hmin hf.1.min_core⟩
  rw [if_neg (not_not.mpr ((minElem_eq_iff hne hmem).mpr hmin)), back_nodes, back_levels]
  obtain ⟨hyes, hno⟩ := complete_core h hfuel hM hL hset hmin
  by_cases hcond : Ahead sys.graph (sys.Property P) (nodeSet (A ++ [c])) (A ++ [c]) ∧
      ∀ u ∈ nodes M, seed ≤ u
  swap
  · have hfail := hno hcond
    unfold failArgs at hfail
    rw [hfail]
    refine ⟨none, rfl, hnone fun M' hf => hcond ?_⟩
    obtain rfl := hfound hf
    exact ⟨hf.1.ahead, hf.1.min⟩
  have hchild := hyes hcond
  unfold failArgs at hchild
  rw [hchild]
  simp only [Option.bind_some]
  have hpre : (nodes (A ++ [c])).isPrefixOf (nodes M) = true := by
    obtain ⟨T, hT⟩ := hM.isPrefix
    rw [List.isPrefixOf_iff_prefix, ← hT, nodes_append (A ++ [c])]
    exact List.prefix_append _ _
  have hdropn : (nodes (A ++ [c])).dropLast = nodes A := by simp
  have hdropl : (levels (A ++ [c])).dropLast = levels A := by simp [levels]
  rw [hpre, hdropn, hdropl]
  simp only [Bool.not_true, Bool.false_eq_true, if_false]
  -- the parent
  have hAsub : nodeSet A ⊆ s.toFinset := by
    intro u hu
    refine (Finset.mem_insert.mp (hRs (hsub ?_))).resolve_left ?_
    · rw [nodeSet_snoc]
      exact Finset.mem_insert_of_mem hu
    · rintro rfl
      exact (hL.reach_eq hA).2 (mem_nodeSet.mp hu)
  have hminA : ∀ u ∈ nodes A, seed ≤ u := fun u hu =>
    hmin u (by rw [nodes_append]; exact List.mem_append_left _ hu)
  have hsV : Good sys.graph (sys.InGround P none) s.toFinset := by
    rw [h.inGround_none]
    exact hs.prop
  have hmult : sys.system.restrMultiple = true := h.restrMultiple_eq
  rcases complete_good h hfuel none (hL.of_append hA) hminA hsV hAsub with
    ⟨r, hr, hrset, hparent⟩ | ⟨hfail, hpar⟩
  swap
  · rw [hfail]
    exact ⟨none, rfl, hnone fun M' hf => hpar hf.1.parent⟩
  rw [hr]
  simp only [Option.bind_some, hmult, if_true]
  -- the restricted solution
  have hground : sys.ground (some (r.1 ++ [c.node])) = insert c.node s.toFinset := by
    show (r.1 ++ [c.node]).toFinset = _
    rw [List.toFinset_append, hrset]
    ext u
    simp
  have hsolR : Good sys.graph (sys.InGround P (some (r.1 ++ [c.node]))) sol.toFinset :=
    ⟨hR.1, hR.2, hground ▸ hRs⟩
  rcases complete_good h hfuel (some (r.1 ++ [c.node])) hL hmin hsolR hsub with
    ⟨r', hr', -, hrestricted⟩ | ⟨hfail, hsol⟩
  swap
  · rw [hfail]
    rw [hground] at hsol
    exact ⟨none, rfl, hnone fun M' hf => hsol hf.2.2⟩
  rw [hground] at hrestricted
  rw [hr']
  have hfound' : IsFoundBy h s.toFinset c.node sol.toFinset seed A c M :=
    ⟨⟨hA, hL, hcond.2, hM.property hset, hcond.1, hM, hparent, by simpa using hc⟩, rfl,
      hrestricted⟩
  refine ⟨some (nodes M, levels M), rfl, fun y => ⟨fun hy => ⟨M, ?_, hfound'⟩, ?_⟩⟩
  · exact (Option.some.inj hy).symm
  · rintro ⟨M', rfl, hf⟩
    rw [hfound hf]

/-- **The tests of `Children`** accept a restricted solution and a seed exactly when they cut the
layout of a child. -/
theorem childOf_spec (h : Lawful sys P) (hfuel : completeFuel sys.size < fuel)
    (hs : Maximal (Good sys.graph (sys.Property P)) s.toFinset) (hc : cand ∉ s)
    (hsol : sol.Nodup) (hR : Good sys.graph (sys.Property P) sol.toFinset)
    (hRs : sol.toFinset ⊆ insert cand s.toFinset) (hcand : cand ∈ sol) (hseed : seed ∈ sol)
    (hlt : seed < cand) (level : List ℕ) :
    ∃ o, sys.system.childOf fuel s level cand sol seed = some o ∧
      ∀ y, o = some y ↔ ∃ A c M, y = (nodes M, levels M) ∧
        IsFoundBy h s.toFinset cand sol.toFinset seed A c M := by
  obtain ⟨N, hresort, hset, -, hlayout⟩ := resort_spec (h.complete none)
    (fun u hu => Finset.mem_range.mp (hR.2.2 (List.mem_toFinset.mpr hu))) hseed hR.1 level
  have hN := hlayout hsol
  obtain ⟨c, hcN, rfl⟩ := mem_nodes.mp
    (mem_nodeSet.mp (hset.symm ▸ List.mem_toFinset.mpr hcand : cand ∈ nodeSet N))
  obtain ⟨A, T, rfl⟩ := List.append_of_mem hcN
  have hA : A ≠ [] := by
    rintro rfl
    obtain ⟨R, hR⟩ := hN.exists_cons
    rw [(List.cons_eq_cons.mp hR).1] at hlt
    exact lt_irrefl _ hlt
  have hnot := (hN.reach_eq hA).2
  have hsplit : A ++ c :: T = (A ++ [c]) ++ T := List.append_cons A c T
  have hsub : nodeSet (A ++ [c]) ⊆ sol.toFinset := by
    rw [← hset, hsplit]
    intro u hu
    rw [mem_nodeSet, nodes_append]
    exact List.mem_append_left _ (mem_nodeSet.mp hu)
  obtain ⟨o, ho, hiff⟩ := childOf_cut h hfuel hs hc hR hRs hA
    ((hsplit ▸ hN).of_append (by simp)) hsub (getPrefix_eq hresort hnot)
  refine ⟨o, ho, fun y => (hiff y).trans ⟨fun ⟨M, hy, hf⟩ => ⟨A, c, M, hy, hf⟩, ?_⟩⟩
  rintro ⟨A', c', M, hy, hf⟩
  -- the cut begins the layout of the solution
  obtain ⟨T', hT'⟩ := hf.1.prefix_restricted hR.2 hf.subset h.hereditary hN hset
  rw [List.append_assoc] at hT'
  obtain ⟨rfl, rfl⟩ := cut_unique hnot (hf.1.layout.reach_eq hf.1.ne_nil).2 hT' hf.2.1
  exact ⟨M, hy, hf⟩

end

end ParallelEnum.CHSystem
