import ParallelEnum.Enumerable.Equiv.Clique

/-!
# The nodes of `CliqueEnumeration`

`listChildren_of_reachable`: the nodes that are reached from the roots are the maximal cliques with
their parent indices, and `ListChildren` passes on the cliques whose parent the node is, each once.
The tests of `ListChildren` alone keep the candidates up to the parent index out.
-/

namespace ParallelEnum.Clique

open LexCompletion Traversal

variable (g : Graph)

/-! ### What is passed to a callback that takes everything -/

/-- A callback that always answers `true` and stores what it is given. -/
def collect : NodeCallback Scratch Node (List Node) :=
  NodeCallback.lift fun x l => some (true, l ++ [x])

theorem forEach_collect (xs l : List Node) :
    forEach (fun x l => some (true, l ++ [x])) xs l = some (l ++ xs) := by
  induction xs generalizing l with
  | nil => rw [forEach_nil, List.append_nil]
  | cons x xs ih =>
    rw [forEach_cons, Option.bind_some, if_pos rfl, ih, List.append_assoc, List.singleton_append]

theorem getRoot_collect (i : ℕ) (s : Scratch) :
    getRoot g i collect (s, []) = some (s, roots g i) := by
  unfold collect
  rw [getRoot_eq, forEach_collect]
  rfl

theorem listChildren_collect (x : Node) :
    listChildren g x collect (setUp g {}, []) = some (Scratch.clean g, children g x) := by
  unfold collect
  rw [setUp_empty, listChildren_eq, forEach_collect]
  rfl

/-- The nodes that an enumeration can come to. -/
inductive Reachable : Node → Prop
  | root {i : ℕ} {scr : Scratch} {l : List Node} {x : Node} : i < g.size →
      getRoot g i collect (setUp g {}, []) = some (scr, l) → x ∈ l → Reachable x
  | child {x y : Node} {scr : Scratch} {l : List Node} : Reachable x →
      listChildren g x collect (setUp g {}, []) = some (scr, l) → y ∈ l → Reachable y

variable {g} in
theorem Reachable.isNode {x : Node} (h : Reachable g x) : IsNode g x := by
  induction h with
  | root hi hrun hx =>
    rw [getRoot_collect] at hrun
    obtain ⟨-, rfl⟩ := Prod.mk.inj (Option.some.inj hrun)
    exact ((mem_roots_iff g hi).mp hx).1
  | child _ hrun hy ih =>
    rw [listChildren_collect] at hrun
    obtain ⟨-, rfl⟩ := Prod.mk.inj (Option.some.inj hrun)
    exact ⟨((mem_children_iff g ih).mp hy).1, ((mem_children_iff g ih).mp hy).2.1⟩

/-! ### `ListChildren` with all candidates -/

/-- `markCandidate` without the comparison with the parent index. -/
def markAnyCandidate (scr : Scratch) (neigh : ℕ) : Scratch :=
  if !scr.candidatesBitset.get neigh then
    { scr with
      candidatesBitset := scr.candidatesBitset.set neigh true
      candidates := scr.candidates ++ [neigh] }
  else scr

/-- `collectCandidates` without the comparison with the parent index. -/
def collectAllCandidates (clique : List ℕ) (scr : Scratch) : Scratch :=
  let scr := { scr with candidatesBitset := scr.candidatesBitset.setAll clique true }
  let scr := clique.foldl (fun scr node => (g.fwdNeighs node).foldl markAnyCandidate scr) scr
  { scr with candidatesBitset := scr.candidatesBitset.setAll clique false }

/-- `Candidates` without the comparison with the parent index. -/
def allCandidates {σ : Type} (clique : List ℕ)
    (callback : ℕ → Scratch × σ → Option (Bool × (Scratch × σ))) (s : Scratch × σ) :
    Option (Scratch × σ) :=
  let scr := collectAllCandidates g clique s.1
  (forEach callback scr.candidates (scr, s.2)).map fun s =>
    ({ s.1 with
        candidatesBitset := s.1.candidatesBitset.setAll s.1.candidates false
        candidates := [] }, s.2)

/-- `ListChildren` with `allCandidates`. -/
def listAllChildren {σ : Type} (clique : List ℕ) (cb : NodeCallback Scratch Node σ)
    (s : Scratch × σ) : Option (Scratch × σ) :=
  let scr := (g.fwdNeighs (front clique)).foldl (markBad g clique) s.1
  (allCandidates g clique
      (fun cand => childrenCand g clique cand (childCb g clique cand cb)) (scr, s.2)).map fun s =>
    ({ s.1 with badBitset := s.1.badBitset.setAll s.1.bad false, bad := [] }, s.2)

/-- Every larger neighbour is above zero. -/
theorem collectAllCandidates_eq (clique : List ℕ) (scr : Scratch) :
    collectAllCandidates g clique scr = collectCandidates g clique 0 scr := by
  have hmark : ∀ node (scr : Scratch), (g.fwdNeighs node).foldl markAnyCandidate scr
      = (g.fwdNeighs node).foldl (markCandidate 0) scr := by
    intro node scr
    apply List.foldl_ext
    intro scr neigh hneigh
    have hpos : 0 < neigh := (g.mem_fwdNeighs.mp hneigh).2.pos
    unfold markAnyCandidate markCandidate
    rw [decide_eq_true hpos, Bool.true_and]
  unfold collectAllCandidates collectCandidates
  simp only [hmark]

theorem listAllChildren_eq {σ : Type} (clique : List ℕ) (cb : NodeCallback Scratch Node σ)
    (s : Scratch × σ) : listAllChildren g clique cb s = listChildren g (clique, 0) cb s := by
  unfold listAllChildren allCandidates listChildren candidates
  simp only [collectAllCandidates_eq]

/-! ### Parent indices -/

/-- `p` is the smallest element of `K` such that greedy completion of the elements of `K` up to `p`
gives `K`. -/
def IsParentIndex (K : Finset ℕ) (p : ℕ) : Prop :=
  p ∈ K ∧ Greedy g.toSimpleGraph g.vertices (K.filter (· ≤ p)) K ∧
    ∀ q ∈ K, Greedy g.toSimpleGraph g.vertices (K.filter (· ≤ q)) K → p ≤ q

section Index

variable {g} {K K' : Finset ℕ} {c p : ℕ}

theorem isCliqueIn_filter (hK : IsMaximalClique g.toSimpleGraph g.vertices K) (q : ℕ → Prop)
    [DecidablePred q] (hne : (K.filter q).Nonempty) :
    IsCliqueIn g.toSimpleGraph g.vertices (K.filter q) :=
  ⟨hne, (Finset.filter_subset _ _).trans hK.prop.2.1,
    hK.prop.2.2.subset (Finset.coe_subset.mpr (Finset.filter_subset _ _))⟩

theorem greedy_filter_le_iff (hK : IsMaximalClique g.toSimpleGraph g.vertices K) (hp : p ∈ K) :
    Greedy g.toSimpleGraph g.vertices (K.filter (· ≤ p)) K ↔
      LexFirst g.toSimpleGraph g.vertices (K.filter (· ≤ p)) K :=
  greedy_iff_lexFirst
    (isCliqueIn_filter hK _ ⟨p, Finset.mem_filter.mpr ⟨hp, le_rfl⟩⟩)

theorem isParentIndex_iff (hK : IsMaximalClique g.toSimpleGraph g.vertices K) :
    IsParentIndex g K p ↔ IsIndex g.toSimpleGraph g.vertices K p := by
  unfold IsParentIndex IsIndex
  refine and_congr_right fun hp => and_congr (greedy_filter_le_iff hK hp) ?_
  exact forall₂_congr fun q hq => imp_congr_left (greedy_filter_le_iff hK hq)

/-- The children of the reverse search, in terms of greedy completion. -/
theorem isChild_iff_greedy : IsChild g.toSimpleGraph g.vertices K K' c ↔
    IsMaximalClique g.toSimpleGraph g.vertices K' ∧ IsParentIndex g K' c ∧ (∃ u ∈ K', u < c) ∧
      Greedy g.toSimpleGraph g.vertices (K'.filter (· < c)) K := by
  unfold IsChild
  rw [Finset.filter_nonempty_iff]
  constructor
  · rintro ⟨hidx, hne, hlex⟩
    have hK' := hidx.isMaximalClique
    refine ⟨hK', (isParentIndex_iff hK').mpr hidx, hne, ?_⟩
    exact (greedy_iff_lexFirst
      (isCliqueIn_filter hK' _ (Finset.filter_nonempty_iff.mpr hne))).mpr hlex
  · rintro ⟨hK', hidx, hne, hgreedy⟩
    refine ⟨(isParentIndex_iff hK').mp hidx, hne, ?_⟩
    exact hgreedy.lexFirst (isCliqueIn_filter hK' _ (Finset.filter_nonempty_iff.mpr hne))

end Index

/-! ### The children of a reachable node -/

/-- Different children are different cliques, for every lower bound on the candidates up to the
index. -/
theorem nodup_children_fst {x : Node} (hx : IsNode g x) {parind : ℕ} (hle : parind ≤ x.2) :
    ((children g (x.1, parind)).map Prod.fst).Nodup := by
  refine List.Nodup.map_on ?_ (nodup_children g (x.1, parind))
  intro y hy z hz hyz
  have hy := ((mem_children_of_le g hx hle).mp hy).2.1
  have hz := ((mem_children_of_le g hx hle).mp hz).2.1
  refine Prod.ext hyz (hy.unique ?_)
  rw [hyz]
  exact hz

/-- **Nodes and their children.** A reachable node is a strictly ascending maximal clique with its
parent index.  `ListChildren` passes on the maximal cliques whose parent index is not their smallest
element and whose elements below it complete to the clique of the node, each once and with its
parent index; and the same nodes if the candidates up to the parent index are tried as well. -/
theorem listChildren_of_reachable (x : Node) (hx : Reachable g x) :
    x.1.Pairwise (· < ·) ∧ IsMaximalClique g.toSimpleGraph g.vertices x.1.toFinset ∧
      IsParentIndex g x.1.toFinset x.2 ∧
      ∃ scr l, listChildren g x collect (setUp g {}, []) = some (scr, l) ∧
        (l.map Prod.fst).Nodup ∧
        (∀ y, y ∈ l ↔ y.1.Pairwise (· < ·) ∧
          IsMaximalClique g.toSimpleGraph g.vertices y.1.toFinset ∧
          IsParentIndex g y.1.toFinset y.2 ∧ (∃ u ∈ y.1.toFinset, u < y.2) ∧
          Greedy g.toSimpleGraph g.vertices (y.1.toFinset.filter (· < y.2)) x.1.toFinset) ∧
        ∃ scr' l', listAllChildren g x.1 collect (setUp g {}, []) = some (scr', l') ∧
          (l'.map Prod.fst).Nodup ∧ ∀ y, y ∈ l' ↔ y ∈ l := by
  have hnode := hx.isNode
  have hK := hnode.2.isMaximalClique
  refine ⟨hnode.1, hK, (isParentIndex_iff hK).mpr hnode.2, Scratch.clean g, children g x,
    listChildren_collect g x, nodup_children_fst g hnode le_rfl, fun y => ?_,
    Scratch.clean g, children g (x.1, 0), ?_, nodup_children_fst g hnode (Nat.zero_le _),
    fun y => ?_⟩
  · rw [mem_children_iff g hnode, isChild_iff_greedy]
  · rw [listAllChildren_eq, listChildren_collect]
  · rw [mem_children_of_le g hnode (Nat.zero_le _), mem_children_iff g hnode]

/-- The root of the path on three vertices. -/
theorem listChildren_path : ∃ x, Reachable (Graph.ofRel 3 fun u v => u + 1 == v) x ∧
    IsParentIndex (Graph.ofRel 3 fun u v => u + 1 == v) x.1.toFinset x.2 := by
  set g := Graph.ofRel 3 fun u v => u + 1 == v
  have hdeg : g.degree 0 = g.fwdDegree 0 :=
    (g.degree_eq_fwdDegree_iff 0).mpr fun v hadj => Nat.pos_of_ne_zero hadj.ne'
  have hroot : Reachable g (completeFwd g [0], 0) := by
    refine .root (i := 0) (show 0 < 3 by decide) (getRoot_collect g 0 _) ?_
    unfold roots
    rw [if_pos hdeg]
    exact List.mem_singleton_self _
  exact ⟨_, hroot, (listChildren_of_reachable g _ hroot).2.2.1⟩

end ParallelEnum.Clique
