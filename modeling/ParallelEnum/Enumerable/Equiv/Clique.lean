import ParallelEnum.Enumerable.Clique
import ParallelEnum.Enumerator.Equiv.Sequential
import ParallelEnum.Theory.LexCompletion
import ParallelEnum.Util.Equiv.Graph

/-!
# `CliqueEnumeration` lists a forest of maximal cliques

The nodes are the pairs of a strictly ascending maximal clique and its index, and
`ListChildren` hands the callback the children of the reverse search of
`Theory.LexCompletion`:

* `completeFwd_spec`: `CompleteFwd` computes the lexicographically first completion.
* `listChildren_eq`: from a clean scratch `ListChildren` passes `children` on and leaves the
  scratch clean.
* `mem_children_iff`: `children` are the children of the reverse search.
* `runInternal_cliqueEnumeration`: `Sequential` reports every maximal clique once.
-/

namespace ParallelEnum.Clique

open LexCompletion Traversal

variable (g : Graph)

/-! ### Completion -/

/-- The vertices that greedy completion adds to `L`. -/
theorem foldl_extend_spec {xs : List ℕ} (hxs : xs.Pairwise (· < ·)) (L : List ℕ) :
    ∃ A, xs.foldl (extend g) L = L ++ A ∧ A.Sublist xs ∧
      (∀ a ∈ A, ∀ u ∈ L, g.toSimpleGraph.Adj a u) ∧ A.Pairwise g.toSimpleGraph.Adj ∧
      ∀ x ∈ xs, x ∉ A → ∃ u ∈ L ++ A, (u ∈ L ∨ u < x) ∧ ¬ g.toSimpleGraph.Adj x u := by
  induction xs generalizing L with
  | nil => exact ⟨[], by simp⟩
  | cons x xs ih =>
    obtain ⟨hx, hxs⟩ := List.pairwise_cons.mp hxs
    rw [List.foldl_cons]
    by_cases hall : L.all (g.areNeighs x ·) = true
    · obtain ⟨A, hrun, hsub, hadj, hpair, hout⟩ := ih hxs (L ++ [x])
      have hxL : ∀ u ∈ L, g.toSimpleGraph.Adj x u := fun u hu => by
        simpa using List.all_eq_true.mp hall u hu
      refine ⟨x :: A, ?_, hsub.cons_cons x, ?_, ?_, ?_⟩
      · unfold extend at hrun ⊢
        rw [if_pos hall, hrun, List.append_assoc]
        rfl
      · intro a ha u hu
        rcases List.mem_cons.mp ha with rfl | ha
        · exact hxL u hu
        · exact hadj a ha u (List.mem_append_left _ hu)
      · refine List.pairwise_cons.mpr ⟨fun a ha => ?_, hpair⟩
        exact (hadj a ha x (by simp)).symm
      · intro y hy hyA
        rw [List.mem_cons, not_or] at hyA
        have hy' : y ∈ xs := (List.mem_cons.mp hy).resolve_left hyA.1
        obtain ⟨u, hu, hor, hnot⟩ := hout y hy' hyA.2
        refine ⟨u, by simpa [List.append_assoc] using hu, ?_, hnot⟩
        rcases hor with hor | hor
        · rcases List.mem_append.mp hor with hL | hx'
          · exact Or.inl hL
          · right
            rw [List.mem_singleton.mp hx']
            exact hx y hy'
        · exact Or.inr hor
    · obtain ⟨A, hrun, hsub, hadj, hpair, hout⟩ := ih hxs L
      refine ⟨A, ?_, hsub.cons x, hadj, hpair, ?_⟩
      · rw [extend, if_neg hall, hrun]
      · intro y hy hyA
        rcases List.mem_cons.mp hy with rfl | hy
        · rw [List.all_eq_true] at hall
          push Not at hall
          obtain ⟨u, hu, hnot⟩ := hall
          exact ⟨u, List.mem_append_left _ hu, Or.inl hu, by simpa using hnot⟩
        · exact hout y hy hyA

theorem front_mem {L : List ℕ} (h : L ≠ []) : front L ∈ L := by
  unfold front
  cases L with
  | nil => exact absurd rfl h
  | cons x L => exact List.mem_cons_self

theorem front_le {L : List ℕ} (hsorted : L.Pairwise (· < ·)) {u : ℕ} (hu : u ∈ L) :
    front L ≤ u := by
  unfold front
  cases L with
  | nil => exact absurd hu List.not_mem_nil
  | cons x L =>
    rcases List.mem_cons.mp hu with rfl | hu
    · exact le_rfl
    · exact ((List.pairwise_cons.mp hsorted).1 u hu).le

/-- **`CompleteFwd` is greedy completion**, on a clique whose common neighbours are all larger than
its vertices. -/
theorem completeFwd_spec {L : List ℕ} (hne : L ≠ []) (hsorted : L.Pairwise (· < ·))
    (hadj : L.Pairwise g.toSimpleGraph.Adj) (hV : ∀ u ∈ L, u < g.N)
    (hlast : ∀ v, (∀ u ∈ L, g.toSimpleGraph.Adj v u) → ∀ u ∈ L, u < v) :
    (completeFwd g L).Pairwise (· < ·) ∧
      LexFirst g.toSimpleGraph g.vertices L.toFinset (completeFwd g L).toFinset := by
  obtain ⟨A, hrun, hsub, hAL, hAA, hout⟩ :=
    foldl_extend_spec g (g.fwdNeighs_pairwise (front L)) L
  have hrun : completeFwd g L = L ++ A := hrun
  rw [hrun]
  have hclique : (L ++ A).Pairwise g.toSimpleGraph.Adj :=
    List.pairwise_append.mpr ⟨hadj, hAA, fun u hu a ha => (hAL a ha u hu).symm⟩
  have hVA : ∀ u ∈ L ++ A, u < g.N := by
    intro u hu
    rcases List.mem_append.mp hu with hu | hu
    · exact hV u hu
    · exact (g.lt_of_adj (hAL u hu _ (front_mem hne))).1
  refine ⟨List.pairwise_append.mpr ⟨hsorted, (g.fwdNeighs_pairwise _).sublist hsub, ?_⟩, ?_, ?_, ?_⟩
  · intro u hu a ha
    exact hlast a (hAL a ha) u hu
  · refine ⟨?_, ?_, ?_⟩
    · exact ⟨front L, by simp [front_mem hne]⟩
    · intro u hu
      rw [g.mem_vertices]
      exact hVA u (List.mem_toFinset.mp hu)
    · intro u hu w hw huw
      have hsymm : Std.Symm g.toSimpleGraph.Adj := ⟨fun _ _ h => h.symm⟩
      exact hclique.forall (by simpa using hu) (by simpa using hw) huw
  · intro u hu
    simp only [List.mem_toFinset] at hu ⊢
    exact List.mem_append_left _ hu
  · intro v _ hvK hall
    simp only [List.mem_toFinset] at hvK hall ⊢
    have hfront : front L < v := hlast v hall _ (front_mem hne)
    have hvx : v ∈ g.fwdNeighs (front L) :=
      (g.mem_fwdNeighs).mpr ⟨(hall _ (front_mem hne)).symm, hfront⟩
    obtain ⟨u, hu, hor, hnot⟩ := hout v hvx fun h => hvK (List.mem_append_right _ h)
    refine ⟨u, hu, ?_, hnot⟩
    rcases hor with hL | hlt
    · exact absurd (hall u hL) hnot
    · exact hlt

/-! ### The scratch -/

/-- The scratch between two calls: nothing is marked and nothing is stored. -/
def Scratch.clean : Scratch :=
  { candidatesBitset := Vec.zeros g.N, badBitset := Vec.zeros g.N }

theorem setUp_empty : setUp g {} = Scratch.clean g := by
  unfold setUp Scratch.clean Graph.size
  rw [Vec.resize_empty]

/-- The elements of a list that `markCandidate` collects. -/
def fresh (parind : ℕ) : Vec Bool → List ℕ → List ℕ
  | _, [] => []
  | marked, x :: xs =>
    if decide (parind < x) && !marked.get x then x :: fresh parind (marked.set x true) xs
    else fresh parind marked xs

theorem foldl_markCandidate (parind : ℕ) (xs : List ℕ) (scr : Scratch) :
    xs.foldl (markCandidate parind) scr
      = { scr with
          candidatesBitset :=
            scr.candidatesBitset.setAll (fresh parind scr.candidatesBitset xs) true
          candidates := scr.candidates ++ fresh parind scr.candidatesBitset xs } := by
  induction xs generalizing scr with
  | nil => simp [fresh, Vec.setAll]
  | cons x xs ih =>
    rw [List.foldl_cons, ih, markCandidate, fresh]
    split_ifs
    · simp only [List.append_assoc, List.singleton_append]
      rfl
    · rfl

theorem mem_fresh {parind : ℕ} {marked : Vec Bool} {xs : List ℕ} (hxs : ∀ x ∈ xs, x < marked.size)
    {i : ℕ} : i ∈ fresh parind marked xs ↔ i ∈ xs ∧ parind < i ∧ marked.get i = false := by
  induction xs generalizing marked with
  | nil => simp [fresh]
  | cons x xs ih =>
    have hx : x < marked.size := hxs x List.mem_cons_self
    have hxs' : ∀ y ∈ xs, y < marked.size := fun y hy => hxs y (List.mem_cons_of_mem _ hy)
    rw [fresh]
    by_cases hnew : (decide (parind < x) && !marked.get x) = true
    · rw [if_pos hnew, List.mem_cons, ih (by simpa using hxs'), List.mem_cons, Vec.get_set]
      simp only [Bool.and_eq_true, decide_eq_true_eq, Bool.not_eq_true'] at hnew
      by_cases hix : i = x
      · subst hix
        simp [hnew]
      · simp [hix, Ne.symm hix]
    · rw [if_neg hnew, ih hxs', List.mem_cons]
      simp only [Bool.and_eq_true, decide_eq_true_eq, Bool.not_eq_true', not_and] at hnew
      by_cases hix : i = x
      · subst hix
        constructor
        · rintro ⟨_, h⟩
          exact ⟨Or.inl rfl, h⟩
        · rintro ⟨_, h1, h2⟩
          exact absurd h2 (hnew h1)
      · simp [hix]

theorem nodup_fresh {parind : ℕ} {marked : Vec Bool} {xs : List ℕ}
    (hxs : ∀ x ∈ xs, x < marked.size) : (fresh parind marked xs).Nodup := by
  induction xs generalizing marked with
  | nil => exact List.nodup_nil
  | cons x xs ih =>
    have hx : x < marked.size := hxs x List.mem_cons_self
    have hxs' : ∀ y ∈ xs, y < marked.size := fun y hy => hxs y (List.mem_cons_of_mem _ hy)
    rw [fresh]
    split_ifs
    · refine List.nodup_cons.mpr ⟨?_, ih (by simpa using hxs')⟩
      rw [mem_fresh (by simpa using hxs'), Vec.get_set_self hx]
      simp
    · exact ih hxs'

/-- The vertices `Candidates` passes to its callback. -/
def candidateList (clique : List ℕ) (parind : ℕ) : List ℕ :=
  fresh parind ((Vec.zeros g.N).setAll clique true) (clique.flatMap g.fwdNeighs)

theorem lt_size_of_mem_flatMap (clique : List ℕ) {x : ℕ} (hx : x ∈ clique.flatMap g.fwdNeighs) :
    x < ((Vec.zeros g.N : Vec Bool).setAll clique true).size := by
  obtain ⟨u, _, hx⟩ := List.mem_flatMap.mp hx
  rw [Vec.size_setAll, Vec.size_zeros]
  exact (g.lt_of_adj (g.mem_fwdNeighs.mp hx).1).2

/-- **The candidates**: the larger neighbours of the clique, outside it and above its index. -/
theorem mem_candidateList {clique : List ℕ} {parind c : ℕ} :
    c ∈ candidateList g clique parind ↔
      c ∉ clique ∧ parind < c ∧ ∃ u ∈ clique, u < c ∧ g.toSimpleGraph.Adj c u := by
  unfold candidateList
  rw [mem_fresh fun x hx => lt_size_of_mem_flatMap g clique hx, List.mem_flatMap, Vec.get_setAll,
    Vec.get_zeros, Vec.size_zeros]
  constructor
  · rintro ⟨⟨u, hu, huc⟩, hlt, hget⟩
    obtain ⟨hadj, huc⟩ := g.mem_fwdNeighs.mp huc
    refine ⟨fun hc => ?_, hlt, u, hu, huc, hadj.symm⟩
    rw [if_pos ⟨hc, (g.lt_of_adj hadj).2⟩] at hget
    exact absurd hget (by decide)
  · rintro ⟨hc, hlt, u, hu, huc, hadj⟩
    refine ⟨⟨u, hu, g.mem_fwdNeighs.mpr ⟨hadj.symm, huc⟩⟩, hlt, ?_⟩
    rw [if_neg fun h => hc h.1]
    rfl

theorem nodup_candidateList (clique : List ℕ) (parind : ℕ) :
    (candidateList g clique parind).Nodup :=
  nodup_fresh fun _ hx => lt_size_of_mem_flatMap g clique hx

/-- The marks left when the candidates are collected. -/
def candidateMarks (clique : List ℕ) (parind : ℕ) : Vec Bool :=
  (((Vec.zeros g.N).setAll clique true).setAll (candidateList g clique parind) true).setAll
    clique false

theorem collectCandidates_eq (clique : List ℕ) (parind : ℕ) {scr : Scratch}
    (hbits : scr.candidatesBitset = Vec.zeros g.N) (hcands : scr.candidates = []) :
    collectCandidates g clique parind scr
      = { scr with
          candidatesBitset := candidateMarks g clique parind
          candidates := candidateList g clique parind } := by
  unfold collectCandidates candidateMarks
  simp only [← List.foldl_flatMap]
  rw [foldl_markCandidate, hbits, hcands]
  rfl

/-- Clearing the candidates leaves no mark. -/
theorem setAll_candidateMarks (clique : List ℕ) (parind : ℕ) :
    (candidateMarks g clique parind).setAll (candidateList g clique parind) false
      = Vec.zeros g.N := by
  have h := Vec.setAll_default_eq_zeros (v := candidateMarks g clique parind)
    (l := candidateList g clique parind) (by
      intro i hi
      by_contra hmem
      apply hi
      unfold candidateMarks
      rw [Vec.get_setAll, Vec.get_setAll, Vec.get_setAll, Vec.get_zeros]
      simp only [Vec.size_setAll, Vec.size_zeros, hmem, false_and, if_false]
      split_ifs <;> rfl)
  rw [show (false : Bool) = default from rfl, h]
  unfold candidateMarks
  simp

/-! ### Bad vertices and children -/

/-- The test of `markBad`. -/
def isBad (clique : List ℕ) (neigh : ℕ) : Bool :=
  (clique.takeWhile (· ≤ neigh)).all (g.areNeighs neigh ·)

/-- The vertices the first loop of `ListChildren` marks. -/
def badList (clique : List ℕ) : List ℕ := (g.fwdNeighs (front clique)).filter (isBad g clique)

def badMarks (clique : List ℕ) : Vec Bool := (Vec.zeros g.N).setAll (badList g clique) true

theorem foldl_markBad (clique xs : List ℕ) (scr : Scratch) :
    xs.foldl (markBad g clique) scr
      = { scr with
          badBitset := scr.badBitset.setAll (xs.filter (isBad g clique)) true
          bad := scr.bad ++ xs.filter (isBad g clique) } := by
  induction xs generalizing scr with
  | nil => simp [Vec.setAll]
  | cons x xs ih =>
    have hstep : markBad g clique scr x = if isBad g clique x then
        { scr with badBitset := scr.badBitset.set x true, bad := scr.bad ++ [x] } else scr := rfl
    rw [List.foldl_cons, ih, List.filter_cons, hstep]
    split_ifs
    · simp only [List.append_assoc, List.singleton_append]
      rfl
    · rfl

/-- Clearing the bad vertices leaves no mark. -/
theorem setAll_badMarks (clique : List ℕ) :
    (badMarks g clique).setAll (badList g clique) false = Vec.zeros g.N := by
  have h := Vec.setAll_default_eq_zeros (v := badMarks g clique) (l := badList g clique) (by
    intro i hi
    by_contra hmem
    apply hi
    unfold badMarks
    rw [Vec.get_setAll, Vec.get_zeros, if_neg fun h => hmem h.1])
  rw [show (false : Bool) = default from rfl, h]
  unfold badMarks
  simp

/-- The vertices of a clique up to a candidate that are next to it. -/
def childList (clique : List ℕ) (cand : ℕ) : List ℕ :=
  clique.filter fun node => decide (node ≤ cand) && g.areNeighs cand node

theorem foldl_pushChild (clique : List ℕ) (cand : ℕ) (scr : Scratch) :
    clique.foldl (pushChild g cand) scr
      = { scr with child := scr.child ++ childList g clique cand } := by
  unfold childList
  induction clique generalizing scr with
  | nil => simp
  | cons x xs ih =>
    rw [List.foldl_cons, ih, List.filter_cons, pushChild]
    by_cases hx : x ≤ cand
    · by_cases hadj : g.areNeighs cand x = true
      · simp [hx, hadj, not_lt.mpr hx]
      · simp [hadj]
    · simp [hx, not_le.mp hx]

/-- The child `ListChildren` makes of a candidate. -/
def childOf (clique : List ℕ) (cand : ℕ) : Option Node :=
  if rejected g clique (childList g clique cand) cand (badMarks g clique) then none
  else some (completeFwd g (childList g clique cand ++ [cand]), cand)

/-- The nodes `ListChildren` passes to its callback. -/
def children (x : Node) : List Node := (candidateList g x.1 x.2).filterMap (childOf g x.1)

/-- **`ListChildren` lists `children`** and leaves the scratch as it found it. -/
theorem listChildren_eq {σ : Type} (f : Node → σ → Option (Bool × σ)) (x : Node) (a : σ) :
    listChildren g x (NodeCallback.lift f) (Scratch.clean g, a)
      = (forEach f (children g x) a).map fun a => (Scratch.clean g, a) := by
  obtain ⟨clique, parind⟩ := x
  set scr : Scratch :=
    { candidatesBitset := candidateMarks g clique parind
      candidates := candidateList g clique parind
      badBitset := badMarks g clique
      bad := badList g clique } with hscr
  -- the callback of `Candidates` leaves the scratch alone
  have hstep : ∀ cand ∈ candidateList g clique parind, ∀ a : σ,
      childrenCand g clique cand (childCb g clique cand (NodeCallback.lift f)) (scr, a)
        = ((childOf g clique cand).elim (some (true, a)) (f · a)).map
            fun r => (r.1, (scr, r.2)) := by
    intro cand _ a
    unfold childrenCand childCb childOf NodeCallback.lift
    rw [foldl_pushChild]
    by_cases hrej : rejected g clique (childList g clique cand) cand (badMarks g clique) = true
    · simp [hscr, hrej]
    · simp only [hscr, List.nil_append, hrej]
      simp [Option.map_map, Function.comp_def]
  unfold listChildren candidates
  simp only [foldl_markBad]
  rw [collectCandidates_eq g clique parind rfl rfl]
  show ((forEach _ (candidateList g clique parind) (scr, a)).map _).map _ = _
  rw [forEach_keep hstep, forEach_filterMap]
  show _ = (forEach f ((candidateList g clique parind).filterMap (childOf g clique)) a).map _
  rw [Option.map_map, Option.map_map]
  congr 1
  funext a
  simp only [Function.comp_apply, hscr, setAll_candidateMarks, setAll_badMarks]
  rfl

/-! ### Nodes and their children -/

/-- A strictly ascending maximal clique with its index. -/
def IsNode (x : Node) : Prop :=
  x.1.Pairwise (· < ·) ∧ IsIndex g.toSimpleGraph g.vertices x.1.toFinset x.2

theorem mem_childList {K : List ℕ} {c u : ℕ} :
    u ∈ childList g K c ↔ u ∈ K ∧ u < c ∧ g.toSimpleGraph.Adj c u := by
  unfold childList
  rw [List.mem_filter, Bool.and_eq_true, decide_eq_true_iff, Graph.areNeighs_eq_true]
  refine and_congr_right fun _ => ⟨fun ⟨hle, hadj⟩ => ?_, fun ⟨hlt, hadj⟩ => ⟨hlt.le, hadj⟩⟩
  exact ⟨lt_of_le_of_ne hle hadj.ne', hadj⟩

theorem toFinset_childList (K : List ℕ) (c : ℕ) :
    (childList g K c).toFinset
      = K.toFinset.filter fun u => u < c ∧ g.toSimpleGraph.Adj c u := by
  ext u
  rw [List.mem_toFinset, mem_childList, Finset.mem_filter, List.mem_toFinset]

theorem minDegree_mem {L : List ℕ} (h : L ≠ []) : minDegree g L ∈ L := by
  have hfold : ∀ (xs : List ℕ) (b : ℕ), b ∈ L → (∀ x ∈ xs, x ∈ L) →
      xs.foldl (fun idx node => if g.degree node < g.degree idx then node else idx) b ∈ L := by
    intro xs
    induction xs with
    | nil => exact fun b hb _ => hb
    | cons x xs ih =>
      intro b hb hxs
      rw [List.foldl_cons]
      apply ih
      · split_ifs
        · exact hxs x List.mem_cons_self
        · exact hb
      · exact fun y hy => hxs y (List.mem_cons_of_mem _ hy)
  exact hfold L (front L) (front_mem h) fun _ hx => hx

theorem isBad_iff {K : List ℕ} (hK : K.Pairwise (· < ·)) {v : ℕ} :
    isBad g K v = true ↔ ∀ u ∈ K, u ≤ v → g.toSimpleGraph.Adj v u := by
  unfold isBad
  rw [Graph.takeWhile_eq_filter (fun a b hab hb => by simp at hb ⊢; omega) hK, List.all_eq_true]
  simp

theorem badMarks_get {K : List ℕ} (hK : K.Pairwise (· < ·)) {v : ℕ} :
    (badMarks g K).get v = true ↔
      v ∈ g.fwdNeighs (front K) ∧ ∀ u ∈ K, u ≤ v → g.toSimpleGraph.Adj v u := by
  have hmem : v ∈ badList g K ↔
      v ∈ g.fwdNeighs (front K) ∧ ∀ u ∈ K, u ≤ v → g.toSimpleGraph.Adj v u := by
    unfold badList
    rw [List.mem_filter, isBad_iff g hK]
  unfold badMarks
  rw [← hmem, Vec.get_setAll, Vec.get_zeros, Vec.size_zeros]
  constructor
  · intro h
    by_contra hnot
    rw [if_neg fun h => hnot h.1] at h
    exact absurd h (by decide)
  · intro h
    rw [if_pos ⟨h, (g.lt_of_adj (g.mem_fwdNeighs.mp (hmem.mp h).1).1).2⟩]

/-- The tests of `ListChildren` find a vertex that rejects the candidate, if there is one. -/
theorem rejected_iff {K : List ℕ} (hne : K ≠ []) (hK : K.Pairwise (· < ·)) {c : ℕ}
    (hc : childList g K c ≠ []) :
    rejected g K (childList g K c) c (badMarks g K) = true ↔
      ∃ v, Rejects g.toSimpleGraph g.vertices K.toFinset c v := by
  unfold rejected Rejects
  simp only [List.any_eq_true, Bool.and_eq_true, Bool.or_eq_true, decide_eq_true_eq,
    List.all_eq_true, Graph.areNeighs_eq_true, badMarks_get g hK, List.mem_toFinset,
    Graph.mem_vertices, mem_childList]
  constructor
  · rintro ⟨v, hv, hall, htest⟩
    refine ⟨v, (g.lt_of_adj (g.adj_iff_mem.mpr hv)).2,
      fun u hu huc hadj => hall u ⟨hu, huc, hadj⟩, ?_⟩
    rcases htest with (hlt | htest) | hbad
    · left
      intro u hu huv
      have := front_le hK hu
      omega
    · exact Or.inr htest
    · exact Or.inl hbad.2
  · rintro ⟨v, _, hall, htest⟩
    have hall' : ∀ u, u ∈ K ∧ u < c ∧ g.toSimpleGraph.Adj c u → g.toSimpleGraph.Adj v u :=
      fun u hu => hall u hu.1 hu.2.1 hu.2.2
    have hidx := (mem_childList g).mp (minDegree_mem g hc)
    refine ⟨v, g.adj_iff_mem.mp (hall' _ hidx).symm, hall', ?_⟩
    rcases htest with hbad | htest
    · by_cases hlt : v < front K
      · exact Or.inl (Or.inl hlt)
      · have hadj := hbad _ (front_mem hne) (not_lt.mp hlt)
        have hlt' : front K < v := lt_of_le_of_ne (not_lt.mp hlt) hadj.ne'
        exact Or.inr ⟨g.mem_fwdNeighs.mpr ⟨hadj.symm, hlt'⟩, hbad⟩
    · exact Or.inl (Or.inr htest)

theorem eq_of_toFinset_eq {K K' : List ℕ} (hK : K.Pairwise (· < ·)) (hK' : K'.Pairwise (· < ·))
    (h : K.toFinset = K'.toFinset) : K = K' := by
  refine List.Pairwise.eq_of_mem_iff hK hK' fun u => ?_
  rw [← List.mem_toFinset, h, List.mem_toFinset]

theorem IsNode.ne_nil {x : Node} (hx : IsNode g x) : x.1 ≠ [] := by
  intro h
  have := hx.2.1
  rw [h] at this
  simp at this

theorem IsNode.adj {x : Node} (hx : IsNode g x) {u v : ℕ} (hu : u ∈ x.1) (hv : v ∈ x.1)
    (hne : u ≠ v) : g.toSimpleGraph.Adj u v :=
  hx.2.isMaximalClique.prop.adj (List.mem_toFinset.mpr hu) (List.mem_toFinset.mpr hv) hne

/-- Completing the child of a candidate that is not rejected. -/
theorem completeFwd_childList {x : Node} (hx : IsNode g x) {c : ℕ} (hc : childList g x.1 c ≠ [])
    (hrej : ∀ v, ¬ Rejects g.toSimpleGraph g.vertices x.1.toFinset c v) :
    (completeFwd g (childList g x.1 c ++ [c])).Pairwise (· < ·) ∧
      LexFirst g.toSimpleGraph g.vertices
        (insert c (x.1.toFinset.filter fun u => u < c ∧ g.toSimpleGraph.Adj c u))
        (completeFwd g (childList g x.1 c ++ [c])).toFinset := by
  have hset : (childList g x.1 c ++ [c]).toFinset
      = insert c (x.1.toFinset.filter fun u => u < c ∧ g.toSimpleGraph.Adj c u) := by
    rw [List.toFinset_append, toFinset_childList, Finset.union_comm]
    rfl
  rw [← hset]
  have hsorted : (childList g x.1 c).Pairwise (· < ·) := hx.1.filter _
  have hmem := fun u (hu : u ∈ childList g x.1 c) => (mem_childList g).mp hu
  apply completeFwd_spec g (by simp)
  · refine List.pairwise_append.mpr ⟨hsorted, List.pairwise_singleton _ _, fun u hu v hv => ?_⟩
    rw [List.mem_singleton.mp hv]
    exact (hmem u hu).2.1
  · refine List.pairwise_append.mpr ⟨?_, List.pairwise_singleton _ _, fun u hu v hv => ?_⟩
    · exact hsorted.imp_of_mem fun hu hv hlt =>
        hx.adj g (hmem _ hu).1 (hmem _ hv).1 hlt.ne
    · rw [List.mem_singleton.mp hv]
      exact (hmem u hu).2.2.symm
  · intro u hu
    rcases List.mem_append.mp hu with hu | hu
    · exact (g.lt_of_adj (hmem u hu).2.2).2
    · rw [List.mem_singleton.mp hu]
      obtain ⟨w, hw⟩ := List.exists_mem_of_ne_nil _ hc
      exact (g.lt_of_adj (hmem w hw).2.2).1
  · intro v hall u hu
    have hvc : g.toSimpleGraph.Adj v c := hall c (by simp)
    -- a common neighbour up to the candidate would reject it
    have hlt : c < v := by
      by_contra hle
      refine hrej v ⟨g.mem_vertices.mpr (g.lt_of_adj hvc).1, fun u hu huc hadj => ?_,
        Or.inr ⟨not_lt.mp hle, hvc⟩⟩
      exact hall u (List.mem_append_left _
        ((mem_childList g).mpr ⟨List.mem_toFinset.mp hu, huc, hadj⟩))
    rcases List.mem_append.mp hu with hu | hu
    · exact (hmem u hu).2.1.trans hlt
    · rw [List.mem_singleton.mp hu]
      exact hlt

/-- The children are those of the reverse search, for every lower bound on the candidates up to the
index. -/
theorem mem_children_of_le {x : Node} (hx : IsNode g x) {parind : ℕ} (hle : parind ≤ x.2)
    {y : Node} :
    y ∈ children g (x.1, parind) ↔ y.1.Pairwise (· < ·) ∧
      IsChild g.toSimpleGraph g.vertices x.1.toFinset y.1.toFinset y.2 := by
  unfold children
  rw [List.mem_filterMap, isChild_iff hx.2.isMaximalClique]
  have hnonempty : ∀ c, (x.1.toFinset.filter fun u => u < c ∧ g.toSimpleGraph.Adj c u).Nonempty
      ↔ childList g x.1 c ≠ [] := by
    intro c
    rw [← toFinset_childList, List.toFinset_nonempty_iff]
  constructor
  · rintro ⟨c, hc, hchild⟩
    obtain ⟨hcK, hpc, u, hu, huc, hadj⟩ := (mem_candidateList g).mp hc
    have hne : childList g x.1 c ≠ [] :=
      List.ne_nil_of_mem ((mem_childList g).mpr ⟨hu, huc, hadj⟩)
    unfold childOf at hchild
    split_ifs at hchild with hrej
    obtain rfl := Option.some.inj hchild
    rw [rejected_iff g (hx.ne_nil g) hx.1 hne, not_exists] at hrej
    obtain ⟨hsorted, hlex⟩ := completeFwd_childList g hx hne hrej
    refine ⟨hsorted, g.mem_vertices.mpr (g.lt_of_adj hadj).1, ?_, (hnonempty c).mpr hne,
      hrej, hlex⟩
    simpa using hcK
  · rintro ⟨hsorted, htests⟩
    obtain ⟨K', c⟩ := y
    have hpc : parind < c :=
      hle.trans_lt ((parent_spec ((isChild_iff hx.2.isMaximalClique).mpr htests)).2 x.2 hx.2)
    obtain ⟨hcV, hcK, hne, hrej, hlex⟩ := htests
    have hne' := (hnonempty c).mp hne
    refine ⟨c, (mem_candidateList g).mpr ⟨by simpa using hcK, hpc, ?_⟩, ?_⟩
    · obtain ⟨u, hu⟩ := List.exists_mem_of_ne_nil _ hne'
      exact ⟨u, (mem_childList g).mp hu⟩
    · have hnot : ¬ rejected g x.1 (childList g x.1 c) c (badMarks g x.1) = true := by
        rw [rejected_iff g (hx.ne_nil g) hx.1 hne', not_exists]
        exact hrej
      obtain ⟨hsorted', hlex'⟩ := completeFwd_childList g hx hne' hrej
      unfold childOf
      rw [if_neg hnot, eq_of_toFinset_eq hsorted' hsorted (hlex'.unique hlex)]

/-- **The children of a node** are the children of the reverse search. -/
theorem mem_children_iff {x : Node} (hx : IsNode g x) {y : Node} :
    y ∈ children g x ↔ y.1.Pairwise (· < ·) ∧
      IsChild g.toSimpleGraph g.vertices x.1.toFinset y.1.toFinset y.2 :=
  mem_children_of_le g hx le_rfl

theorem nodup_children (x : Node) : (children g x).Nodup := by
  refine (nodup_candidateList g x.1 x.2).filterMap fun a b y ha hb => ?_
  unfold childOf at ha hb
  simp only [Option.mem_def] at ha hb
  split_ifs at ha hb
  rw [← Option.some.inj ha] at hb
  exact (congrArg Prod.snd (Option.some.inj hb)).symm

/-! ### The forest -/

/-- The reverse search.  A child comes after its parent, so its weight is smaller. -/
def forest : Forest Node where
  children := children g
  Ok := IsNode g
  rank x := weight g.vertices x.1.toFinset
  ok_of_mem hx hc := ⟨((mem_children_iff g hx).mp hc).1, ((mem_children_iff g hx).mp hc).2.1⟩
  rank_lt_of_mem hx hc :=
    have h := ((mem_children_iff g hx).mp hc).2
    weight_lt_of_before h.1.isMaximalClique.prop.2.1 (parent_spec h).1

/-- The nodes `GetRoot` passes to its callback. -/
def roots (i : ℕ) : List Node :=
  if g.degree i = g.fwdDegree i then [(completeFwd g [i], i)] else []

theorem getRoot_eq {σ : Type} (f : Node → σ → Option (Bool × σ)) (i : ℕ) (s : Scratch × σ) :
    getRoot g i (NodeCallback.lift f) s
      = (forEach f (roots g i) s.2).map fun a => (s.1, a) := by
  unfold getRoot roots NodeCallback.lift
  split_ifs
  · rw [forEach_cons]
    cases f (completeFwd g [i], i) s.2 with
    | none => rfl
    | some r => simp
  · rfl

/-- The completion of a vertex without smaller neighbours. -/
theorem completeFwd_singleton {i : ℕ} (hi : i < g.N) (hdeg : g.degree i = g.fwdDegree i) :
    (completeFwd g [i]).Pairwise (· < ·) ∧
      LexFirst g.toSimpleGraph g.vertices {i} (completeFwd g [i]).toFinset := by
  have h := completeFwd_spec g (L := [i]) (by simp) (List.pairwise_singleton _ _)
    (List.pairwise_singleton _ _) (by simpa using hi) (by
      intro v hv u hu
      rw [List.mem_singleton.mp hu]
      exact (g.degree_eq_fwdDegree_iff i).mp hdeg v (hv i List.mem_cons_self).symm)
  simpa using h

/-- The roots are the nodes whose index is their smallest vertex. -/
theorem mem_roots_iff {i : ℕ} (hi : i < g.N) {x : Node} :
    x ∈ roots g i ↔ IsNode g x ∧ x.2 = i ∧ ∀ u ∈ x.1, i ≤ u := by
  unfold roots
  constructor
  · intro hx
    split_ifs at hx with hdeg
    · obtain rfl := List.mem_singleton.mp hx
      obtain ⟨hsorted, hlex⟩ := completeFwd_singleton g hi hdeg
      have hmem : i ∈ (completeFwd g [i]).toFinset := hlex.2.1 (Finset.mem_singleton_self i)
      have hmin : ∀ u ∈ (completeFwd g [i]).toFinset, i ≤ u := by
        intro u hu
        by_contra hlt
        have hadj := hlex.1.adj hmem hu (by omega)
        have := (g.degree_eq_fwdDegree_iff i).mp hdeg u hadj
        omega
      exact ⟨⟨hsorted, (isIndex_min_iff hmem hmin).mpr hlex⟩, rfl,
        fun u hu => hmin u (List.mem_toFinset.mpr hu)⟩
    · exact absurd hx List.not_mem_nil
  · rintro ⟨hx, rfl, hmin⟩
    have hmem := hx.2.1
    have hlex := (isIndex_min_iff hmem fun u hu => hmin u (List.mem_toFinset.mp hu)).mp hx.2
    have hdeg : g.degree x.2 = g.fwdDegree x.2 := by
      rw [g.degree_eq_fwdDegree_iff]
      intro v hadj
      by_contra hle
      have hvK : v ∉ x.1.toFinset := fun hv => by
        have := hmin v (List.mem_toFinset.mp hv)
        have := hadj.ne
        omega
      obtain ⟨u, hu, huv, _⟩ := hlex.2.2 v (g.mem_vertices.mpr (g.lt_of_adj hadj).2) hvK (by
        intro u hu
        rw [Finset.mem_singleton.mp hu]
        exact hadj.symm)
      have := hmin u (List.mem_toFinset.mp hu)
      omega
    obtain ⟨hsorted, hlex'⟩ := completeFwd_singleton g hi hdeg
    rw [if_pos hdeg, List.mem_singleton, ← eq_of_toFinset_eq hx.1 hsorted (hlex.unique hlex')]

/-- `CliqueEnumeration` lists the reverse search from a clean scratch. -/
def listsForest : Sequential.ListsForest (cliqueEnumeration g) where
  Inv scr := scr = Scratch.clean g
  roots := roots g
  forest := forest g
  sol _ := true
  item node := node.1
  not_recursive := rfl
  ok_roots _ hi _ hr := ((mem_roots_iff g hi).mp hr).1
  isSolution_eq _ _ := rfl
  nodeToItem_eq _ _ := rfl
  getRoot_eq f i _ a _ _ := getRoot_eq g f i (_, a)
  listChildren_eq f x _ a hst _ := by
    subst hst
    exact listChildren_eq g f x a

/-- The roots of all calls of `GetRoot`. -/
def allRoots : List Node := (List.range g.N).flatMap (roots g)

theorem mem_allRoots {x : Node} :
    x ∈ allRoots g ↔ IsNode g x ∧ ∀ u ∈ x.1, x.2 ≤ u := by
  unfold allRoots
  rw [List.mem_flatMap]
  constructor
  · rintro ⟨i, hi, hx⟩
    obtain ⟨hnode, rfl, hmin⟩ := (mem_roots_iff g (List.mem_range.mp hi)).mp hx
    exact ⟨hnode, hmin⟩
  · rintro ⟨hnode, hmin⟩
    have hi : x.2 < g.N := g.mem_vertices.mp (hnode.2.isMaximalClique.prop.2.1 hnode.2.1)
    exact ⟨x.2, List.mem_range.mpr hi, (mem_roots_iff g hi).mpr ⟨hnode, rfl, hmin⟩⟩

theorem nodup_allRoots : (allRoots g).Nodup := by
  unfold allRoots
  rw [List.nodup_flatMap]
  refine ⟨fun i _ => ?_, ?_⟩
  · unfold roots
    split_ifs
    · exact List.nodup_singleton _
    · exact List.nodup_nil
  · refine List.nodup_range.imp_of_mem fun hi hj hij x hxi hxj => hij ?_
    rw [← ((mem_roots_iff g (List.mem_range.mp hi)).mp hxi).2.1,
      ((mem_roots_iff g (List.mem_range.mp hj)).mp hxj).2.1]

/-- The parent of a node is determined by the node. -/
theorem parent_unique {x y c : Node} (hx : IsNode g x) (hy : IsNode g y)
    (hcx : c ∈ children g x) (hcy : c ∈ children g y) : x = y := by
  have hlex := ((mem_children_iff g hx).mp hcx).2.2.2
  have hlex' := ((mem_children_iff g hy).mp hcy).2.2.2
  have hK : x.1 = y.1 := eq_of_toFinset_eq hx.1 hy.1 (hlex.unique hlex')
  refine Prod.ext hK (hx.2.unique ?_)
  rw [hK]
  exact hy.2

/-- A node is a root or a child of a node. -/
theorem root_or_child {z : Node} (hz : IsNode g z) :
    z ∈ allRoots g ∨ ∃ p, IsNode g p ∧ z ∈ children g p := by
  by_cases hne : (z.1.toFinset.filter (· < z.2)).Nonempty
  · right
    obtain ⟨K, hK⟩ := exists_parent hz.2 hne
    obtain ⟨p, hp⟩ := exists_index hK.2.2.isMaximalClique
    have hset : (K.sort (· ≤ ·)).toFinset = K := K.sort_toFinset (· ≤ ·)
    have hnode : IsNode g (K.sort (· ≤ ·), p) := by
      refine ⟨K.sortedLT_sort.pairwise, ?_⟩
      rw [hset]
      exact hp
    refine ⟨_, hnode, (mem_children_iff g hnode).mpr ⟨hz.1, ?_⟩⟩
    rw [hset]
    exact hK
  · left
    refine (mem_allRoots g).mpr ⟨hz, fun u hu => ?_⟩
    by_contra hlt
    exact hne ⟨u, Finset.mem_filter.mpr ⟨List.mem_toFinset.mpr hu, not_le.mp hlt⟩⟩

theorem allNodes_eq : (listsForest g).allNodes = (forest g).traversal (allRoots g) := by
  unfold Sequential.ListsForest.allNodes Forest.traversal allRoots
  rw [List.flatMap_assoc]
  rfl

/-- Every node is visited. -/
theorem mem_allNodes {z : Node} : z ∈ (listsForest g).allNodes ↔ IsNode g z := by
  rw [allNodes_eq]
  have hok : ∀ r ∈ allRoots g, (forest g).Ok r := fun r hr => ((mem_allRoots g).mp hr).1
  constructor
  · intro hz
    obtain ⟨r, hr, hz⟩ := Forest.mem_traversal.mp hz
    exact (Forest.ok_of_mem_subtree (hok r hr) hz).1
  · intro hz
    exact Forest.mem_traversal_of_climb (IsNode g) (N := weight g.vertices g.vertices) hok
      (fun _ h => h) (fun z hz => weight_le hz.2.isMaximalClique.prop.2.1)
      (fun z hz => root_or_child g hz) hz

/-- No node is visited twice. -/
theorem nodup_allNodes : (listsForest g).allNodes.Nodup := by
  rw [allNodes_eq]
  apply Forest.traversal_nodup
  · exact fun r hr => ((mem_allRoots g).mp hr).1
  · exact nodup_allRoots g
  · exact fun x _ => nodup_children g x
  · exact fun x y c hx hy => parent_unique g hx hy
  · intro x r hx hr hchild
    obtain ⟨u, hu⟩ := ((mem_children_iff g hx).mp hchild).2.2.1
    obtain ⟨hu, hlt⟩ := Finset.mem_filter.mp hu
    have := ((mem_allRoots g).mp hr).2 u (List.mem_toFinset.mp hu)
    omega

theorem map_toFinset_nodup {l : List Node} (hl : l.Perm (listsForest g).allNodes) :
    (l.map fun x => x.1.toFinset).Nodup := by
  refine List.Nodup.map_on ?_ (hl.nodup_iff.mpr (nodup_allNodes g))
  intro x hx y hy hxy
  have hx := (mem_allNodes g).mp (hl.mem_iff.mp hx)
  have hy := (mem_allNodes g).mp (hl.mem_iff.mp hy)
  refine Prod.ext (eq_of_toFinset_eq hx.1 hy.1 hxy) (hx.2.unique ?_)
  rw [hxy]
  exact hy.2

/-- A run visits all nodes, in some order. -/
theorem runInternal_nodes {fuel : ℕ} (hfuel : (listsForest g).allNodes.length < fuel) :
    ∃ l : List Node, l.Perm (listsForest g).allNodes ∧ ∃ st e,
      Sequential.runInternal fuel (cliqueEnumeration g) {} {} = some (st, e) ∧
        e.items = l.map fun x => x.1 := by
  obtain ⟨l, hl, hrun⟩ := (listsForest g).runInternal_of_listsForest {}
    (setUp_empty g) hfuel {}
  refine ⟨l, hl, _, _, hrun, ?_⟩
  simp [Enumerator.reports, listsForest]

/-- The cliques of the nodes are the maximal cliques. -/
theorem exists_node_iff {l : List Node} (hl : l.Perm (listsForest g).allNodes) {K : Finset ℕ} :
    (∃ x ∈ l, x.1.toFinset = K) ↔ IsMaximalClique g.toSimpleGraph g.vertices K := by
  have hmem : ∀ x, x ∈ l ↔ IsNode g x := fun x => hl.mem_iff.trans (mem_allNodes g)
  constructor
  · rintro ⟨x, hx, rfl⟩
    exact ((hmem x).mp hx).2.isMaximalClique
  · intro hK
    obtain ⟨p, hp⟩ := exists_index hK
    have hset : (K.sort (· ≤ ·)).toFinset = K := K.sort_toFinset (· ≤ ·)
    refine ⟨(K.sort (· ≤ ·), p), (hmem _).mpr ⟨K.sortedLT_sort.pairwise, ?_⟩, hset⟩
    rw [hset]
    exact hp

/-- **`Sequential` reports every maximal clique exactly once**, as an ascending list, and nothing
else. -/
theorem runInternal_cliqueEnumeration :
    ∃ bound, ∀ fuel > bound, ∃ st e,
      Sequential.runInternal fuel (cliqueEnumeration g) {} {} = some (st, e) ∧
        (∀ item ∈ e.items, item.Pairwise (· < ·)) ∧ (e.items.map List.toFinset).Nodup ∧
          ∀ K, K ∈ e.items.map List.toFinset ↔
            IsMaximalClique g.toSimpleGraph g.vertices K := by
  refine ⟨(listsForest g).allNodes.length, fun fuel hfuel => ?_⟩
  obtain ⟨l, hl, st, e, hrun, hitems⟩ := runInternal_nodes g hfuel
  refine ⟨st, e, hrun, ?_⟩
  rw [hitems, List.map_map]
  refine ⟨?_, map_toFinset_nodup g hl, fun K => ?_⟩
  · intro item hitem
    obtain ⟨x, hx, rfl⟩ := List.mem_map.mp hitem
    exact ((mem_allNodes g).mp (hl.mem_iff.mp hx)).1
  · rw [List.mem_map]
    exact exists_node_iff g hl

end ParallelEnum.Clique
