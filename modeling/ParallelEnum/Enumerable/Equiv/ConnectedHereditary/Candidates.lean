import ParallelEnum.Enumerable.Equiv.ConnectedHereditary.Lawful

/-!
# `Candidates` finds the smallest key that can be added

`Tracks` relates the iterators and the queue of `Candidates` to the keys that have been added: the
queue holds, for every added node, its first neighbour that has not been passed, and a neighbour
that has been passed is added already or can no longer be added.  From it follow:

* `next_spec`: `Next` finds the smallest key that can be added, or that there is none.
* `Tracks.add`: `Add` keeps the relation.

`work` bounds the iterations that the loop of `Next` has left.
-/

namespace ParallelEnum.CHSystem

open BreadthFirst ConnectedHereditary CommutableSystem

variable (sys : CHSystem)

/-- The nodes that may be added. -/
def ground (groundSet : Option (List ℕ)) : Finset ℕ :=
  groundSet.elim (Finset.range sys.size) List.toFinset

/-- The property of the sets of nodes that may be added. -/
abbrev InGround (P : Finset ℕ → Prop) (groundSet : Option (List ℕ)) : Finset ℕ → Prop :=
  Within (sys.Property P) (sys.ground groundSet)

theorem LawfulComplete.inGround_none {sys : CHSystem} {P : Finset ℕ → Prop}
    {groundSet : Option (List ℕ)} (h : LawfulComplete sys P groundSet) :
    sys.InGround P none = sys.Property P := h.hereditary.within_self

/-- The owner of an iterator. -/
def infoKey (inf : Info) : Key ℕ := ⟨inf.level, inf.node⟩

/-- `w` is added, or it cannot be added to `S`. -/
def Passed (P : Finset ℕ → Prop) (groundSet : Option (List ℕ)) (D : List ℕ) (S : Finset ℕ)
    (w : ℕ) : Prop :=
  w ∈ D ∨ ¬ sys.InGround P groundSet (insert w S)

/-- The iterators and the queue after the keys of `A` have been added. -/
structure Tracks (P : Finset ℕ → Prop) (groundSet : Option (List ℕ)) (c : Candidates)
    (A : List (Key ℕ)) (D : List ℕ) (S : Finset ℕ) : Prop where
  added : c.addedSoFar = nodes A
  info : c.info.map infoKey = A
  nodup : c.pq.elems.Nodup
  pos : ∀ inf ∈ c.info, 0 < inf.idx
  /-- The queue holds the neighbour each iterator is at. -/
  queued : ∀ k inf w, c.info[k]? = some inf →
    (sys.neighbours groundSet inf.node)[inf.idx - 1]? = some w →
      toLex (⟨inf.level + 1, w⟩, k) ∈ c.pq.elems
  of_mem : ∀ e ∈ c.pq.elems, ∃ inf, c.info[(ofLex e).2]? = some inf ∧
    (sys.neighbours groundSet inf.node)[inf.idx - 1]? = some (ofLex e).1.node ∧
      (ofLex e).1.level = inf.level + 1
  passed : ∀ inf ∈ c.info, ∀ i w, i + 1 < inf.idx →
    (sys.neighbours groundSet inf.node)[i]? = some w → sys.Passed P groundSet D S w

/-- The same while iterator `k` is advanced: the queue does not hold its neighbour, and what is
before its index has been passed. -/
structure Advances (P : Finset ℕ → Prop) (groundSet : Option (List ℕ)) (k : ℕ) (inf : Info)
    (c : Candidates) (A : List (Key ℕ)) (D : List ℕ) (S : Finset ℕ) : Prop where
  added : c.addedSoFar = nodes A
  info : c.info.map infoKey = A
  nodup : c.pq.elems.Nodup
  info_eq : c.info[k]? = some inf
  pos : ∀ j inf, j ≠ k → c.info[j]? = some inf → 0 < inf.idx
  queued : ∀ j inf w, j ≠ k → c.info[j]? = some inf →
    (sys.neighbours groundSet inf.node)[inf.idx - 1]? = some w →
      toLex (⟨inf.level + 1, w⟩, j) ∈ c.pq.elems
  of_mem : ∀ e ∈ c.pq.elems, (ofLex e).2 ≠ k ∧ ∃ inf, c.info[(ofLex e).2]? = some inf ∧
    (sys.neighbours groundSet inf.node)[inf.idx - 1]? = some (ofLex e).1.node ∧
      (ofLex e).1.level = inf.level + 1
  passed : ∀ j inf, j ≠ k → c.info[j]? = some inf → ∀ i w, i + 1 < inf.idx →
    (sys.neighbours groundSet inf.node)[i]? = some w → sys.Passed P groundSet D S w
  passed_self : ∀ i w, i < inf.idx →
    (sys.neighbours groundSet inf.node)[i]? = some w → sys.Passed P groundSet D S w

/-- The elements the queue holds and those its iterators have left. -/
def work (groundSet : Option (List ℕ)) (c : Candidates) : ℕ :=
  c.pq.elems.length
    + (c.info.map fun inf => (sys.neighbours groundSet inf.node).length - inf.idx).sum

/-! ### `InsertInPQ` -/

/-- The queue with the neighbour that iterator `k` is at, if there is one left. -/
def putNext (groundSet : Option (List ℕ)) (k : ℕ) (inf : Info) (pq : PriorityQueue CandIter) :
    PriorityQueue CandIter :=
  match (sys.neighbours groundSet inf.node)[inf.idx]? with
  | none => pq
  | some w => pq.emplace (toLex (⟨inf.level + 1, w⟩, k))

variable {sys} {P : Finset ℕ → Prop} {groundSet : Option (List ℕ)} {c : Candidates}
  {A : List (Key ℕ)} {D : List ℕ} {S T : Finset ℕ} {k : ℕ} {inf : Info}

theorem mem_putNext {pq : PriorityQueue CandIter} {e : CandIter} :
    e ∈ (sys.putNext groundSet k inf pq).elems ↔ e ∈ pq.elems ∨
      ∃ w, (sys.neighbours groundSet inf.node)[inf.idx]? = some w ∧
        e = toLex (⟨inf.level + 1, w⟩, k) := by
  unfold putNext
  cases hw : (sys.neighbours groundSet inf.node)[inf.idx]? with
  | none => simp
  | some w => simp [or_comm]

theorem nodup_putNext {pq : PriorityQueue CandIter} (hnd : pq.elems.Nodup)
    (hk : ∀ e ∈ pq.elems, (ofLex e).2 ≠ k) : (sys.putNext groundSet k inf pq).elems.Nodup := by
  unfold putNext
  cases (sys.neighbours groundSet inf.node)[inf.idx]? with
  | none => exact hnd
  | some w =>
    refine (pq.perm_emplace _).nodup_iff.mpr (List.nodup_cons.mpr ⟨fun he => ?_, hnd⟩)
    exact hk _ he rfl

/-- `InsertInPQ` on an iterator that exists. -/
theorem insertInPQ_eq (h : LawfulComplete sys P groundSet) (hinf : c.info[k]? = some inf)
    (hlt : inf.node < sys.size) :
    sys.system.insertInPQ groundSet k c =
      { c with
        info := c.info.set k { inf with idx := inf.idx + 1 }
        pq := sys.putNext groundSet k inf c.pq } := by
  unfold insertInPQ putNext
  rw [hinf]
  have hcand : sys.system.completeCandNum groundSet inf.node k inf.idx
      = (sys.neighbours groundSet inf.node)[inf.idx]? :=
    h.completeCandNum_eq inf.node k inf.idx hlt
  simp only [hcand]
  cases (sys.neighbours groundSet inf.node)[inf.idx]? <;> rfl

/-- `InsertInPQ` ends the advance of an iterator. -/
theorem Advances.insertInPQ (h : LawfulComplete sys P groundSet)
    (hA : Advances sys P groundSet k inf c A D S) (hlt : inf.node < sys.size) :
    Tracks sys P groundSet (sys.system.insertInPQ groundSet k c) A D S := by
  have hk := (List.getElem?_eq_some_iff.mp hA.info_eq).1
  rw [insertInPQ_eq h hA.info_eq hlt]
  have hget : ∀ j, (c.info.set k { inf with idx := inf.idx + 1 })[j]?
      = if k = j then some { inf with idx := inf.idx + 1 } else c.info[j]? := by
    intro j
    rw [List.getElem?_set]
    by_cases hkj : k = j
    · rw [if_pos hkj, if_pos (hkj ▸ hk), if_pos hkj]
    · rw [if_neg hkj, if_neg hkj]
  constructor
  case added => exact hA.added
  case info =>
    -- the owner of the iterator stays the same
    show (c.info.set k { inf with idx := inf.idx + 1 }).map infoKey = A
    rw [← hA.info]
    refine List.ext_getElem? fun j => ?_
    rw [List.getElem?_map, List.getElem?_map, hget]
    split_ifs with hkj
    · rw [← hkj, hA.info_eq]
      rfl
    · rfl
  case nodup => exact nodup_putNext hA.nodup fun e he => (hA.of_mem e he).1
  case pos =>
    intro i hi
    obtain ⟨j, hj⟩ := List.mem_iff_getElem?.mp hi
    rw [hget] at hj
    split_ifs at hj with hkj
    · rw [← Option.some.inj hj]
      exact Nat.succ_pos _
    · exact hA.pos j i (Ne.symm hkj) hj
  case queued =>
    intro j i w hj hw
    rw [hget] at hj
    refine mem_putNext.mpr ?_
    split_ifs at hj with hkj
    · subst hkj
      rw [← Option.some.inj hj] at hw ⊢
      exact Or.inr ⟨w, hw, rfl⟩
    · exact Or.inl (hA.queued j i w (Ne.symm hkj) hj hw)
  case of_mem =>
    intro e he
    rcases mem_putNext.mp he with he | ⟨w, hw, rfl⟩
    · obtain ⟨hne, i, hi, hrest⟩ := hA.of_mem e he
      refine ⟨i, ?_, hrest⟩
      rw [hget, if_neg (Ne.symm hne)]
      exact hi
    · refine ⟨{ inf with idx := inf.idx + 1 }, ?_, hw, rfl⟩
      rw [hget]
      exact if_pos rfl
  case passed =>
    intro i hi j w hjw hw
    obtain ⟨l, hl⟩ := List.mem_iff_getElem?.mp hi
    rw [hget] at hl
    split_ifs at hl with hkl
    · rw [← Option.some.inj hl] at hjw hw
      exact hA.passed_self j w (Nat.lt_of_succ_lt_succ hjw) hw
    · exact hA.passed l i (Ne.symm hkl) hl j w hjw hw

/-- The sum over a list after one entry is replaced. -/
theorem sum_map_set {α : Type} (f : α → ℕ) {l : List α} {k : ℕ} {x : α} (h : l[k]? = some x)
    (y : α) : ((l.set k y).map f).sum + f x = (l.map f).sum + f y := by
  induction l generalizing k with
  | nil => simp at h
  | cons z l ih =>
    cases k with
    | zero =>
      simp only [List.getElem?_cons_zero, Option.some.injEq] at h
      subst h
      simp only [List.set_cons_zero, List.map_cons, List.sum_cons]
      omega
    | succ k =>
      have := ih (k := k) (by simpa using h)
      simp only [List.set_cons_succ, List.map_cons, List.sum_cons]
      omega

theorem work_insertInPQ (h : LawfulComplete sys P groundSet) (hinf : c.info[k]? = some inf)
    (hlt : inf.node < sys.size) :
    sys.work groundSet (sys.system.insertInPQ groundSet k c) ≤ sys.work groundSet c := by
  rw [insertInPQ_eq h hinf hlt]
  unfold work putNext
  have hsum := sum_map_set (fun i => (sys.neighbours groundSet i.node).length - i.idx) hinf
    { inf with idx := inf.idx + 1 }
  simp only at hsum ⊢
  cases hw : (sys.neighbours groundSet inf.node)[inf.idx]? with
  | none =>
    simp only
    omega
  | some w =>
    have := (List.getElem?_eq_some_iff.mp hw).1
    simp only [PriorityQueue.length_emplace]
    omega

/-! ### `Tracks` -/

namespace Tracks

variable {e : CandIter} {pq : PriorityQueue CandIter} {a : Key ℕ}

/-- Nothing is added at the start. -/
theorem init (D : List ℕ) (S : Finset ℕ) : Tracks sys P groundSet {} [] D S where
  added := rfl
  info := rfl
  nodup := List.nodup_nil
  pos _ h := absurd h List.not_mem_nil
  queued _ _ _ h := by simp at h
  of_mem _ h := absurd h List.not_mem_nil
  passed _ h := absurd h List.not_mem_nil

/-- The queue holds neighbours of keys that have been added, one level above them. -/
theorem exists_owner (h : LawfulComplete sys P groundSet) (hT : Tracks sys P groundSet c A D S)
    (hlt : ∀ u ∈ nodes A, u < sys.size) (he : e ∈ c.pq.elems) :
    ∃ a ∈ A, sys.graph.Adj a.node (ofLex e).1.node ∧ (ofLex e).1.level = a.level + 1 ∧
      (ofLex e).1.node < sys.size ∧ (ofLex e).1.node ∈ sys.ground groundSet := by
  obtain ⟨inf, hinf, hnode, hlevel⟩ := hT.of_mem e he
  have hA : infoKey inf ∈ A := by
    rw [← hT.info]
    exact List.mem_map_of_mem (List.mem_of_getElem? hinf)
  have hsize : inf.node < sys.size := hlt _ (node_mem hA)
  obtain ⟨hw, hadj, hg⟩ := (h.mem_neighbours hsize).mp (List.mem_of_getElem? hnode)
  refine ⟨infoKey inf, hA, hadj, hlevel, hw, ?_⟩
  cases groundSet with
  | none => exact Finset.mem_range.mpr hw
  | some g => exact List.mem_toFinset.mpr (hg g rfl)

/-- What has been passed may be passed for another reason. -/
theorem imp {D' : List ℕ} (hT : Tracks sys P groundSet c A D S)
    (hpassed : ∀ w, sys.Passed P groundSet D S w → sys.Passed P groundSet D' T w) :
    Tracks sys P groundSet c A D' T where
  added := hT.added
  info := hT.info
  nodup := hT.nodup
  pos := hT.pos
  queued := hT.queued
  of_mem := hT.of_mem
  passed inf hinf i w hi hw := hpassed w (hT.passed inf hinf i w hi hw)

/-- A set to which more is added can be added less to. -/
theorem mono (h : LawfulComplete sys P groundSet) (hT : Tracks sys P groundSet c A D S)
    (hST : S ⊆ T) : Tracks sys P groundSet c A D T := by
  refine hT.imp fun w hw => hw.imp_right fun hnot hin => hnot ?_
  exact (h.hereditary.within _).mono (Finset.insert_subset_insert w hST) hin

/-- A node that need not be added has been passed. -/
theorem drop {w : ℕ} (hT : Tracks sys P groundSet c A (w :: D) S)
    (hw : sys.Passed P groundSet D S w) : Tracks sys P groundSet c A D S := by
  refine hT.imp fun v hv => ?_
  rcases hv with hmem | hnot
  · rcases List.mem_cons.mp hmem with rfl | hmem
    · exact hw
    · exact Or.inl hmem
  · exact Or.inr hnot

/-- The owner of the top of the queue, and the iterator before it is advanced. -/
theorem pop (hT : Tracks sys P groundSet c A D S) (hpop : c.pq.pop = some (e, pq)) :
    ∃ inf ∈ c.info, Advances sys P groundSet (ofLex e).2 inf { c with pq := pq } A
      ((ofLex e).1.node :: D) S := by
  have helems := PriorityQueue.elems_of_pop hpop
  have hnd := hT.nodup
  rw [helems] at hnd
  obtain ⟨hnot, hnd⟩ := List.nodup_cons.mp hnd
  obtain ⟨inf, hinf, hnode, hlevel⟩ := hT.of_mem e (by rw [helems]; exact List.mem_cons_self)
  have hkeep : ∀ {w}, sys.Passed P groundSet D S w →
      sys.Passed P groundSet ((ofLex e).1.node :: D) S w :=
    fun hw => hw.imp_left (List.mem_cons_of_mem _)
  -- an iterator has one element in the queue
  have huniq : ∀ e' ∈ pq.elems, (ofLex e').2 ≠ (ofLex e).2 := by
    intro e' he' heq
    obtain ⟨inf', hinf', hnode', hlevel'⟩ :=
      hT.of_mem e' (by rw [helems]; exact List.mem_cons_of_mem _ he')
    rw [heq, hinf] at hinf'
    obtain rfl := Option.some.inj hinf'
    have hkey : (ofLex e').1 = (ofLex e).1 :=
      Key.ext (hlevel'.trans hlevel.symm) (Option.some.inj (hnode'.symm.trans hnode))
    refine hnot ?_
    have : e' = e := Prod.ext hkey heq
    rwa [← this]
  have hmem : inf ∈ c.info := List.mem_of_getElem? hinf
  refine ⟨inf, hmem, hT.added, hT.info, hnd, hinf,
    fun j i _ hi => hT.pos i (List.mem_of_getElem? hi), fun j i w hj hi hw => ?_,
    fun e' he' => ⟨huniq e' he', hT.of_mem e' (by rw [helems]; exact List.mem_cons_of_mem _ he')⟩,
    fun j i _ hi l w hl hw => hkeep (hT.passed i (List.mem_of_getElem? hi) l w hl hw),
    fun i w hi hw => ?_⟩
  · have hq := hT.queued j i w hi hw
    rw [helems] at hq
    refine (List.mem_cons.mp hq).resolve_left ?_
    rintro rfl
    exact hj rfl
  · have hpos := hT.pos inf hmem
    rcases (show i + 1 < inf.idx ∨ i = inf.idx - 1 by omega) with hlt | rfl
    · exact hkeep (hT.passed inf hmem i w hlt hw)
    · rw [hnode] at hw
      rw [← Option.some.inj hw]
      exact Or.inl List.mem_cons_self

/-- The queue holds a key not after any that can be added. -/
theorem exists_le (h : LawfulComplete sys P groundSet) (hT : Tracks sys P groundSet c A (nodes A) S)
    (hlt : ∀ u ∈ nodes A, u < sys.size) {j : Key ℕ}
    (hj : IsCand sys.graph (sys.InGround P groundSet) S A j) :
    ∃ e ∈ c.pq.elems, (ofLex e).1 ≤ j := by
  obtain ⟨hreach, hnot, hins⟩ := hj
  obtain ⟨a, ha, hadj, hlevel⟩ := exists_adj_of_reach hreach
  have hinA := ha
  rw [← hT.info] at ha
  obtain ⟨inf, hinf, rfl⟩ := List.mem_map.mp ha
  obtain ⟨k, hk⟩ := List.mem_iff_getElem?.mp hinf
  have hmem : j.node ∈ sys.neighbours groundSet inf.node := by
    refine (h.mem_neighbours (hlt _ (node_mem hinA))).mpr ⟨?_, hadj, ?_⟩
    · exact Finset.mem_range.mp (hins.1.2 (Finset.mem_insert_self _ _))
    · rintro g rfl
      exact List.mem_toFinset.mp (hins.2 (Finset.mem_insert_self j.node S))
  obtain ⟨i, hi⟩ := List.mem_iff_getElem?.mp hmem
  have hpos := hT.pos inf hinf
  have hge : inf.idx - 1 ≤ i := by
    by_contra hlt
    rcases hT.passed inf hinf i j.node (by omega) hi with hA | hH
    · exact hnot hA
    · exact hH hins
  have hilt := (List.getElem?_eq_some_iff.mp hi).1
  have hw : (sys.neighbours groundSet inf.node)[inf.idx - 1]?
      = some ((sys.neighbours groundSet inf.node)[inf.idx - 1]) :=
    List.getElem?_eq_getElem (by omega)
  refine ⟨_, hT.queued k inf _ hk hw, Key.le_iff.mpr (Or.inr ⟨hlevel.symm, ?_⟩)⟩
  rw [← (List.getElem?_eq_some_iff.mp hi).2]
  rcases hge.eq_or_lt with heq | hlt
  · simp only [heq, le_refl, ofLex_toLex]
  · exact (List.pairwise_iff_getElem.mp (neighbours_pairwise groundSet inf.node)
      _ _ (by omega) hilt hlt).le

end Tracks

/-! ### `Next` and `Add` -/

/-- `CanReallyAdd` on a neighbour of a good set. -/
theorem canReallyAdd_iff (h : LawfulComplete sys P groundSet) {s : List ℕ}
    (hS : Good sys.graph (sys.InGround P groundSet) s.toFinset) (hadded : c.addedSoFar = nodes A)
    {a w : ℕ} (ha : a ∈ s) (hadj : sys.graph.Adj a w) (hw : w < sys.size)
    (hground : w ∈ sys.ground groundSet) :
    sys.system.canReallyAdd s c w = true ↔
      w ∉ nodes A ∧ sys.InGround P groundSet (insert w s.toFinset) := by
  unfold canReallyAdd
  rw [hadded]
  by_cases hA : w ∈ nodes A
  · simp [hA]
  rw [if_neg (by simpa using hA)]
  by_cases hs : w ∈ s
  · rw [if_pos (by simpa using hs), Finset.insert_eq_of_mem (List.mem_toFinset.mpr hs)]
    simp [hA, hS.2]
  rw [if_neg (by simpa using hs)]
  have hcan : sys.system.canAdd s w = sys.base.isGood (s ++ [w]) := h.canAdd_eq s w
  have hlt : ∀ u ∈ s ++ [w], u < sys.size := by
    intro u hu
    rcases List.mem_append.mp hu with hu | hu
    · exact Finset.mem_range.mp (hS.2.1.2 (List.mem_toFinset.mpr hu))
    · rwa [List.mem_singleton.mp hu]
  have hset : (s ++ [w]).toFinset = insert w s.toFinset := by
    ext u
    simp
  rw [hcan, h.isGood_eq hlt, hset]
  constructor
  · intro hgood
    exact ⟨hA, hgood.2, Finset.insert_subset hground hS.2.2⟩
  · rintro ⟨-, hins⟩
    refine ⟨?_, hins.1⟩
    rw [Finset.coe_insert]
    exact connected_insert hS.1 (List.mem_toFinset.mpr ha) hadj

/-- What the loops of `Complete` keep about the set `s` and the keys `A` added so far. -/
structure Completing (sys : CHSystem) (P : Finset ℕ → Prop) (groundSet : Option (List ℕ)) (m : ℕ)
    (s : List ℕ) (A : List (Key ℕ)) : Prop where
  good : Good sys.graph (sys.InGround P groundSet) s.toFinset
  layout : Layout sys.graph m A
  ahead : Ahead sys.graph (sys.InGround P groundSet) s.toFinset A
  subset : ∀ u ∈ nodes A, u ∈ s

theorem Completing.lt {m : ℕ} {s : List ℕ} (hC : Completing sys P groundSet m s A) {u : ℕ}
    (hu : u ∈ s) : u < sys.size :=
  Finset.mem_range.mp (hC.good.2.1.2 (List.mem_toFinset.mpr hu))

/-- The top of the queue is the next key, if it can be added at all. -/
theorem Tracks.isNext (h : LawfulComplete sys P groundSet) {m : ℕ} {s : List ℕ}
    (hC : Completing sys P groundSet m s A) {e : CandIter} {pq : PriorityQueue CandIter}
    (hT : Tracks sys P groundSet c A (nodes A) s.toFinset) (hpop : c.pq.pop = some (e, pq))
    (hadd : (ofLex e).1.node ∉ nodes A ∧
      sys.InGround P groundSet (insert (ofLex e).1.node s.toFinset)) :
    IsNext sys.graph (sys.InGround P groundSet) s.toFinset A (ofLex e).1 := by
  have hAlt : ∀ u ∈ nodes A, u < sys.size := fun u hu => hC.lt (hC.subset u hu)
  have hle : ∀ j, IsCand sys.graph (sys.InGround P groundSet) s.toFinset A j →
      (ofLex e).1 ≤ j := by
    intro j hj
    obtain ⟨e', he', hle'⟩ := hT.exists_le h hAlt hj
    exact (Prod.Lex.monotone_fst _ _ (PriorityQueue.le_of_pop hpop e' he')).trans hle'
  refine ⟨⟨?_, hadd⟩, hle⟩
  have he : e ∈ c.pq.elems := by
    rw [PriorityQueue.elems_of_pop hpop]
    exact List.mem_cons_self
  obtain ⟨a, ha, hadj, hlevel, -⟩ := hT.exists_owner h hAlt he
  -- its level is not larger than the one an earlier neighbour would give it
  obtain ⟨l, hl⟩ := exists_reach ha hadj
  have hreach := reach_le hC.layout.pairwise_lt ha hadj hl
  have htop := Key.level_le (hle ⟨l, (ofLex e).1.node⟩ ⟨hl, hadd⟩)
  simp only at hreach htop
  rw [hl, show l = (ofLex e).1.level by omega]

/-- **`Next` finds the smallest key that can be added**, or that there is none. -/
theorem next_spec (h : LawfulComplete sys P groundSet) {m : ℕ} {s : List ℕ}
    (hC : Completing sys P groundSet m s A) (fuel : ℕ) {c : Candidates}
    (hT : Tracks sys P groundSet c A (nodes A) s.toFinset)
    (hfuel : sys.work groundSet c < fuel) :
    (∃ c', sys.system.next groundSet s fuel c = some (none, c') ∧
        ∀ k, ¬ IsCand sys.graph (sys.InGround P groundSet) s.toFinset A k) ∨
      ∃ k c', sys.system.next groundSet s fuel c = some (some k, c') ∧
        IsNext sys.graph (sys.InGround P groundSet) s.toFinset A k ∧
          Tracks sys P groundSet c' A (k.node :: nodes A) s.toFinset ∧
            sys.work groundSet c' ≤ sys.work groundSet c := by
  induction fuel generalizing c with
  | zero => omega
  | succ fuel ih =>
    have hAlt : ∀ u ∈ nodes A, u < sys.size := fun u hu => hC.lt (hC.subset u hu)
    rw [next]
    cases hpop : c.pq.pop with
    | none =>
      -- the queue holds a key for everything that can be added
      refine Or.inl ⟨c, rfl, fun k hk => ?_⟩
      obtain ⟨e, he, -⟩ := hT.exists_le h hAlt hk
      rw [PriorityQueue.elems_of_pop_eq_none hpop] at he
      exact List.not_mem_nil he
    | some r =>
      obtain ⟨e, pq⟩ := r
      have he : e ∈ c.pq.elems := by
        rw [PriorityQueue.elems_of_pop hpop]
        exact List.mem_cons_self
      obtain ⟨a, ha, hadj, -, hw, hground⟩ := hT.exists_owner h hAlt he
      obtain ⟨inf, hinf, hadv⟩ := hT.pop hpop
      have hsize : inf.node < sys.size := by
        refine hAlt _ ?_
        rw [← hT.info]
        exact node_mem (List.mem_map_of_mem hinf)
      have hT' := hadv.insertInPQ h hsize
      have hwork : sys.work groundSet (sys.system.insertInPQ groundSet (ofLex e).2
          { c with pq := pq }) ≤ sys.work groundSet { c with pq := pq } :=
        work_insertInPQ h hadv.info_eq hsize
      have hcan := canReallyAdd_iff h hC.good hT'.added (hC.subset _ (node_mem ha)) hadj hw hground
      have hless : sys.work groundSet { c with pq := pq } < sys.work groundSet c := by
        unfold work
        rw [PriorityQueue.elems_of_pop hpop, List.length_cons]
        simp only
        omega
      simp only
      set c₁ := sys.system.insertInPQ groundSet (ofLex e).2 { c with pq := pq }
      by_cases hadd : sys.system.canReallyAdd s c₁ (ofLex e).1.node = true
      · rw [if_pos hadd]
        exact Or.inr ⟨(ofLex e).1, c₁, rfl, hT.isNext h hC hpop (hcan.mp hadd), hT', by omega⟩
      · have hpassed : sys.Passed P groundSet (nodes A) s.toFinset (ofLex e).1.node := by
          by_contra hnot
          unfold Passed at hnot
          push Not at hnot
          exact hadd (hcan.mpr hnot)
        rw [if_neg hadd]
        rcases ih (hT'.drop hpassed) (by omega) with hnone | ⟨k, c', hrun, hnext, htracks, hle⟩
        · exact Or.inl hnone
        · exact Or.inr ⟨k, c', hrun, hnext, htracks, by omega⟩

/-- `Add` of the key that `Next` has found. -/
theorem Tracks.add (h : LawfulComplete sys P groundSet) {k : Key ℕ}
    (hT : Tracks sys P groundSet c A (k.node :: nodes A) S) (hk : k.node < sys.size)
    (hST : S ⊆ T) :
    Tracks sys P groundSet (sys.system.add groundSet k c) (A ++ [k]) (nodes (A ++ [k])) T ∧
      sys.work groundSet (sys.system.add groundSet k c) ≤ sys.work groundSet c + sys.size := by
  have hT := hT.mono h hST
  set c' : Candidates :=
    { c with
      addedSoFar := c.addedSoFar ++ [k.node]
      info := c.info ++ [⟨0, k.node, k.level⟩] } with hc'
  have hget : c'.info[c.info.length]? = some ⟨0, k.node, k.level⟩ := by simp [hc']
  have hold : ∀ {j i}, j ≠ c.info.length → c'.info[j]? = some i → c.info[j]? = some i := by
    intro j i hj hi
    have hlt := (List.getElem?_eq_some_iff.mp hi).1
    simp only [hc', List.length_append, List.length_singleton] at hlt
    simp only [hc'] at hi
    rwa [List.getElem?_append_left (by omega)] at hi
  have hmem : ∀ {u}, u ∈ k.node :: nodes A → u ∈ nodes (A ++ [k]) := fun hu => by
    simpa [or_comm] using hu
  -- a new iterator is one that is yet to be advanced for the first time
  have hadv : Advances sys P groundSet c.info.length ⟨0, k.node, k.level⟩ c' (A ++ [k])
      (nodes (A ++ [k])) T := by
    refine ⟨by simp [hc', hT.added], by simp [hc', hT.info, infoKey], hT.nodup, hget,
      fun j i hj hi => hT.pos i (List.mem_of_getElem? (hold hj hi)),
      fun j i w hj hi hw => hT.queued j i w (hold hj hi) hw, fun e he => ?_,
      fun j i hj hi l w hl hw =>
        (hT.passed i (List.mem_of_getElem? (hold hj hi)) l w hl hw).imp_left hmem,
      fun i w hi _ => absurd hi (Nat.not_lt_zero i)⟩
    obtain ⟨i, hi, hrest⟩ := hT.of_mem e he
    have hlt := (List.getElem?_eq_some_iff.mp hi).1
    refine ⟨hlt.ne, i, ?_, hrest⟩
    rw [hc', List.getElem?_append_left hlt]
    exact hi
  refine ⟨hadv.insertInPQ h hk, (work_insertInPQ h hget hk).trans ?_⟩
  have hlen : (sys.neighbours groundSet k.node).length ≤ sys.size :=
    length_neighbours_le groundSet k.node
  simp only [work, hc', List.map_append, List.map_cons, List.map_nil, List.sum_append,
    List.sum_cons, List.sum_nil]
  omega

end ParallelEnum.CHSystem
