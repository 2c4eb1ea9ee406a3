import ParallelEnum.Util.Equiv.FastGraph
import ParallelEnum.Util.FastGraph.Serialize

/-!
# Reading a graph back

`restores_iff`: `Deserialize` into a default-constructed `fast_graph_t` gives the graph back only if
it is empty.  A default-constructed `dynarray` owns no memory and gets none when its `count` is read
(`deserialize_null`), and a graph with a vertex has at least its `dynarray` of hash sets to read.
-/

namespace ParallelEnum

open Cuckoo Outcome

variable {T : KeyType}

/-! ### What the constructor allocates -/

theorem arrayOf_size (xs : List ℕ) :
    Ensures (fun s => s.support.size < 2 ^ 32) (fun _ => True) (arrayOf xs) := by
  unfold arrayOf
  rw [BinarySearch.init_eq]
  split_ifs with hlt
  · exact hlt
  · trivial

/-- There is an array for each vertex, and their sizes are `unsigned`s. -/
theorem PlainGraph.make_size (N : ℕ) (edg : Vec (List ℕ)) :
    Ensures (fun g => g.N = N ∧ g.edges.size = N ∧ ∀ i, (g.edges.get i).support.size < 2 ^ 32)
      (fun _ => True) (PlainGraph.make N edg) := by
  unfold PlainGraph.make
  refine (ensures_foldlM_range (fun _ (edges : Vec (BinarySearch ℕ)) => edges.size = N ∧
    ∀ i, (edges.get i).support.size < 2 ^ 32) ⟨Vec.size_zeros N, fun i => ?_⟩ ?_).map
      fun edges h => ⟨rfl, h⟩
  · rw [Vec.get_zeros]
    exact Nat.two_pow_pos 32
  · rintro m hm edges ⟨hsize, hedges⟩
    refine (arrayOf_size (edg.get m)).map fun s hs => ⟨(Vec.size_set _ _ _).trans hsize, ?_⟩
    intro i
    rw [Vec.get_set]
    split_ifs
    · exact hs
    · exact hedges i

/-- There is a hash set and an offset for each vertex as well. -/
theorem FastGraph.make_size (N : ℕ) (edg : Vec (List ℕ)) :
    Ensures
      (fun g : FastGraph T => g.N = N ∧ g.edges.size = N ∧
        (∀ i, (g.edges.get i).support.size < 2 ^ 32) ∧ g.hashSets.size = N ∧ g.fwdIter.size = N)
      (fun _ => True) (make T N edg) := by
  unfold make
  refine (PlainGraph.make_size N edg).bind ?_
  rintro base ⟨hN, hedges, hsizes⟩
  refine (ensures_foldlM_range (fun _ (G : FastGraph T) => G.toPlainGraph = base ∧
    G.hashSets.size = N ∧ G.fwdIter.size = N)
    ⟨rfl, Vec.size_zeros _, Vec.size_zeros _⟩ ?_).mono ?_ fun e he => he
  · rintro m hm G ⟨hbase, hsets, hiter⟩
    have hany : Ensures (fun _ => True) (fun _ => True) (hashSetOf T (edg.get m)) := by
      cases hashSetOf T (edg.get m) <;> trivial
    exact hany.map fun s _ =>
      ⟨hbase, (Vec.size_set _ _ _).trans hsets, (Vec.size_set _ _ _).trans hiter⟩
  · rintro G ⟨hbase, hsets, hiter⟩
    rw [hbase]
    exact ⟨hN, hedges, hsizes, hsets, hiter⟩

/-! ### `dynarray` -/

section DynArray

variable {α : Type} [Inhabited α]

/-- The first element is written through a null pointer. -/
theorem deserialize_null (element : Deserialize α) (n : Word) (words : List Word) :
    DynArray.null.deserialize element (n :: words)
      = if n = 0 then .ok (.null, words) else .error .outsideStore := by
  show (deserializeElements element n.toNat #[] words).map _ = _
  split_ifs with hn
  · subst hn
    rfl
  · have hpos : n.toNat ≠ 0 := fun h => hn (BitVec.eq_of_toNat_eq h)
    obtain ⟨m, hm⟩ := Nat.exists_eq_succ_of_ne_zero hpos
    unfold deserializeElements
    rw [hm, List.range_succ_eq_map, List.foldlM_cons]
    rfl

theorem ofNat_eq_zero {n : ℕ} (hn : n < 2 ^ 64) : BitVec.ofNat 64 n = 0 ↔ n = 0 := by
  constructor
  · intro h
    have := congrArg BitVec.toNat h
    rwa [BitVec.toNat_ofNat, Nat.mod_eq_of_lt hn] at this
  · rintro rfl
    rfl

/-- Only an array without elements is read back. -/
theorem deserialize_serialize_null (element : Deserialize α) (serialize : α → List Word)
    {a : DynArray α} (ha : a.count < 2 ^ 64) (words : List Word) :
    DynArray.null.deserialize element (a.serialize serialize ++ words)
      = if a.count = 0 then .ok (.null, words) else .error .outsideStore := by
  unfold DynArray.serialize
  rw [List.cons_append, deserialize_null]
  simp only [ofNat_eq_zero ha]
  split_ifs with hcount
  · rw [hcount]
    rfl
  · rfl

/-- A vector of arrays is read back only if they are all empty; then the cursor is behind it. -/
theorem deserializeVector_spec (element : Deserialize α) (serialize : α → List Word)
    {l : List (DynArray α)} (hl : l.length < 2 ^ 64) (hcount : ∀ a ∈ l, a.count < 2 ^ 64)
    (words : List Word) :
    Ensures (fun r => r.2 = words) (fun _ => True)
      (deserializeVector (DynArray.deserialize element) #[]
        (serializeWord l.length ++ l.flatMap (DynArray.serialize serialize) ++ words)) := by
  have hlen : (BitVec.ofNat 64 l.length).toNat = l.length := by
    rw [BitVec.toNat_ofNat, Nat.mod_eq_of_lt hl]
  show Ensures _ _ (deserializeElements _ (BitVec.ofNat 64 l.length).toNat
    (Vec.resize #[] (BitVec.ofNat 64 l.length).toNat) _)
  rw [hlen, Vec.resize_empty]
  unfold deserializeElements
  refine (ensures_foldlM_range (fun i (r : Vec (DynArray α) × List Word) =>
    r.1 = Vec.zeros l.length ∧
      r.2 = (l.drop i).flatMap (DynArray.serialize serialize) ++ words)
    ⟨rfl, rfl⟩ ?_).mono ?_ fun e he => he
  · rintro i hi ⟨v, w⟩ ⟨rfl, rfl⟩
    dsimp only
    have hdefault : (Vec.zeros l.length).get i = (DynArray.null : DynArray α) :=
      Vec.get_zeros _ _
    rw [if_pos (by rwa [Vec.size_zeros]), List.drop_eq_getElem_cons hi, List.flatMap_cons,
      List.append_assoc, hdefault,
      deserialize_serialize_null element serialize (hcount _ (List.getElem_mem hi))]
    split_ifs
    · refine ⟨?_, rfl⟩
      show (Vec.zeros l.length).set i DynArray.null = _
      rw [← hdefault, Vec.set_get_self]
    · trivial
  · rintro ⟨v, w⟩ ⟨-, hw⟩
    rw [List.drop_length] at hw
    exact hw

end DynArray

/-! ### Graphs -/

namespace FastGraph

/-- A graph in memory answers what the graph `g` does. -/
structure SameGraph (h : StoredGraph T) (g : FastGraph T) : Prop where
  size_eq : h.N = g.N
  neighs_eq : ∀ i < g.N, h.neighs i = (g.neighs i).toList
  fwdNeighs_eq : ∀ i < g.N, h.fwdNeighs i = g.fwdNeighs i
  areNeighs_eq : ∀ a < g.N, ∀ b < g.N, h.areNeighs a b = g.areNeighs a b

/-- What has been serialized is read into a default-constructed graph without a write to memory that
is not owned, and gives the same graph.  The member `N_` of the default-constructed graph is
`n`. -/
def Restores (g : FastGraph T) (labels : Option (StdVector Word)) (n : ℕ) : Prop :=
  ∃ h, StoredGraph.deserialize (.null n labels.isSome) (StoredGraph.ofGraph g labels).serialize
    = .ok (h, []) ∧ SameGraph h g

/-- Only labels without elements are read back. -/
theorem deserializeLabels_spec (labels : Option (StdVector Word)) (words : List Word) :
    Ensures (fun r => r.2 = words ∧ ∀ l, labels = some l → l.toList = []) (fun _ => True)
      (StoredGraph.deserializeLabels (if labels.isSome then some .null else none)
        (StoredGraph.serializeLabels (labels.map fun l => .ofVec l.toList.toArray) ++ words)) := by
  cases labels with
  | none => exact ⟨rfl, nofun⟩
  | some l =>
    have hcount : (DynArray.ofVec l.toList.toArray).count < 2 ^ 64 := l.length_lt
    show Ensures _ _ ((DynArray.null.deserialize (fun _ => deserializeWord)
      ((DynArray.ofVec l.toList.toArray).serialize (fun label => [label]) ++ words)).map _)
    rw [deserialize_serialize_null _ _ hcount]
    split_ifs with hempty
    · refine ⟨rfl, fun l' hl' => ?_⟩
      obtain rfl := Option.some.inj hl'
      exact List.eq_nil_of_length_eq_zero hempty
    · trivial

variable {g : FastGraph T} {labels : Option (StdVector Word)} {n : ℕ}

/-- If all arrays can be read, there is no label and no hash set. -/
theorem deserialize_spec (hsize : g.edges.size < 2 ^ 64)
    (hsizes : ∀ i, (g.edges.get i).support.size < 2 ^ 32) (hsets : g.hashSets.size < 2 ^ 64) :
    Ensures (fun _ : StoredGraph T × List Word => g.hashSets.size = 0 ∧
        ∀ l, labels = some l → l.toList = []) (fun _ => True)
      (StoredGraph.deserialize (.null n labels.isSome)
        (StoredGraph.ofGraph g labels).serialize) := by
  unfold StoredGraph.deserialize StoredGraph.serialize
  rw [List.append_assoc, List.append_assoc, List.append_assoc]
  show Ensures _ _ ((deserializeVector _ #[] (serializeWord _ ++ _ ++ _)).bind _)
  -- the arrays of neighbours
  have hlength : (StoredGraph.ofGraph g labels).edges.toList.length < 2 ^ 64 := by
    show (g.edges.map _).size < 2 ^ 64
    rwa [Array.size_map]
  have hcount : ∀ a ∈ (StoredGraph.ofGraph g labels).edges.toList, a.count < 2 ^ 64 := by
    intro a ha
    obtain ⟨s, hs, rfl⟩ := List.mem_map.mp (Array.toList_map ▸ ha)
    obtain ⟨i, hi, rfl⟩ := List.getElem_of_mem hs
    have := hsizes i
    rw [Vec.get_eq_getElem hi] at this
    exact this.trans (by decide)
  refine (deserializeVector_spec (deserializeVertex T) serializeWord
    (l := (StoredGraph.ofGraph g labels).edges.toList) hlength hcount _).bind ?_
  rintro ⟨edges, words⟩ rfl
  refine (deserializeLabels_spec labels _).bind ?_
  rintro ⟨labels', words⟩ ⟨rfl, hlabels⟩
  -- the hash sets
  have hnull := deserialize_serialize_null CuckooHashSet.deserialize CuckooHashSet.serialize
    (a := DynArray.ofVec g.hashSets) hsets
    ((StoredGraph.ofGraph g labels).fwdIter.serialize serializeWord)
  show Ensures _ _ ((DynArray.null.deserialize _
    ((DynArray.ofVec g.hashSets).serialize _ ++ _)).bind _)
  rw [hnull]
  split_ifs with hzero
  · have hany : ∀ r : Except DeserializeFailure (DynArray ℕ × List Word),
        Ensures (fun _ => True) (fun _ => True) r := by
      rintro (_ | _) <;> trivial
    exact (hany _).map fun _ _ => ⟨hzero, hlabels⟩
  · trivial

/-- **Graphs that are read back.** A graph that has been constructed is restored from what it is
serialized as only if it has no vertex and no label. -/
theorem restores_iff (N : Key T) (edg : Vec (List ℕ)) (labels : Option (StdVector Word))
    (g : FastGraph T) (hg : make T N.toNat edg = .ok g) (n : ℕ) :
    Restores g labels n ↔ g.N = 0 ∧ ∀ l, labels = some l → l.toList = [] := by
  obtain ⟨hN, hedges, hsizes, hsets, hiter⟩ := (make_size N.toNat edg).of_ok hg
  have hwidth : T.width ≤ 64 := by cases T <;> decide
  have hlt : N.toNat < 2 ^ 64 := N.isLt.trans_le (Nat.pow_le_pow_right Nat.two_pos hwidth)
  constructor
  · rintro ⟨h, hrun, -⟩
    obtain ⟨hzero, hlabels⟩ :=
      (deserialize_spec (hedges ▸ hlt) hsizes (hsets ▸ hlt)).of_ok hrun
    exact ⟨hN.trans (hsets.symm.trans hzero), hlabels⟩
  · rintro ⟨hzero, hlabels⟩
    obtain ⟨⟨N', edges⟩, hashSets, fwdIter⟩ := g
    have hnil : N.toNat = 0 := hN.symm.trans hzero
    obtain rfl : N' = 0 := hzero
    obtain rfl := Array.eq_empty_of_size_eq_zero (hedges.trans hnil)
    obtain rfl := Array.eq_empty_of_size_eq_zero (hsets.trans hnil)
    obtain rfl := Array.eq_empty_of_size_eq_zero (hiter.trans hnil)
    have hsame : ∀ h : StoredGraph T, h.N = 0 → SameGraph h ⟨⟨0, #[]⟩, #[], #[]⟩ :=
      fun h hN => ⟨hN, nofun, nofun, nofun⟩
    unfold Restores StoredGraph.ofGraph
    rw [Array.map_empty]
    have hword : ((0 : Word).setWidth T.width).toNat = 0 := by cases T <;> rfl
    cases labels with
    | none =>
      refine ⟨_, rfl, hsame _ ?_⟩
      exact hword
    | some l =>
      obtain ⟨l, hl⟩ := l
      obtain rfl : l = [] := hlabels _ rfl
      refine ⟨_, rfl, hsame _ ?_⟩
      exact hword

/-- The empty graph. -/
theorem restores_empty : Restores (T := .uint32) ⟨⟨0, #[]⟩, #[], #[]⟩ none 7 :=
  (restores_iff 0 #[] none ⟨⟨0, #[]⟩, #[], #[]⟩ rfl 7).mpr ⟨rfl, nofun⟩

/-- A graph with two vertices and the edge between them. -/
theorem not_restores : ¬∀ (N : Key .uint32) (edg : Vec (List ℕ)) (labels : Option (StdVector Word))
    (g : FastGraph .uint32), make .uint32 N.toNat edg = .ok g → ∀ n, Restores g labels n := by
  intro h
  have hlt : (Graph.ofRel 2 fun _ _ => true).N ≤ 2 ^ 31 := show 2 ≤ 2 ^ 31 by decide
  obtain ⟨g, hg, -⟩ := (exists_make_iff (T := .uint32) (hlt.trans_lt (by decide))).mpr
    (uncrowded_of_le hlt)
  obtain ⟨hN, hedges, hsizes, hsets, -⟩ := (make_size _ _).of_ok hg
  have htwo : g.hashSets.size = 2 := hsets
  obtain ⟨h', hrun, -⟩ := h 2 _ none g hg 0
  obtain ⟨hzero, -⟩ := (deserialize_spec (hedges ▸ hlt.trans_lt (by decide)) hsizes
    (htwo.trans_lt (by decide))).of_ok hrun
  rw [htwo] at hzero
  cases hzero

end FastGraph

end ParallelEnum
