import Mathlib.Data.List.GetD
import ParallelEnum.Enumerable.Equiv.ConnectedHereditary.Lawful

/-!
# `Resort` is breadth-first search

`Searching` relates what `Resort` has taken from its queue, the queue and the visited indices.  From
it follow:

* `exists_resort`: `Resort` terminates, and if no element is there twice, returns a layout.
* `resort_spec`: on a connected set `Resort` returns the same set, from the seed on, and if no
  element is there twice, in the breadth-first order from the seed.
* `perm_of_resort`: what is there twice stays there twice.
* `resort_nodes`: it leaves a layout as it is.
-/

namespace ParallelEnum.CHSystem

open BreadthFirst ConnectedHereditary

variable {sys : CHSystem} {P : Finset ℕ → Prop} {groundSet : Option (List ℕ)}

/-! ### One round over the indices -/

/-- The indices that are met first when `p` is taken from the queue. -/
def isNew (sys : CHSystem) (s : List ℕ) (p : Key ℕ) (visited : Vec Bool) (i : ℕ) : Bool :=
  !visited.get i && sys.isNeigh p.node (s.getD i 0)

/-- The key an index is put in the queue with. -/
def keyOf (s : List ℕ) (p : Key ℕ) (i : ℕ) : Key ℕ := ⟨p.level + 1, s.getD i 0⟩

/-- What the loop over the indices does to the queue and to `visited`. -/
theorem foldl_visit (sys : CHSystem) (s : List ℕ) (p : Key ℕ) {is : List ℕ} (his : is.Nodup)
    (q : PriorityQueue (Key ℕ)) (visited : Vec Bool) (hlt : ∀ i ∈ is, i < visited.size) :
    ((is.foldl (sys.visit s p) (q, visited)).1.elems.Perm
        (q.elems ++ (is.filter (sys.isNew s p visited)).map (keyOf s p))) ∧
      (is.foldl (sys.visit s p) (q, visited)).2.size = visited.size ∧
      ∀ j, (is.foldl (sys.visit s p) (q, visited)).2.get j
        = (visited.get j || decide (j ∈ is) && sys.isNeigh p.node (s.getD j 0)) := by
  induction is generalizing q visited with
  | nil => simp
  | cons i is ih =>
    obtain ⟨hi, his⟩ := List.nodup_cons.mp his
    rw [List.foldl_cons]
    have hi' := hlt i List.mem_cons_self
    have hlt' : ∀ j ∈ is, j < visited.size := fun j hj => hlt j (List.mem_cons_of_mem _ hj)
    by_cases hnew : sys.isNew s p visited i = true
    · have hstep : sys.visit s p (q, visited) i
          = (q.emplace (keyOf s p i), visited.set i true) := if_pos hnew
      rw [hstep, List.filter_cons_of_pos hnew]
      obtain ⟨hperm, hsize, hget⟩ := ih his (q.emplace (keyOf s p i))
        (visited.set i true) (by simpa using hlt')
      -- no index occurs twice, so that `i` is marked does not matter to the others
      have hrest : is.filter (sys.isNew s p (visited.set i true))
          = is.filter (sys.isNew s p visited) := by
        refine List.filter_congr fun j hj => ?_
        unfold isNew
        rw [Vec.get_set_of_ne]
        rintro rfl
        exact hi hj
      refine ⟨?_, by rw [hsize, Vec.size_set], fun j => ?_⟩
      · rw [hrest] at hperm
        refine hperm.trans ?_
        refine ((q.perm_emplace _).append_right _).trans ?_
        rw [List.map_cons]
        exact List.perm_middle.symm
      · rw [hget, Vec.get_set]
        by_cases hij : i = j
        · subst hij
          have hadj : sys.isNeigh p.node (s.getD i 0) = true := (Bool.and_eq_true_iff.mp hnew).2
          rw [if_pos ⟨rfl, hi'⟩, hadj]
          simp
        · rw [if_neg fun h => hij h.1]
          simp [Ne.symm hij]
    · have hstep : sys.visit s p (q, visited) i = (q, visited) := if_neg hnew
      rw [hstep, List.filter_cons_of_neg hnew]
      obtain ⟨hperm, hsize, hget⟩ := ih his q visited hlt'
      refine ⟨hperm, hsize, fun j => ?_⟩
      rw [hget]
      by_cases hij : j = i
      · subst hij
        rw [Bool.not_eq_true, isNew, Bool.and_eq_false_iff, Bool.not_eq_false'] at hnew
        rcases hnew with hv | hadj
        · simp [hv]
        · simp only [hadj, Bool.and_false]
      · simp [hij]

/-- A filter by one of two tests. -/
theorem filter_or_perm {α : Type} (f g : α → Bool) (l : List α) :
    (l.filter fun x => f x || g x).Perm (l.filter f ++ l.filter fun x => !f x && g x) := by
  induction l with
  | nil => exact List.Perm.refl _
  | cons x l ih =>
    cases hf : f x with
    | true => simpa [hf] using ih
    | false =>
      cases hg : g x with
      | true => simpa [hf, hg] using (ih.cons x).trans List.perm_middle.symm
      | false => simpa [hf, hg] using ih

/-! ### The search -/

/-- The indices that are visited. -/
def visitedIndices (s : List ℕ) (visited : Vec Bool) : List ℕ :=
  (List.range s.length).filter (visited.get ·)

/-- The search with `out` taken from the queue and `q` in it. -/
structure Searching (sys : CHSystem) (s : List ℕ) (seed : ℕ) (out q : List (Key ℕ))
    (visited : Vec Bool) : Prop where
  size : visited.size = s.length
  perm : (nodes (out ++ q)).Perm ((visitedIndices s visited).map (s.getD · 0))
  closed : ∀ k ∈ out, ∀ i < s.length, sys.isNeigh k.node (s.getD i 0) = true →
    visited.get i = true
  first : (out = [] ∧ q = [⟨0, seed⟩]) ∨ ∃ R, out = ⟨0, seed⟩ :: R

namespace Searching

variable {s : List ℕ} {seed : ℕ} {out q : List (Key ℕ)} {visited : Vec Bool} {p : Key ℕ}

theorem mem (hS : Searching sys s seed out q visited) {u : ℕ} :
    u ∈ nodes (out ++ q) ↔ ∃ i < s.length, visited.get i = true ∧ s.getD i 0 = u := by
  rw [hS.perm.mem_iff, List.mem_map]
  refine exists_congr fun i => ?_
  rw [visitedIndices, List.mem_filter, List.mem_range, and_assoc]

theorem subset (hS : Searching sys s seed out q visited) {u : ℕ} (hu : u ∈ nodes (out ++ q)) :
    u ∈ s := by
  obtain ⟨i, hi, -, rfl⟩ := hS.mem.mp hu
  rw [List.getD_eq_getElem _ _ hi]
  exact List.getElem_mem hi

theorem length_le (hS : Searching sys s seed out q visited) : out.length + q.length ≤ s.length := by
  have hlen := hS.perm.length_eq
  rw [length_nodes, List.length_append, List.length_map] at hlen
  rw [hlen, visitedIndices]
  exact (List.length_filter_le _ _).trans (by rw [List.length_range])

theorem nodup (hS : Searching sys s seed out q visited) (hs : s.Nodup) :
    (nodes (out ++ q)).Nodup := by
  rw [hS.perm.nodup_iff]
  refine List.Nodup.map_on ?_ (List.nodup_range.filter _)
  intro i hi j hj hij
  have hi := List.mem_range.mp (List.mem_filter.mp hi).1
  have hj := List.mem_range.mp (List.mem_filter.mp hj).1
  rw [List.getD_eq_getElem _ _ hi, List.getD_eq_getElem _ _ hj] at hij
  exact (List.Nodup.getElem_inj_iff hs).mp hij

/-- The state in which the loop is entered. -/
theorem init (hseed : seed ∈ s) :
    Searching sys s seed [] [⟨0, seed⟩] ((Vec.zeros s.length).set (s.idxOf seed) true) where
  size := by simp [Vec.zeros]
  perm := by
    have hi := List.idxOf_lt_length_iff.mpr hseed
    have hvisited : visitedIndices s ((Vec.zeros s.length).set (s.idxOf seed) true)
        = [s.idxOf seed] := by
      have h1 : visitedIndices s ((Vec.zeros s.length).set (s.idxOf seed) true)
          = (List.range s.length).filter (· == s.idxOf seed) := by
        refine List.filter_congr fun j _ => ?_
        rw [Vec.get_set]
        by_cases hj : s.idxOf seed = j
        · rw [if_pos ⟨hj, by simpa [Vec.zeros] using hi⟩, hj]
          simp
        · rw [if_neg fun h => hj h.1]
          simp [Vec.get, Vec.zeros, Array.getD_eq_getD_getElem?, Array.getElem?_replicate,
            Ne.symm hj, apply_ite (Option.getD · false)]
      rw [h1, List.filter_beq, List.count_eq_one_of_mem List.nodup_range (List.mem_range.mpr hi)]
      rfl
    rw [hvisited]
    show [seed].Perm [s.getD (s.idxOf seed) 0]
    rw [List.getD_eq_getElem _ _ hi, List.getElem_idxOf hi]
  closed k hk := absurd hk List.not_mem_nil
  first := Or.inl ⟨rfl, rfl⟩

/-- One iteration of the `while` loop. -/
theorem step {q q' : PriorityQueue (Key ℕ)} (hS : Searching sys s seed out q.elems visited)
    (hpop : q.pop = some (p, q')) :
    Searching sys s seed (out ++ [p])
      ((List.range s.length).foldl (sys.visit s p) (q', visited)).1.elems
      ((List.range s.length).foldl (sys.visit s p) (q', visited)).2 := by
  obtain ⟨hperm, hsize, hget⟩ := foldl_visit sys s p List.nodup_range q'
    visited fun i hi => by rw [hS.size]; exact List.mem_range.mp hi
  have hq := PriorityQueue.elems_of_pop hpop
  refine ⟨hsize.trans hS.size, ?_, fun k hk i hi hadj => ?_, ?_⟩
  · have hvisited : (visitedIndices s
        ((List.range s.length).foldl (sys.visit s p) (q', visited)).2).Perm
          (visitedIndices s visited ++ (List.range s.length).filter (sys.isNew s p visited)) := by
      unfold visitedIndices
      refine List.Perm.trans (List.Perm.of_eq ?_) (filter_or_perm _ _ _)
      refine List.filter_congr fun i hi => ?_
      rw [hget, decide_eq_true hi, Bool.true_and]
    refine List.Perm.trans ?_ (hvisited.map _).symm
    have hold := hS.perm
    rw [hq] at hold
    rw [nodes_append, List.map_append]
    refine ((hperm.map Key.node).append_left _).trans ?_
    rw [List.map_append, List.map_map, ← List.append_assoc]
    refine List.Perm.append_right _ ?_
    rw [nodes_append, nodes_cons] at hold
    rwa [nodes_append, List.append_assoc]
  · rw [hget]
    rcases List.mem_append.mp hk with hk | hk
    · rw [hS.closed k hk i hi hadj, Bool.true_or]
    · obtain rfl := List.mem_singleton.mp hk
      rw [hadj, decide_eq_true (List.mem_range.mpr hi)]
      simp
  · right
    rcases hS.first with ⟨rfl, hfirst⟩ | ⟨R, rfl⟩
    · rw [hq] at hfirst
      obtain ⟨rfl, -⟩ := List.cons_eq_cons.mp hfirst
      exact ⟨[], rfl⟩
    · exact ⟨R ++ [p], rfl⟩

/-- A key that enters the queue for the first time. -/
theorem mem_step {q q' : PriorityQueue (Key ℕ)} (hS : Searching sys s seed out q.elems visited)
    {k : Key ℕ} (hk : k ∈ ((List.range s.length).foldl (sys.visit s p) (q', visited)).1.elems) :
    k ∈ q'.elems ∨ ∃ i < s.length, visited.get i = false ∧
      sys.isNeigh p.node (s.getD i 0) = true ∧ k = ⟨p.level + 1, s.getD i 0⟩ := by
  obtain ⟨hperm, -, -⟩ := foldl_visit sys s p List.nodup_range q'
    visited fun i hi => by rw [hS.size]; exact List.mem_range.mp hi
  rcases List.mem_append.mp (hperm.mem_iff.mp hk) with hk | hk
  · exact Or.inl hk
  · obtain ⟨i, hi, rfl⟩ := List.mem_map.mp hk
    obtain ⟨hi, hnew⟩ := List.mem_filter.mp hi
    obtain ⟨hv, hadj⟩ := Bool.and_eq_true_iff.mp hnew
    exact Or.inr ⟨i, List.mem_range.mp hi, by simpa using hv, hadj, rfl⟩

end Searching

namespace Searching

variable {s : List ℕ} {seed : ℕ} {L : List (Key ℕ)} {visited : Vec Bool} {k : Key ℕ}

theorem subset_of_done (hS : Searching sys s seed L [] visited) {u : ℕ} (hu : u ∈ nodes L) :
    u ∈ s := hS.subset (by rwa [List.append_nil])

/-- When the queue is empty, an element next to one that has been taken from it is visited, so it
has been taken as well. -/
theorem mem_of_isNeigh (hS : Searching sys s seed L [] visited) (hk : k ∈ L) {u : ℕ} (hu : u ∈ s)
    (hadj : sys.isNeigh k.node u = true) : u ∈ nodes L := by
  obtain ⟨i, hi, rfl⟩ := List.getElem_of_mem hu
  have hvisited := hS.closed k hk i hi (by rwa [List.getD_eq_getElem _ _ hi])
  have hmem := hS.mem.mpr ⟨i, hi, hvisited, List.getD_eq_getElem _ _ hi⟩
  rwa [List.append_nil] at hmem

end Searching

/-! ### The order of a search -/

/-- What is taken from the queue is a layout, and what is in the queue is met next. -/
def Ordered (G : SimpleGraph ℕ) [DecidableRel G.Adj] (seed : ℕ) (out q : List (Key ℕ)) : Prop :=
  out ≠ [] → Layout G seed out ∧
    ∀ k ∈ q, reach G out k.node = some k.level ∧ ∀ a ∈ out, a < k

section Graph

variable {G : SimpleGraph ℕ} [DecidableRel G.Adj] {s : List ℕ} {seed : ℕ}
  (hG : ∀ u ∈ s, ∀ v ∈ s, G.Adj u v ↔ sys.isNeigh u v = true)
include hG

/-- One iteration of the `while` loop keeps the order, if no element is there twice. -/
theorem Ordered.step {out : List (Key ℕ)} {visited : Vec Bool} {p : Key ℕ}
    {q q' : PriorityQueue (Key ℕ)} (hnd : s.Nodup)
    (hS : Searching sys s seed out q.elems visited) (hO : Ordered G seed out q.elems)
    (hpop : q.pop = some (p, q')) :
    Ordered G seed (out ++ [p])
      ((List.range s.length).foldl (sys.visit s p) (q', visited)).1.elems := by
  intro _
  have hq := PriorityQueue.elems_of_pop hpop
  have hnodup := hS.nodup hnd
  rw [hq, nodes_append, nodes_cons] at hnodup
  have hpq : p.node ∉ nodes q'.elems :=
    (List.nodup_cons.mp (List.nodup_append.mp hnodup).2.1).1
  have hpout : p.node ∉ nodes out := fun hmem =>
    (List.nodup_append.mp hnodup).2.2 p.node hmem p.node List.mem_cons_self rfl
  -- `IsNeigh` is adjacency on the elements of `s` only
  have hmem : ∀ {k}, k ∈ out ++ p :: q'.elems → k.node ∈ s := fun hk =>
    hS.subset (by rw [hq]; exact node_mem hk)
  have hlayout : Layout G seed (out ++ [p]) := by
    rcases hS.first with ⟨rfl, hfirst⟩ | ⟨R, hR⟩
    · rw [hq] at hfirst
      obtain ⟨rfl, -⟩ := List.cons_eq_cons.mp hfirst
      exact .root
    · obtain ⟨hL, hreach⟩ := hO (by simp [hR])
      obtain ⟨hlevel, hlast⟩ := hreach p (by rw [hq]; exact List.mem_cons_self)
      exact hL.snoc hlevel hpout hlast
  refine ⟨hlayout, fun k hk => ?_⟩
  rcases hS.mem_step hk with hk | ⟨i, hi, hv, hadj, rfl⟩
  · -- `k` was in the queue behind `p`
    have hkq : k ∈ q.elems := by
      rw [hq]
      exact List.mem_cons_of_mem _ hk
    have hpk : p < k := by
      refine lt_of_le_of_ne (PriorityQueue.le_of_pop hpop k hkq) ?_
      rintro rfl
      exact hpq (node_mem hk)
    have hne : out ≠ [] := by
      rintro rfl
      rcases hS.first with ⟨-, hfirst⟩ | ⟨R, hR⟩
      · rw [hq] at hfirst
        rw [(List.cons_eq_cons.mp hfirst).2] at hk
        exact List.not_mem_nil hk
      · cases hR
    obtain ⟨hreach, hlast⟩ := (hO hne).2 k hkq
    refine ⟨reach_append_of_eq_some hreach _, fun a ha => ?_⟩
    rcases List.mem_append.mp ha with ha | ha
    · exact hlast a ha
    · rwa [List.mem_singleton.mp ha]
  · -- `k` is met from `p`
    have hsi : s.getD i 0 ∈ s := by
      rw [List.getD_eq_getElem _ _ hi]
      exact List.getElem_mem hi
    -- a neighbour of an earlier key would have been marked when that key was taken
    have hnone : reach G out (s.getD i 0) = none := by
      cases hr : reach G out (s.getD i 0) with
      | none => rfl
      | some l =>
        obtain ⟨a, ha, haadj, -⟩ := exists_adj_of_reach hr
        have := hS.closed a ha i hi
          ((hG _ (hmem (List.mem_append_left _ ha)) _ hsi).mp haadj)
        rw [hv] at this
        cases this
    have hpadj : G.Adj p.node (s.getD i 0) := (hG _ (hmem (by simp)) _ hsi).mpr hadj
    refine ⟨?_, fun a ha => ?_⟩
    · rw [reach_append_of_eq_none hnone]
      simp only [reach, hpadj, decide_true, List.find?_cons_of_pos, Option.map_some]
    · have hap : a ≤ p := by
        rcases List.mem_append.mp ha with ha | ha
        · have hsorted := List.pairwise_append.mp hlayout.pairwise_lt
          exact (hsorted.2.2 a ha p List.mem_cons_self).le
        · rw [List.mem_singleton.mp ha]
      have := Key.level_le hap
      exact Key.lt_iff.mpr (Or.inl (by simp only; omega))

/-- The `while` loop empties the queue. -/
theorem resortLoop_spec (fuel : ℕ) {out : List (Key ℕ)} {q : PriorityQueue (Key ℕ)}
    {visited : Vec Bool} (hS : Searching sys s seed out q.elems visited)
    (hO : s.Nodup → Ordered G seed out q.elems) (hfuel : s.length < fuel + out.length) :
    ∃ L visited', sys.resortLoop s fuel (q, visited) (nodes out) (levels out)
        = some (nodes L, levels L) ∧
      Searching sys s seed L [] visited' ∧ (s.Nodup → Ordered G seed L []) := by
  induction fuel generalizing out q visited with
  | zero =>
    have := hS.length_le
    omega
  | succ fuel ih =>
    rw [resortLoop]
    cases hpop : q.pop with
    | none =>
      have hq := PriorityQueue.elems_of_pop_eq_none hpop
      rw [hq] at hS hO
      exact ⟨out, visited, rfl, hS, hO⟩
    | some r =>
      obtain ⟨p, q'⟩ := r
      have hstep := ih (hS.step hpop) (fun hnd => (hO hnd).step hG hnd hS hpop) (by
        rw [List.length_append, List.length_singleton]
        omega)
      rw [nodes_append, levels_append] at hstep
      exact hstep

/-- **`Resort` terminates**, and returns a layout if no element is there twice. -/
theorem exists_resort (hseed : seed ∈ s) (level : List ℕ) :
    ∃ L visited, sys.resort s level seed = some (nodes L, levels L) ∧
      Searching sys s seed L [] visited ∧ (∃ R, L = ⟨0, seed⟩ :: R) ∧
      (s.Nodup → Layout G seed L) := by
  obtain ⟨L, visited, hrun, hS, hO⟩ := resortLoop_spec hG (s.length + 1)
    (q := PriorityQueue.empty.emplace ⟨0, seed⟩) (Searching.init hseed)
    (fun _ hne => absurd rfl hne) (by simp)
  have hfirst : ∃ R, L = ⟨0, seed⟩ :: R := by
    rcases hS.first with ⟨-, hnil⟩ | hR
    · cases hnil
    · exact hR
  refine ⟨L, visited, ?_, hS, hfirst, fun hnd => (hO hnd ?_).1⟩
  · unfold resort
    rw [if_pos (List.idxOf_lt_length_iff.mpr hseed)]
    exact hrun
  · obtain ⟨R, rfl⟩ := hfirst
    exact List.cons_ne_nil _ _

omit [DecidableRel G.Adj] in
/-- On a connected set the search finds everything. -/
theorem Searching.nodeSet_eq {L : List (Key ℕ)} {visited : Vec Bool}
    (hS : Searching sys s seed L [] visited) (hfirst : ∃ R, L = ⟨0, seed⟩ :: R)
    (hconn : (G.induce (s.toFinset : Set ℕ)).Connected) : nodeSet L = s.toFinset := by
  -- an element next to one of `L` is in `L`
  refine Finset.Subset.antisymm
    (fun u hu => List.mem_toFinset.mpr (hS.subset_of_done (mem_nodeSet.mp hu))) ?_
  by_contra hne
  obtain ⟨a, ha, b, hb, hbL, hadj⟩ := exists_adj_of_connected (A := (nodeSet L : Set ℕ)) hconn
    (fun u hu => by simpa using hS.subset_of_done (by simpa using hu))
    ⟨seed, by obtain ⟨R, rfl⟩ := hfirst; simp⟩ (by exact_mod_cast hne)
  obtain ⟨k, hk, rfl⟩ := mem_nodes.mp (mem_nodeSet.mp (Finset.mem_coe.mp ha))
  have hbs := List.mem_toFinset.mp (Finset.mem_coe.mp hb)
  have hmem := hS.mem_of_isNeigh hk hbs ((hG _ (hS.subset_of_done (node_mem hk)) _ hbs).mp hadj)
  exact hbL (by simpa using hmem)

/-- A set is connected if `Resort` keeps all of it. -/
theorem connected_iff_resort (hseed : seed ∈ s) (hs : s.Nodup) (level : List ℕ) :
    (G.induce (s.toFinset : Set ℕ)).Connected ↔
      ∃ r, sys.resort s level seed = some r ∧ ∀ u ∈ s, u ∈ r.1 := by
  obtain ⟨L, visited, hrun, hS, hfirst, hlayout⟩ := exists_resort hG hseed level
  constructor
  · intro hconn
    refine ⟨_, hrun, fun u hu => ?_⟩
    rw [← mem_nodeSet, hS.nodeSet_eq hG hfirst hconn]
    exact List.mem_toFinset.mpr hu
  · rintro ⟨r, hr, hall⟩
    obtain rfl := Option.some.inj (hrun.symm.trans hr)
    have hset : nodeSet L = s.toFinset := by
      ext u
      rw [mem_nodeSet, List.mem_toFinset]
      exact ⟨fun hu => hS.subset_of_done hu, hall u⟩
    rw [← hset]
    exact (hlayout hs).connected

end Graph

/-- **`Resort` returns a connected set from the seed on**, in breadth-first order if no element is
there twice. -/
theorem resort_spec (h : LawfulComplete sys P groundSet) {s : List ℕ} {seed : ℕ}
    (hs : ∀ u ∈ s, u < sys.size) (hseed : seed ∈ s)
    (hconn : (sys.graph.induce (s.toFinset : Set ℕ)).Connected) (level : List ℕ) :
    ∃ L, sys.resort s level seed = some (nodes L, levels L) ∧ nodeSet L = s.toFinset ∧
      (∃ R, L = ⟨0, seed⟩ :: R) ∧ (s.Nodup → Layout sys.graph seed L) := by
  have hG : ∀ u ∈ s, ∀ v ∈ s, sys.graph.Adj u v ↔ sys.isNeigh u v = true :=
    fun u hu v hv => h.adj_iff (hs u hu) (hs v hv)
  obtain ⟨L, visited, hrun, hS, hfirst, hlayout⟩ := exists_resort hG hseed level
  exact ⟨L, hrun, hS.nodeSet_eq hG hfirst hconn, hfirst, hlayout⟩

/-- **`Resort` keeps every occurrence of an element**, unless there is one element only. -/
theorem perm_of_resort (h : LawfulComplete sys P groundSet) {s : List ℕ} {seed : ℕ}
    (hs : ∀ u ∈ s, u < sys.size) (hseed : seed ∈ s)
    (hconn : (sys.graph.induce (s.toFinset : Set ℕ)).Connected) (htwo : s.toFinset.Nontrivial)
    {level : List ℕ} {r : CommutableNode} (hr : sys.resort s level seed = some r) :
    r.1.Perm s := by
  have hG : ∀ u ∈ s, ∀ v ∈ s, sys.graph.Adj u v ↔ sys.isNeigh u v = true :=
    fun u hu v hv => h.adj_iff (hs u hu) (hs v hv)
  obtain ⟨L, visited, hrun, hS, hfirst, -⟩ := exists_resort hG hseed level
  obtain rfl := Option.some.inj (hr.symm.trans hrun)
  have hL : ∀ u ∈ s, u ∈ nodes L := by
    intro u hu
    rw [← mem_nodeSet, hS.nodeSet_eq hG hfirst hconn]
    exact List.mem_toFinset.mpr hu
  -- every index is visited from an element next to the one it has
  have hvisited : ∀ i < s.length, visited.get i = true := by
    intro i hi
    have hmem := List.getElem_mem hi
    obtain ⟨v, hv, hne⟩ := htwo.exists_ne s[i]
    obtain ⟨a, ha, b, hb, -, hadj⟩ := exists_adj_of_connected (A := {s[i]}) hconn
      (by simp) ⟨s[i], rfl⟩ (fun hsub => hne (hsub (Finset.mem_coe.mpr hv)))
    rw [Set.mem_singleton_iff.mp ha] at hadj
    have hbs : b ∈ s := List.mem_toFinset.mp (Finset.mem_coe.mp hb)
    obtain ⟨k, hk, rfl⟩ := mem_nodes.mp (hL b hbs)
    refine hS.closed k hk i hi ?_
    rw [List.getD_eq_getElem _ _ hi]
    exact (hG _ hbs _ hmem).mp hadj.symm
  have hall : visitedIndices s visited = List.range s.length :=
    List.filter_eq_self.mpr fun i hi => hvisited i (List.mem_range.mp hi)
  have hmap : (List.range s.length).map (s.getD · 0) = s := by
    refine List.ext_getElem (by simp) fun i hi _ => ?_
    simp only [List.getElem_map, List.getElem_range]
    exact List.getD_eq_getElem _ _ (by simpa using hi)
  have hperm := hS.perm
  rwa [List.append_nil, hall, hmap] at hperm

/-- **`Resort` leaves a layout as it is.** -/
theorem resort_nodes (h : LawfulComplete sys P groundSet) {L : List (Key ℕ)} {m : ℕ}
    (hL : Layout sys.graph m L) (hlt : ∀ u ∈ nodes L, u < sys.size) (level : List ℕ) :
    sys.resort (nodes L) level m = some (nodes L, levels L) := by
  obtain ⟨M, hrun, hset, -, hlayout⟩ := resort_spec h hlt hL.root_mem hL.connected level
  have hLM : M = L := by
    refine (hlayout hL.nodup_nodes).eq_of_nodes hL fun u => ?_
    rw [← mem_nodeSet, hset, List.mem_toFinset]
  rw [hrun, hLM]

/-- The keys of a node. -/
def keys (x : CommutableNode) : List (Key ℕ) := List.zipWith Key.mk x.2 x.1

@[simp] theorem keys_nodes (L : List (Key ℕ)) : keys (nodes L, levels L) = L := by
  unfold keys
  induction L with
  | nil => rfl
  | cons k L ih => exact congrArg (k :: ·) ih

end ParallelEnum.CHSystem
