import Mathlib.Combinatorics.SimpleGraph.Connectivity.Subgraph
import Mathlib.Combinatorics.SimpleGraph.Metric
import Mathlib.Data.Finset.Dedup
import Mathlib.Data.List.Lex
import Mathlib.Data.Prod.Lex

/-!
# The breadth-first order of a connected set

The nodes of a connected set, searched from one of them, are met level by level, and those of one
level from the smallest on.  A `Key` is a node with its level.

* `reach G L u`: the level of a node `u` that is met after the nodes of `L`.
* `Layout G m L`: `L` is the breadth-first order of its nodes from `m`.
* `Layout.eq_of_nodes`: a set has one breadth-first order from a given node.
* `Layout.le_of_reach`: what comes next in the order is the smallest key that can be reached.
* `Layout.level_eq_dist`: the levels are the distances from the first node.
-/

namespace BreadthFirst

/-! ### Keys -/

/-- A node with its level. -/
@[ext]
structure Key (α : Type*) where
  level : ℕ
  node : α
deriving DecidableEq

variable {α : Type*}

/-- The nodes of a list of keys. -/
def nodes (L : List (Key α)) : List α := L.map Key.node

/-- The levels of a list of keys. -/
def levels (L : List (Key α)) : List ℕ := L.map Key.level

@[simp] theorem nodes_nil : nodes ([] : List (Key α)) = [] := rfl

@[simp] theorem nodes_cons (k : Key α) (L : List (Key α)) : nodes (k :: L) = k.node :: nodes L :=
  rfl

@[simp] theorem nodes_append (L M : List (Key α)) : nodes (L ++ M) = nodes L ++ nodes M :=
  List.map_append

@[simp] theorem levels_append (L M : List (Key α)) : levels (L ++ M) = levels L ++ levels M :=
  List.map_append

@[simp] theorem length_nodes (L : List (Key α)) : (nodes L).length = L.length := List.length_map _

theorem mem_nodes {L : List (Key α)} {u : α} : u ∈ nodes L ↔ ∃ k ∈ L, k.node = u := List.mem_map

theorem node_mem {L : List (Key α)} {k : Key α} (h : k ∈ L) : k.node ∈ nodes L :=
  List.mem_map_of_mem h

/-- A list of keys is given by its nodes and levels. -/
theorem eq_of_nodes_levels {L M : List (Key α)} (hn : nodes L = nodes M)
    (hl : levels L = levels M) : L = M := by
  have h : ∀ K : List (Key α), K = List.zipWith Key.mk (levels K) (nodes K) := by
    intro K
    induction K with
    | nil => rfl
    | cons k K ih => exact congrArg (k :: ·) ih
  rw [h L, h M, hn, hl]

/-- Two lists agree up to the end of the first or up to a first difference. -/
theorem prefix_or_split {β : Type*} (L M : List β) :
    L <+: M ∨ ∃ Q a R, L = Q ++ a :: R ∧
      (M = Q ∨ ∃ b R', M = Q ++ b :: R' ∧ a ≠ b) := by
  induction L generalizing M with
  | nil => exact Or.inl M.nil_prefix
  | cons x L ih =>
    cases M with
    | nil => exact Or.inr ⟨[], x, L, rfl, Or.inl rfl⟩
    | cons y M =>
      by_cases hxy : x = y
      · subst hxy
        rcases ih M with h | ⟨Q, a, R, rfl, h⟩
        · exact Or.inl (List.prefix_cons_inj x |>.mpr h)
        · refine Or.inr ⟨x :: Q, a, R, rfl, ?_⟩
          rcases h with rfl | ⟨b, R', rfl, hne⟩
          · exact Or.inl rfl
          · exact Or.inr ⟨b, R', rfl, hne⟩
      · exact Or.inr ⟨[], x, L, rfl, Or.inr ⟨y, M, rfl, hxy⟩⟩

/-! ### Levels -/

variable (G : SimpleGraph α) [DecidableRel G.Adj]

/-- The level of a node met after those of `L`: one more than that of the first node of `L` which
is next to it. -/
def reach (L : List (Key α)) (u : α) : Option ℕ :=
  (L.find? fun k => G.Adj k.node u).map fun k => k.level + 1

variable {G}

theorem reach_append_of_eq_some {L : List (Key α)} {u : α} {l : ℕ} (h : reach G L u = some l)
    (M : List (Key α)) : reach G (L ++ M) u = some l := by
  unfold reach at h ⊢
  rw [List.find?_append]
  cases hf : L.find? fun k => G.Adj k.node u with
  | none => rw [hf] at h; cases h
  | some k => rw [hf] at h; exact h

theorem reach_append_of_eq_none {L : List (Key α)} {u : α} (h : reach G L u = none)
    (M : List (Key α)) : reach G (L ++ M) u = reach G M u := by
  unfold reach at h ⊢
  rw [List.find?_append, Option.map_eq_none_iff.mp h, Option.none_or]

theorem exists_adj_of_reach {L : List (Key α)} {u : α} {l : ℕ} (h : reach G L u = some l) :
    ∃ k ∈ L, G.Adj k.node u ∧ l = k.level + 1 := by
  unfold reach at h
  obtain ⟨k, hk, rfl⟩ := Option.map_eq_some_iff.mp h
  exact ⟨k, List.mem_of_find?_eq_some hk, by simpa using List.find?_some hk, rfl⟩

theorem exists_reach {L : List (Key α)} {k : Key α} (hk : k ∈ L) {u : α} (h : G.Adj k.node u) :
    ∃ l, reach G L u = some l := by
  unfold reach
  cases hf : L.find? fun k => G.Adj k.node u with
  | none =>
    rw [List.find?_eq_none] at hf
    exact absurd h (by simpa using hf k hk)
  | some j => exact ⟨j.level + 1, rfl⟩

/-! ### The order of keys -/

variable [LinearOrder α]

/-- Keys are compared by level first. -/
instance : LinearOrder (Key α) :=
  LinearOrder.lift' (fun k => toLex (k.level, k.node)) fun a b h => by
    have h : (a.level, a.node) = (b.level, b.node) := toLex.injective h
    exact Key.ext (congrArg Prod.fst h) (congrArg Prod.snd h)

theorem Key.lt_iff {a b : Key α} :
    a < b ↔ a.level < b.level ∨ a.level = b.level ∧ a.node < b.node :=
  Prod.Lex.toLex_lt_toLex

theorem Key.le_iff {a b : Key α} :
    a ≤ b ↔ a.level < b.level ∨ a.level = b.level ∧ a.node ≤ b.node :=
  Prod.Lex.toLex_le_toLex

theorem Key.level_le {a b : Key α} (h : a ≤ b) : a.level ≤ b.level := by
  rcases Key.le_iff.mp h with h | ⟨h, -⟩ <;> omega

/-- The set of the nodes of a list of keys. -/
def nodeSet (L : List (Key α)) : Finset α := (nodes L).toFinset

@[simp] theorem mem_nodeSet {L : List (Key α)} {u : α} : u ∈ nodeSet L ↔ u ∈ nodes L :=
  List.mem_toFinset

@[simp] theorem nodeSet_snoc (L : List (Key α)) (k : Key α) :
    nodeSet (L ++ [k]) = insert k.node (nodeSet L) := by
  ext u
  simp [or_comm]

/-- In a sorted list the level is at most one more than that of any node next to it. -/
theorem reach_le {L : List (Key α)} (hL : L.Pairwise (· < ·)) {k : Key α} (hk : k ∈ L) {u : α}
    (hadj : G.Adj k.node u) {l : ℕ} (h : reach G L u = some l) : l ≤ k.level + 1 := by
  induction L with
  | nil => cases hk
  | cons x L ih =>
    obtain ⟨hx, hL⟩ := List.pairwise_cons.mp hL
    unfold reach at h
    rw [List.find?_cons] at h
    by_cases hxu : G.Adj x.node u
    · simp only [hxu, decide_true, Option.map_some, Option.some.injEq] at h
      rcases List.mem_cons.mp hk with rfl | hk
      · omega
      · have := Key.level_le (hx k hk).le
        omega
    · simp only [hxu, decide_false] at h
      rcases List.mem_cons.mp hk with rfl | hk
      · exact absurd hadj hxu
      · exact ih hL hk h

/-! ### Layouts -/

variable (G)

/-- `L` is the breadth-first order of its nodes from `m`. -/
inductive Layout (m : α) : List (Key α) → Prop
  | root : Layout m [⟨0, m⟩]
  | snoc {L : List (Key α)} {k : Key α} : Layout m L → reach G L k.node = some k.level →
      k.node ∉ nodes L → (∀ a ∈ L, a < k) → Layout m (L ++ [k])

variable {G}

namespace Layout

variable {m : α} {L M Q R : List (Key α)} {a k : Key α}

theorem exists_cons (h : Layout G m L) : ∃ R, L = ⟨0, m⟩ :: R := by
  induction h with
  | root => exact ⟨[], rfl⟩
  | snoc _ _ _ _ ih =>
    obtain ⟨R, rfl⟩ := ih
    exact ⟨R ++ [_], rfl⟩

theorem ne_nil (h : Layout G m L) : L ≠ [] := by
  obtain ⟨R, rfl⟩ := h.exists_cons
  exact List.cons_ne_nil _ _

theorem root_mem (h : Layout G m L) : m ∈ nodes L := by
  obtain ⟨R, rfl⟩ := h.exists_cons
  exact List.mem_cons_self

theorem pairwise_lt (h : Layout G m L) : L.Pairwise (· < ·) := by
  induction h with
  | root => exact List.pairwise_singleton _ _
  | snoc _ _ _ hlt ih =>
    refine List.pairwise_append.mpr ⟨ih, List.pairwise_singleton _ _, ?_⟩
    intro a ha b hb
    rw [List.mem_singleton.mp hb]
    exact hlt a ha

theorem nodup_nodes (h : Layout G m L) : (nodes L).Nodup := by
  induction h with
  | root => exact List.nodup_singleton m
  | snoc _ _ hnot _ ih =>
    rw [nodes_append]
    refine List.nodup_append.mpr ⟨ih, List.nodup_singleton _, ?_⟩
    rintro u hu v hv rfl
    exact hnot (List.mem_singleton.mp hv ▸ hu)

/-- A level is less than the number of nodes. -/
theorem level_lt (h : Layout G m L) : ∀ k ∈ L, k.level < L.length := by
  induction h with
  | root => simp
  | @snoc L k _ hreach _ _ ih =>
    intro j hj
    rw [List.length_append, List.length_singleton]
    rcases List.mem_append.mp hj with hj | hj
    · have := ih j hj
      omega
    · obtain ⟨i, hi, -, hlevel⟩ := exists_adj_of_reach hreach
      have := ih i hi
      rw [List.mem_singleton.mp hj]
      omega

/-- Every non-empty initial part is a layout. -/
theorem of_append (h : Layout G m (Q ++ R)) (hQ : Q ≠ []) : Layout G m Q := by
  generalize hL : Q ++ R = L at h
  induction h generalizing R with
  | root =>
    cases Q with
    | nil => exact absurd rfl hQ
    | cons x Q =>
      obtain ⟨rfl, hQR⟩ := List.cons_eq_cons.mp hL
      obtain ⟨rfl, -⟩ := List.append_eq_nil_iff.mp hQR
      exact root
  | @snoc L k hL' hreach hnot hlt ih =>
    rcases R.eq_nil_or_concat with rfl | ⟨R, j, rfl⟩
    · rw [List.append_nil] at hL
      subst hL
      exact hL'.snoc hreach hnot hlt
    · rw [List.concat_eq_append, ← List.append_assoc] at hL
      exact ih (List.append_inj_left' hL rfl)

/-- A key of a layout after its first is what its node is met with. -/
theorem reach_eq (h : Layout G m (Q ++ k :: R)) (hQ : Q ≠ []) :
    reach G Q k.node = some k.level ∧ k.node ∉ nodes Q := by
  have h' : Layout G m (Q ++ [k]) := by
    refine of_append (R := R) ?_ (by simp)
    rwa [List.append_assoc]
  generalize hL : Q ++ [k] = L at h'
  cases h' with
  | root =>
    have := congrArg List.length hL
    cases Q with
    | nil => exact absurd rfl hQ
    | cons x Q => simp at this
  | snoc _ hreach hnot _ =>
    obtain ⟨rfl, hk⟩ := List.append_inj' hL rfl
    obtain rfl := List.singleton_inj.mp hk
    exact ⟨hreach, hnot⟩

/-- A node that comes later and can be reached already has its level. -/
theorem level_eq (h : Layout G m (Q ++ R)) (hQ : Q ≠ []) (hk : k ∈ R) {l : ℕ}
    (hreach : reach G Q k.node = some l) : k.level = l := by
  obtain ⟨R₁, R₂, rfl⟩ := List.append_of_mem hk
  rw [← List.append_assoc] at h
  have h1 := (h.reach_eq (by simp [hQ])).1
  rw [reach_append_of_eq_some hreach] at h1
  exact (Option.some.inj h1).symm

/-- What comes next is at most any key that can be reached and comes later. -/
theorem le_of_reach (h : Layout G m (Q ++ a :: R)) (hQ : Q ≠ []) {u : α}
    (hu : u ∈ nodes (a :: R)) {l : ℕ} (hreach : reach G Q u = some l) : a ≤ ⟨l, u⟩ := by
  obtain ⟨k, hk, rfl⟩ := mem_nodes.mp hu
  obtain rfl := h.level_eq hQ hk hreach
  have hsorted := (List.pairwise_append.mp h.pairwise_lt).2.1
  rcases List.mem_cons.mp hk with rfl | hk
  · exact le_refl _
  · exact ((List.pairwise_cons.mp hsorted).1 k hk).le

/-- A first difference of two layouts from one node comes after that node. -/
theorem split_ne_nil {b : Key α} {R' : List (Key α)} (hL : Layout G m (Q ++ a :: R))
    (hM : Layout G m (Q ++ b :: R')) (hne : a ≠ b) : Q ≠ [] := by
  rintro rfl
  obtain ⟨S, hS⟩ := hL.exists_cons
  obtain ⟨S', hS'⟩ := hM.exists_cons
  exact hne ((List.cons_eq_cons.mp hS).1.trans (List.cons_eq_cons.mp hS').1.symm)

/-- **A set has one layout from a given node.** -/
theorem eq_of_nodes (hL : Layout G m L) (hM : Layout G m M)
    (hset : ∀ u, u ∈ nodes L ↔ u ∈ nodes M) : L = M := by
  have hlen : (nodes L).length = (nodes M).length :=
    ((List.perm_ext_iff_of_nodup hL.nodup_nodes hM.nodup_nodes).mpr hset).length_eq
  rw [length_nodes, length_nodes] at hlen
  rcases prefix_or_split L M with hpre | ⟨Q, a, R, rfl, rfl | ⟨b, R', rfl, hne⟩⟩
  · exact hpre.eq_of_length hlen
  · simp at hlen
  · have hQ := split_ne_nil hL hM hne
    have hb : b.node ∈ nodes (a :: R) := by
      have hbL := (hset b.node).mpr (node_mem (by simp))
      rw [nodes_append] at hbL
      exact (List.mem_append.mp hbL).resolve_left (hM.reach_eq hQ).2
    have ha : a.node ∈ nodes (b :: R') := by
      have haM := (hset a.node).mp (node_mem (by simp))
      rw [nodes_append] at haM
      exact (List.mem_append.mp haM).resolve_left (hL.reach_eq hQ).2
    have hab := hL.le_of_reach hQ hb (hM.reach_eq hQ).1
    have hba := hM.le_of_reach hQ ha (hL.reach_eq hQ).1
    exact absurd (le_antisymm hab hba) hne

end Layout

/-! ### Connected sets -/

omit [LinearOrder α] [DecidableRel G.Adj] in
/-- A part of a connected set that is not all of it has a neighbour in the rest. -/
theorem exists_adj_of_connected {S : Set α} (hS : (G.induce S).Connected) {A : Set α}
    (hAS : A ⊆ S) (hA : A.Nonempty) (hne : ¬ S ⊆ A) : ∃ a ∈ A, ∃ b ∈ S, b ∉ A ∧ G.Adj a b := by
  obtain ⟨a, ha⟩ := hA
  obtain ⟨b, hb, hbA⟩ := Set.not_subset.mp hne
  obtain ⟨p⟩ := hS.preconnected ⟨a, hAS ha⟩ ⟨b, hb⟩
  obtain ⟨d, -, hfst, hsnd⟩ := p.exists_boundary_dart (Set.preimage Subtype.val A) ha hbA
  exact ⟨d.fst.1, hfst, d.snd.1, d.snd.2, hsnd, d.adj⟩

omit [LinearOrder α] [DecidableRel G.Adj] in
/-- A neighbour of a connected set can be added to it. -/
theorem connected_insert {S : Set α} (hS : (G.induce S).Connected) {a u : α} (ha : a ∈ S)
    (hadj : G.Adj a u) : (G.induce (insert u S)).Connected := by
  have hu : (G.induce {u}).Preconnected := SimpleGraph.Preconnected.of_subsingleton
  have h := SimpleGraph.connected_induce_union hS.preconnected hu ha (Set.mem_singleton u) hadj
  rwa [Set.union_singleton] at h

theorem Layout.connected {m : α} {L : List (Key α)} (h : Layout G m L) :
    (G.induce (nodeSet L : Set α)).Connected := by
  induction h with
  | root =>
    have : (nodeSet [⟨0, m⟩] : Finset α) = {m} := rfl
    rw [this, Finset.coe_singleton]
    have : (G.induce {m}) = ⊤ := Subsingleton.elim _ _
    rw [this]
    exact SimpleGraph.connected_top
  | snoc _ hreach _ _ ih =>
    obtain ⟨j, hj, hadj, -⟩ := exists_adj_of_reach hreach
    rw [nodeSet_snoc, Finset.coe_insert]
    exact connected_insert ih (mem_nodeSet.mpr (node_mem hj)) hadj

/-! ### Distances -/

namespace Layout

variable {m : α} {L : List (Key α)} {S : Set α} {j k : Key α}

theorem eq_of_node_eq (h : Layout G m L) (hj : j ∈ L) (hk : k ∈ L) (hjk : j.node = k.node) :
    j = k :=
  List.inj_on_of_nodup_map h.nodup_nodes hj hk hjk

/-- Every node can be reached from the first in as many steps as its level. -/
theorem exists_walk (h : Layout G m L) (hsub : ∀ u ∈ nodes L, u ∈ S) (hm : m ∈ S) (hk : k ∈ L)
    (hkS : k.node ∈ S) :
    ∃ p : (G.induce S).Walk ⟨m, hm⟩ ⟨k.node, hkS⟩, p.length = k.level := by
  induction h generalizing k with
  | root =>
    obtain rfl := List.mem_singleton.mp hk
    exact ⟨.nil, rfl⟩
  | @snoc L j _ hreach _ _ ih =>
    have hL : ∀ u ∈ nodes L, u ∈ S := fun u hu => hsub u (by
      rw [nodes_append]
      exact List.mem_append_left _ hu)
    rcases List.mem_append.mp hk with hk | hk
    · exact ih hL hk hkS
    · obtain rfl := List.mem_singleton.mp hk
      obtain ⟨i, hi, hadj, hlevel⟩ := exists_adj_of_reach hreach
      have hiS := hL i.node (node_mem hi)
      obtain ⟨p, hp⟩ := ih hL hi hiS
      have hstep : (G.induce S).Adj ⟨i.node, hiS⟩ ⟨k.node, hkS⟩ := hadj
      refine ⟨p.concat hstep, ?_⟩
      rw [SimpleGraph.Walk.length_concat, hp, hlevel]

/-- Along an edge the level grows by one at most. -/
theorem level_le_succ (h : Layout G m L) (hj : j ∈ L) (hk : k ∈ L) (hadj : G.Adj j.node k.node) :
    k.level ≤ j.level + 1 := by
  obtain ⟨Q, R, rfl⟩ := List.append_of_mem hk
  have hsorted := List.pairwise_append.mp h.pairwise_lt
  rcases List.mem_append.mp hj with hjQ | hjR
  · exact reach_le hsorted.1 hjQ hadj (h.reach_eq (List.ne_nil_of_mem hjQ)).1
  · rcases List.mem_cons.mp hjR with rfl | hjR
    · omega
    · -- `j` comes after `k`
      have := Key.level_le ((List.pairwise_cons.mp hsorted.2.1).1 j hjR).le
      omega

section Closed

variable (h : Layout G m L) (hsub : ∀ u ∈ nodes L, u ∈ S)
  (hclosed : ∀ k ∈ L, ∀ u ∈ S, G.Adj k.node u → u ∈ nodes L)
include h hclosed

/-- A walk does not leave a layout that has all neighbours of its nodes. -/
theorem exists_of_walk {u v : S} (p : (G.induce S).Walk u v) (hj : j ∈ L) (hju : j.node = u) :
    ∃ k ∈ L, k.node = v ∧ k.level ≤ j.level + p.length := by
  induction p generalizing j with
  | nil => exact ⟨j, hj, hju, le_rfl⟩
  | @cons u w v hadj p ih =>
    have hjw : G.Adj j.node w := by
      rw [hju]
      exact hadj
    obtain ⟨i, hi, hiw⟩ := mem_nodes.mp (hclosed j hj w w.property hjw)
    obtain ⟨k, hk, hkv, hlevel⟩ := ih hi hiw
    refine ⟨k, hk, hkv, ?_⟩
    have := h.level_le_succ hj hi (hiw ▸ hjw)
    rw [SimpleGraph.Walk.length_cons]
    omega

include hsub

/-- **Levels are distances.** -/
theorem level_eq_dist (hm : m ∈ S) (hk : k ∈ L) (hkS : k.node ∈ S) :
    k.level = (G.induce S).dist ⟨m, hm⟩ ⟨k.node, hkS⟩ := by
  obtain ⟨p, hp⟩ := h.exists_walk hsub hm hk hkS
  apply le_antisymm
  · obtain ⟨q, hq⟩ := p.reachable.exists_walk_length_eq_dist
    obtain ⟨R, hR⟩ := h.exists_cons
    have hfirst : (⟨0, m⟩ : Key α) ∈ L := by
      rw [hR]
      exact List.mem_cons_self
    obtain ⟨k', hk', hnode, hlevel⟩ := h.exists_of_walk hclosed q hfirst rfl
    obtain rfl := h.eq_of_node_eq hk' hk hnode
    rwa [zero_add, hq] at hlevel
  · rw [← hp]
    exact SimpleGraph.dist_le p

/-- The nodes are those that can be reached from the first. -/
theorem mem_nodes_iff_reachable (hm : m ∈ S) {u : α} :
    u ∈ nodes L ↔ ∃ hu : u ∈ S, (G.induce S).Reachable ⟨m, hm⟩ ⟨u, hu⟩ := by
  constructor
  · intro hu
    obtain ⟨k, hk, rfl⟩ := mem_nodes.mp hu
    obtain ⟨p, -⟩ := h.exists_walk hsub hm hk (hsub _ hu)
    exact ⟨hsub _ hu, p.reachable⟩
  · rintro ⟨hu, ⟨p⟩⟩
    obtain ⟨j, hj, hjm⟩ := mem_nodes.mp h.root_mem
    obtain ⟨k, hk, hku, -⟩ := h.exists_of_walk hclosed p hj hjm
    exact mem_nodes.mpr ⟨k, hk, hku⟩

end Closed

end Layout

end BreadthFirst
