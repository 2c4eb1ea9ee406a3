import Mathlib.Algebra.Order.BigOperators.Group.List
import Mathlib.Data.List.Nodup
import Mathlib.Data.List.Perm.Basic
import Mathlib.Data.List.Perm.Lattice
import Mathlib.Data.List.Lattice
import Mathlib.Data.Set.Lattice
import Mathlib.Logic.Relation
import Mathlib.Order.CompletePartialOrder
import Mathlib.Tactic.Ring

/-!
# Traversal of a finite computation forest

A *forest* is a children function on nodes together with a rank that drops from a node to its
children.  `Forest.subtree x` lists the nodes below `x` in preorder, `Forest.traversal roots` the
nodes of a whole forest.

Two ways of showing that a traversal meets every target exactly once are provided.

* **Parents** (`Forest.traversal_nodup`, `Forest.mem_traversal_of_climb`): every node is a child
  of at most one node, and every target is a root or has a target as its parent.
* **Families** (`Forest.nodup_map_subtree`, `Forest.mem_map_subtree`): every node owns a family
  of keys, its own key among them, and its children split the rest of the family among them.

`forEach` is the loop of a producer that hands values to a callback until the callback refuses.
-/

namespace Traversal

universe u v

variable {α : Type u} {β : Type v}

/-! ### Callbacks -/

/-- Hand the elements of a list to a callback in order; stop as soon as it answers `false`.
`none` is a callback that did not return. -/
def forEach {S : Type v} (cb : α → S → Option (Bool × S)) : List α → S → Option S
  | [], s => some s
  | x :: xs, s => (cb x s).bind fun r => if r.1 then forEach cb xs r.2 else some r.2

section ForEach

variable {S : Type v} {cb : α → S → Option (Bool × S)}

@[simp] theorem forEach_nil (s : S) : forEach cb [] s = some s := rfl

theorem forEach_cons (x : α) (xs : List α) (s : S) :
    forEach cb (x :: xs) s
      = (cb x s).bind fun r => if r.1 then forEach cb xs r.2 else some r.2 := rfl

/-- A callback that keeps one part of the state may be run on the other part alone. -/
theorem forEach_keep {T : Type v} {t : T} {cb : α → T × S → Option (Bool × (T × S))}
    {f : α → S → Option (Bool × S)} {xs : List α}
    (h : ∀ x ∈ xs, ∀ s, cb x (t, s) = (f x s).map fun r => (r.1, (t, r.2))) (s : S) :
    forEach cb xs (t, s) = (forEach f xs s).map fun s => (t, s) := by
  induction xs generalizing s with
  | nil => rfl
  | cons x xs ih =>
    rw [forEach_cons, forEach_cons, h x List.mem_cons_self s]
    cases hr : f x s with
    | none => rfl
    | some r =>
      have hrest := ih (fun y hy => h y (List.mem_cons_of_mem _ hy)) r.2
      simp only [Option.map_some, Option.bind_some]
      split_ifs
      · exact hrest
      · rfl

/-- Skipping elements in the callback is leaving them out of the list. -/
theorem forEach_filterMap {γ : Type v} (f : α → Option γ) (cb : γ → S → Option (Bool × S))
    (xs : List α) (s : S) :
    forEach (fun x s => (f x).elim (some (true, s)) (cb · s)) xs s
      = forEach cb (xs.filterMap f) s := by
  induction xs generalizing s with
  | nil => rfl
  | cons x xs ih =>
    rw [forEach_cons]
    cases hx : f x with
    | none =>
      rw [List.filterMap_cons_none hx]
      exact ih s
    | some y =>
      rw [List.filterMap_cons_some hx, forEach_cons]
      simp only [Option.elim_some, ih]

theorem forEach_map {γ : Type v} (f : γ → α) (xs : List γ) (s : S) :
    forEach cb (xs.map f) s = forEach (fun x => cb (f x)) xs s := by
  induction xs generalizing s with
  | nil => rfl
  | cons x xs ih =>
    rw [List.map_cons, forEach_cons, forEach_cons]
    simp only [ih]

end ForEach

/-! ### Forests -/

/-- A children function whose rank drops along every edge between good nodes. -/
structure Forest (α : Type u) where
  /-- The children of a node, in the order in which they are produced. -/
  children : α → List α
  /-- The nodes the rank is meaningful on. -/
  Ok : α → Prop
  /-- A bound on the height of the tree below a node. -/
  rank : α → ℕ
  /-- Children of good nodes are good. -/
  ok_of_mem : ∀ {x c}, Ok x → c ∈ children x → Ok c
  /-- The rank drops from a good node to its children. -/
  rank_lt_of_mem : ∀ {x c}, Ok x → c ∈ children x → rank c < rank x

/-- The nodes met within `fuel` levels below a node, in preorder. -/
def preorder (children : α → List α) : ℕ → α → List α
  | 0, x => [x]
  | fuel + 1, x => x :: (children x).flatMap (preorder children fuel)

namespace Forest

variable (F : Forest α)

/-- The nodes of the tree below a node, in preorder. -/
def subtree (x : α) : List α := preorder F.children (F.rank x) x

/-- The nodes strictly below a node. -/
def below (x : α) : List α := (F.children x).flatMap F.subtree

/-- The nodes of the trees below a list of roots. -/
def traversal (roots : List α) : List α := roots.flatMap F.subtree

variable {F}

/-- A good node of rank zero is a leaf. -/
theorem children_eq_nil {x : α} (hx : F.Ok x) (h0 : F.rank x = 0) : F.children x = [] := by
  rw [List.eq_nil_iff_forall_not_mem]
  intro c hc
  have := F.rank_lt_of_mem hx hc
  omega

/-- More fuel than the rank of a node adds nothing. -/
theorem preorder_congr {x : α} (hx : F.Ok x) {f g : ℕ} (hf : F.rank x ≤ f) (hg : F.rank x ≤ g) :
    preorder F.children f x = preorder F.children g x := by
  induction f generalizing x g with
  | zero =>
    cases g with
    | zero => rfl
    | succ g => rw [preorder, preorder, children_eq_nil hx (by omega), List.flatMap_nil]
  | succ f ih =>
    cases g with
    | zero => rw [preorder, preorder, children_eq_nil hx (by omega), List.flatMap_nil]
    | succ g =>
      rw [preorder, preorder]
      congr 1
      apply List.flatMap_congr
      intro c hc
      have hlt := F.rank_lt_of_mem hx hc
      exact ih (F.ok_of_mem hx hc) (by omega) (by omega)

/-- The tree below a node is the node followed by the trees below its children. -/
theorem subtree_eq {x : α} (hx : F.Ok x) : F.subtree x = x :: F.below x := by
  rw [subtree, preorder_congr hx le_rfl (Nat.le_succ (F.rank x)), preorder, below]
  congr 1
  apply List.flatMap_congr
  intro c hc
  have hlt := F.rank_lt_of_mem hx hc
  exact preorder_congr (F.ok_of_mem hx hc) (by omega) le_rfl

theorem mem_below {x y : α} : y ∈ F.below x ↔ ∃ c ∈ F.children x, y ∈ F.subtree c :=
  List.mem_flatMap

theorem self_mem_subtree {x : α} (hx : F.Ok x) : x ∈ F.subtree x := by
  rw [subtree_eq hx]
  exact List.mem_cons_self

theorem mem_subtree_iff {x y : α} (hx : F.Ok x) : y ∈ F.subtree x ↔ y = x ∨ y ∈ F.below x := by
  rw [subtree_eq hx, List.mem_cons]

/-- Induction over the tree below a good node: a node from its children. -/
theorem induction_on {motive : α → Prop} {x : α} (hx : F.Ok x)
    (step : ∀ x, F.Ok x → (∀ c ∈ F.children x, motive c) → motive x) : motive x := by
  induction hr : F.rank x using Nat.strong_induction_on generalizing x with
  | _ r ih =>
    refine step x hx fun c hc => ?_
    have hlt := F.rank_lt_of_mem hx hc
    exact ih (F.rank c) (by omega) (F.ok_of_mem hx hc) rfl

/-- Everything below a good node is good, and of no larger rank. -/
theorem ok_of_mem_subtree {x y : α} (hx : F.Ok x) (hy : y ∈ F.subtree x) :
    F.Ok y ∧ F.rank y ≤ F.rank x := by
  revert hy
  refine F.induction_on (motive := fun x => y ∈ F.subtree x → F.Ok y ∧ F.rank y ≤ F.rank x) hx ?_
  intro x hx ih hy
  rcases (mem_subtree_iff hx).mp hy with rfl | hy
  · exact ⟨hx, le_rfl⟩
  · obtain ⟨c, hc, hyc⟩ := mem_below.mp hy
    have hlt := F.rank_lt_of_mem hx hc
    obtain ⟨hok, hle⟩ := ih c hc hyc
    exact ⟨hok, by omega⟩

/-- A child of a node below `x` is below `x`. -/
theorem child_mem_subtree {x y c : α} (hx : F.Ok x) (hy : y ∈ F.subtree x)
    (hc : c ∈ F.children y) : c ∈ F.subtree x := by
  revert hy
  refine F.induction_on (motive := fun x => y ∈ F.subtree x → c ∈ F.subtree x) hx ?_
  intro x hx ih hy
  rw [mem_subtree_iff hx]
  right
  rw [mem_below]
  rcases (mem_subtree_iff hx).mp hy with rfl | hy
  · exact ⟨c, hc, self_mem_subtree (F.ok_of_mem hx hc)⟩
  · obtain ⟨d, hd, hyd⟩ := mem_below.mp hy
    exact ⟨d, hd, ih d hd hyd⟩

/-- What the children of good nodes inherit, the whole tree inherits. -/
theorem forall_mem_subtree {P : α → Prop} {x : α} (hx : F.Ok x) (hP : P x)
    (hstep : ∀ y c, F.Ok y → P y → c ∈ F.children y → P c) : ∀ y ∈ F.subtree x, P y := by
  revert hP
  refine F.induction_on (motive := fun x => P x → ∀ y ∈ F.subtree x, P y) hx ?_
  intro x hx ih hP y hy
  rcases (mem_subtree_iff hx).mp hy with rfl | hy
  · exact hP
  · obtain ⟨c, hc, hyc⟩ := mem_below.mp hy
    exact ih c hc (hstep x c hx hP hc) y hyc

theorem mem_traversal {roots : List α} {y : α} :
    y ∈ F.traversal roots ↔ ∃ r ∈ roots, y ∈ F.subtree r :=
  List.mem_flatMap

/-! ### Renaming the nodes -/

section Map

variable {f : α → β} {g : β → α}

/-- A forest whose nodes are renamed by `f`; `g` takes the names back. -/
def map (F : Forest α) (f : α → β) (g : β → α) (hgf : ∀ x, g (f x) = x) : Forest β where
  children y := (F.children (g y)).map f
  Ok y := F.Ok (g y) ∧ f (g y) = y
  rank y := F.rank (g y)
  ok_of_mem hy hc := by
    obtain ⟨c, hmem, rfl⟩ := List.mem_map.mp hc
    rw [hgf]
    exact ⟨F.ok_of_mem hy.1 hmem, rfl⟩
  rank_lt_of_mem hy hc := by
    obtain ⟨c, hmem, rfl⟩ := List.mem_map.mp hc
    rw [hgf]
    exact F.rank_lt_of_mem hy.1 hmem

theorem subtree_map (hgf : ∀ x, g (f x) = x) (x : α) :
    (F.map f g hgf).subtree (f x) = (F.subtree x).map f := by
  have hpre : ∀ fuel x, preorder (F.map f g hgf).children fuel (f x)
      = (preorder F.children fuel x).map f := by
    intro fuel
    induction fuel with
    | zero => intro x; rfl
    | succ fuel ih =>
      intro x
      have hchildren : (F.map f g hgf).children (f x) = (F.children x).map f := by
        show (F.children (g (f x))).map f = _
        rw [hgf]
      rw [preorder, preorder, hchildren, List.map_cons, List.map_flatMap, List.flatMap_map]
      simp only [ih]
  have hrank : (F.map f g hgf).rank (f x) = F.rank x := congrArg F.rank (hgf x)
  unfold subtree
  rw [hrank, hpre]

end Map

/-! ### Exactly once, by parents -/

/-- The nodes of a tree are its root and the children of its nodes. -/
theorem subtree_perm {x : α} (hx : F.Ok x) :
    (F.subtree x).Perm (x :: (F.subtree x).flatMap F.children) := by
  refine F.induction_on
    (motive := fun x => (F.subtree x).Perm (x :: (F.subtree x).flatMap F.children)) hx ?_
  intro x hx ih
  have hbelow : (F.below x).Perm (F.children x ++ (F.below x).flatMap F.children) := by
    have h1 : (F.below x).Perm
        ((F.children x).flatMap fun c => c :: (F.subtree c).flatMap F.children) :=
      List.Perm.flatMap (List.Perm.refl _) ih
    refine h1.trans ?_
    rw [below, List.flatMap_assoc]
    exact (List.map_append_flatMap_perm _ id _).symm.trans (by rw [List.map_id])
  rw [subtree_eq hx, List.flatMap_cons]
  exact hbelow.cons x

theorem traversal_perm {roots : List α} (hr : ∀ r ∈ roots, F.Ok r) :
    (F.traversal roots).Perm (roots ++ (F.traversal roots).flatMap F.children) := by
  have h1 : (F.traversal roots).Perm
      (roots.flatMap fun r => r :: (F.subtree r).flatMap F.children) :=
    List.Perm.flatMap (List.Perm.refl _) fun r hr' => subtree_perm (hr r hr')
  refine h1.trans ?_
  rw [traversal, List.flatMap_assoc]
  exact (List.map_append_flatMap_perm _ id _).symm.trans (by rw [List.map_id])

open Classical in
/-- If only `p` produces `z`, the copies of `z` produced are those of each copy of `p`. -/
private theorem count_flatMap_of_unique {f : α → List α} {l : List α} {p z : α}
    (h : ∀ x ∈ l, z ∈ f x → x = p) : (l.flatMap f).count z = l.count p * (f p).count z := by
  induction l with
  | nil => simp
  | cons x l ih =>
    rw [List.flatMap_cons, List.count_append, ih fun y hy => h y (List.mem_cons_of_mem _ hy),
      List.count_cons]
    by_cases hz : z ∈ f x
    · obtain rfl := h x List.mem_cons_self hz
      rw [beq_self_eq_true, if_pos rfl]
      ring
    · rw [List.count_eq_zero_of_not_mem hz]
      by_cases hxp : x = p
      · subst hxp
        rw [List.count_eq_zero_of_not_mem hz]
        omega
      · rw [if_neg (by simpa using hxp), Nat.zero_add, Nat.add_zero]

/-- **Exactly once, by parents.** A traversal has no repetition when every good node is a child
of at most one good node, once, and roots are not children. -/
theorem traversal_nodup {roots : List α} (hok : ∀ r ∈ roots, F.Ok r) (hroots : roots.Nodup)
    (hchildren : ∀ x, F.Ok x → (F.children x).Nodup)
    (hparent : ∀ x y c, F.Ok x → F.Ok y → c ∈ F.children x → c ∈ F.children y → x = y)
    (hroot : ∀ x r, F.Ok x → r ∈ roots → r ∉ F.children x) : (F.traversal roots).Nodup := by
  classical
  set T := F.traversal roots with hT
  have hTok : ∀ x ∈ T, F.Ok x := by
    intro x hx
    obtain ⟨r, hr, hx⟩ := mem_traversal.mp hx
    exact (ok_of_mem_subtree (hok r hr) hx).1
  have hcount : ∀ z, T.count z = roots.count z + (T.flatMap F.children).count z := by
    intro z
    rw [(traversal_perm hok).count_eq z, List.count_append, ← hT]
  -- a parent has a larger rank, so go down from the largest rank of a root
  obtain ⟨N, hN⟩ : ∃ N, ∀ x ∈ T, F.rank x ≤ N := by
    refine ⟨(roots.map F.rank).sum, fun x hx => ?_⟩
    obtain ⟨r, hr, hx⟩ := mem_traversal.mp hx
    exact (ok_of_mem_subtree (hok r hr) hx).2.trans
      (List.single_le_sum (fun _ _ => Nat.zero_le _) _ (List.mem_map_of_mem hr))
  have key : ∀ d z, z ∈ T → N - F.rank z = d → T.count z ≤ 1 := by
    intro d
    induction d using Nat.strong_induction_on with
    | _ d ih =>
      intro z hz hd
      rw [hcount z]
      by_cases hzr : z ∈ roots
      · have hnot : z ∉ T.flatMap F.children := by
          rw [List.mem_flatMap]
          rintro ⟨x, hx, hzx⟩
          exact hroot x z (hTok x hx) hzr hzx
        rw [List.count_eq_zero_of_not_mem hnot]
        exact List.nodup_iff_count_le_one.mp hroots z
      · rw [List.count_eq_zero_of_not_mem hzr, Nat.zero_add]
        by_cases hp : ∃ p ∈ T, z ∈ F.children p
        · obtain ⟨p, hp, hzp⟩ := hp
          rw [count_flatMap_of_unique fun x hx hzx =>
            hparent x p z (hTok x hx) (hTok p hp) hzx hzp]
          have hlt := F.rank_lt_of_mem (hTok p hp) hzp
          have hpN := hN p hp
          have h1 := ih (N - F.rank p) (by omega) p hp rfl
          have h2 := List.nodup_iff_count_le_one.mp (hchildren p (hTok p hp)) z
          exact Nat.mul_le_mul h1 h2
        · push Not at hp
          rw [List.count_eq_zero_of_not_mem]
          · exact Nat.zero_le 1
          · rw [List.mem_flatMap]
            rintro ⟨x, hx, hzx⟩
            exact hp x hx hzx
  rw [List.nodup_iff_count_le_one]
  intro z
  by_cases hz : z ∈ T
  · exact key _ z hz rfl
  · rw [List.count_eq_zero_of_not_mem hz]
    exact Nat.zero_le 1

/-- Targets that are roots or children of targets are all met. -/
theorem mem_traversal_of_climb {roots : List α} (Target : α → Prop) {N : ℕ}
    (hok : ∀ r ∈ roots, F.Ok r) (htok : ∀ z, Target z → F.Ok z)
    (hN : ∀ z, Target z → F.rank z ≤ N)
    (hclimb : ∀ z, Target z → z ∈ roots ∨ ∃ p, Target p ∧ z ∈ F.children p) {z : α}
    (hz : Target z) : z ∈ F.traversal roots := by
  induction hd : N - F.rank z using Nat.strong_induction_on generalizing z with
  | _ d ih =>
    rw [mem_traversal]
    rcases hclimb z hz with hr | ⟨p, hp, hzp⟩
    · exact ⟨z, hr, self_mem_subtree (hok z hr)⟩
    · have hlt := F.rank_lt_of_mem (htok p hp) hzp
      have hpN := hN p hp
      obtain ⟨r, hr, hpr⟩ := mem_traversal.mp (ih (N - F.rank p) (by omega) hp rfl)
      exact ⟨r, hr, child_mem_subtree (hok r hr) hpr hzp⟩

/-! ### Exactly once, by families -/

section Families

variable {key : α → β} (Fam : α → Set β)

/-- The keys of a tree stay in the family of its root. -/
theorem key_mem_of_mem_subtree {x : α} (hx : F.Ok x) (hkey : ∀ y, F.Ok y → key y ∈ Fam y)
    (hsub : ∀ y c, F.Ok y → c ∈ F.children y → Fam c ⊆ Fam y) :
    ∀ y ∈ F.subtree x, key y ∈ Fam x := by
  have h : ∀ y ∈ F.subtree x, Fam y ⊆ Fam x :=
    forall_mem_subtree hx (le_refl (Fam x)) fun y c hy hyx hc => (hsub y c hy hc).trans hyx
  intro y hy
  exact h y hy (hkey y (ok_of_mem_subtree hx hy).1)

/-- **Exactly once, by families.** The keys of a tree are pairwise distinct when the families of
the children of a node are disjoint parts of its own family and miss its own key. -/
theorem nodup_map_subtree {x : α} (hx : F.Ok x) (hkey : ∀ y, F.Ok y → key y ∈ Fam y)
    (hsub : ∀ y c, F.Ok y → c ∈ F.children y → Fam c ⊆ Fam y)
    (hself : ∀ y c, F.Ok y → c ∈ F.children y → key y ∉ Fam c)
    (hdisj : ∀ y, F.Ok y → (F.children y).Pairwise fun c d => Disjoint (Fam c) (Fam d)) :
    ((F.subtree x).map key).Nodup := by
  refine F.induction_on (motive := fun x => ((F.subtree x).map key).Nodup) hx ?_
  intro x hx ih
  rw [subtree_eq hx, List.map_cons, List.nodup_cons]
  constructor
  · rw [List.mem_map]
    rintro ⟨y, hy, hyx⟩
    obtain ⟨c, hc, hyc⟩ := mem_below.mp hy
    have hmem := key_mem_of_mem_subtree Fam (F.ok_of_mem hx hc) hkey hsub y hyc
    rw [hyx] at hmem
    exact hself x c hx hc hmem
  · rw [below, List.map_flatMap, List.nodup_flatMap]
    refine ⟨ih, ?_⟩
    refine List.Pairwise.imp_of_mem ?_ (hdisj x hx)
    intro c d hc hd hcd
    rw [Function.onFun_apply, List.disjoint_left]
    intro k hkc hkd
    obtain ⟨y, hy, rfl⟩ := List.mem_map.mp hkc
    obtain ⟨z, hz, hzy⟩ := List.mem_map.mp hkd
    have h1 := key_mem_of_mem_subtree Fam (F.ok_of_mem hx hc) hkey hsub y hy
    have h2 := key_mem_of_mem_subtree Fam (F.ok_of_mem hx hd) hkey hsub z hz
    rw [hzy] at h2
    exact Set.disjoint_left.mp hcd h1 h2

/-- A good key in the family of a node is the key of a node of its tree, when every good key is
the key of its node or in the family of a child. -/
theorem mem_map_subtree (Good : β → Prop)
    (hsplit : ∀ y k, F.Ok y → k ∈ Fam y → Good k → k = key y ∨ ∃ c ∈ F.children y, k ∈ Fam c)
    {x : α} (hx : F.Ok x) {k : β} (hk : k ∈ Fam x) (hgood : Good k) :
    k ∈ (F.subtree x).map key := by
  revert hk
  refine F.induction_on (motive := fun x => k ∈ Fam x → k ∈ (F.subtree x).map key) hx ?_
  intro x hx ih hk
  rw [subtree_eq hx, List.map_cons, List.mem_cons]
  rcases hsplit x k hx hk hgood with rfl | ⟨c, hc, hkc⟩
  · exact Or.inl rfl
  · right
    obtain ⟨y, hy, hyk⟩ := List.mem_map.mp (ih c hc hkc)
    exact List.mem_map.mpr ⟨y, mem_below.mpr ⟨c, hc, hy⟩, hyk⟩

end Families

end Forest

end Traversal
