import ParallelEnum.Enumerator.Sequential
import ParallelEnum.Theory.Traversal

/-!
# What `Sequential` reports

A system *lists* a forest when `getRoot` and `listChildren` hand the roots and the children of
that forest to their callback.  `ListsForest` is the contract of a system that does not allow
recursion: its callbacks leave the system's own state alone.  `ListsTrees` is the contract of a
system that allows it: the state may change from one root to the next, and nodes are read in the
state their root left.

* `runInternal_of_listsForest`: with a stack, every node of the forest is reported once.
* `runInternal_of_listsTrees`: with recursion, every node of the trees is reported once.

Both say that any fuel from some bound on is enough, so the run terminates.
-/

namespace ParallelEnum

open Traversal

variable {St Node Item : Type}

/-! ### Reporting a list of nodes -/

namespace Enumerator

/-- Reports about a list of nodes, for given answers of `isSolution` and `nodeToItem`. -/
def reports (sol : Node → Bool) (item : Node → Item) (nodes : List Node) (e : Enumerator Item) :
    Enumerator Item :=
  { items := e.items ++ (nodes.filter sol).map item
    solutionsFound := e.solutionsFound + (nodes.filter sol).length
    treeSize := e.treeSize + nodes.length }

theorem reportSolution_eq (system : Enumerable St Node Item) (st : St) (node : Node)
    (e : Enumerator Item) :
    e.reportSolution system st node
      = e.reports (system.isSolution st) (system.nodeToItem st) [node] := by
  unfold reportSolution reports
  by_cases h : system.isSolution st node = true <;> simp [h]

@[simp] theorem reports_nil (sol : Node → Bool) (item : Node → Item) (e : Enumerator Item) :
    e.reports sol item [] = e := by
  simp [reports]

theorem reports_append (sol : Node → Bool) (item : Node → Item) (l₁ l₂ : List Node)
    (e : Enumerator Item) :
    e.reports sol item (l₁ ++ l₂) = (e.reports sol item l₁).reports sol item l₂ := by
  simp [reports, List.append_assoc, Nat.add_assoc]

theorem reports_cons (sol : Node → Bool) (item : Node → Item) (x : Node) (l : List Node)
    (e : Enumerator Item) :
    e.reports sol item (x :: l) = (e.reports sol item [x]).reports sol item l :=
  reports_append sol item [x] l e

end Enumerator

namespace Sequential

/-! ### With a stack -/

/-- The contract of a system without recursion: on a state satisfying `Inv`, `getRoot` and
`listChildren` pass the roots and the children of `forest` to any callback that leaves the state
of the system alone, and restore that state. -/
structure ListsForest (system : Enumerable St Node Item) where
  /-- The states in which no call is in progress. -/
  Inv : St → Prop
  /-- The roots `getRoot i` finds. -/
  roots : ℕ → List Node
  forest : Forest Node
  sol : Node → Bool
  item : Node → Item
  not_recursive : system.canUseRecursion = false
  ok_roots : ∀ i < system.maxRoots, ∀ r ∈ roots i, forest.Ok r
  isSolution_eq : ∀ st node, system.isSolution st node = sol node
  nodeToItem_eq : ∀ st node, system.nodeToItem st node = item node
  getRoot_eq : ∀ {σ : Type} (f : Node → σ → Option (Bool × σ)) (i : ℕ) (st : St) (a : σ),
    Inv st → i < system.maxRoots →
      system.getRoot i (NodeCallback.lift f) (st, a)
        = (forEach f (roots i) a).map fun a => (st, a)
  listChildren_eq : ∀ {σ : Type} (f : Node → σ → Option (Bool × σ)) (x : Node) (st : St) (a : σ),
    Inv st → forest.Ok x →
      system.listChildren x (NodeCallback.lift f) (st, a)
        = (forEach f (forest.children x) a).map fun a => (st, a)

namespace ListsForest

variable {system : Enumerable St Node Item} (L : ListsForest system)

/-- What `stackCb` does to the state of the enumerator. -/
def push (node : Node) (s : State Node Item) : Option (Bool × State Node Item) :=
  some (true, { nodes := node :: s.nodes, enumerator := s.enumerator.reports L.sol L.item [node] })

theorem stackCb_eq : stackCb system = (NodeCallback.lift L.push : NodeCallback St Node _) := by
  funext node s
  have hsol : system.isSolution s.1 = L.sol := funext (L.isSolution_eq s.1)
  have hitem : system.nodeToItem s.1 = L.item := funext (L.nodeToItem_eq s.1)
  unfold stackCb NodeCallback.lift push
  rw [Enumerator.reportSolution_eq, hsol, hitem]
  rfl

theorem forEach_push (l : List Node) (s : State Node Item) :
    forEach L.push l s = some
      { nodes := l.reverse ++ s.nodes, enumerator := s.enumerator.reports L.sol L.item l } := by
  induction l generalizing s with
  | nil => simp
  | cons x l ih =>
    rw [forEach_cons, push, Option.bind_some, if_pos rfl, ih]
    simp only [List.reverse_cons, List.append_assoc, List.singleton_append]
    rw [← Enumerator.reports_cons]

/-- The work left on a stack. -/
def pending (nodes : List Node) : List Node := nodes.flatMap L.forest.below

theorem pending_children_perm {x : Node} (hx : L.forest.Ok x) (nodes : List Node) :
    (L.forest.children x ++ L.pending ((L.forest.children x).reverse ++ nodes)).Perm
      (L.pending (x :: nodes)) := by
  have hperm : (L.pending ((L.forest.children x).reverse ++ nodes)).Perm
      ((L.forest.children x).flatMap L.forest.below ++ L.pending nodes) := by
    unfold pending
    rw [List.flatMap_append]
    refine List.Perm.append_right _ ?_
    exact List.Perm.flatMap (List.reverse_perm _) fun _ _ => List.Perm.refl _
  have hsub : (L.forest.below x).Perm
      (L.forest.children x ++ (L.forest.children x).flatMap L.forest.below) := by
    have h1 : L.forest.below x
        = (L.forest.children x).flatMap fun c => c :: L.forest.below c :=
      List.flatMap_congr fun c hc => Forest.subtree_eq (L.forest.ok_of_mem hx hc)
    rw [h1]
    exact (List.map_append_flatMap_perm _ id _).symm.trans (by rw [List.map_id])
  unfold pending at hperm ⊢
  rw [List.flatMap_cons]
  refine (hperm.append_left _).trans ?_
  rw [← List.append_assoc]
  exact hsub.symm.append_right _

/-- The `while` loop expands everything on the stack, in some order, and everything below. -/
theorem drain_spec {st : St} (hst : L.Inv st) (fuel : ℕ) (s : State Node Item)
    (hok : ∀ x ∈ s.nodes, L.forest.Ok x)
    (hfuel : s.nodes.length + (L.pending s.nodes).length < fuel) :
    ∃ l, l.Perm (L.pending s.nodes) ∧ drain system fuel (st, s)
      = some (st, { nodes := [], enumerator := s.enumerator.reports L.sol L.item l }) := by
  induction fuel generalizing s with
  | zero => omega
  | succ fuel ih =>
    obtain ⟨nodes, e⟩ := s
    cases nodes with
    | nil => exact ⟨[], List.Perm.refl _, by simp [drain]⟩
    | cons x nodes =>
      have hx : L.forest.Ok x := hok x List.mem_cons_self
      have hperm := L.pending_children_perm hx nodes
      set s' : State Node Item :=
        { nodes := (L.forest.children x).reverse ++ nodes
          enumerator := e.reports L.sol L.item (L.forest.children x) } with hs'
      have hok' : ∀ y ∈ s'.nodes, L.forest.Ok y := by
        intro y hy
        rcases List.mem_append.mp hy with hy | hy
        · exact L.forest.ok_of_mem hx (List.mem_reverse.mp hy)
        · exact hok y (List.mem_cons_of_mem _ hy)
      have hlen := hperm.length_eq
      obtain ⟨l, hl, hrun⟩ := ih s' hok' (by
        simp only [hs', List.length_append, List.length_reverse, List.length_cons] at hlen hfuel ⊢
        omega)
      refine ⟨L.forest.children x ++ l, (hl.append_left _).trans hperm, ?_⟩
      have hlist : system.listChildren x (stackCb system) (st, ⟨nodes, e⟩) = some (st, s') := by
        rw [L.stackCb_eq, L.listChildren_eq L.push x st _ hst hx, L.forEach_push]
        rfl
      rw [drain]
      show (system.listChildren x (stackCb system) (st, ⟨nodes, e⟩)).bind (drain system fuel) = _
      rw [hlist, Option.bind_some, hrun, Enumerator.reports_append]

/-- The nodes of the forest, root after root. -/
def allNodes : List Node :=
  (List.range system.maxRoots).flatMap fun i => L.forest.traversal (L.roots i)

/-- One iteration of the loop over the roots. -/
theorem root_spec {st : St} (hst : L.Inv st) {i : ℕ} (hi : i < system.maxRoots) {fuel : ℕ}
    (hfuel : (L.forest.traversal (L.roots i)).length < fuel) (e : Enumerator Item) :
    ∃ l, l.Perm (L.forest.traversal (L.roots i)) ∧
      (system.getRoot i (stackCb system) (st, ⟨[], e⟩)).bind (drain system fuel)
        = some (st, ⟨[], e.reports L.sol L.item l⟩) := by
  have hroots := L.ok_roots i hi
  set s : State Node Item :=
    { nodes := (L.roots i).reverse ++ [], enumerator := e.reports L.sol L.item (L.roots i) } with hs
  have hpend : (L.roots i ++ L.pending s.nodes).Perm (L.forest.traversal (L.roots i)) := by
    have h1 : L.forest.traversal (L.roots i)
        = (L.roots i).flatMap fun r => r :: L.forest.below r :=
      List.flatMap_congr fun r hr => Forest.subtree_eq (hroots r hr)
    have h2 : (L.pending s.nodes).Perm ((L.roots i).flatMap L.forest.below) := by
      rw [hs]
      unfold pending
      rw [List.append_nil]
      exact List.Perm.flatMap (List.reverse_perm _) fun _ _ => List.Perm.refl _
    rw [h1]
    refine (h2.append_left _).trans ?_
    refine List.Perm.trans ?_ (List.map_append_flatMap_perm _ id _)
    rw [List.map_id]
  have hlen := hpend.length_eq
  have hok : ∀ x ∈ s.nodes, L.forest.Ok x := by
    intro x hx
    rw [hs, List.append_nil] at hx
    exact hroots x (List.mem_reverse.mp hx)
  obtain ⟨l, hl, hrun⟩ := L.drain_spec hst fuel s hok (by
    simp only [hs, List.length_append, List.length_reverse, List.length_nil] at hlen ⊢
    omega)
  refine ⟨L.roots i ++ l, (hl.append_left _).trans hpend, ?_⟩
  rw [L.stackCb_eq, L.getRoot_eq L.push i st _ hst hi, L.forEach_push]
  show drain system fuel (st, s) = _
  rw [hrun, Enumerator.reports_append]

/-- **A run with a stack reports every node of the forest once.** -/
theorem runInternal_of_listsForest (st : St) (hst : L.Inv (system.setUp st)) {fuel : ℕ}
    (hfuel : L.allNodes.length < fuel) (e : Enumerator Item) :
    ∃ l, l.Perm L.allNodes ∧ runInternal fuel system st e
      = some (system.cleanUp (system.setUp st), e.reports L.sol L.item l) := by
  have hloop : ∀ (is : List ℕ) (e : Enumerator Item), (∀ i ∈ is, i < system.maxRoots) →
      (∀ i ∈ is, (L.forest.traversal (L.roots i)).length < fuel) →
      ∃ l, l.Perm (is.flatMap fun i => L.forest.traversal (L.roots i)) ∧
        is.foldlM (fun s i => (system.getRoot i (stackCb system) s).bind (drain system fuel))
          (system.setUp st, (⟨[], e⟩ : State Node Item))
        = some (system.setUp st, ⟨[], e.reports L.sol L.item l⟩) := by
    intro is
    induction is with
    | nil => intro e _ _; exact ⟨[], List.Perm.refl _, by simp⟩
    | cons i is ih =>
      intro e hi hf
      obtain ⟨l₁, hl₁, hrun₁⟩ := L.root_spec hst (hi i List.mem_cons_self)
        (hf i List.mem_cons_self) e
      obtain ⟨l₂, hl₂, hrun₂⟩ := ih (e.reports L.sol L.item l₁)
        (fun j hj => hi j (List.mem_cons_of_mem _ hj))
        (fun j hj => hf j (List.mem_cons_of_mem _ hj))
      refine ⟨l₁ ++ l₂, hl₁.append hl₂, ?_⟩
      rw [List.foldlM_cons, hrun₁, Option.bind_eq_bind, Option.bind_some, hrun₂,
        Enumerator.reports_append]
  obtain ⟨l, hl, hrun⟩ := hloop (List.range system.maxRoots) e
    (fun i hi => List.mem_range.mp hi) (fun i hi => by
      refine lt_of_le_of_lt ?_ hfuel
      unfold allNodes
      exact List.Sublist.length_le (List.sublist_flatten_of_mem (List.mem_map_of_mem hi)))
  refine ⟨l, hl, ?_⟩
  unfold runInternal
  simp only [L.not_recursive, Bool.not_false, if_true]
  rw [hrun]
  rfl

end ListsForest

/-! ### With recursion -/

/-- The contract of a system with recursion.  `Inv` holds between the roots and `At i` while the
tree of root `i` is visited; `getRoot` may change the state before it calls back, and
`listChildren` asks of its callback to leave the state as it is. -/
structure ListsTrees (system : Enumerable St Node Item) where
  /-- The states in which no call is in progress. -/
  Inv : St → Prop
  /-- The states in which the nodes below root `i` are read. -/
  At : ℕ → St → Prop
  /-- The roots `getRoot i` finds. -/
  roots : ℕ → List Node
  forest : ℕ → Forest Node
  sol : ℕ → Node → Bool
  item : ℕ → Node → Item
  recursive : system.canUseRecursion = true
  ok_roots : ∀ i < system.maxRoots, ∀ r ∈ roots i, (forest i).Ok r
  isSolution_eq : ∀ i st node, At i st → (forest i).Ok node →
    system.isSolution st node = sol i node
  nodeToItem_eq : ∀ i st node, At i st → (forest i).Ok node →
    system.nodeToItem st node = item i node
  getRoot_eq : ∀ i st, Inv st → i < system.maxRoots →
    ∃ st', Inv st' ∧ (roots i ≠ [] → At i st') ∧
      ∀ {σ : Type} (cb : NodeCallback St Node σ) (a : σ),
        system.getRoot i cb (st, a) = forEach cb (roots i) (st', a)
  listChildren_eq : ∀ {σ : Type} (cb : NodeCallback St Node σ) (i : ℕ) (x : Node) (st : St) (a : σ),
    At i st → (forest i).Ok x →
      (∀ y ∈ (forest i).children x, ∀ a r, cb y (st, a) = some r → r.2.1 = st) →
      system.listChildren x cb (st, a) = forEach cb ((forest i).children x) (st, a)

namespace ListsTrees

variable {system : Enumerable St Node Item} (L : ListsTrees system)

theorem reportSolution_eq {i : ℕ} {st : St} (hst : L.At i st) {x : Node}
    (hx : (L.forest i).Ok x) (e : Enumerator Item) :
    e.reportSolution system st x = e.reports (L.sol i) (L.item i) [x] := by
  have hsol := L.isSolution_eq i st x hst hx
  have hitem := L.nodeToItem_eq i st x hst hx
  rw [Enumerator.reportSolution_eq]
  unfold Enumerator.reports
  cases h : L.sol i x <;> simp [hsol, hitem, h]

theorem forEach_reports {i : ℕ} {st : St} {cb : NodeCallback St Node (Enumerator Item)}
    (l : List Node) (e : Enumerator Item)
    (hcb : ∀ x ∈ l, ∀ e, cb x (st, e)
      = some (true, (st, e.reports (L.sol i) (L.item i) ((L.forest i).subtree x)))) :
    forEach cb l (st, e)
      = some (st, e.reports (L.sol i) (L.item i) ((L.forest i).traversal l)) := by
  induction l generalizing e with
  | nil => simp [Forest.traversal]
  | cons x l ih =>
    rw [forEach_cons, hcb x List.mem_cons_self, Option.bind_some, if_pos rfl,
      ih _ fun y hy => hcb y (List.mem_cons_of_mem _ hy), ← Enumerator.reports_append]
    rfl

/-- The recursive callback reports the tree below the node it is given. -/
theorem recursiveCb_spec {i : ℕ} {st : St} (hst : L.At i st) (fuel : ℕ) {x : Node}
    (hx : (L.forest i).Ok x) (hfuel : (L.forest i).rank x < fuel) (e : Enumerator Item) :
    recursiveCb system fuel x (st, e)
      = some (true, (st, e.reports (L.sol i) (L.item i) ((L.forest i).subtree x))) := by
  induction fuel generalizing x e with
  | zero => omega
  | succ fuel ih =>
    have hcb : ∀ y ∈ (L.forest i).children x, ∀ e, recursiveCb system fuel y (st, e)
        = some (true, (st, e.reports (L.sol i) (L.item i) ((L.forest i).subtree y))) := by
      intro y hy e
      have hlt := (L.forest i).rank_lt_of_mem hx hy
      exact ih ((L.forest i).ok_of_mem hx hy) (by omega) e
    have hkeep : ∀ y ∈ (L.forest i).children x, ∀ a r,
        recursiveCb system fuel y (st, a) = some r → r.2.1 = st := by
      intro y hy a r hr
      rw [hcb y hy a] at hr
      rw [← Option.some.inj hr]
    rw [recursiveCb]
    show (system.listChildren x (recursiveCb system fuel)
      (st, e.reportSolution system st x)).map _ = _
    rw [L.reportSolution_eq hst hx, L.listChildren_eq _ i x st _ hst hx hkeep,
      L.forEach_reports _ _ hcb, Option.map_some, ← Enumerator.reports_append,
      Forest.subtree_eq hx]
    rfl

/-- The reports of the trees of a list of roots. -/
def reportsRoots (is : List ℕ) (e : Enumerator Item) : Enumerator Item :=
  is.foldl (fun e i => e.reports (L.sol i) (L.item i) ((L.forest i).traversal (L.roots i))) e

/-- The items reported for root `i`. -/
def itemsOf (i : ℕ) : List Item :=
  (((L.forest i).traversal (L.roots i)).filter (L.sol i)).map (L.item i)

theorem reportsRoots_items (is : List ℕ) (e : Enumerator Item) :
    (L.reportsRoots is e).items = e.items ++ is.flatMap L.itemsOf := by
  induction is generalizing e with
  | nil => simp [reportsRoots]
  | cons i is ih =>
    show (L.reportsRoots is _).items = _
    rw [ih, List.flatMap_cons, ← List.append_assoc]
    rfl

/-- **A run with recursion reports every node of the trees once**, root after root and each
tree in preorder. -/
theorem runInternal_of_listsTrees {st : St} (hst : L.Inv (system.setUp st)) {fuel : ℕ}
    (hfuel : ∀ i < system.maxRoots, ∀ r ∈ L.roots i, (L.forest i).rank r < fuel)
    (e : Enumerator Item) :
    ∃ st', runInternal fuel system st e
      = some (st', L.reportsRoots (List.range system.maxRoots) e) := by
  have hloop : ∀ (is : List ℕ) (st : St) (e : Enumerator Item), L.Inv st →
      (∀ i ∈ is, i < system.maxRoots) →
      ∃ st', is.foldlM (fun s i => system.getRoot i (recursiveCb system fuel) s) (st, e)
        = some (st', L.reportsRoots is e) := by
    intro is
    induction is with
    | nil => intro st e _ _; exact ⟨st, rfl⟩
    | cons i is ih =>
      intro st e hst hi
      have hi' := hi i List.mem_cons_self
      obtain ⟨st₁, hinv, hat, hget⟩ := L.getRoot_eq i st hst hi'
      have hroot : system.getRoot i (recursiveCb system fuel) (st, e)
          = some (st₁, e.reports (L.sol i) (L.item i) ((L.forest i).traversal (L.roots i))) := by
        rw [hget]
        refine L.forEach_reports _ _ fun r hr e => ?_
        exact L.recursiveCb_spec (hat (List.ne_nil_of_mem hr)) fuel (L.ok_roots i hi' r hr)
          (hfuel i hi' r hr) e
      rw [List.foldlM_cons, hroot]
      exact ih st₁ _ hinv fun j hj => hi j (List.mem_cons_of_mem _ hj)
  obtain ⟨st', hrun⟩ := hloop (List.range system.maxRoots) (system.setUp st) e hst
    fun i hi => List.mem_range.mp hi
  refine ⟨system.cleanUp st', ?_⟩
  unfold runInternal
  simp only [L.recursive, Bool.not_true, Bool.false_eq_true, if_false]
  rw [hrun]
  rfl

end ListsTrees

end Sequential

end ParallelEnum
