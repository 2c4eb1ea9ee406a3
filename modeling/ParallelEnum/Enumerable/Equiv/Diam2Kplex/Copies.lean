import ParallelEnum.Enumerable.Equiv.Diam2Kplex

/-!
# Copies of nodes

A copy of a node refers to the vectors of the `thread_local` node of `GetRoot`, which the next
root overwrites.  `Thread` is a thread that copies every node passed to its callbacks, `answers`
what can be learned from a copy.

* `answers_iff`: a copy keeps its answers as long as the last root opened is the one that was open
  when the copy was taken.
* `answers_change`: it loses them otherwise.
-/

namespace ParallelEnum.Diam2Kplex

open Traversal

/-- A call that a thread makes; `go` is the answer of the callback. -/
inductive Call
  | getRoot (v : ℕ) (go : Node → Bool)
  /-- The node is the `i`-th copy the thread has taken. -/
  | listChildren (i : ℕ) (go : Node → Bool)

/-- A thread and the copies it has taken. -/
structure Thread where
  store : Store := {}
  copies : List Node := []

/-- What `ListChildren`, `IsSolution` and `NodeToItem` answer for a node. -/
structure Answers where
  children : Option (List Node)
  isSolution : Bool
  item : List ℕ
deriving DecidableEq

/-- A callback that copies its node. -/
def keep (go : Node → Bool) : NodeCallback Store Node (List Node) :=
  fun node s => some (go node, (s.1, s.2 ++ [node]))

section Thread

variable (g : Graph) (k q : ℕ) (enablePivoting : Bool) (std : StdSort)

/-- What the thread learns from a node. -/
def answers (st : Store) (node : Node) : Answers where
  children := (listChildren g k q enablePivoting std node (keep fun _ => true) (st, [])).map
    fun s => s.2
  isSolution := isSolution g k q st node
  item := nodeToItem st node

/-- The thread after a call. -/
def Thread.step (t : Thread) (c : Call) : Thread :=
  let run : Option (Store × List Node) :=
    match c with
    | .getRoot v go => getRoot g k q v (keep go) (t.store, t.copies)
    | .listChildren i go => (t.copies[i]?).bind fun node =>
        listChildren g k q enablePivoting std node (keep go) (t.store, t.copies)
  (run.map fun s => { store := s.1, copies := s.2 }).getD t

/-- A fresh thread after some calls. -/
def Thread.run (cs : List Call) : Thread := cs.foldl (Thread.step g k q enablePivoting std) {}

/-- The copies taken in the call `c` after the calls `cs`. -/
def Thread.taken (cs : List Call) (c : Call) : List Node :=
  (Thread.run g k q enablePivoting std (cs ++ [c])).copies.drop
    (Thread.run g k q enablePivoting std cs).copies.length

/-- The root a call opens: `GetRoot` returns at once if the vertex has too few neighbours. -/
def opens : Call → Option ℕ
  | .getRoot v _ => if g.fwdDegree v + k < q then none else some v
  | .listChildren _ _ => none

/-- The last root opened. -/
def lastOpened (cs : List Call) : Option ℕ := cs.foldl (fun o c => (opens g k q c).or o) none

/-! ### What a thread keeps -/

/-- The copies of a thread refer to its first cells, and their first member is the root. -/
def IsCopy (node : Node) : Prop := ∃ impl rest, node = wrap impl ∧ impl.kplex = 0 :: rest

/-- The state of a thread whose last root is `o`. -/
structure Thread.Inv (t : Thread) (o : Option ℕ) : Prop where
  alone : Alone g t.store
  holds : ∀ v, o = some v → HoldsBlock g k q v t.store
  isCopy : ∀ node ∈ t.copies, IsCopy node
  none_taken : o = none → t.copies = []

variable {g k q enablePivoting std}

/-- `AddToKplex` puts its members after the others. -/
theorem kplex_foldl_addToKplex (nadj : ℕ → List ℕ) (U : List ℕ) (impl : Impl) :
    (U.foldl (Impl.addToKplex nadj k) impl).kplex = impl.kplex ++ U := by
  induction U generalizing impl with
  | nil => rw [List.append_nil]; rfl
  | cons c U ih =>
    obtain ⟨_, _, hrun, -, -⟩ := Impl.addToKplex_frame impl nadj k c
    rw [List.foldl_cons, ih, hrun, List.append_assoc]
    rfl

theorem kplex_updateCandAndExcl (subgraph : Vec ℕ) (A : List ℕ) (bits : Vec Bool) (impl : Impl) :
    (impl.updateCandAndExcl g subgraph k A bits).kplex = impl.kplex := by
  rw [Impl.updateCandAndExcl_eq (fun e => impl.canAddVertex g subgraph k (subgraph.get e)) A bits
    impl fun _ => rfl]

theorem kplex_of_mem_childrenFrom {subgraph : Vec ℕ} {nadj : ℕ → List ℕ} {node child : Impl}
    {cs A : List ℕ} {bits : Vec Bool}
    (h : child ∈ childrenFrom g subgraph nadj k node cs A bits) :
    ∃ U, child.kplex = node.kplex ++ U := by
  induction cs generalizing A bits with
  | nil => exact absurd h List.not_mem_nil
  | cons c cs ih =>
    rcases List.mem_cons.mp h with rfl | h
    · refine ⟨[c], ?_⟩
      unfold addChild
      rw [kplex_updateCandAndExcl]
      exact kplex_foldl_addToKplex nadj [c] node
    · exact ih h

/-- A child keeps the members of its parent, whatever cells it is computed from. -/
theorem kplex_of_mem_children {subgraph : Vec ℕ} {nadj : ℕ → List ℕ} {node child : Impl}
    (h : child ∈ children g subgraph nadj k q enablePivoting std node) :
    ∃ U, child.kplex = node.kplex ++ U := by
  unfold children at h
  dsimp only at h
  split_ifs at h
  · exact absurd h List.not_mem_nil
  · exact absurd h List.not_mem_nil
  · exact absurd h List.not_mem_nil
  · rw [List.mem_singleton.mp h]
    unfold fastForward
    rw [kplex_updateCandAndExcl]
    exact ⟨_, kplex_foldl_addToKplex nadj _ node⟩
  · exact kplex_of_mem_childrenFrom h

/-- A callback that copies takes some of the nodes and leaves the store alone. -/
theorem forEach_keep (go : Node → Bool) (l : List Node) (st : Store) (a : List Node) :
    ∃ l', l' ⊆ l ∧ forEach (keep go) l (st, a) = some (st, a ++ l') := by
  induction l generalizing a with
  | nil => exact ⟨[], List.Subset.refl _, by simp⟩
  | cons x l ih =>
    rw [forEach_cons]
    show ∃ l', l' ⊆ x :: l ∧
      (if go x then forEach (keep go) l (st, a ++ [x]) else some (st, a ++ [x]))
        = some (st, a ++ l')
    split_ifs
    · obtain ⟨l', hsub, hrun⟩ := ih (a ++ [x])
      refine ⟨x :: l', List.cons_subset_cons x hsub, ?_⟩
      rw [hrun, List.append_assoc]
      rfl
    · exact ⟨[x], by simp, rfl⟩

/-- A callback that copies every node. -/
theorem forEach_keep_all (l : List Node) (st : Store) (a : List Node) :
    forEach (keep fun _ => true) l (st, a) = some (st, a ++ l) := by
  induction l generalizing a with
  | nil => simp
  | cons x l ih =>
    show forEach (keep fun _ => true) l (st, a ++ [x]) = _
    rw [ih, List.append_assoc]
    rfl

/-- `GetRoot` may overwrite the store, and copies nodes that refer to it. -/
theorem Thread.step_getRoot {t : Thread} {o : Option ℕ} (h : t.Inv g k q o) (v : ℕ)
    (go : Node → Bool) : (t.step g k q enablePivoting std (.getRoot v go)).Inv g k q
      ((opens g k q (.getRoot v go)).or o) := by
  set st := if g.fwdDegree v + k < q then t.store else openRoot g k q v t.store with hst
  obtain ⟨l', hsub, hrun⟩ := forEach_keep go (roots g k q v) st t.copies
  have hstep : t.step g k q enablePivoting std (.getRoot v go)
      = { store := st, copies := t.copies ++ l' } := by
    unfold Thread.step
    dsimp only
    rw [getRoot_eq g k q v (keep go) h.alone, hrun]
    rfl
  rw [hstep]
  by_cases htest : g.fwdDegree v + k < q
  · have hl' : l' = [] := by
      unfold roots at hsub
      rw [if_pos htest] at hsub
      exact List.subset_nil.mp hsub
    have hopens : opens g k q (.getRoot v go) = none := if_pos htest
    rw [if_pos htest] at hst
    rw [hst, hl', List.append_nil, hopens]
    exact h
  · obtain ⟨halone, hholds, -⟩ := Alone.openRoot g k q h.alone v
    have hopens : opens g k q (.getRoot v go) = some v := if_neg htest
    rw [if_neg htest] at hst
    rw [hst, hopens]
    refine ⟨halone, fun w hw => ?_, fun node hnode => ?_, fun hnone => ?_⟩
    · obtain rfl := Option.some.inj hw
      exact hholds
    · rcases List.mem_append.mp hnode with hnode | hnode
      · exact h.isCopy node hnode
      · have hmem := hsub hnode
        unfold roots at hmem
        rw [if_neg htest] at hmem
        exact ⟨rootImpl g k q v, [], List.mem_singleton.mp hmem, kplex_rootImpl g k q v⟩
    · cases hnone

/-- `ListChildren` leaves the store alone, and copies nodes that grow from the one it is given. -/
theorem Thread.step_listChildren {t : Thread} {o : Option ℕ} (h : t.Inv g k q o) (i : ℕ)
    (go : Node → Bool) : (t.step g k q enablePivoting std (.listChildren i go)).Inv g k q o := by
  cases hnode : t.copies[i]? with
  | none =>
    have hstep : t.step g k q enablePivoting std (.listChildren i go) = t := by
      unfold Thread.step
      dsimp only
      rw [hnode]
      rfl
    rw [hstep]
    exact h
  | some node =>
    have hmem := List.mem_of_getElem? hnode
    obtain ⟨impl, rest, rfl, hkplex⟩ := h.isCopy node hmem
    have hkeep : ∀ y ∈ children g (t.store.memory.subgraph (wrap impl))
        (t.store.memory.nadj (wrap impl)).get k q enablePivoting std impl,
        ∀ a r, keep go (wrap y) (t.store, a) = some r → r.2.1 = t.store := by
      intro y _ a r hr
      obtain rfl := Option.some.inj hr
      rfl
    have hlist := listChildren_eq g k q enablePivoting std (keep go) rfl rfl t.copies hkeep
    obtain ⟨l', hsub, hrun⟩ := forEach_keep go _ t.store t.copies
    rw [hrun] at hlist
    have hstep : t.step g k q enablePivoting std (.listChildren i go)
        = { store := t.store, copies := t.copies ++ l' } := by
      unfold Thread.step
      dsimp only
      rw [hnode, Option.bind_some, hlist]
      rfl
    rw [hstep]
    refine ⟨h.alone, h.holds, fun node hnode => ?_, fun hnone => ?_⟩
    · rcases List.mem_append.mp hnode with hnode | hnode
      · exact h.isCopy node hnode
      · obtain ⟨y, hy, rfl⟩ := List.mem_map.mp (hsub hnode)
        obtain ⟨U, hU⟩ := kplex_of_mem_children hy
        have hU : y.kplex = impl.kplex ++ U := hU
        exact ⟨y, rest ++ U, rfl, by rw [hU, hkplex, List.cons_append]⟩
    · rw [h.none_taken hnone] at hmem
      exact absurd hmem List.not_mem_nil

/-- What a call does. -/
theorem Thread.step_spec {t : Thread} {o : Option ℕ} (h : t.Inv g k q o) (c : Call) :
    (t.step g k q enablePivoting std c).Inv g k q ((opens g k q c).or o) := by
  cases c with
  | getRoot v go => exact Thread.step_getRoot h v go
  | listChildren i go => exact Thread.step_listChildren h i go

theorem Thread.inv_empty : Thread.Inv g k q {} none :=
  ⟨alone_empty g, fun _ h => absurd h (by simp), fun _ h => absurd h List.not_mem_nil, fun _ => rfl⟩

/-- **Runs of a thread.** -/
theorem Thread.inv_run (cs : List Call) :
    (Thread.run g k q enablePivoting std cs).Inv g k q (lastOpened g k q cs) := by
  induction cs using List.reverseRecOn with
  | nil => exact Thread.inv_empty
  | append_singleton cs c ih =>
    unfold Thread.run lastOpened at ih ⊢
    rw [List.foldl_append, List.foldl_append]
    exact Thread.step_spec ih c

theorem lastOpened_append (as bs : List Call) :
    lastOpened g k q (as ++ bs) = (lastOpened g k q bs).or (lastOpened g k q as) := by
  induction bs using List.reverseRecOn with
  | nil => simp [lastOpened]
  | append_singleton bs b ih =>
    unfold lastOpened at ih ⊢
    rw [← List.append_assoc, List.foldl_append, ih, List.foldl_append]
    show (opens g k q b).or _ = ((opens g k q b).or _).or _
    cases opens g k q b <;> rfl

/-- A copy refers to nothing but the block the memory holds. -/
theorem answers_of_holdsBlock {node : Node} (hnode : IsCopy node) {v : ℕ} {st st' : Store}
    (h : HoldsBlock g k q v st) (h' : HoldsBlock g k q v st') :
    answers g k q enablePivoting std st node = answers g k q enablePivoting std st' node := by
  obtain ⟨impl, rest, rfl, -⟩ := hnode
  have hchildren : ∀ {st}, HoldsBlock g k q v st →
      (listChildren g k q enablePivoting std (wrap impl) (keep fun _ => true) (st, [])).map
        (fun s => s.2) = (forEach (keep fun _ => true) ((children g (blockVec g k q v)
          (blockNadj g (blockVec g k q v)) k q enablePivoting std impl).map wrap)
            (st, [])).map fun s => s.2 := by
    intro st hst
    rw [listChildren_eq g k q enablePivoting std (keep fun _ => true) (hst impl).1 (hst impl).2 []
      fun y _ a r hr => by
        obtain rfl := Option.some.inj hr
        rfl]
    rfl
  unfold answers
  rw [hchildren h, hchildren h', forEach_keep_all, forEach_keep_all]
  unfold isSolution nodeToItem
  rw [(h impl).1, (h' impl).1]
  rfl

/-- `NodeToItem` names the root first. -/
theorem head_nodeToItem {node : Node} (hnode : IsCopy node) {v : ℕ} {st : Store}
    (h : HoldsBlock g k q v st) : (nodeToItem st node).head? = some v := by
  obtain ⟨impl, rest, rfl, hkplex⟩ := hnode
  unfold nodeToItem Impl.toItem
  show (impl.kplex.map _).head? = some v
  rw [hkplex, (h impl).1]
  rfl

/-- **When a copy keeps its answers**: the last root opened since is the one that was open when
the copy was taken. -/
theorem answers_iff (g : Graph) (k q : ℕ) (enablePivoting : Bool) (std : StdSort)
    (cs : List Call) (c : Call) (later : List Call) (node : Node)
    (hnode : node ∈ Thread.taken g k q enablePivoting std cs c) :
    answers g k q enablePivoting std
        (Thread.run g k q enablePivoting std (cs ++ [c] ++ later)).store node
      = answers g k q enablePivoting std
        (Thread.run g k q enablePivoting std (cs ++ [c])).store node ↔
    ∀ w, lastOpened g k q later = some w → lastOpened g k q (cs ++ [c]) = some w := by
  have hbefore : (Thread.run g k q enablePivoting std (cs ++ [c])).Inv g k q _ :=
    Thread.inv_run (cs ++ [c])
  have hafter : (Thread.run g k q enablePivoting std (cs ++ [c] ++ later)).Inv g k q _ :=
    Thread.inv_run (cs ++ [c] ++ later)
  have hmem := List.mem_of_mem_drop hnode
  have hcopy := hbefore.isCopy node hmem
  obtain ⟨v, hv⟩ : ∃ v, lastOpened g k q (cs ++ [c]) = some v := by
    cases hnone : lastOpened g k q (cs ++ [c]) with
    | none =>
      rw [hbefore.none_taken hnone] at hmem
      exact absurd hmem List.not_mem_nil
    | some v => exact ⟨v, rfl⟩
  rw [lastOpened_append, hv] at hafter
  rw [hv]
  cases hlater : lastOpened g k q later with
  | none =>
    rw [hlater] at hafter
    refine iff_of_true ?_ fun w hw => absurd hw (by simp)
    exact answers_of_holdsBlock hcopy (hafter.holds v rfl) (hbefore.holds v hv)
  | some w =>
    rw [hlater] at hafter
    constructor
    · intro heq w' hw'
      obtain rfl := Option.some.inj hw'
      have hitem := congrArg (fun a => a.item.head?) heq
      have h1 := head_nodeToItem hcopy (hafter.holds w rfl)
      have h2 := head_nodeToItem hcopy (hbefore.holds v hv)
      exact (h2.symm.trans hitem.symm).trans h1
    · intro h
      have hvw : v = w := Option.some.inj (h w rfl)
      exact answers_of_holdsBlock hcopy (hafter.holds v (by rw [hvw]; rfl)) (hbefore.holds v hv)

end Thread

/-- A copy of the node of an isolated vertex `0`, for `k = 1`. -/
def isolatedCopy : Node where
  subgraph := some 0
  nadj := some 0
  impl0 := { kplex := [0], counters := #[1], status := #[.inKplex], nonNeighs := #[0] }

/-- The equivalence for two isolated vertices. -/
theorem answers_isolatedCopy_iff :
    answers (Graph.ofRel 2 fun _ _ => false) 1 1 true StdSort.insertion
        (Thread.run (Graph.ofRel 2 fun _ _ => false) 1 1 true StdSort.insertion
          ([] ++ [.getRoot 0 fun _ => true] ++ [.getRoot 1 fun _ => true])).store isolatedCopy
      = answers (Graph.ofRel 2 fun _ _ => false) 1 1 true StdSort.insertion
        (Thread.run (Graph.ofRel 2 fun _ _ => false) 1 1 true StdSort.insertion
          ([] ++ [.getRoot 0 fun _ => true])).store isolatedCopy ↔
    ∀ w, lastOpened (Graph.ofRel 2 fun _ _ => false) 1 1 [.getRoot 1 fun _ => true] = some w →
      lastOpened (Graph.ofRel 2 fun _ _ => false) 1 1 ([] ++ [.getRoot 0 fun _ => true])
        = some w :=
  answers_iff _ 1 1 true StdSort.insertion [] (.getRoot 0 fun _ => true) _ isolatedCopy (by decide)

/-- The copy of the first vertex names the second one after `GetRoot` has opened it. -/
theorem answers_change :
    isolatedCopy ∈ Thread.taken (Graph.ofRel 2 fun _ _ => false) 1 1 true StdSort.insertion []
        (.getRoot 0 fun _ => true) ∧
      answers (Graph.ofRel 2 fun _ _ => false) 1 1 true StdSort.insertion
          (Thread.run (Graph.ofRel 2 fun _ _ => false) 1 1 true StdSort.insertion
            [.getRoot 0 fun _ => true, .getRoot 1 fun _ => true]).store isolatedCopy
        ≠ answers (Graph.ofRel 2 fun _ _ => false) 1 1 true StdSort.insertion
          (Thread.run (Graph.ofRel 2 fun _ _ => false) 1 1 true StdSort.insertion
            [.getRoot 0 fun _ => true]).store isolatedCopy := by
  decide

end ParallelEnum.Diam2Kplex
