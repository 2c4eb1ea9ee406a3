import ParallelEnum.Enumerator.Equiv.ParallelPthreadsSteal.Progress
import ParallelEnum.Enumerator.Equiv.ParallelPthreadsSteal.Buffers
import ParallelEnum.Enumerator.ParallelPthreadsSteal.Reports

/-!
# Nodes that refer to buffers, as immutable values

As long as no buffer is overwritten that a node refers to, a node is as good as an immutable value
that names the root it lies below.  This module reads a thread of `Callbacks`, run without
callbacks, as a thread of `ParallelPthreadsSteal` over such values.

* `Follows.of_step`: a step is a step of the other thread, or one that the other thread does not
  make.
-/

namespace ParallelEnum

open Traversal

/-! ### Reports -/

namespace Enumerator

variable {St Node Node' Item : Type} (sol : Node → Bool) (item : Node → Item) (e : Enumerator Item)

/-- A call for each of some nodes. -/
theorem foldl_reportSolution (system : Enumerable St Node Item) (st : St) (l : List Node) :
    l.foldl (fun e node => e.reportSolution system st node) e
      = e.reports (system.isSolution st) (system.nodeToItem st) l := by
  induction l generalizing e with
  | nil => exact (reports_nil _ _ e).symm
  | cons x l ih =>
    rw [List.foldl_cons, ih, reportSolution_eq]
    exact (reports_cons _ _ x l e).symm

theorem reports_map (f : Node' → Node) (l : List Node') :
    e.reports sol item (l.map f) = e.reports (fun x => sol (f x)) (fun x => item (f x)) l := by
  unfold reports
  rw [List.filter_map, List.map_map, List.length_map, List.length_map]
  rfl

/-- The order of the nodes is the order of the items. -/
theorem reports_perm {l l' : List Node} (h : l.Perm l') :
    (e.reports sol item l).items.Perm (e.reports sol item l').items ∧
      (e.reports sol item l).solutionsFound = (e.reports sol item l').solutionsFound ∧
      (e.reports sol item l).treeSize = (e.reports sol item l').treeSize := by
  have hfilter := h.filter sol
  refine ⟨(hfilter.map item).append_left e.items, ?_, ?_⟩
  · exact congrArg (e.solutionsFound + ·) hfilter.length_eq
  · exact congrArg (e.treeSize + ·) h.length_eq

end Enumerator

/-! ### The values -/

namespace Sequential.ListsTrees

variable {St Node Item : Type} {system : Enumerable St Node Item} (L : ListsTrees system)

/-- The trees of all roots. -/
def taggedForest : Forest (ℕ × Node) where
  children x := ((L.forest x.1).children x.2).map (Prod.mk x.1)
  Ok x := (L.forest x.1).Ok x.2
  rank x := (L.forest x.1).rank x.2
  ok_of_mem hx hc := by
    obtain ⟨y, hy, rfl⟩ := List.mem_map.mp hc
    exact (L.forest _).ok_of_mem hx hy
  rank_lt_of_mem hx hc := by
    obtain ⟨y, hy, rfl⟩ := List.mem_map.mp hc
    exact (L.forest _).rank_lt_of_mem hx hy

/-- The system, with nodes that name the root they lie below. -/
def finiteSystem : ParallelPthreadsSteal.FiniteSystem (ℕ × Node) where
  canUseRecursion := true
  maxRoots := system.maxRoots
  getRoot i := (L.roots i).map (Prod.mk i)
  forest := L.taggedForest
  ok_getRoot i hi r hr := by
    obtain ⟨x, hx, rfl⟩ := List.mem_map.mp hr
    exact L.ok_roots i hi x hx

theorem preorder_tagged (i fuel : ℕ) (x : Node) :
    preorder L.taggedForest.children fuel (i, x)
      = (preorder (L.forest i).children fuel x).map (Prod.mk i) := by
  induction fuel generalizing x with
  | zero => rfl
  | succ fuel ih =>
    have hchildren : (((L.forest i).children x).map (Prod.mk i)).flatMap
          (preorder L.taggedForest.children fuel)
        = (((L.forest i).children x).flatMap (preorder (L.forest i).children fuel)).map
            (Prod.mk i) := by
      rw [List.flatMap_map, List.map_flatMap]
      exact List.flatMap_congr fun y _ => ih y
    rw [preorder, preorder, List.map_cons]
    exact congrArg _ hchildren

theorem traversal_tagged (i : ℕ) (l : List Node) :
    L.taggedForest.traversal (l.map (Prod.mk i))
      = ((L.forest i).traversal l).map (Prod.mk i) := by
  unfold Forest.traversal
  rw [List.flatMap_map, List.map_flatMap]
  exact List.flatMap_congr fun x _ => L.preorder_tagged i _ x

/-- What is reported for a node. -/
def reports (nodes : List (ℕ × Node)) (e : Enumerator Item) : Enumerator Item :=
  e.reports (fun x => L.sol x.1 x.2) (fun x => L.item x.1 x.2) nodes

/-- The trees of some roots, one after the other, are the nodes below these roots. -/
theorem reportsRoots_eq (is : List ℕ) (e : Enumerator Item) :
    L.reportsRoots is e = L.reports (L.finiteSystem.nodesBelow is) e := by
  induction is generalizing e with
  | nil => exact (Enumerator.reports_nil _ _ e).symm
  | cons i is ih =>
    have hnodes : L.finiteSystem.nodesBelow (i :: is)
        = ((L.forest i).traversal (L.roots i)).map (Prod.mk i) ++ L.finiteSystem.nodesBelow is := by
      rw [← L.traversal_tagged]
      exact List.flatMap_cons
    show L.reportsRoots is _ = _
    rw [ih, hnodes, reports, reports, Enumerator.reports_append, Enumerator.reports_map]

/-- `Sequential` reports the nodes below all roots. -/
theorem exists_runInternal {st : St} (hst : L.Inv (system.setUp st)) :
    ∃ bound, ∀ fuel > bound, ∃ st', Sequential.runInternal fuel system st {}
      = some (st', L.reports (L.finiteSystem.nodesBelow (List.range system.maxRoots)) {}) := by
  obtain ⟨bound, hbound⟩ := L.finiteSystem.exists_rank_bound
  refine ⟨bound, ?_⟩
  intro fuel hfuel
  rw [← reportsRoots_eq]
  apply L.runInternal_of_listsTrees hst
  intro i hi r hr
  exact (hbound i hi (i, r) (List.mem_map_of_mem hr)).trans_lt hfuel

end Sequential.ListsTrees

namespace ParallelPthreadsSteal.Callbacks

variable {n : ℕ} {St Value Item : Type} {e : Enumerable St Value Item} {fresh : St}

/-! ### Threads over values -/

section Plain

variable (L : Sequential.ListsTrees e) (root : Fin n → ℕ)

/-- A node as a value, where `root` says of which root the buffer of a thread is. -/
def Node.plain (x : Node n Value) : ℕ × Value :=
  match x.ref with
  | .thread t => (root t, x.value)
  | .received _ => (0, x.value)

/-- A child lies below the same root. -/
theorem plain_child (x : Node n Value) (v : Value) :
    Node.plain root ⟨x.ref, v⟩ = ((x.plain root).1, v) := by
  unfold Node.plain
  cases x.ref <;> rfl

def Stage.plain : Stage St Value → ParallelPthreadsSteal.Stage
  | .serve _ => .start
  | .start => .start
  | .gotSize size => .gotSize size
  | .gotWaiting waiting => .gotWaiting waiting
  | .enqueue => .enqueue
  | .keep => .keep
  | .report => .report

def Call.plain (t : Fin n) : Call n St Value → ParallelPthreadsSteal.Call (ℕ × Value)
  | .getRoot rest => .producer (rest.map (Prod.mk (root t)))
  | .listChildren x i => .producer ((L.finiteSystem.listChildren (x.plain root)).drop i)
  | .solutionCb x stage => .solutionCb (x.plain root) stage.plain

/-- `GetRoot` is called as soon as the root has been taken out of the queue. -/
def Pc.calls : Pc n St Value → List (ParallelPthreadsSteal.Call (ℕ × Value))
  | .getRoot i => [.producer (L.finiteSystem.getRoot i)]
  | _ => []

/-- The steps of `ServeSteal` are not seen, and between the barriers there is nobody. -/
def Pc.plain : Pc n St Value → ParallelPthreadsSteal.Pc (ℕ × Value)
  | .outer => .outer
  | .inner => .inner
  | .openRoot => .openRoot
  | .getRoot _ => .working
  | .working _ => .working
  | .serve true _ => .inner
  | .serve false _ => .incWaiting
  | .incWaiting => .incWaiting
  | .dequeue => .dequeue
  | .checkTerminate => .checkTerminate
  | .checkWaiting => .checkWaiting
  | .decWaiting stolen => .decWaiting (stolen.map (Node.plain root))
  | .setTerminate => .setTerminate
  | _ => .done

def Thread.plain (t : Fin n) (th : Thread n St Value) :
    ParallelPthreadsSteal.Thread (ℕ × Value) where
  pc := th.pc.plain root
  lnodes := th.lnodes.map (Node.plain root)
  calls := th.pc.calls L ++ th.calls.map (Call.plain L root t)

/-- What the threads share; `listed` and `reported` are not part of the other state. -/
def Shared.plain (listed reported : List (ℕ × Value)) (sh : Shared n St Value) :
    ParallelPthreadsSteal.Shared (ℕ × Value) where
  possibleRoots := sh.possibleRoots
  gnodes := sh.gnodes.map (Node.plain root)
  waiting := sh.waiting
  terminate := sh.terminate
  listed := listed
  reported := reported

end Plain

/-! ### What a run without callbacks does not do -/

def Pc.Local : Pc n St Value → Prop
  | .serve _ stage => stage = .testAndSet
  | .enterMoreWork => False
  | .barrier _ _ => False
  | .moreWork _ => False
  | _ => True

def Stage.Local : Stage St Value → Prop
  | .serve stage => stage = .testAndSet
  | _ => True

def Call.Local : Call n St Value → Prop
  | .solutionCb _ stage => stage.Local
  | _ => True

/-- The thread is never in a callback, and never asks for more work. -/
structure Thread.Local (th : Thread n St Value) : Prop where
  pc : th.pc.Local
  calls : ∀ call ∈ th.calls, call.Local

/-! ### Steps that are not seen -/

def Pc.stutters : Pc n St Value → ℕ
  | .getRoot _ => 1
  | .serve _ _ => 1
  | _ => 0

def Call.stutters : Call n St Value → ℕ
  | .solutionCb _ (.serve _) => 1
  | _ => 0

/-- How many steps of a thread are not seen before one is. -/
def Thread.stutters (th : Thread n St Value) : ℕ :=
  th.pc.stutters + (th.calls.map Call.stutters).sum

/-! ### One step -/

theorem tryDequeue_map {α β : Type} (f : α → β) (queue : List α) (pick : ℕ) :
    tryDequeue (queue.map f) pick
      = (tryDequeue queue pick).map fun r => (r.1.map f, r.2.map f) := by
  cases queue with
  | nil => rfl
  | cons x queue =>
    show (((x :: queue).map f)[pick]?.map fun y => (some y, ((x :: queue).map f).eraseIdx pick)) = _
    rw [List.getElem?_map, Option.map_map, List.eraseIdx_map]
    show _ = Option.map _ (Option.map _ _)
    rw [Option.map_map]
    rfl

/-- What a step of a thread is for the thread over values. -/
def Follows (L : Sequential.ListsTrees e) (root : Fin n → ℕ) (t : Fin n) (pick : ℕ)
    (sh : Shared n St Value) (th : Thread n St Value) (sh' : Shared n St Value)
    (th' : Thread n St Value) : Prop :=
  (th'.plain L root t = th.plain L root t ∧ sh'.plain root = sh.plain root ∧ th.reports = none ∧
      th'.stutters < th.stutters) ∨
    ∀ listed reported, ∃ listed', ParallelPthreadsSteal.Thread.step L.finiteSystem n pick
        (sh.plain root listed reported) (th.plain L root t)
      = some (sh'.plain root listed' (reported ++ (th.reports.map (Node.plain root)).toList),
          th'.plain L root t) ∧
      (th'.stutters ≤ th.stutters ∨ (th.plain L root t).pc.polls = false)

section Step

variable {L : Sequential.ListsTrees e} {root : Fin n → ℕ} {t : Fin n} {pick : ℕ}
  {answer : MoreWorkData St Value} {sh sh' : Shared n St Value} {th th' : Thread n St Value}

/-- A step that reports nothing. -/
theorem Follows.quiet (hreports : th.reports = none)
    (h : ∀ listed reported, ∃ listed', ParallelPthreadsSteal.Thread.step L.finiteSystem n pick
        (sh.plain root listed reported) (th.plain L root t)
      = some (sh'.plain root listed' reported, th'.plain L root t))
    (hstutters : th'.stutters ≤ th.stutters ∨ (th.plain L root t).pc.polls = false) :
    Follows L root t pick sh th sh' th' := by
  refine Or.inr ?_
  intro listed reported
  obtain ⟨listed', hstep⟩ := h listed reported
  refine ⟨listed', ?_, hstutters⟩
  rw [hreports, Option.map_none, Option.toList_none, List.append_nil]
  exact hstep

/-- Without callbacks `ServeSteal` returns at once. -/
theorem serveStage_local {c : BufferSystem St Value} {x : Option (Node n Value)}
    {stage : ServeStage St Value} {r : ServeStage St Value ⊕ Bool} (hlocal : stage = .testAndSet)
    (h : stage.step c false pick x sh = some (sh', r)) : sh' = sh ∧ r = .inr false := by
  subst hlocal
  obtain ⟨rfl, rfl⟩ := Prod.mk.inj (Option.some.inj h)
  exact ⟨rfl, rfl⟩

/-- The next stage of `solution_cb`. -/
theorem some_solutionCb {b : Bool} {x : Node n Value} {l : List (Node n Value)}
    {k : List (Call n St Value)} {stage : Stage St Value}
    {stage' : ParallelPthreadsSteal.Stage} (h : stage' = stage.plain)
    (sh' : ParallelPthreadsSteal.Shared (ℕ × Value)) :
    some (sh', ({ pc := .working
                  lnodes := l.map (Node.plain root)
                  calls := .solutionCb (x.plain root) stage' :: k.map (Call.plain L root t) } :
        ParallelPthreadsSteal.Thread (ℕ × Value)))
      = some (sh', Thread.plain L root t ⟨.working b, l, .solutionCb x stage :: k⟩) := by
  rw [h]
  rfl

/-- A step of `solution_cb`. -/
theorem follows_solutionCb {b : Bool} {x : Node n Value} {l : List (Node n Value)}
    {k : List (Call n St Value)} {stage : Stage St Value} (hlocal : stage.Local)
    (h : Thread.solutionCb (ofEnumerable e fresh) false pick x k sh
      ⟨.working b, l, .solutionCb x stage :: k⟩ stage = some (sh', th')) :
    Follows L root t pick sh ⟨.working b, l, .solutionCb x stage :: k⟩ sh' th' := by
  cases stage with
  | serve stage =>
    rw [Thread.solutionCb, Option.map_eq_some_iff] at h
    obtain ⟨⟨sh₁, r⟩, hr, h⟩ := h
    obtain ⟨rfl, rfl⟩ := serveStage_local hlocal hr
    obtain ⟨rfl, rfl⟩ := Prod.mk.inj h
    exact Or.inl ⟨rfl, rfl, rfl, by simp [Thread.stutters, Call.stutters, Thread.afterServe]⟩
  | start =>
    obtain ⟨rfl, rfl⟩ := Prod.mk.inj (Option.some.inj h)
    refine Follows.quiet rfl (fun listed reported => ⟨listed, ?_⟩) (Or.inr rfl)
    have hlength : (sh.gnodes.map (Node.plain root)).length = sh.gnodes.length := List.length_map _
    refine some_solutionCb ?_ (sh.plain root listed reported)
    rw [apply_ite Stage.plain]
    exact if_congr Iff.rfl (congrArg _ hlength) rfl
  | gotSize size =>
    obtain ⟨rfl, rfl⟩ := Prod.mk.inj (Option.some.inj h)
    refine Follows.quiet rfl (fun listed reported => ⟨listed, ?_⟩) (Or.inr rfl)
    refine some_solutionCb ?_ (sh.plain root listed reported)
    exact (apply_ite Stage.plain (size < sh.waiting) .enqueue .keep).symm
  | gotWaiting waiting =>
    obtain ⟨rfl, rfl⟩ := Prod.mk.inj (Option.some.inj h)
    refine Follows.quiet rfl (fun listed reported => ⟨listed, ?_⟩) (Or.inr rfl)
    have hlength : (sh.gnodes.map (Node.plain root)).length = sh.gnodes.length := List.length_map _
    refine some_solutionCb ?_ (sh.plain root listed reported)
    rw [apply_ite Stage.plain]
    exact if_congr (by rw [← hlength]; rfl) rfl rfl
  | enqueue =>
    obtain ⟨rfl, rfl⟩ := Prod.mk.inj (Option.some.inj h)
    refine Follows.quiet rfl (fun listed reported => ⟨listed, ?_⟩) (Or.inr rfl)
    have hgnodes : (sh.gnodes ++ [x]).map (Node.plain root)
        = sh.gnodes.map (Node.plain root) ++ [x.plain root] := List.map_append
    simp only [Shared.plain, hgnodes]
    rfl
  | keep =>
    have hrec : (ofEnumerable e fresh).canUseRecursion = true := L.recursive
    rw [Thread.solutionCb, hrec] at h
    obtain ⟨rfl, rfl⟩ := Prod.mk.inj (Option.some.inj h)
    refine Follows.quiet rfl (fun listed reported => ⟨listed ++ [x.plain root], ?_⟩) (Or.inr rfl)
    rfl
  | report =>
    refine Or.inr (fun listed reported => ⟨listed, ?_, Or.inr rfl⟩)
    rw [Thread.solutionCb] at h
    obtain ⟨rfl, rfl⟩ := Prod.mk.inj (Option.some.inj h)
    split_ifs <;> rfl

/-- The children of a node are those of its value. -/
def Lists (L : Sequential.ListsTrees e) (fresh : St) (root : Fin n → ℕ) (sh : Shared n St Value)
    (x : Node n Value) : Prop :=
  (ofEnumerable e fresh).listChildren (sh.buffer (ofEnumerable e fresh) x.ref) x.value
    = (L.forest (x.plain root).1).children x.value

/-- What is left of the list of the children of a node. -/
theorem drop_listChildren {x : Node n Value} (hlist : Lists L fresh root sh x) (i : ℕ) :
    (L.finiteSystem.listChildren (x.plain root)).drop i
      = (((ofEnumerable e fresh).listChildren (sh.buffer (ofEnumerable e fresh) x.ref)
          x.value).drop i).map (Prod.mk (x.plain root).1) := by
  have hvalue : (x.plain root).2 = x.value := congrArg Prod.snd (plain_child root x x.value)
  rw [hlist, List.map_drop, ← hvalue]
  rfl

/-- A step of the innermost call. -/
theorem follows_work {b : Bool} {l : List (Node n Value)} {k : List (Call n St Value)}
    (hlocal : ∀ call ∈ k, call.Local)
    (hlist : ∀ x i, .listChildren x i ∈ k → Lists L fresh root sh x)
    (h : Thread.work (ofEnumerable e fresh) false t pick b sh ⟨.working b, l, k⟩
      = some (sh', th')) : Follows L root t pick sh ⟨.working b, l, k⟩ sh' th' := by
  cases k with
  | nil =>
    obtain ⟨rfl, rfl⟩ := Prod.mk.inj (Option.some.inj h)
    refine Follows.quiet rfl (fun listed reported => ⟨listed, ?_⟩) (Or.inr rfl)
    cases b <;> rfl
  | cons call k =>
    cases call with
    | getRoot rest =>
      cases rest with
      | nil =>
        obtain ⟨rfl, rfl⟩ := Prod.mk.inj (Option.some.inj h)
        exact Follows.quiet rfl (fun listed reported => ⟨listed, rfl⟩) (Or.inr rfl)
      | cons v rest =>
        obtain ⟨rfl, rfl⟩ := Prod.mk.inj (Option.some.inj h)
        exact Follows.quiet rfl (fun listed reported => ⟨listed, rfl⟩) (Or.inr rfl)
    | listChildren x i =>
      have hdrop := drop_listChildren (hlist x i List.mem_cons_self)
      rw [Thread.work] at h
      dsimp only at h
      split at h
      · rename_i hnone
        obtain ⟨rfl, rfl⟩ := Prod.mk.inj (Option.some.inj h)
        refine Follows.quiet rfl (fun listed reported => ⟨listed, ?_⟩) (Or.inr rfl)
        have hnil : (L.finiteSystem.listChildren (x.plain root)).drop i = [] := by
          rw [hdrop, List.drop_eq_nil_of_le (List.getElem?_eq_none_iff.mp hnone), List.map_nil]
        simp only [Thread.plain, List.map_cons, Call.plain, hnil]
        rfl
      · rename_i v hv
        obtain ⟨rfl, rfl⟩ := Prod.mk.inj (Option.some.inj h)
        refine Follows.quiet rfl (fun listed reported => ⟨listed, ?_⟩) (Or.inr rfl)
        have hcons : (L.finiteSystem.listChildren (x.plain root)).drop i
            = (Node.plain root ⟨x.ref, v⟩)
              :: (L.finiteSystem.listChildren (x.plain root)).drop (i + 1) := by
          obtain ⟨hlt, rfl⟩ := List.getElem?_eq_some_iff.mp hv
          rw [hdrop, hdrop, List.drop_eq_getElem_cons hlt, List.map_cons]
          exact congrArg (· :: _) (plain_child root x _).symm
        simp only [Thread.plain, List.map_cons, Call.plain, hcons]
        rfl
    | solutionCb x stage => exact follows_solutionCb (hlocal _ List.mem_cons_self) h

/-- The next place in `worker_thread`. -/
theorem some_pc {pc : Pc n St Value} {l : List (Node n Value)} {k : List (Call n St Value)}
    {pc' : ParallelPthreadsSteal.Pc (ℕ × Value)} (h : pc' = pc.plain root)
    (hcalls : pc.calls L = []) (sh' : ParallelPthreadsSteal.Shared (ℕ × Value)) :
    some (sh', ({ pc := pc'
                  lnodes := l.map (Node.plain root)
                  calls := k.map (Call.plain L root t) } :
        ParallelPthreadsSteal.Thread (ℕ × Value)))
      = some (sh', Thread.plain L root t ⟨pc, l, k⟩) := by
  rw [Thread.plain, h, hcalls]
  rfl

/-- **A step of a thread that does not call `GetRoot`.** -/
theorem Follows.of_step (hlocal : th.Local) (hpc : ∀ i, th.pc ≠ .getRoot i)
    (hlist : ∀ x i, .listChildren x i ∈ th.calls → Lists L fresh root sh x)
    (h : Thread.step (ofEnumerable e fresh) false t pick answer sh th = some (sh', th')) :
    Follows L root t pick sh th sh' th' := by
  obtain ⟨pc, l, k⟩ := th
  cases pc with
  | getRoot i => exact absurd rfl (hpc i)
  | working b => exact follows_work hlocal.calls hlist h
  | outer =>
    obtain ⟨rfl, rfl⟩ := Prod.mk.inj (Option.some.inj h)
    refine Follows.quiet rfl (fun listed reported => ⟨listed, ?_⟩) (Or.inr rfl)
    refine some_pc (apply_ite (Pc.plain root) ((!sh.terminate) = true) .inner .done).symm ?_
      (sh.plain root listed reported)
    split_ifs <;> rfl
  | inner =>
    cases l with
    | cons x l =>
      obtain ⟨rfl, rfl⟩ := Prod.mk.inj (Option.some.inj h)
      exact Follows.quiet rfl (fun listed reported => ⟨listed ++ [x.plain root], rfl⟩) (Or.inr rfl)
    | nil =>
      obtain ⟨rfl, rfl⟩ := Prod.mk.inj (Option.some.inj h)
      refine Follows.quiet rfl (fun listed reported => ⟨listed, ?_⟩) (Or.inr rfl)
      refine some_pc (apply_ite (Pc.plain root) (sh.possibleRoots.length = 0)
        (.serve false .testAndSet) .openRoot).symm ?_ (sh.plain root listed reported)
      split_ifs <;> rfl
  | openRoot =>
    rw [Thread.step, Option.map_eq_some_iff] at h
    obtain ⟨⟨dequeued, roots⟩, hr, h⟩ := h
    cases dequeued with
    | none =>
      obtain ⟨rfl, rfl⟩ := Prod.mk.inj h
      refine Follows.quiet rfl (fun listed reported => ⟨listed, ?_⟩) (Or.inr rfl)
      show Option.map _ (tryDequeue sh.possibleRoots pick) = _
      rw [hr]
      rfl
    | some i =>
      obtain ⟨rfl, rfl⟩ := Prod.mk.inj h
      refine Follows.quiet rfl (fun listed reported => ⟨listed, ?_⟩) (Or.inr rfl)
      show Option.map _ (tryDequeue sh.possibleRoots pick) = _
      rw [hr]
      rfl
  | serve b stage =>
    rw [Thread.step, Option.map_eq_some_iff] at h
    obtain ⟨⟨sh₁, r⟩, hr, h⟩ := h
    obtain ⟨rfl, rfl⟩ := serveStage_local hlocal.pc hr
    obtain ⟨rfl, rfl⟩ := Prod.mk.inj h
    refine Or.inl ⟨?_, rfl, rfl, ?_⟩
    · cases b <;> rfl
    · cases b <;> simp [Thread.stutters, Pc.stutters]
  | incWaiting =>
    obtain ⟨rfl, rfl⟩ := Prod.mk.inj (Option.some.inj h)
    exact Follows.quiet rfl (fun listed reported => ⟨listed, rfl⟩) (Or.inr rfl)
  | dequeue =>
    rw [Thread.step, Option.map_eq_some_iff] at h
    obtain ⟨⟨dequeued, gnodes⟩, hr, h⟩ := h
    cases dequeued with
    | none =>
      obtain ⟨rfl, rfl⟩ := Prod.mk.inj h
      refine Follows.quiet rfl (fun listed reported => ⟨listed, ?_⟩) (Or.inl le_rfl)
      show Option.map _ (tryDequeue (sh.gnodes.map (Node.plain root)) pick) = _
      rw [tryDequeue_map, hr]
      rfl
    | some x =>
      obtain ⟨rfl, rfl⟩ := Prod.mk.inj h
      refine Follows.quiet rfl (fun listed reported => ⟨listed, ?_⟩) (Or.inl le_rfl)
      show Option.map _ (tryDequeue (sh.gnodes.map (Node.plain root)) pick) = _
      rw [tryDequeue_map, hr]
      rfl
  | checkTerminate =>
    obtain ⟨rfl, rfl⟩ := Prod.mk.inj (Option.some.inj h)
    refine Follows.quiet rfl (fun listed reported => ⟨listed, ?_⟩) (Or.inl ?_)
    · refine some_pc (apply_ite (Pc.plain root) ((!sh.terminate) = true) .checkWaiting
        (.decWaiting none)).symm ?_ (sh.plain root listed reported)
      split_ifs <;> rfl
    · unfold Thread.stutters
      split_ifs <;> exact le_rfl
  | checkWaiting =>
    obtain ⟨rfl, rfl⟩ := Prod.mk.inj (Option.some.inj h)
    refine Follows.quiet rfl (fun listed reported => ⟨listed, ?_⟩) (Or.inl ?_)
    · refine some_pc (apply_ite (Pc.plain root) (sh.waiting < n) .dequeue
        (.decWaiting none)).symm ?_ (sh.plain root listed reported)
      split_ifs <;> rfl
    · unfold Thread.stutters
      split_ifs <;> exact le_rfl
  | decWaiting stolen =>
    cases stolen with
    | some x =>
      obtain ⟨rfl, rfl⟩ := Prod.mk.inj (Option.some.inj h)
      exact Follows.quiet rfl (fun listed reported => ⟨listed ++ [x.plain root], rfl⟩) (Or.inr rfl)
    | none =>
      obtain ⟨rfl, rfl⟩ := Prod.mk.inj (Option.some.inj h)
      exact Follows.quiet rfl (fun listed reported => ⟨listed, rfl⟩) (Or.inr rfl)
  | enterMoreWork => exact absurd hlocal.pc id
  | barrier second wait => exact absurd hlocal.pc id
  | moreWork stage => exact absurd hlocal.pc id
  | setTerminate =>
    obtain ⟨rfl, rfl⟩ := Prod.mk.inj (Option.some.inj h)
    exact Follows.quiet rfl (fun listed reported => ⟨listed, rfl⟩) (Or.inr rfl)
  | done => cases h

/-! ### What a step keeps -/

section Keeps

variable {c : BufferSystem St Value}

theorem Thread.Local.step (hlocal : th.Local)
    (h : Thread.step c false t pick answer sh th = some (sh', th')) : th'.Local := by
  obtain ⟨hpc, hcalls⟩ := hlocal
  cases moves_of_step h with
  | giveUp l k => simp [Thread.step] at h
  | enterMoreWork l k => exact absurd hpc id
  | wait b l k hw => exact absurd hpc id
  | leaveFirst l k hw => exact absurd hpc id
  | leaveSecond l k hw => exact absurd hpc id
  | moreWork l k hw => exact absurd hpc id
  | endMoreWork l k => exact absurd hpc id
  | serveNode b x l k hserve =>
    have hstage := hcalls _ List.mem_cons_self
    obtain ⟨-, rfl⟩ := serveStage_local hstage hserve
    exact ⟨trivial, List.forall_mem_cons.mpr ⟨trivial, (List.forall_mem_cons.mp hcalls).2⟩⟩
  | serve b l k hserve =>
    have hr := (serveStage_local hpc hserve).2
    cases hr
  | noRoots k hroots => exact ⟨rfl, hcalls⟩
  | missRoot l k hroots => exact ⟨rfl, hcalls⟩
  | finish l => exact ⟨rfl, hcalls⟩
  | _ => exact ⟨trivial, by grind [Call.Local, Stage.Local]⟩

/-- The node that `ListChildren` passes on is a child. -/
theorem mem_of_passChild {b : Bool} {x : Node n Value} {i : ℕ} {v : Value}
    {l : List (Node n Value)} {k : List (Call n St Value)} {stage : Stage St Value}
    (h : Thread.step c false t pick answer sh ⟨.working b, l, .listChildren x i :: k⟩ = some (sh',
      ⟨.working b, l, .solutionCb ⟨x.ref, v⟩ stage :: .listChildren x (i + 1) :: k⟩)) :
    v ∈ c.listChildren (sh.buffer c x.ref) x.value := by
  simp only [Thread.step, Thread.work] at h
  cases hi : (c.listChildren (sh.buffer c x.ref) x.value)[i]? with
  | none =>
    rw [hi] at h
    have hlength := congrArg List.length (congrArg Thread.calls (Prod.mk.inj (Option.some.inj h)).2)
    simp only [List.length_cons] at hlength
    omega
  | some w =>
    rw [hi] at h
    simp only [Option.some.injEq, Prod.mk.injEq, Thread.mk.injEq, List.cons.injEq,
      Call.solutionCb.injEq, Node.mk.injEq, true_and] at h
    rw [← h.2.1.1]
    exact List.mem_of_getElem? hi

/-- A property that children have from their parents. -/
theorem keeps_of_step {P : Node n Value → Prop} (hlocal : th.Local)
    (hpc : ∀ i, th.pc ≠ .getRoot i) (hchild : ∀ x, P x →
      ∀ v ∈ c.listChildren (sh.buffer c x.ref) x.value, P ⟨x.ref, v⟩)
    (hth : ∀ x ∈ th.nodes t, P x) (hgnodes : ∀ x ∈ sh.gnodes, P x)
    (h : Thread.step c false t pick answer sh th = some (sh', th')) :
    (∀ x ∈ th'.nodes t, P x) ∧ ∀ x ∈ sh'.gnodes, P x := by
  cases moves_of_step h with
  | getRoot i l k => exact absurd rfl (hpc i)
  | enterMoreWork l k => exact absurd hlocal.pc id
  | wait b l k hw => exact absurd hlocal.pc id
  | leaveFirst l k hw => exact absurd hlocal.pc id
  | leaveSecond l k hw => exact absurd hlocal.pc id
  | moreWork l k hw => exact absurd hlocal.pc id
  | endMoreWork l k => exact absurd hlocal.pc id
  | serveNode b x l k hserve =>
    obtain ⟨rfl, rfl⟩ := serveStage_local (hlocal.calls _ List.mem_cons_self) hserve
    exact ⟨hth, hgnodes⟩
  | serve b l k hserve =>
    obtain ⟨rfl, -⟩ := serveStage_local hlocal.pc hserve
    exact ⟨hth, hgnodes⟩
  | served l k hserve =>
    obtain ⟨rfl, -⟩ := serveStage_local hlocal.pc hserve
    exact ⟨hth, hgnodes⟩
  | servedIdle l k hserve =>
    obtain ⟨rfl, -⟩ := serveStage_local hlocal.pc hserve
    exact ⟨hth, hgnodes⟩
  | steal x gnodes l k hperm =>
    refine ⟨?_, fun y hy => hgnodes y (hperm.mem_iff.mpr (List.mem_cons_of_mem x hy))⟩
    have hx := hgnodes x (hperm.mem_iff.mpr List.mem_cons_self)
    grind [Thread.nodes, Call.nodes, Pc.nodes]
  | passChild b x i v l k =>
    have hx : P x := hth x (by simp [Thread.nodes, Call.nodes])
    have hv := hchild x hx v (mem_of_passChild h)
    exact ⟨by grind [Thread.nodes, Call.nodes, Pc.nodes], hgnodes⟩
  | enqueue b x l k =>
    have hx : P x := hth x (by simp [Thread.nodes, Call.nodes])
    refine ⟨by grind [Thread.nodes, Call.nodes, Pc.nodes], ?_⟩
    exact List.forall_mem_append.mpr ⟨hgnodes, List.forall_mem_singleton.mpr hx⟩
  | _ => exact ⟨by grind [Thread.nodes, Call.nodes, Pc.nodes], hgnodes⟩

/-- Roots are only taken out of `possibleRoots`. -/
theorem roots_of_step (hlocal : th.Local)
    (h : Thread.step c false t pick answer sh th = some (sh', th')) :
    sh'.possibleRoots ⊆ sh.possibleRoots ∧
      ∀ i, th'.pc = .getRoot i → i ∈ sh.possibleRoots := by
  have hmoves := moves_of_step h
  constructor
  · rcases hmoves.possibleRoots with hsub | ⟨roots, hpc⟩
    · exact hsub
    · have hfalse := hlocal.pc
      rw [hpc] at hfalse
      exact absurd hfalse id
  · intro i hpc
    cases hmoves with
    | takeRoot j roots l k hperm =>
      obtain rfl := Pc.getRoot.inj hpc
      exact hperm.mem_iff.mpr List.mem_cons_self
    | _ => cases hpc

end Keeps

end Step

end ParallelPthreadsSteal.Callbacks

end ParallelEnum
