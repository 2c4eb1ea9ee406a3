import ParallelEnum.Enumerator.DistributedMpi.Threads
import ParallelEnum.Enumerator.Equiv.DistributedMpi.Pool
import ParallelEnum.Enumerator.Equiv.ParallelPthreadsSteal.Control

/-!
# The work that the threads of a process hold

To the master a process holds roots and subtrees.  They are spread over the queues, the local nodes
and the calls in progress of the threads (`held`).  A node that `ListChildren` has still to pass to
its callback counts as a subtree already, so it is known before it is reported: `owed` are the nodes
still to be reported.

`progress_of_step` says what one step of one thread does with them, by the callback it makes.
-/

namespace ParallelEnum.DistributedMpi.Threads

open ParallelPthreadsSteal (FiniteSystem)
open ParallelPthreadsSteal.Callbacks

variable {Value : Type} {nthreads : ℕ} {c : FiniteSystem Value} {isSolution : Value → Bool}

/-! ### Work -/

/-- Roots to be opened. -/
def rootWork (roots : List ℕ) : Multiset (Work Value) := ↑(roots.map (Work.root : ℕ → Work Value))

/-- Nodes whose children are to be listed. -/
def nodeWork (nodes : List Value) : Multiset (Work Value) := ↑(nodes.map Work.subtree)

def dataWork : MoreWorkData Unit Value → Multiset (Work Value)
  | .range first second => rootWork (List.range' first (second - first))
  | .roots roots => rootWork roots
  | .subtree nodes => nodeWork (nodes.map Prod.snd)
  | .nothing => 0

/-- The node that a call of `ServeSteal` may give away. -/
def offered : Option (Node nthreads Value) → Multiset (Work Value)
  | none => 0
  | some node => {.subtree node.value}

/-- The work in a call of `ServeSteal`, which may give `offered` away. -/
def serveWork (offered : Multiset (Work Value)) : ServeStage Unit Value → Multiset (Work Value)
  | .readSize roots => rootWork roots + offered
  | .compareSize roots => rootWork roots + offered
  | .dequeueRoot roots => rootWork roots + offered
  | .choose roots => rootWork roots + offered
  | .sendSteal (.subtree nodes) => nodeWork (nodes.map Prod.snd)
  | .sendSteal data => dataWork data + offered
  | .clear true => 0
  | _ => offered

/-- The work that is left after a step of `ServeSteal`. -/
def servedWork (offered : Multiset (Work Value)) :
    ServeStage Unit Value ⊕ Bool → Multiset (Work Value)
  | .inl stage => serveWork offered stage
  | .inr true => 0
  | .inr false => offered

/-- The children that a call of `ListChildren` has still to pass to its callback. -/
def restOf (c : FiniteSystem Value) (node : Node nthreads Value) (i : ℕ) : List Value :=
  (c.listChildren node.value).drop i

def callWork (c : FiniteSystem Value) : Call nthreads Unit Value → Multiset (Work Value)
  | .getRoot rest => nodeWork rest
  | .listChildren node i => nodeWork (restOf c node i)
  | .solutionCb node (.serve stage) => serveWork (offered (some node)) stage
  | .solutionCb _ .report => 0
  | .solutionCb node _ => {.subtree node.value}

def moreWorkWork : MoreWorkStage Unit Value → Multiset (Work Value)
  | .reset mwd => dataWork mwd
  | .enqueueRoots roots => rootWork roots
  | .enqueueNodes nodes => nodeWork (nodes.map Prod.snd)
  | _ => 0

def pcWork : Pc nthreads Unit Value → Multiset (Work Value)
  | .getRoot i => {.root i}
  | .decWaiting (some node) => {.subtree node.value}
  | .serve _ stage => serveWork (offered (none : Option (Node nthreads Value))) stage
  | .moreWork stage => moreWorkWork stage
  | _ => 0

/-- The work of some nodes. -/
def storedWork (nodes : List (Node nthreads Value)) : Multiset (Work Value) :=
  nodeWork (nodes.map Node.value)

def threadWork (c : FiniteSystem Value) (th : Thread nthreads Unit Value) : Multiset (Work Value) :=
  pcWork th.pc + storedWork th.lnodes + (th.calls.map (callWork c)).sum

def sharedWork (sh : ParallelPthreadsSteal.Callbacks.Shared nthreads Unit Value) :
    Multiset (Work Value) :=
  rootWork sh.possibleRoots + storedWork sh.gnodes

/-- All the work that the threads hold. -/
def held (c : FiniteSystem Value) (s : Group nthreads Value) :
    Multiset (Work Value) :=
  sharedWork s.shared + ∑ t, threadWork c (s.threads t)

/-! ### Nodes to be reported -/

def callOwed (c : FiniteSystem Value) : Call nthreads Unit Value → Multiset Value
  | .getRoot rest => ↑rest
  | .listChildren node i => ↑(restOf c node i)
  | .solutionCb node _ => {node.value}

def threadOwed (c : FiniteSystem Value) (th : Thread nthreads Unit Value) : Multiset Value :=
  (th.calls.map (callOwed c)).sum

/-- The nodes that are known and not reported. -/
def owed (c : FiniteSystem Value) (s : Group nthreads Value) :
    Multiset Value :=
  ∑ t, threadOwed c (s.threads t)

/-! ### One step -/

/-- What a step does with the work that is held and the nodes that are owed, by the callback that
the step makes. -/
def Progress (c : FiniteSystem Value) (answer : MoreWorkData Unit Value)
    (work work' : Multiset (Work Value)) (owed owed' : Multiset Value) :
    Option (Callback Value) → Prop
  | none => (work' = work ∧ owed' = owed) ∨
    ∃ item rest, work = item ::ₘ rest ∧ work' = rest + nodeWork (Pool.successors c item) ∧
      owed' = owed + ↑(Pool.successors c item)
  | some .checkSteal => work' = work ∧ owed' = owed
  | some (.sendSteal data) => work = dataWork data + work' ∧ owed' = owed
  | some (.reportSolution value) => work' = work ∧ owed = value ::ₘ owed'
  | some .moreWork => work' = work + dataWork answer ∧ owed' = owed

theorem Progress.frame {answer : MoreWorkData Unit Value} {work work' : Multiset (Work Value)}
    {owed owed' : Multiset Value} {callback : Option (Callback Value)}
    (h : Progress c answer work work' owed owed' callback) (frame : Multiset (Work Value))
    (frame' : Multiset Value) :
    Progress c answer (work + frame) (work' + frame) (owed + frame') (owed' + frame') callback := by
  rcases callback with _ | _ | _ | data | value
  · rcases h with ⟨rfl, rfl⟩ | ⟨item, rest, rfl, rfl, rfl⟩
    · exact Or.inl ⟨rfl, rfl⟩
    · refine Or.inr ⟨item, rest + frame, Multiset.cons_add .., ?_, ?_⟩
      · abel
      · abel
  · obtain ⟨rfl, rfl⟩ := h
    exact ⟨by abel, rfl⟩
  · obtain ⟨rfl, rfl⟩ := h
    exact ⟨rfl, rfl⟩
  · obtain ⟨rfl, rfl⟩ := h
    exact ⟨add_assoc .., rfl⟩
  · obtain ⟨rfl, rfl⟩ := h
    exact ⟨rfl, Multiset.cons_add ..⟩

@[simp] theorem rootWork_nil : (rootWork [] : Multiset (Work Value)) = 0 := rfl

@[simp] theorem nodeWork_nil : (nodeWork [] : Multiset (Work Value)) = 0 := rfl

@[simp] theorem rootWork_cons (i : ℕ) (roots : List ℕ) :
    (rootWork (i :: roots) : Multiset (Work Value)) = {.root i} + rootWork roots := rfl

@[simp] theorem nodeWork_cons (value : Value) (nodes : List Value) :
    nodeWork (value :: nodes) = {.subtree value} + nodeWork nodes := rfl

@[simp] theorem rootWork_append (roots roots' : List ℕ) :
    (rootWork (roots ++ roots') : Multiset (Work Value)) = rootWork roots + rootWork roots' := by
  rw [rootWork, List.map_append, ← Multiset.coe_add]
  rfl

@[simp] theorem nodeWork_append (nodes nodes' : List Value) :
    nodeWork (nodes ++ nodes') = nodeWork nodes + nodeWork nodes' := by
  rw [nodeWork, List.map_append, ← Multiset.coe_add]
  rfl

theorem rootWork_perm {roots roots' : List ℕ} (h : roots.Perm roots') :
    (rootWork roots : Multiset (Work Value)) = rootWork roots' :=
  Multiset.coe_eq_coe.mpr (h.map _)

theorem storedWork_perm {nodes nodes' : List (Node nthreads Value)} (h : nodes.Perm nodes') :
    storedWork nodes = storedWork nodes' :=
  Multiset.coe_eq_coe.mpr ((h.map _).map _)

@[simp] theorem storedWork_nil : storedWork ([] : List (Node nthreads Value)) = 0 := rfl

@[simp] theorem storedWork_cons (node : Node nthreads Value) (nodes : List (Node nthreads Value)) :
    storedWork (node :: nodes) = {.subtree node.value} + storedWork nodes := rfl

@[simp] theorem storedWork_append (nodes nodes' : List (Node nthreads Value)) :
    storedWork (nodes ++ nodes') = storedWork nodes + storedWork nodes' := by
  rw [storedWork, List.map_append, nodeWork_append]
  rfl

theorem serveWork_clear (work : Multiset (Work Value)) (offloadedNode : Bool) :
    serveWork work (.clear offloadedNode) = servedWork work (.inr offloadedNode) := by
  cases offloadedNode <;> rfl

/-- `ServeSteal(dummyNode, false)` has no node to give away. -/
theorem servedWork_none (offloadedNode : Bool) : servedWork
    (offered (none : Option (Node nthreads Value))) (.inr offloadedNode) = 0 := by
  cases offloadedNode <;> rfl

section Step

variable {t : Fin nthreads} {pick : ℕ} {answer : MoreWorkData Unit Value}
  {sh sh' : ParallelPthreadsSteal.Callbacks.Shared nthreads Unit Value}
  {th th' : Thread nthreads Unit Value}

/-- `ServeSteal` takes roots out of `possibleRoots`, and sends them or the node that it is given. -/
theorem progress_serve {node : Option (Node nthreads Value)} {stage : ServeStage Unit Value}
    {r : ServeStage Unit Value ⊕ Bool}
    (h : stage.step (systemOf c isSolution) true pick node sh = some (sh', r)) :
    Progress c answer (rootWork sh.possibleRoots + serveWork (offered node) stage)
      (rootWork sh'.possibleRoots + servedWork (offered node) r) 0 0 (serveCallback stage) := by
  cases stage with
  | testAndSet =>
    rw [ServeStage.step] at h
    split_ifs at h
    · obtain ⟨rfl, rfl⟩ := Prod.mk.inj (Option.some.inj h)
      exact Or.inl ⟨rfl, rfl⟩
    · obtain ⟨rfl, rfl⟩ := Prod.mk.inj (Option.some.inj h)
      exact Or.inl ⟨rfl, rfl⟩
  | checkSteal =>
    obtain ⟨rfl, rfl⟩ := Prod.mk.inj (Option.some.inj h)
    refine ⟨?_, rfl⟩
    split_ifs
    · rfl
    · show _ + (rootWork [] + _) = _
      rw [rootWork_nil, zero_add]
      rfl
  | readSize roots =>
    obtain ⟨rfl, rfl⟩ := Prod.mk.inj (Option.some.inj h)
    refine Or.inl ⟨?_, rfl⟩
    split_ifs <;> rfl
  | compareSize roots =>
    obtain ⟨rfl, rfl⟩ := Prod.mk.inj (Option.some.inj h)
    refine Or.inl ⟨?_, rfl⟩
    split_ifs <;> rfl
  | dequeueRoot roots =>
    rw [ServeStage.step, Option.map_eq_some_iff] at h
    obtain ⟨q, hq, h⟩ := h
    refine Or.inl ⟨?_, rfl⟩
    rcases ParallelPthreadsSteal.tryDequeue_cases hq with ⟨hroots, rfl⟩ | ⟨i, left, rfl, hperm⟩
    · obtain ⟨rfl, rfl⟩ := Prod.mk.inj h
      rw [hroots]
      rfl
    · obtain ⟨rfl, rfl⟩ := Prod.mk.inj h
      rw [rootWork_perm hperm]
      simp only [servedWork, serveWork, rootWork_append, rootWork_cons, rootWork_nil, add_zero]
      abel
  | choose roots =>
    cases roots with
    | cons i roots =>
      obtain ⟨rfl, rfl⟩ := Prod.mk.inj (Option.some.inj h)
      exact Or.inl ⟨rfl, rfl⟩
    | nil =>
      cases node with
      | none =>
        obtain ⟨rfl, rfl⟩ := Prod.mk.inj (Option.some.inj h)
        exact Or.inl ⟨rfl, rfl⟩
      | some node =>
        obtain ⟨rfl, rfl⟩ := Prod.mk.inj (Option.some.inj h)
        refine Or.inl ⟨?_, rfl⟩
        simp [servedWork, serveWork, offered]
  | sendSteal data =>
    cases data with
    | subtree nodes =>
      obtain ⟨rfl, rfl⟩ := Prod.mk.inj (Option.some.inj h)
      refine ⟨?_, rfl⟩
      simp only [servedWork, serveWork, dataWork, add_zero]
      abel
    | _ =>
      obtain ⟨rfl, rfl⟩ := Prod.mk.inj (Option.some.inj h)
      refine ⟨?_, rfl⟩
      simp only [servedWork, serveWork, dataWork]
      abel
  | clear offloadedNode =>
    obtain ⟨rfl, rfl⟩ := Prod.mk.inj (Option.some.inj h)
    refine Or.inl ⟨?_, rfl⟩
    rw [serveWork_clear]

/-- `ServeSteal` leaves `gnodes` alone. -/
theorem serve_gnodes {node : Option (Node nthreads Value)} {stage : ServeStage Unit Value}
    {r : ServeStage Unit Value ⊕ Bool}
    (h : stage.step (systemOf c isSolution) true pick node sh = some (sh', r)) :
    sh'.gnodes = sh.gnodes := by
  obtain ⟨roots, flag, rfl, -⟩ := serveStage_step h
  rfl

theorem callWork_afterServe (node : Node nthreads Value) (r : ServeStage Unit Value ⊕ Bool) :
    callWork c (.solutionCb node (Thread.afterServe r)) = servedWork (offered (some node)) r := by
  rcases r with _ | _ | _ <;> rfl

/-- The part of a step that is a step of `ServeSteal`, among the other work. -/
theorem progress_frame {callback : Option (Callback Value)}
    {work work' part part' : Multiset (Work Value)} {owed : Multiset Value}
    (rest : Multiset (Work Value)) (h : Progress c answer part part' 0 0 callback)
    (hwork : work = part + rest) (hwork' : work' = part' + rest) :
    Progress c answer work work' owed owed callback := by
  rw [hwork, hwork']
  have hframe := h.frame rest owed
  rwa [zero_add] at hframe

/-- Between the barriers. -/
theorem progress_moreWork {stage : MoreWorkStage Unit Value} (l : List (Node nthreads Value))
    (k : List (Call nthreads Unit Value))
    (h : Thread.step (systemOf c isSolution) true t pick answer sh ⟨.moreWork stage, l, k⟩
      = some (sh', th')) :
    Progress c answer (sharedWork sh + threadWork c ⟨.moreWork stage, l, k⟩)
      (sharedWork sh' + threadWork c th') (threadOwed c ⟨.moreWork stage, l, k⟩)
      (threadOwed c th') (callback (⟨.moreWork stage, l, k⟩ : Thread nthreads Unit Value)) := by
  obtain ⟨rfl, rfl⟩ := Prod.mk.inj (Option.some.inj h)
  cases stage with
  | moreWork =>
    refine ⟨?_, rfl⟩
    simp only [MoreWorkStage.step, threadWork, pcWork, moreWorkWork]
    abel
  | testAndSet =>
    refine Or.inl ⟨?_, rfl⟩
    simp only [MoreWorkStage.step]
    split_ifs <;> rfl
  | readTerminate =>
    refine Or.inl ⟨?_, rfl⟩
    simp only [MoreWorkStage.step]
    split_ifs <;> rfl
  | readLnodes =>
    refine Or.inl ⟨?_, rfl⟩
    simp only [MoreWorkStage.step]
    split_ifs <;> rfl
  | readRoots =>
    refine Or.inl ⟨?_, rfl⟩
    simp only [MoreWorkStage.step]
    split_ifs <;> rfl
  | readGnodes =>
    refine Or.inl ⟨?_, rfl⟩
    simp only [MoreWorkStage.step]
    split_ifs <;> rfl
  | reset mwd => cases mwd <;> exact Or.inl ⟨rfl, rfl⟩
  | enqueueRoots roots =>
    cases roots with
    | nil => exact Or.inl ⟨rfl, rfl⟩
    | cons i roots =>
      refine Or.inl ⟨?_, rfl⟩
      simp only [MoreWorkStage.step, sharedWork, threadWork, pcWork, moreWorkWork,
        rootWork_append, rootWork_cons, rootWork_nil]
      abel
  | enqueueNodes nodes =>
    cases nodes with
    | nil => exact Or.inl ⟨rfl, rfl⟩
    | cons node nodes =>
      refine Or.inl ⟨?_, rfl⟩
      simp only [MoreWorkStage.step, sharedWork, threadWork, pcWork, moreWorkWork, List.map_cons,
        storedWork_append, storedWork_cons, storedWork_nil, nodeWork_cons]
      abel
  | _ => exact Or.inl ⟨rfl, rfl⟩

/-- `ListChildren` passes the child at position `i` to its callback, or returns. -/
theorem restOf_of_step {b : Bool} {node : Node nthreads Value} {i : ℕ}
    {l : List (Node nthreads Value)} {k : List (Call nthreads Unit Value)}
    (h : Thread.step (systemOf c isSolution) true t pick answer sh
      ⟨.working b, l, .listChildren node i :: k⟩ = some (sh', th')) :
    sh' = sh ∧ ((restOf c node i = [] ∧ th' = ⟨.working b, l, k⟩) ∨
      ∃ value, restOf c node i = value :: restOf c node (i + 1) ∧
        th' = ⟨.working b, l, .solutionCb ⟨node.ref, value⟩ (.serve .testAndSet) ::
          .listChildren node (i + 1) :: k⟩) := by
  have hchildren : (systemOf c isSolution).listChildren (sh.buffer (systemOf c isSolution) node.ref)
      node.value = c.listChildren node.value := rfl
  simp only [Thread.step, Thread.work, hchildren] at h
  cases hi : (c.listChildren node.value)[i]? with
  | none =>
    rw [hi] at h
    obtain ⟨rfl, rfl⟩ := Prod.mk.inj (Option.some.inj h)
    exact ⟨rfl, Or.inl ⟨List.drop_eq_nil_of_le (List.getElem?_eq_none_iff.mp hi), rfl⟩⟩
  | some value =>
    rw [hi] at h
    obtain ⟨rfl, rfl⟩ := Prod.mk.inj (Option.some.inj h)
    obtain ⟨hlt, rfl⟩ := List.getElem?_eq_some_iff.mp hi
    exact ⟨rfl, Or.inr ⟨_, List.drop_eq_getElem_cons hlt, rfl⟩⟩

theorem progress_of_step
    (h : Thread.step (systemOf c isSolution) true t pick answer sh th = some (sh', th')) :
    Progress c answer (sharedWork sh + threadWork c th) (sharedWork sh' + threadWork c th')
      (threadOwed c th) (threadOwed c th') (callback th) := by
  cases ParallelPthreadsSteal.Callbacks.moves_of_step h with
  | pop x l k =>
    -- a local node is listed
    refine Or.inr ⟨.subtree x.value, sharedWork sh + storedWork l + (k.map (callWork c)).sum,
      ?_, ?_, ?_⟩
    · simp only [threadWork, pcWork, storedWork_cons, ← Multiset.singleton_add]
      abel
    · simp only [threadWork, pcWork, List.map_cons, List.sum_cons, callWork, restOf, List.drop_zero,
        Pool.successors]
      abel
    · simp only [threadOwed, List.map_cons, List.sum_cons, callOwed, restOf, List.drop_zero,
        Pool.successors]
      abel
  | takeRoot i roots l k hperm =>
    refine Or.inl ⟨?_, rfl⟩
    simp only [sharedWork, threadWork, pcWork, rootWork_perm hperm, rootWork_cons]
    abel
  | getRoot i l k =>
    -- a root is opened
    refine Or.inr ⟨.root i, sharedWork sh + storedWork l + (k.map (callWork c)).sum, ?_, ?_, ?_⟩
    · simp only [threadWork, pcWork, ← Multiset.singleton_add]
      abel
    · simp only [sharedWork, threadWork, pcWork, List.map_cons, List.sum_cons, callWork,
        Pool.successors, systemOf, ofFiniteSystem]
      abel
    · simp only [threadOwed, List.map_cons, List.sum_cons, callOwed, Pool.successors, systemOf,
        ofFiniteSystem]
      abel
  | endList b x i l k =>
    obtain ⟨-, ⟨hrest, -⟩ | ⟨value, -, hth⟩⟩ := restOf_of_step h
    · refine Or.inl ⟨?_, ?_⟩
      · simp only [threadWork, List.map_cons, List.sum_cons, callWork, hrest, nodeWork_nil,
          zero_add]
      · simp only [threadOwed, List.map_cons, List.sum_cons, callOwed, hrest, Multiset.coe_nil,
          zero_add]
    · have hlength := congrArg (fun th => th.calls.length) hth
      simp only [List.length_cons] at hlength
      omega
  | passRoot b v rest l k =>
    refine Or.inl ⟨?_, ?_⟩
    · simp only [threadWork, List.map_cons, List.sum_cons, callWork, serveWork, offered,
        nodeWork_cons]
      abel
    · simp only [threadOwed, List.map_cons, List.sum_cons, callOwed, ← Multiset.cons_coe,
        ← Multiset.singleton_add]
      abel
  | endRoot b l k =>
    refine Or.inl ⟨?_, ?_⟩
    · simp only [threadWork, List.map_cons, List.sum_cons, callWork, nodeWork_nil, zero_add]
    · simp only [threadOwed, List.map_cons, List.sum_cons, callOwed, Multiset.coe_nil, zero_add]
  | passChild b x i v l k =>
    obtain ⟨-, ⟨-, hth⟩ | ⟨value, hrest, hth⟩⟩ := restOf_of_step h
    · have hlength := congrArg (fun th => th.calls.length) hth
      simp only [List.length_cons] at hlength
      omega
    · obtain rfl : v = value := by simpa using hth
      refine Or.inl ⟨?_, ?_⟩
      · simp only [threadWork, List.map_cons, List.sum_cons, callWork, serveWork, offered, hrest,
          nodeWork_cons]
        abel
      · simp only [threadOwed, List.map_cons, List.sum_cons, callOwed, hrest, ← Multiset.cons_coe,
          ← Multiset.singleton_add]
        abel
  | serveNode b x l k hserve =>
    refine progress_frame (storedWork sh.gnodes + storedWork l + (k.map (callWork c)).sum)
      (progress_serve hserve) ?_ ?_
    · simp only [sharedWork, threadWork, pcWork, List.map_cons, List.sum_cons, callWork]
      abel
    · simp only [sharedWork, threadWork, pcWork, List.map_cons, List.sum_cons, serve_gnodes hserve,
        callWork_afterServe]
      abel
  | enqueue b x l k =>
    refine Or.inl ⟨?_, rfl⟩
    simp only [sharedWork, threadWork, List.map_cons, List.sum_cons, callWork, storedWork_append,
      storedWork_cons, storedWork_nil]
    abel
  | push b x l k =>
    refine Or.inl ⟨?_, rfl⟩
    simp only [threadWork, List.map_cons, List.sum_cons, callWork, storedWork_cons]
    abel
  | recurse b x l k =>
    refine Or.inr ⟨.subtree x.value, sharedWork sh + storedWork l + (k.map (callWork c)).sum,
      ?_, ?_, ?_⟩
    · simp only [threadWork, pcWork, List.map_cons, List.sum_cons, callWork,
        ← Multiset.singleton_add]
      abel
    · simp only [threadWork, pcWork, List.map_cons, List.sum_cons, callWork, restOf, List.drop_zero,
        Pool.successors]
      abel
    · simp only [threadOwed, List.map_cons, List.sum_cons, callOwed, restOf, List.drop_zero,
        Pool.successors]
      abel
  | report b x l k =>
    refine ⟨?_, rfl⟩
    simp only [threadWork, List.map_cons, List.sum_cons, callWork, zero_add]
  | reportSolution b x l k =>
    refine ⟨?_, rfl⟩
    simp only [sharedWork, threadWork, List.map_cons, List.sum_cons, callWork, zero_add]
  | serve b l k hserve =>
    refine progress_frame (storedWork sh.gnodes + storedWork l + (k.map (callWork c)).sum)
      (progress_serve hserve) ?_ ?_
    · simp only [sharedWork, threadWork, pcWork]
      abel
    · simp only [sharedWork, threadWork, pcWork, serve_gnodes hserve, servedWork]
      abel
  | served l k hserve =>
    refine progress_frame (storedWork sh.gnodes + storedWork l + (k.map (callWork c)).sum)
      (progress_serve hserve) ?_ ?_
    · simp only [sharedWork, threadWork, pcWork]
      abel
    · simp only [sharedWork, threadWork, pcWork, serve_gnodes hserve, servedWork_none]
      abel
  | servedIdle l k hserve =>
    refine progress_frame (storedWork sh.gnodes + storedWork l + (k.map (callWork c)).sum)
      (progress_serve hserve) ?_ ?_
    · simp only [sharedWork, threadWork, pcWork]
      abel
    · simp only [sharedWork, threadWork, pcWork, serve_gnodes hserve, servedWork_none]
      abel
  | steal x gnodes l k hperm =>
    refine Or.inl ⟨?_, rfl⟩
    simp only [sharedWork, threadWork, pcWork, storedWork_perm hperm, storedWork_cons]
    abel
  | stole x l k =>
    refine Or.inr ⟨.subtree x.value, sharedWork sh + storedWork l + (k.map (callWork c)).sum,
      ?_, ?_, ?_⟩
    · simp only [threadWork, pcWork, ← Multiset.singleton_add]
      abel
    · simp only [sharedWork, threadWork, pcWork, List.map_cons, List.sum_cons, callWork, restOf,
        List.drop_zero, Pool.successors]
      abel
    · simp only [threadOwed, List.map_cons, List.sum_cons, callOwed, restOf, List.drop_zero,
        Pool.successors]
      abel
  | moreWork l k hmove => exact progress_moreWork l k h
  | endMoreWork l k => exact progress_moreWork l k h
  | _ => exact Or.inl ⟨rfl, rfl⟩

end Step

theorem thread_of_step {t : Fin nthreads} {pick : ℕ} {mwd : MoreWorkData Unit Value}
    {s s' : Group nthreads Value} (h : Group.step c isSolution t pick mwd s = some s') :
    ∃ th', Thread.step (systemOf c isSolution) true t pick mwd s.shared (s.threads t)
        = some (s'.shared, th') ∧ s'.threads = Function.update s.threads t th' := by
  rw [Group.step, ParallelPthreadsSteal.Callbacks.step, Option.map_eq_some_iff] at h
  obtain ⟨⟨sh', th'⟩, hstep, rfl⟩ := h
  exact ⟨th', hstep, rfl⟩

/-- **One step of one thread**, seen from all threads. -/
theorem progress_of_group_step {t : Fin nthreads} {pick : ℕ} {mwd : MoreWorkData Unit Value}
    {s s' : Group nthreads Value} (h : Group.step c isSolution t pick mwd s = some s') :
    Progress c mwd (held c s) (held c s') (owed c s) (owed c s') (callback (s.threads t)) := by
  obtain ⟨th', hstep, hthreads⟩ := thread_of_step h
  obtain ⟨restWork, hwork, hwork'⟩ := Transition.exists_sum_update (threadWork c) s.threads t
  obtain ⟨restOwed, howed, howed'⟩ := Transition.exists_sum_update (threadOwed c) s.threads t
  rw [held, held, owed, owed, hthreads, hwork, hwork', howed, howed', ← add_assoc, ← add_assoc]
  exact (progress_of_step hstep).frame restWork restOwed

end ParallelEnum.DistributedMpi.Threads
