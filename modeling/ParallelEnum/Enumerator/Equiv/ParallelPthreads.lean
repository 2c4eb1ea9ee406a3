import ParallelEnum.Enumerator.Equiv.ParallelPthreads.Moves
import ParallelEnum.Enumerator.Equiv.ParallelPthreadsSteal

/-!
# What `ParallelPthreads` reports

The counts of `ParallelPthreadsSteal` are taken over: what has been counted and what is still to be
counted below the nodes in the queues adds up to the count of the whole forest (`reaches_weight`).

A call of `dequeue` may fail although the queue is not empty, while another thread is in a call for
the same queue.  So a thread may return with a node in its own queue.

* `finished_left`: the nodes that are missing at the end are those below the nodes in the queues.
* `finished_visits_of_exact`: none is missing if no thread misses a node in its own queue, and with
  one thread none ever is.
-/

namespace ParallelEnum.ParallelPthreads

open Traversal Transition ConcurrentQueue
open ParallelPthreadsSteal (FiniteSystem lastRootId rootIds treeWeight treesWeight storedWeight
  treeWeight_eq treesWeight_nil treesWeight_cons treesWeight_eq_sum sum_treesWeight
  sum_map_singleton)

variable {Node : Type} {c : FiniteSystem Node} {n : ℕ}

/-! ### Nothing is lost -/

section Weight

universe u

variable {M : Type u} [AddCommMonoid M] (list report : Node → M)

/-- What is still to be counted for the nodes in the queues. -/
def queuesWeight (c : FiniteSystem Node) (gnodes : Fin n → Producer Node) : M :=
  ∑ q, ((gnodes q).stored.map (storedWeight list report c)).sum

/-- What is still to be counted below the roots that no thread has taken. -/
def rootsWeight (c : FiniteSystem Node) (maxRootId nextRoot : ℕ) : M :=
  ((List.range' nextRoot (maxRootId - nextRoot)).map fun i =>
    treesWeight list report c (c.getRoot i)).sum

/-- What has been counted, and what is still to be counted in the shared variables. -/
def Shared.weight (c : FiniteSystem Node) (maxRootId : ℕ) (sh : Shared Node n) : M :=
  (sh.listed.map list).sum + (sh.reported.map report).sum
    + rootsWeight list report c maxRootId sh.nextRoot + queuesWeight list report c sh.gnodes

/-- What is still to be counted in the loop of a thread. -/
def Pc.weight (c : FiniteSystem Node) : Pc Node n → M
  | .call _ rest => treesWeight list report c rest
  | .enqueue _ rest x _ => treeWeight list report c x + treesWeight list report c rest
  | .report _ rest x => report x + treesWeight list report c rest
  | _ => 0

/-- What is still to be counted in a thread. -/
def Thread.weight (c : FiniteSystem Node) : Thread Node n → M
  | .run _ _ pc => pc.weight list report c
  | _ => 0

theorem rootsWeight_of_lt {maxRootId nextRoot : ℕ} (h : nextRoot < maxRootId) :
    rootsWeight list report c maxRootId nextRoot = treesWeight list report c (c.getRoot nextRoot)
      + rootsWeight list report c maxRootId (nextRoot + 1) := by
  have hlen : maxRootId - nextRoot = (maxRootId - (nextRoot + 1)) + 1 := by omega
  rw [rootsWeight, hlen, List.range'_succ, List.map_cons, List.sum_cons]
  rfl

theorem rootsWeight_of_le {maxRootId nextRoot : ℕ} (h : maxRootId ≤ nextRoot) :
    rootsWeight list report c maxRootId nextRoot = 0 := by
  rw [rootsWeight, Nat.sub_eq_zero_of_le h]
  rfl

/-- The queues after the queue of one producer has changed. -/
theorem queuesWeight_update (gnodes : Fin n → Producer Node) (q : Fin n) (p' : Producer Node)
    (added removed : Multiset Node) (h : (gnodes q).stored + added = removed + p'.stored) :
    queuesWeight list report c gnodes + (added.map (storedWeight list report c)).sum
      = (removed.map (storedWeight list report c)).sum
        + queuesWeight list report c (Function.update gnodes q p') := by
  obtain ⟨rest, hbefore, hafter⟩ := exists_sum_update
    (fun p : Producer Node => (p.stored.map (storedWeight list report c)).sum) gnodes q
  have hsum := congrArg (fun m => (m.map (storedWeight list report c)).sum) h
  simp only [Multiset.map_add, Multiset.sum_add] at hsum
  rw [queuesWeight, queuesWeight, hbefore, hafter, add_right_comm, hsum, add_assoc]

/-- A step of `dequeue` that returns nothing leaves the nodes in the queues. -/
theorem queuesWeight_keep (gnodes : Fin n → Producer Node) (q : Fin n) {p' : Producer Node}
    (h : (gnodes q).stored = p'.stored) :
    queuesWeight list report c (Function.update gnodes q p')
      = queuesWeight list report c gnodes := by
  have hsum := queuesWeight_update list report (c := c) gnodes q p' 0 0
    (by rw [add_zero, zero_add, h])
  simpa using hsum.symm

/-- A step moves counts between the shared variables and the thread that takes it. -/
theorem Moves.weight {maxRootId : ℕ} {sh sh' : Shared Node n} {th th' : Thread Node n}
    (h : Moves c maxRootId sh th sh' th') {calls : Fin n → Fin n → Option Dequeue} {t : Fin n}
    (hgnodes : ∀ q, (sh.gnodes q).Inv (calls q)) (hcalls : ∀ q, calls q t = th.callOn q)
    (hok : ∀ p b pc, th = .run p b pc → pc.Ok c (sh.gnodes p)) :
    sh'.weight list report c maxRootId + th'.weight list report c
      = sh.weight list report c maxRootId + th.weight list report c := by
  -- a step of `dequeue` takes out of the queue what it returns
  have hdequeue : ∀ {q : Fin n} {d : Dequeue} {p' : Producer Node} {r : Dequeue ⊕ Option Node},
      th.callOn q = some d → d.step (sh.gnodes q) = some (p', r) →
      queuesWeight list report c sh.gnodes = ((returned r).map (storedWeight list report c)).sum
        + queuesWeight list report c (Function.update sh.gnodes q p') := by
    intro q d p' r hcall hd
    have hstored := (hgnodes q).stored_step ((hcalls q).trans hcall) hd
    have hsum := queuesWeight_update list report (c := c) sh.gnodes q p' 0
      ↑(returned r) (by rw [add_zero, hstored])
    simpa using hsum
  cases h with
  | takeRoot p hlt =>
    simp only [Shared.weight, Thread.weight, Pc.weight, rootsWeight_of_lt list report hlt]
    abel
  | lastRoot p hle =>
    simp only [Shared.weight, Thread.weight, Pc.weight, rootsWeight_of_le list report hle,
      rootsWeight_of_le list report (hle.trans (Nat.le_succ _))]
  | callBack p b caller x rest =>
    simp only [Shared.weight, Thread.weight, Pc.weight, treesWeight_cons]
  | construct p b caller rest x y =>
    have hkeep := queuesWeight_keep list report (c := c) sh.gnodes p
      ((sh.gnodes p).stored_construct y).symm
    simp only [Shared.weight, Thread.weight, Pc.weight]
    exact congrArg (fun w => _ + w + _) hkeep
  | publish p b caller rest x k =>
    obtain ⟨⟨rfl, hx⟩, hz⟩ := hok p b _ rfl
    have hstored := Producer.stored_publish hx
    have hupdate := queuesWeight_update list report (c := c) sh.gnodes p
      { sh.gnodes p with tailIndex := (sh.gnodes p).tailIndex + 1 } {x} 0
      (by rw [hstored, zero_add])
    have hx := treeWeight_eq list report (hz x List.mem_cons_self)
    simp only [Multiset.map_singleton, Multiset.sum_singleton, Multiset.map_zero,
      Multiset.sum_zero, zero_add] at hupdate
    simp only [Shared.weight, Thread.weight, Pc.weight, hx, Enqueue.step,
      Nat.add_comm 1 (sh.gnodes p).tailIndex, ← hupdate]
    abel
  | report p b caller rest x =>
    simp only [Shared.weight, Thread.weight, Pc.weight, List.map_append, List.sum_append,
      List.map_cons, List.sum_cons, List.map_nil, List.sum_nil]
    abel
  | @goOn p b pc q d d' p' htakes hd =>
    have hqueues := hdequeue (Thread.callOn_self htakes) hd
    rw [returned, List.map_nil, List.sum_nil, zero_add] at hqueues
    have hpc : (pc.goOn d').weight list report c = pc.weight list report c := by
      cases pc <;> rfl
    simp only [Shared.weight, Thread.weight, hpc, hqueues]
  | @found p b pc q d x p' htakes hd =>
    have hqueues := hdequeue (Thread.callOn_self htakes) hd
    have hpc : (Thread.run p b pc).weight list report c = 0 := by
      cases pc with
      | own | scan => rfl
      | _ => cases htakes
    simp only [returned, Option.toList_some, List.map_cons, List.map_nil, List.sum_cons,
      List.sum_nil, add_zero, storedWeight] at hqueues
    rw [hpc]
    simp only [Shared.weight, Thread.weight, Pc.weight, hqueues, List.map_append,
      List.sum_append, List.map_cons, List.sum_cons, List.map_nil, List.sum_nil, add_zero]
    abel
  | missOwn p b r hd =>
    have hqueues := hdequeue (Thread.callOn_self rfl) hd
    simp only [Shared.weight, Thread.weight, Pc.weight, hqueues, returned, Option.toList_none,
      List.map_nil, List.sum_nil, zero_add]
  | missScan p b r r' hd =>
    have hqueues := hdequeue (Thread.callOn_self rfl) hd
    simp only [Shared.weight, Thread.weight, Pc.weight, hqueues, returned, Option.toList_none,
      List.map_nil, List.sum_nil, zero_add]
  | missLast p b r hd =>
    have hqueues := hdequeue (Thread.callOn_self rfl) hd
    simp only [Shared.weight, Thread.weight, Pc.weight, hqueues, returned, Option.toList_none,
      List.map_nil, List.sum_nil, zero_add]
  | _ => simp only [Shared.weight, Thread.weight, Pc.weight, treesWeight_nil]

end Weight

/-! ### Runs -/

section Runs

variable {minRootId maxRootId : ℕ} (hlast : lastRootId c maxRootId ≤ c.maxRoots) {s : State Node n}
  (h : Reaches (step c maxRootId) Any (init n minRootId) s)

include hlast h

theorem reaches_inv : Inv c (lastRootId c maxRootId) s :=
  h.invariant (inv_init c _ n minRootId) fun _ _ _ hs _ hstep => inv_step hlast hs hstep

/-- **Nothing is lost.** What has been counted and what is still to be counted adds up to the
count of the trees below the roots. -/
theorem reaches_weight {M : Type*} [AddCommMonoid M] (list report : Node → M) :
    s.shared.weight list report c (lastRootId c maxRootId)
        + ∑ t, (s.threads t).weight list report c
      = rootsWeight list report c (lastRootId c maxRootId) minRootId := by
  refine h.invariant_of
    (I := fun s => s.shared.weight list report c (lastRootId c maxRootId)
      + ∑ t, (s.threads t).weight list report c
      = rootsWeight list report c (lastRootId c maxRootId) minRootId)
    (fun u hu => reaches_inv hlast hu) ?_ ?_
  · simp [init, Shared.weight, Thread.weight, queuesWeight, Producer.stored]
  · intro s a s' hs hsum _ hstep
    obtain ⟨sh, th, hmoves, rfl⟩ := step_cases hstep
    have hweight := hmoves.weight list report hs.gnodes (t := a.thread) (fun q => rfl)
      fun p b pc => hs.pcs a.thread p b pc
    obtain ⟨rest, hbefore, hafter⟩ :=
      exists_sum_update (fun th => Thread.weight list report c th) s.threads a.thread
    rw [hbefore, ← add_assoc, ← hweight] at hsum
    show sh.weight list report c (lastRootId c maxRootId)
      + ∑ t, (Function.update s.threads a.thread th t).weight list report c = _
    rw [hafter th, ← add_assoc, hsum]

end Runs

/-! ### When all threads have returned -/

/-- The nodes that are still in the queues. -/
def State.left (s : State Node n) : Multiset Node := ∑ q, (s.shared.gnodes q).stored

theorem queuesWeight_eq {M : Type*} [AddCommMonoid M] (list report : Node → M)
    (s : State Node n) : queuesWeight list report c s.shared.gnodes
      = (s.left.map (storedWeight list report c)).sum := by
  rw [queuesWeight, State.left]
  induction (Finset.univ : Finset (Fin n)) using Finset.induction with
  | empty => rfl
  | insert q qs hq ih =>
    rw [Finset.sum_insert hq, Finset.sum_insert hq, ih, Multiset.map_add, Multiset.sum_add]

section Finished

variable {minRootId maxRootId : ℕ} (hlast : lastRootId c maxRootId ≤ c.maxRoots) {s : State Node n}
  (h : Reaches (step c maxRootId) Any (init n minRootId) s) (hn : 0 < n) (hs : Finished s)

include hlast h hn hs

/-- When all threads have returned, work is left only for the nodes in the queues. -/
theorem weight_of_finished {M : Type*} [AddCommMonoid M] (list report : Node → M) :
    (s.shared.listed.map list).sum + (s.shared.reported.map report).sum
        + (s.left.map (storedWeight list report c)).sum
      = rootsWeight list report c (lastRootId c maxRootId) minRootId := by
  have hpast : lastRootId c maxRootId ≤ s.shared.nextRoot := by
    apply (reaches_inv hlast h).past ⟨0, hn⟩
    rw [hs]
    trivial
  have hthreads : ∑ t, (s.threads t).weight list report c = 0 :=
    Finset.sum_eq_zero fun t _ => by rw [hs t]; rfl
  have hweight := reaches_weight hlast h list report
  rw [hthreads, add_zero, Shared.weight, rootsWeight_of_le list report hpast, add_zero,
    queuesWeight_eq] at hweight
  exact hweight

end Finished

/-- What is below a stored node. -/
theorem storedWeight_eq {M : Type*} [AddCommMonoid M] (list report : Node → M) (x : Node) :
    storedWeight list report c x
      = list x + ((c.forest.below x).map fun y => list y + report y).sum := by
  rw [storedWeight, treesWeight_eq_sum]
  rfl

/-- The nodes in the queues are nodes of the forest. -/
theorem Inv.ok_of_mem_left {maxRootId : ℕ} {s : State Node n} (hs : Inv c maxRootId s) {x : Node}
    (hx : x ∈ s.left) : c.forest.Ok x := by
  obtain ⟨q, -, hx⟩ := Multiset.mem_sum.mp hx
  obtain ⟨j, -, hx⟩ := Multiset.mem_sum.mp hx
  cases hj : (s.shared.gnodes q).elements j with
  | none =>
    rw [hj] at hx
    exact absurd hx (Multiset.notMem_zero x)
  | some y =>
    rw [hj] at hx
    obtain rfl := Multiset.mem_singleton.mp hx
    exact hs.nodes q j x hj

/-- **What may be left.** When all threads have returned, every node below the roots of the range
has been listed and reported once, except those below the nodes that are still in the queues.
Nothing is missing exactly when the queues are empty. -/
theorem finished_left {minRootId maxRootId : ℕ} (hlast : lastRootId c maxRootId ≤ c.maxRoots)
    {s : State Node n} (h : Reaches (step c maxRootId) Any (init n minRootId) s) (hn : 0 < n)
    (hs : Finished s) :
    (s.shared.listed : Multiset Node) + s.left.bind (fun x => (c.forest.subtree x : Multiset Node))
        = ↑(c.nodesBelow (rootIds c minRootId maxRootId)) ∧
      (s.shared.reported : Multiset Node)
        + s.left.bind (fun x => (c.forest.below x : Multiset Node))
        = ↑(c.nodesBelow (rootIds c minRootId maxRootId)) ∧
      (s.shared.listed.Perm (c.nodesBelow (rootIds c minRootId maxRootId)) ↔
        s.left = 0) := by
  have hok : ∀ x ∈ s.left, c.forest.Ok x := fun x => (reaches_inv hlast h).ok_of_mem_left
  have hlisted : (s.shared.listed : Multiset Node)
      + s.left.bind (fun x => (c.forest.subtree x : Multiset Node))
        = ↑(c.nodesBelow (rootIds c minRootId maxRootId)) := by
    have hweight := weight_of_finished hlast h hn hs (fun x => ({x} : Multiset Node)) fun _ => 0
    rw [rootsWeight, sum_treesWeight _ _ fun _ => add_zero _,
      sum_map_singleton] at hweight
    rw [rootIds, ← hweight]
    have hbind : s.left.bind (fun x => (c.forest.subtree x : Multiset Node))
        = (s.left.map (storedWeight (fun x => ({x} : Multiset Node)) (fun _ => 0) c)).sum := by
      apply congrArg Multiset.sum
      apply Multiset.map_congr rfl
      intro x hx
      rw [storedWeight_eq, Forest.subtree_eq (hok x hx)]
      simp only [add_zero, sum_map_singleton]
      rfl
    rw [hbind]
    simp
  refine ⟨hlisted, ?_, ?_⟩
  · have hweight := weight_of_finished hlast h hn hs (fun _ => 0) fun x => ({x} : Multiset Node)
    rw [rootsWeight, sum_treesWeight _ _ fun _ => zero_add _,
      sum_map_singleton] at hweight
    rw [rootIds, ← hweight]
    have hbind : s.left.bind (fun x => (c.forest.below x : Multiset Node))
        = (s.left.map (storedWeight (fun _ => 0) (fun x => ({x} : Multiset Node)) c)).sum := by
      apply congrArg Multiset.sum
      apply Multiset.map_congr rfl
      intro x _
      rw [storedWeight_eq]
      simp only [zero_add, sum_map_singleton]
    rw [hbind]
    simp
  · rw [← Multiset.coe_eq_coe, ← hlisted]
    constructor
    · intro heq
      have hzero : s.left.bind (fun x => (c.forest.subtree x : Multiset Node)) = 0 := by
        simpa using heq
      apply Multiset.eq_zero_of_forall_notMem
      intro x hx
      have hmem : x ∈ s.left.bind fun x => (c.forest.subtree x : Multiset Node) :=
        Multiset.mem_bind.mpr ⟨x, hx, Forest.self_mem_subtree (hok x hx)⟩
      rw [hzero] at hmem
      exact Multiset.notMem_zero x hmem
    · intro hzero
      rw [hzero, Multiset.zero_bind, add_zero]

/-! ### When no thread misses a node of its own -/

/-- All that has been published has been taken. -/
def Exhausted (p : Producer Node) : Prop := p.tailIndex ≤ p.headIndex

theorem Exhausted.step {p p' : Producer Node} (h : Exhausted p) {d : Dequeue}
    {r : Dequeue ⊕ Option Node} (hd : d.step p = some (p', r)) : Exhausted p' := by
  have hmoved := Dequeue.moved_of_step hd
  unfold Exhausted
  rw [hmoved.tail_eq]
  exact le_trans h hmoved.head_le

/-- `try_dequeue_from_producer` fails only if the queue is empty. -/
def Exact (s : State Node n) (a : Action n) : Prop :=
  ∀ p b d p', s.threads a.thread = .run p b (.own d) →
    d.step (s.shared.gnodes p) = some (p', .inr none) → Exhausted (s.shared.gnodes p)

/-- A thread with this place has failed to take a node out of its own queue, and has put none into
it since. -/
def Pc.isLate : Pc Node n → Bool
  | .scan _ _ _ | .checkRoots | .leave => true
  | _ => false

/-- What holds in a run in which all actions are exact. -/
structure Drained (s : State Node n) : Prop where
  inactive : ∀ p, s.shared.inactive p = true → Exhausted (s.shared.gnodes p)
  late : ∀ t p b pc, s.threads t = .run p b pc → pc.isLate = true →
    Exhausted (s.shared.gnodes p)

theorem drained_init (n minRootId : ℕ) : Drained (init n minRootId : State Node n) where
  inactive _ _ := le_rfl
  late _ _ _ _ h := by cases h

/-- A thread that is late was late before, or has just failed at its own queue. -/
theorem Moves.late {maxRootId : ℕ} {sh sh' : Shared Node n} {th : Thread Node n} {p : Fin n}
    {b : Bool} {pc : Pc Node n} (h : Moves c maxRootId sh th sh' (.run p b pc))
    (hlate : pc.isLate = true)
    (hbefore : ∀ b pc, th = .run p b pc → pc.isLate = true → Exhausted (sh.gnodes p))
    (hexact : ∀ b d p', th = .run p b (.own d) → d.step (sh.gnodes p) = some (p', .inr none) →
      Exhausted (sh.gnodes p)) : Exhausted (sh'.gnodes p) := by
  have hdequeue : ∀ {q : Fin n} {d : Dequeue} {q' : Producer Node} {r : Dequeue ⊕ Option Node},
      Exhausted (sh.gnodes p) → d.step (sh.gnodes q) = some (q', r) →
      Exhausted (Function.update sh.gnodes q q' p) := by
    intro q d q' r hp hd
    rcases eq_or_ne p q with rfl | hne
    · rw [Function.update_self]
      exact hp.step hd
    · rw [Function.update_of_ne hne]
      exact hp
  cases h with
  | @goOn _ _ pc' q d d' q' htakes hd =>
    cases pc' with
    | own => cases hlate
    | scan => exact hdequeue (hbefore b _ rfl rfl) hd
    | _ => cases htakes
  | missOwn _ _ q hd => exact hdequeue (hexact b _ _ rfl hd) hd
  | missScan _ _ q q' hd => exact hdequeue (hbefore b _ rfl rfl) hd
  | missLast _ _ q hd => exact hdequeue (hbefore b _ rfl rfl) hd
  | exit => exact hbefore b _ rfl rfl
  | _ => cases hlate

theorem drained_step {maxRootId : ℕ} {s s' : State Node n} {a : Action n}
    (hs : Inv c (lastRootId c maxRootId) s) (hdrained : Drained s) (hexact : Exact s a)
    (h : step c maxRootId s a = some s') : Drained s' := by
  obtain ⟨sh, th, hmoves, rfl⟩ := step_cases h
  -- the queue of a producer whose token the thread does not have
  have hother : ∀ q, (s.threads a.thread).holder ≠ some q → Exhausted (s.shared.gnodes q) →
      Exhausted (sh.gnodes q) := by
    intro q hq hexh
    rcases hmoves.gnodes_of_ne hq with heq | ⟨d, r, -, hd⟩
    · rw [heq]
      exact hexh
    · exact hexh.step hd
  constructor
  case inactive =>
    intro q hq
    replace hq : sh.inactive q = true := hq
    show Exhausted (sh.gnodes q)
    rcases hmoves.holder_cases with
      ⟨-, heq⟩ | ⟨p, -, hnone, -, heq⟩ | ⟨p, b, hrun, -, hgnodes, heq⟩
    · rw [heq] at hq
      apply hother q
      · intro hholder
        rw [hs.active _ q hholder] at hq
        cases hq
      · exact hdrained.inactive q hq
    · rw [heq] at hq
      rcases eq_or_of_update hq with ⟨-, hfalse⟩ | ⟨-, hq⟩
      · cases hfalse
      · apply hother q
        · rw [hnone]
          intro hsome
          cases hsome
        · exact hdrained.inactive q hq
    · rw [hgnodes]
      rw [heq] at hq
      rcases eq_or_of_update hq with ⟨rfl, -⟩ | ⟨-, hq⟩
      · exact hdrained.late a.thread q b .leave hrun rfl
      · exact hdrained.inactive q hq
  case late =>
    intro t p b pc ht hlate
    rcases eq_or_of_update ht with ⟨-, hth⟩ | ⟨hne, ht⟩
    · subst hth
      exact hmoves.late hlate (fun b pc h hl => hdrained.late _ p b pc h hl)
        fun b d p' h hd => hexact p b d p' h hd
    · apply hother p
      · intro hp
        exact hne (hs.distinct t a.thread p (by rw [ht]; rfl) hp)
      · exact hdrained.late t p b pc ht hlate

section ExactRuns

variable {minRootId maxRootId : ℕ} (hlast : lastRootId c maxRootId ≤ c.maxRoots) {s : State Node n}
  (h : Reaches (step c maxRootId) Exact (init n minRootId) s)

include h

/-- A run in which all actions are exact is a run. -/
theorem reaches_any : Reaches (step c maxRootId) Any (init n minRootId) s :=
  h.mono fun _ _ _ => trivial

include hlast

theorem reaches_drained : Drained s := by
  refine h.invariant_of (J := Inv c (lastRootId c maxRootId)) ?_ (drained_init n minRootId) ?_
  · intro u hu
    exact reaches_inv hlast (reaches_any hu)
  · intro s a s' hs hdrained hexact hstep
    exact drained_step hs hdrained hexact hstep

/-- When all threads have returned, the queues are empty. -/
theorem left_of_exact (hs : Finished s) : s.left = 0 := by
  have hinv := reaches_inv hlast (reaches_any h)
  have hdrained := reaches_drained hlast h
  apply Finset.sum_eq_zero
  intro q _
  have hexhausted : Exhausted (s.shared.gnodes q) := by
    cases hq : s.shared.inactive q with
    | true => exact hdrained.inactive q hq
    | false =>
      obtain ⟨t, ht⟩ := hinv.held q hq
      rw [hs t] at ht
      cases ht
  apply Finset.sum_eq_zero
  intro j hj
  have hlt : j < (s.shared.gnodes q).headIndex := (Finset.mem_range.mp hj).trans_le hexhausted
  have hgone := (hinv.gnodes q).gone j hlt fun t ht => by rw [hs t] at ht; cases ht
  rw [hgone]
  rfl

end ExactRuns

/-- When all threads have returned after an exact run, nothing is missing. -/
theorem visits_of_exact (c : FiniteSystem Node) (hn : 0 < n) {s : State Node n}
    (h : Reaches (step c 0) Exact (init n 0) s) (hs : Finished s) :
    s.shared.listed.Perm c.nodes ∧ s.shared.reported.Perm c.nodes ∧
      ∃ bound, ∀ fuel > bound, ∃ e, Sequential.runInternal fuel c.system () {} = some ((), e) ∧
        s.shared.reported.Perm e.items := by
  have hlast : lastRootId c 0 ≤ c.maxRoots := le_of_eq (if_pos rfl)
  obtain ⟨hlisted, hreported, -⟩ := finished_left hlast (reaches_any h) hn hs
  rw [left_of_exact hlast h hs, Multiset.zero_bind, add_zero, Multiset.coe_eq_coe,
    ParallelPthreadsSteal.rootIds_default] at hlisted hreported
  obtain ⟨bound, hbound⟩ := c.sequential_items
  refine ⟨hlisted, hreported, bound, ?_⟩
  intro fuel hfuel
  obtain ⟨e, hrun, hitems⟩ := hbound fuel hfuel
  exact ⟨e, hrun, hreported.trans hitems.symm⟩

/-! ### One thread -/

/-- What a call of `dequeue` has read is what it would read now. -/
def IsFresh (p : Producer Node) : Dequeue → Prop
  | .gotTail tail => tail = p.tailIndex
  | .gotOvercommit tail overcommit => tail = p.tailIndex ∧ overcommit = p.dequeueOvercommit
  | .draw overcommit => overcommit = p.dequeueOvercommit ∧ p.headIndex < p.tailIndex
  | .drawn overcommit myDequeueCount => overcommit = p.dequeueOvercommit ∧
      myDequeueCount = p.headIndex + p.dequeueOvercommit ∧ p.headIndex < p.tailIndex
  | .giveBack => False
  | _ => True

/-- A call that no other runs beside goes on with what it would read now, and fails only on an
empty queue. -/
theorem fresh_step {p p' : Producer Node} {d : Dequeue} {r : Dequeue ⊕ Option Node}
    (hopt : p.dequeueOptimisticCount = p.headIndex + p.dequeueOvercommit + d.place.inside)
    (hfresh : IsFresh p d) (hd : d.step p = some (p', r)) :
    (∀ d', r = .inl d' → IsFresh p' d') ∧ (r = .inr none → Exhausted p) := by
  cases d with
  | start | gotTail _ =>
    obtain ⟨rfl, rfl⟩ := Prod.mk.inj (Option.some.inj hd)
    refine ⟨?_, fun h => by cases h⟩
    intro d' h
    cases h
    first
    | rfl
    | exact ⟨hfresh, rfl⟩
  | gotOvercommit tail overcommit =>
    obtain ⟨rfl, rfl⟩ := hfresh
    change p.dequeueOptimisticCount = p.headIndex + p.dequeueOvercommit + 0 at hopt
    rw [Dequeue.step] at hd
    split_ifs at hd with hlt
    · obtain ⟨rfl, rfl⟩ := Prod.mk.inj (Option.some.inj hd)
      refine ⟨?_, fun h => by cases h⟩
      intro d' h
      cases h
      exact ⟨rfl, by omega⟩
    · obtain ⟨rfl, rfl⟩ := Prod.mk.inj (Option.some.inj hd)
      refine ⟨(fun d' h => by cases h), ?_⟩
      intro _
      show p.tailIndex ≤ p.headIndex
      omega
  | draw overcommit =>
    obtain ⟨rfl, hlt⟩ := hfresh
    change p.dequeueOptimisticCount = p.headIndex + p.dequeueOvercommit + 0 at hopt
    simp only [Dequeue.step] at hd
    split_ifs at hd
    obtain ⟨rfl, rfl⟩ := Prod.mk.inj (Option.some.inj hd)
    refine ⟨?_, fun h => by cases h⟩
    intro d' h
    cases h
    exact ⟨rfl, hopt, hlt⟩
  | drawn overcommit myDequeueCount =>
    obtain ⟨rfl, rfl, hlt⟩ := hfresh
    obtain ⟨rfl, rfl⟩ := Prod.mk.inj (Option.some.inj hd)
    rw [if_pos (by omega)]
    refine ⟨?_, fun h => by cases h⟩
    intro d' h
    cases h
    trivial
  | take =>
    obtain ⟨rfl, rfl⟩ := Prod.mk.inj (Option.some.inj hd)
    refine ⟨?_, fun h => by cases h⟩
    intro d' h
    cases h
    trivial
  | moveOut index =>
    obtain ⟨x, -, hx⟩ := Option.map_eq_some_iff.mp hd
    obtain ⟨rfl, rfl⟩ := Prod.mk.inj hx
    exact ⟨(fun d' h => by cases h), fun h => by cases h⟩
  | giveBack => exact hfresh.elim

/-- What the calls of a single thread have read is what they would read now. -/
def Fresh (s : State Node 1) : Prop :=
  ∀ t p b pc q d, s.threads t = .run p b pc → pc.takes p = some (q, d) →
    IsFresh (s.shared.gnodes q) d

/-- The tickets of a single thread. -/
theorem Inv.optimistic_eq {maxRootId : ℕ} {s : State Node 1} (hs : Inv c maxRootId s) {t p : Fin 1}
    {b : Bool} {pc : Pc Node 1} {q : Fin 1} {d : Dequeue} (ht : s.threads t = .run p b pc)
    (htakes : pc.takes p = some (q, d)) :
    (s.shared.gnodes q).dequeueOptimisticCount
      = (s.shared.gnodes q).headIndex + (s.shared.gnodes q).dequeueOvercommit + d.place.inside := by
  have hopt := (hs.gnodes q).tickets.optimistic_eq
  have hsum : ∑ u, (callPlace ((s.threads u).callOn q)).inside = d.place.inside := by
    rw [Fintype.sum_unique, Subsingleton.elim default t, ht, Thread.callOn_self htakes]
    rfl
  rw [hsum] at hopt
  exact hopt

theorem Moves.fresh {maxRootId : ℕ} {sh sh' : Shared Node 1} {th th' : Thread Node 1}
    (h : Moves c maxRootId sh th sh' th')
    (hgo : ∀ p b pc q d d' p', th = .run p b pc → pc.takes p = some (q, d) →
      d.step (sh.gnodes q) = some (p', .inl d') → IsFresh p' d')
    {p : Fin 1} {b : Bool} {pc : Pc Node 1} {q : Fin 1} {d : Dequeue} (hth : th' = .run p b pc)
    (htakes : pc.takes p = some (q, d)) : IsFresh (sh'.gnodes q) d := by
  cases h with
  | lastRoot | noRoots | rootDone | missOwn | missScan =>
    cases hth
    cases htakes
    trivial
  | @goOn p' b' pc' r e e' p' hbefore hd =>
    cases hth
    rw [Pc.takes_goOn hbefore] at htakes
    cases htakes
    show IsFresh (Function.update sh.gnodes q p' q) d
    rw [Function.update_self]
    exact hgo p b pc' q e d p' rfl hbefore hd
  | start | takeRoot | childrenDone | callBack | construct | publish | report | found | missLast
  | exit | again =>
    cases hth
    cases htakes
  | leave => cases hth

theorem fresh_of_step {maxRootId : ℕ} {s s' : State Node 1} {a : Action 1}
    (hs : Inv c (lastRootId c maxRootId) s) (hfresh : Fresh s)
    (h : step c maxRootId s a = some s') : Fresh s' := by
  obtain ⟨sh, th, hmoves, rfl⟩ := step_cases h
  intro t p b pc q d ht htakes
  replace ht : Function.update s.threads a.thread th t = .run p b pc := ht
  rw [Subsingleton.elim t a.thread, Function.update_self] at ht
  refine hmoves.fresh ?_ ht htakes
  intro p' b' pc' q' d' d'' p'' hth htakes' hd
  have hfresh' := hfresh _ p' b' pc' q' d' hth htakes'
  exact (fresh_step (hs.optimistic_eq hth htakes') hfresh' hd).1 d'' rfl

/-- All actions of a single thread are exact. -/
theorem reaches_exact_of_single {s : State Node 1}
    (h : Reaches (step c 0) Any (init 1 0) s) : Reaches (step c 0) Exact (init 1 0) s := by
  have hlast : lastRootId c 0 ≤ c.maxRoots := le_of_eq (if_pos rfl)
  have hfresh : ∀ u, Reaches (step c 0) Any (init 1 0) u → Fresh u := by
    intro u hu
    refine hu.invariant_of (J := Inv c (lastRootId c 0)) (fun v hv => reaches_inv hlast hv) ?_ ?_
    · intro t p b pc q d ht
      cases ht
    · intro v a w hv hfresh _ hstep
      exact fresh_of_step hv hfresh hstep
  apply h.strengthen
  intro u a hu _ p b d p' ht hd
  have htakes : (Pc.own d : Pc Node 1).takes p = some (p, d) := rfl
  have hopt := (reaches_inv hlast hu).optimistic_eq ht htakes
  exact (fresh_step hopt (hfresh u hu a.thread p b (.own d) p d ht rfl) hd).2 rfl

/-- **The threads visit what `Sequential` visits**, if `try_dequeue_from_producer` fails only on
empty queues; with one thread it always does. -/
theorem finished_visits_of_exact (c : FiniteSystem Node) (hn : 0 < n) {s : State Node n}
    (h : Reaches (step c 0) (fun s a => n = 1 ∨ Exact s a) (init n 0) s) (hs : Finished s) :
    s.shared.listed.Perm c.nodes ∧ s.shared.reported.Perm c.nodes ∧
      ∃ bound, ∀ fuel > bound, ∃ e, Sequential.runInternal fuel c.system () {} = some ((), e) ∧
        s.shared.reported.Perm e.items := by
  rcases eq_or_ne n 1 with rfl | hne
  · exact visits_of_exact c hn (reaches_exact_of_single (h.mono fun _ _ _ => trivial)) hs
  · exact visits_of_exact c hn (h.mono fun _ _ hexact => hexact.resolve_left hne) hs

/-! ### Three nodes in a row -/

/-- A root, its only child, and the only child of that. -/
def chain : FiniteSystem ℕ where
  canUseRecursion := false
  maxRoots := 1
  getRoot _ := [0]
  forest :=
    { children := fun x => if x < 2 then [x + 1] else []
      Ok := fun _ => True
      rank := fun x => 2 - x
      ok_of_mem := fun _ _ => trivial
      rank_lt_of_mem := by
        intro x y _ hy
        split_ifs at hy with hx
        · rw [List.mem_singleton.mp hy]
          omega
        · exact absurd hy List.not_mem_nil }
  ok_getRoot _ _ _ _ := trivial

/-- Whether a thread has returned. -/
def Thread.isDone : Thread Node n → Bool
  | .done => true
  | _ => false

theorem Thread.eq_done {th : Thread Node n} (h : th.isDone = true) : th = .done := by
  cases th with
  | done => rfl
  | _ => cases h

/-- The second thread fails at the queue of the first one, and gives its ticket back only after the
first one has failed there too, with a node in it. -/
def lossyRun : List (Action 2) :=
  [(0, 0, 7), (1, 1, 1), (1, 0, 7), (0, 0, 7), (1, 0, 2), (0, 0, 17), (1, 0, 6)].flatMap
    fun turn => List.replicate turn.2.2 ⟨turn.1, turn.2.1⟩

theorem finished_left_lossy :
    ∃ s, run (step chain 0) Any lossyRun (init 2 0) = some s ∧ Finished s ∧
      s.shared.reported = [0, 1] ∧ s.left ≠ 0 := by
  have hrun : (run (step chain 0) Any lossyRun (init 2 0)).map (fun s =>
      ((s.threads 0).isDone, (s.threads 1).isDone, s.shared.listed, s.shared.reported))
        = some (true, true, [0], [0, 1]) := by
    decide +kernel
  obtain ⟨s, hs, hstate⟩ := Option.map_eq_some_iff.mp hrun
  simp only [Prod.mk.injEq] at hstate
  obtain ⟨h0, h1, hlisted, hreported⟩ := hstate
  have hfinished : Finished s := by
    intro t
    match t with
    | 0 => exact Thread.eq_done h0
    | 1 => exact Thread.eq_done h1
  refine ⟨s, hs, hfinished, hreported, ?_⟩
  have hlast : lastRootId chain 0 ≤ chain.maxRoots := le_rfl
  have hiff := (finished_left hlast (reaches_of_run hs) Nat.two_pos hfinished).2.2
  have hnodes : chain.nodesBelow (rootIds chain 0 0) = [0, 1, 2] := by decide +kernel
  rw [hlisted, hnodes] at hiff
  intro hzero
  have hperm := hiff.mpr hzero
  exact absurd hperm.length_eq (by decide)

/-- The only thread takes every step. -/
def chainRun : List (Action 1) := List.replicate 50 ⟨Fin.last 0, 0⟩

/-- Whether an action is exact. -/
def isExact (s : State Node n) (a : Action n) : Bool :=
  match s.threads a.thread with
  | .run p _ (.own d) =>
    match d.step (s.shared.gnodes p) with
    | some (_, .inr none) =>
      decide ((s.shared.gnodes p).tailIndex ≤ (s.shared.gnodes p).headIndex)
    | _ => true
  | _ => true

theorem exact_of_isExact {s : State Node n} {a : Action n} (h : isExact s a = true) :
    Exact s a := by
  intro p b d p' hth hd
  unfold isExact at h
  rw [hth] at h
  simp only [hd] at h
  show (s.shared.gnodes p).tailIndex ≤ (s.shared.gnodes p).headIndex
  exact of_decide_eq_true h

/-- The second thread takes the root out of the queue of the first one, which takes the child out of
the queue of the second one, and so on. -/
def handOverRun : List (Action 2) :=
  [(0, 0, 7), (1, 1, 1), (1, 0, 18), (0, 1, 17), (1, 0, 22), (0, 1, 10)].flatMap
    fun turn => List.replicate turn.2.2 ⟨turn.1, turn.2.1⟩

theorem finished_visits_of_exact_chain :
    (∃ s, run (step chain 0) Any chainRun (init 1 0) = some s ∧
      s.shared.reported.Perm chain.nodes) ∧
    ∃ s, run (step chain 0) (fun s a => isExact s a = true) handOverRun (init 2 0) = some s ∧
      s.shared.reported.Perm chain.nodes := by
  constructor
  · have hrun : (run (step chain 0) Any chainRun (init 1 0)).map (fun s => (s.threads 0).isDone)
        = some true := by
      decide +kernel
    obtain ⟨s, hs, hdone⟩ := Option.map_eq_some_iff.mp hrun
    have hfinished : Finished s := fun t => Subsingleton.elim 0 t ▸ Thread.eq_done hdone
    have hreaches : Reaches (step chain 0) (fun s a => 1 = 1 ∨ Exact s a) (init 1 0) s :=
      (reaches_of_run hs).mono fun _ _ _ => Or.inl rfl
    obtain ⟨-, hreported, -⟩ := finished_visits_of_exact chain Nat.one_pos hreaches hfinished
    exact ⟨s, hs, hreported⟩
  · have hrun : (run (step chain 0) (fun s a => isExact s a = true) handOverRun (init 2 0)).map
        (fun s => ((s.threads 0).isDone, (s.threads 1).isDone)) = some (true, true) := by
      decide +kernel
    obtain ⟨s, hs, hdone⟩ := Option.map_eq_some_iff.mp hrun
    obtain ⟨h0, h1⟩ := Prod.mk.inj hdone
    have hfinished : Finished s := by
      intro t
      match t with
      | 0 => exact Thread.eq_done h0
      | 1 => exact Thread.eq_done h1
    have hreaches : Reaches (step chain 0) (fun s a => 2 = 1 ∨ Exact s a) (init 2 0) s :=
      (reaches_of_run hs).mono fun _ _ h => Or.inr (exact_of_isExact h)
    obtain ⟨-, hreported, -⟩ := finished_visits_of_exact chain Nat.two_pos hreaches hfinished
    exact ⟨s, hs, hreported⟩

end ParallelEnum.ParallelPthreads
