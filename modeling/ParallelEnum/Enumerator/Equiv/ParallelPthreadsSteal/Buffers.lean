import ParallelEnum.Enumerable.Diam2Kplex
import ParallelEnum.Enumerator.Equiv.ParallelPthreadsSteal.MoreWork

/-!
# Who refers to the buffer of a thread

A thread puts a node into `gnodes` only if it has seen another thread wait, and then
`possibleRoots` is empty until all threads have come to the barriers.  So while there are roots to
open, nobody but a thread itself has nodes that refer to its buffer (`Owned`), and a thread that
opens a root has none itself.

`getRoot_unshared` is the result, for `Diam2KplexEnumeration`; `buffers_step` says what it is good
for: the buffer that a node refers to is not overwritten.
-/

namespace ParallelEnum.ParallelPthreadsSteal.Callbacks

open Transition

variable {n : ℕ} {Buffer Value : Type} {c : BufferSystem Buffer Value} {callbacks : Bool}

/-! ### The nodes of a thread -/

/-- The nodes that a call in progress has, in the thread `t`. -/
def Call.nodes (t : Fin n) : Call n Buffer Value → List (Node n Value)
  | .getRoot rest => rest.map fun value => ⟨.thread t, value⟩
  | .listChildren node _ => [node]
  | .solutionCb node _ => [node]

/-- The node that a thread has just taken out of `gnodes`. -/
def Pc.nodes : Pc n Buffer Value → List (Node n Value)
  | .decWaiting stolen => stolen.toList
  | _ => []

/-- The nodes that the thread `t` has. -/
def Thread.nodes (t : Fin n) (th : Thread n Buffer Value) : List (Node n Value) :=
  th.pc.nodes ++ th.lnodes ++ th.calls.flatMap (Call.nodes t)

section Moves

variable {t : Fin n} {pick : ℕ} {answer : MoreWorkData Buffer Value}
  {sh sh' : Shared n Buffer Value} {th th' : Thread n Buffer Value}

/-- Where the references of a thread come from. -/
theorem Moves.nodes (h : Moves c callbacks t pick answer sh th sh' th') {x : Node n Value}
    (hx : x ∈ th'.nodes t) : (∃ y ∈ th.nodes t, y.ref = x.ref) ∨ x.ref = .thread t ∨
      ∃ y ∈ sh.gnodes, y.ref = x.ref := by
  cases h with
  | getRoot i l k =>
    simp only [Thread.nodes, Call.nodes, Pc.nodes, List.flatMap_cons, List.nil_append,
      List.mem_append, List.mem_map] at hx
    rcases hx with hx | ⟨v, -, rfl⟩ | hx
    · exact Or.inl ⟨x, by simp [Thread.nodes, hx], rfl⟩
    · exact Or.inr (Or.inl rfl)
    · refine Or.inl ⟨x, ?_, rfl⟩
      unfold Thread.nodes
      exact List.mem_append_right _ hx
  | passChild b y i v l k =>
    have hy : y ∈ (⟨.working b, l, .listChildren y i :: k⟩ : Thread n Buffer Value).nodes t := by
      simp [Thread.nodes, Call.nodes]
    simp only [Thread.nodes, Call.nodes, Pc.nodes, List.flatMap_cons, List.nil_append,
      List.mem_append, List.mem_singleton] at hx
    rcases hx with hx | rfl | hx
    · exact Or.inl ⟨x, by simp [Thread.nodes, hx], rfl⟩
    · exact Or.inl ⟨y, hy, rfl⟩
    · exact Or.inl ⟨x, by simpa [Thread.nodes, Call.nodes, Pc.nodes] using Or.inr hx, rfl⟩
  | steal y gnodes l k h =>
    simp only [Thread.nodes, Pc.nodes, Option.toList_some, List.append_assoc, List.mem_append,
      List.mem_singleton] at hx
    rcases hx with rfl | hx
    · exact Or.inr (Or.inr ⟨x, h.mem_iff.mpr List.mem_cons_self, rfl⟩)
    · exact Or.inl ⟨x, by simpa [Thread.nodes, Pc.nodes] using hx, rfl⟩
  | serveNode b y l k h =>
    refine Or.inl ⟨x, ?_, rfl⟩
    simp only [Thread.nodes, Call.nodes, Pc.nodes, List.flatMap_cons] at hx ⊢
    exact hx
  | serve b l k h => exact Or.inl ⟨x, hx, rfl⟩
  | _ =>
    refine Or.inl ⟨x, ?_, rfl⟩
    grind [Thread.nodes, Call.nodes, Pc.nodes]

/-- Where the references in `gnodes` come from. -/
theorem Moves.gnodes (h : Moves c callbacks t pick answer sh th sh' th') {x : Node n Value}
    (hx : x ∈ sh'.gnodes) : x ∈ sh.gnodes ∨ (∃ i, x.ref = .received i) ∨
      (x ∈ th.nodes t ∧ .solutionCb x .enqueue ∈ th.calls) := by
  cases h with
  | enqueue b y l k =>
    rcases List.mem_append.mp hx with hx | hx
    · exact Or.inl hx
    · obtain rfl := List.mem_singleton.mp hx
      exact Or.inr (Or.inr ⟨by simp [Thread.nodes, Call.nodes], List.mem_cons_self⟩)
  | steal y gnodes l k h => exact Or.inl (h.mem_iff.mpr (List.mem_cons_of_mem y hx))
  | serveNode b x l k h =>
    obtain ⟨_, _, rfl, -⟩ := serveStage_step h
    exact Or.inl hx
  | serve b l k h =>
    obtain ⟨_, _, rfl, -⟩ := serveStage_step h
    exact Or.inl hx
  | served l k h =>
    obtain ⟨_, _, rfl, -⟩ := serveStage_step h
    exact Or.inl hx
  | servedIdle l k h =>
    obtain ⟨_, _, rfl, -⟩ := serveStage_step h
    exact Or.inl hx
  | moreWork l k h =>
    cases h with
    | enqueueNode buffer value nodes =>
      rcases List.mem_append.mp hx with hx | hx
      · exact Or.inl hx
      · obtain rfl := List.mem_singleton.mp hx
        exact Or.inr (Or.inl ⟨_, rfl⟩)
    | _ => exact Or.inl hx
  | _ => exact Or.inl hx

/-- A thread comes to open a root by taking it out of `possibleRoots`. -/
theorem Moves.pending (h : Moves c callbacks t pick answer sh th sh' th') {i : ℕ}
    (hpc : th'.pc = .getRoot i) : th.pc = .openRoot ∧ sh.possibleRoots ≠ [] := by
  cases h with
  | takeRoot i roots l k h =>
    refine ⟨rfl, ?_⟩
    intro hnil
    rw [hnil] at h
    exact List.cons_ne_nil _ _ h.symm.eq_nil
  | _ => cases hpc

/-- Buffers are overwritten in one place only. -/
theorem Moves.buffers (h : Moves c callbacks t pick answer sh th sh' th') :
    sh'.buffers = sh.buffers ∨
      ∃ i, th.pc = .getRoot i ∧ ∀ u, u ≠ t → sh'.buffers u = sh.buffers u := by
  cases h with
  | getRoot i l k => exact Or.inr ⟨i, rfl, fun u hu => Function.update_of_ne hu _ _⟩
  | serveNode b x l k h =>
    obtain ⟨_, _, rfl, -⟩ := serveStage_step h
    exact Or.inl rfl
  | serve b l k h =>
    obtain ⟨_, _, rfl, -⟩ := serveStage_step h
    exact Or.inl rfl
  | served l k h =>
    obtain ⟨_, _, rfl, -⟩ := serveStage_step h
    exact Or.inl rfl
  | servedIdle l k h =>
    obtain ⟨_, _, rfl, -⟩ := serveStage_step h
    exact Or.inl rfl
  | moreWork l k h => cases h <;> exact Or.inl rfl
  | _ => exact Or.inl rfl

theorem nodes_eq_nil (h : Tidy th) (hcall : ¬ th.pc.MayCall) (hkeep : ¬ th.pc.MayKeep)
    (hpc : th.pc.nodes = []) (t : Fin n) : th.nodes t = [] := by
  unfold Thread.nodes
  rw [h.calls hcall, h.lnodes hkeep, hpc]
  rfl

theorem nodes_of_between (h : Tidy th) (hbetween : Between sh th) (t : Fin n) :
    th.nodes t = [] := by
  rcases between_cases hbetween with ⟨b, w, hpc⟩ | ⟨stage, hpc⟩
  · apply nodes_eq_nil h
    all_goals simp [hpc, Pc.MayCall, Pc.MayKeep, Pc.nodes]
  · apply nodes_eq_nil h
    all_goals simp [hpc, Pc.MayCall, Pc.MayKeep, Pc.nodes]

end Moves

/-! ### All threads -/

/-- Nobody but a thread itself has nodes that refer to its buffer. -/
def Private (s : State n Buffer Value) : Prop :=
  AllReceived s.shared.gnodes ∧
    ∀ u, ∀ x ∈ (s.threads u).nodes u, ∀ t, x.ref = .thread t → t = u

/-- No node refers to the buffer of the thread. -/
def Unshared (s : State n Buffer Value) (t : Fin n) : Prop :=
  ∀ x : Node n Value, x.ref = .thread t → x ∉ s.shared.gnodes ∧ ∀ u, x ∉ (s.threads u).nodes u

/-- What keeps the buffers apart. -/
structure Owned (s : State n Buffer Value) : Prop where
  roots : s.shared.possibleRoots ≠ [] → Private s
  pending : ∀ t i, (s.threads t).pc = .getRoot i → Unshared s t

section Owned

variable {s s' : State n Buffer Value} {a : Action n Buffer Value}

/-- Before roots are put into `possibleRoots` there are no nodes at all. -/
theorem private_of_enqueueRoots (h : Control s) (hround : ∀ t, RoundOk s.shared (s.threads t))
    {t : Fin n} {roots : List ℕ} (hpc : (s.threads t).pc = .moreWork (.enqueueRoots roots)) :
    Private s := by
  constructor
  · intro x hx
    have hgnodes : s.shared.gnodes = [] := (hround t).stage _ hpc
    rw [hgnodes] at hx
    cases hx
  · intro u x hx
    rw [nodes_of_between (h.tidy u) (h.between (between_moreWork _ hpc) u)] at hx
    cases hx

/-- Unless a node goes into `gnodes`, the threads keep their nodes to themselves. -/
theorem Private.step (hprivate : Private s) (hstep : step c callbacks s a = some s')
    (hno : ∀ x, .solutionCb x .enqueue ∉ (s.threads a.thread).calls) : Private s' := by
  obtain ⟨th', hmoves, hthreads⟩ := moves_of_run_step hstep
  obtain ⟨hgnodes, hnodes⟩ := hprivate
  constructor
  · intro x hx t hxt
    rcases hmoves.gnodes hx with hx | ⟨i, hxi⟩ | ⟨-, hcall⟩
    · exact hgnodes x hx t hxt
    · rw [hxi] at hxt
      cases hxt
    · exact hno x hcall
  · intro u x hx t hxt
    by_cases hu : u = a.thread
    · subst hu
      rw [hthreads, Function.update_self] at hx
      rcases hmoves.nodes hx with ⟨y, hy, hyx⟩ | hxa | ⟨y, hy, hyx⟩
      · exact hnodes _ y hy t (hyx.trans hxt)
      · exact Ref.thread.inj (hxt.symm.trans hxa)
      · exact absurd (hyx.trans hxt) (hgnodes y hy t)
    · rw [hthreads, Function.update_of_ne hu] at hx
      exact hnodes u x hx t hxt

/-- Nobody gets hold of the buffer of a thread that does not move. -/
theorem Unshared.step {t : Fin n} (hunshared : Unshared s t)
    (hstep : step c callbacks s a = some s') (ht : t ≠ a.thread) : Unshared s' t := by
  obtain ⟨th', hmoves, hthreads⟩ := moves_of_run_step hstep
  intro x hxt
  obtain ⟨hgnodes, hnodes⟩ := hunshared x hxt
  constructor
  · intro hx
    rcases hmoves.gnodes hx with hx | ⟨i, hxi⟩ | ⟨hx, -⟩
    · exact hgnodes hx
    · rw [hxi] at hxt
      cases hxt
    · exact hnodes _ hx
  · intro u hx
    by_cases hu : u = a.thread
    · subst hu
      rw [hthreads, Function.update_self] at hx
      rcases hmoves.nodes hx with ⟨y, hy, hyx⟩ | hxa | ⟨y, hy, hyx⟩
      · exact (hunshared y (hyx.trans hxt)).2 _ hy
      · exact ht (Ref.thread.inj (hxt.symm.trans hxa))
      · exact (hunshared y (hyx.trans hxt)).1 hy
    · rw [hthreads, Function.update_of_ne hu] at hx
      exact hnodes u hx

theorem Private.unshared (h : Private s) {t : Fin n} (hnil : (s.threads t).nodes t = []) :
    Unshared s t := by
  intro x hxt
  refine ⟨fun hx => h.1 x hx t hxt, fun u hx => ?_⟩
  obtain rfl := h.2 u x hx t hxt
  rw [hnil] at hx
  cases hx

theorem Owned.step (howned : Owned s) (h : Control s)
    (hround : ∀ t, RoundOk s.shared (s.threads t)) (hstep : step c callbacks s a = some s') :
    Owned s' := by
  obtain ⟨th', hmoves, hthreads⟩ := moves_of_run_step hstep
  constructor
  · intro hroots'
    rcases hmoves.possibleRoots with hsub | ⟨roots, hpc⟩
    · have hroots : s.shared.possibleRoots ≠ [] := by
        intro hnil
        rw [hnil] at hsub
        exact hroots' (List.subset_nil.mp hsub)
      refine (howned.roots hroots).step hstep fun x hx => hroots ?_
      exact (hround a.thread).eager _ hx trivial
    · refine (private_of_enqueueRoots h hround hpc).step hstep fun x hx => ?_
      have hmay := h.mayCall hx
      rw [hpc] at hmay
      exact hmay
  · intro t i hpc
    by_cases ht : t = a.thread
    · subst ht
      have hpc' := hpc
      rw [hthreads, Function.update_self] at hpc'
      obtain ⟨hopen, hroots⟩ := hmoves.pending hpc'
      have hprivate := (howned.roots hroots).step hstep fun x hx => by
        have hmay := h.mayCall hx
        rw [hopen] at hmay
        exact hmay
      -- the others have no nodes that refer to its buffer, and it has no nodes itself
      apply hprivate.unshared
      apply nodes_eq_nil ((h.step hstep).tidy a.thread)
      all_goals simp [hpc, Pc.MayCall, Pc.MayKeep, Pc.nodes]
    · have hsame : s'.threads t = s.threads t := by rw [hthreads, Function.update_of_ne ht]
      rw [hsame] at hpc
      exact (howned.pending t i hpc).step hstep ht

theorem owned_of_reaches {minRootId maxRootId : ℕ} {s : State n Buffer Value}
    (h : Reaches (step c callbacks) Any (init c n minRootId maxRootId) s) : Owned s := by
  have hinit : Owned (init c n minRootId maxRootId) := by
    constructor
    · intro _
      exact ⟨fun _ hx => absurd hx List.not_mem_nil, fun _ _ hx => absurd hx List.not_mem_nil⟩
    · intro t i hpc
      cases hpc
  have hall := h.invariant_of
    (I := Owned) (J := fun s => Control s ∧ ∀ t, RoundOk s.shared (s.threads t))
    (fun _ hrun => ⟨control_of_reaches hrun, roundOk_of_reaches hrun⟩) hinit
    fun _ _ _ hJ howned _ hstep => howned.step hJ.1 hJ.2 hstep
  exact hall

/-- The buffer of a thread is not overwritten while a node refers to it. -/
theorem buffers_step {minRootId maxRootId : ℕ} (h : Reaches (step c callbacks) Any
    (init c n minRootId maxRootId) s) (hstep : step c callbacks s a = some s') {t : Fin n}
    (ht : ¬ Unshared s t) : s'.shared.buffers t = s.shared.buffers t := by
  obtain ⟨th', hmoves, -⟩ := moves_of_run_step hstep
  rcases hmoves.buffers with hbuffers | ⟨i, hpc, hbuffers⟩
  · rw [hbuffers]
  · apply hbuffers
    rintro rfl
    exact ht ((owned_of_reaches h).pending _ i hpc)

end Owned

/-! ### `Diam2KplexEnumeration` -/

/-- `Diam2KplexEnumeration` for several threads: the memory that nodes refer to is that of the
thread that built their root. -/
def diam2KplexSystem (g : Graph) (k q : ℕ) (enablePivoting : Bool) (std : StdSort) :
    BufferSystem Diam2Kplex.Store Diam2Kplex.Node :=
  ofEnumerable (Diam2Kplex.diam2KplexEnumeration g k q enablePivoting std) {}

/-- **A thread that calls `GetRoot` has its buffer for itself**: no node that refers to it is in
`gnodes`, in any `lnodes`, or in a call of any thread. -/
theorem getRoot_unshared (g : Graph) (k q : ℕ) (enablePivoting : Bool) (std : StdSort)
    (callbacks : Bool) (n minRootId maxRootId : ℕ)
    (s : State n Diam2Kplex.Store Diam2Kplex.Node)
    (h : Reaches (step (diam2KplexSystem g k q enablePivoting std) callbacks) Any
      (init (diam2KplexSystem g k q enablePivoting std) n minRootId maxRootId) s) (t : Fin n)
    (i : ℕ) (ht : (s.threads t).pc = .getRoot i) (x : Node n Diam2Kplex.Node)
    (hx : x.ref = .thread t) :
    x ∉ s.shared.gnodes ∧ ∀ u, x ∉ (s.threads u).lnodes ∧
      (∀ call ∈ (s.threads u).calls, x ∉ call.nodes u) ∧
        (s.threads u).pc ≠ .decWaiting (some x) := by
  obtain ⟨hgnodes, hnodes⟩ := (owned_of_reaches h).pending t i ht x hx
  refine ⟨hgnodes, fun u => ?_⟩
  have hnot := hnodes u
  simp only [Thread.nodes, List.mem_append, List.mem_flatMap, not_or, not_exists, not_and] at hnot
  obtain ⟨⟨hpc, hlnodes⟩, hcalls⟩ := hnot
  refine ⟨hlnodes, hcalls, fun hstolen => hpc ?_⟩
  rw [hstolen]
  exact List.mem_singleton_self x

/-- The root that a thread is about to open. -/
def Pc.opens : Pc n Buffer Value → Option ℕ
  | .getRoot i => some i
  | _ => none

theorem eq_getRoot_of_opens {pc : Pc n Buffer Value} {i : ℕ} (h : pc.opens = some i) :
    pc = .getRoot i := by
  cases pc with
  | getRoot j =>
    obtain rfl := Option.some.inj h
    rfl
  | _ => cases h

/-- The buffer of the node that a thread has just taken out of `gnodes`. -/
def Pc.steals : Pc n Buffer Value → Option (Ref n)
  | .decWaiting node => node.map Node.ref
  | _ => none

/-- The system of the edge `0 - 1`. -/
abbrev edgeSystem : BufferSystem Diam2Kplex.Store Diam2Kplex.Node :=
  diam2KplexSystem (Graph.ofRel 2 fun i j => j == i + 1) 1 1 true StdSort.insertion

/-- Some steps of a thread. -/
def turn (t : Fin 2) (steps : ℕ) : List (Action 2 Diam2Kplex.Store Diam2Kplex.Node) :=
  List.replicate steps ⟨t, 0, .range 1 2⟩

/-- The second thread waits when the first one opens the root 0, and steals its node. -/
def steal : List (Action 2 Diam2Kplex.Store Diam2Kplex.Node) :=
  turn 0 3 ++ turn 1 6 ++ turn 0 12 ++ turn 1 1

/-- The threads visit the child of that node, get the range `[1, 2)` between the barriers, and the
first one is about to open the root 1. -/
def reopen : List (Action 2 Diam2Kplex.Store Diam2Kplex.Node) :=
  (List.replicate 43 (turn 0 1 ++ turn 1 1)).flatten ++ turn 0 4

theorem getRoot_unshared_edge :
    ∃ s s', run (step edgeSystem true) Any steal (init edgeSystem 2 0 1) = some s ∧
      run (step edgeSystem true) Any reopen s = some s' ∧
      (s.threads 1).pc.steals = some (.thread 0) ∧ (s'.threads 0).pc = .getRoot 1 ∧
      ∀ x : Node 2 Diam2Kplex.Node, x.ref = .thread 0 →
        x ∉ s'.shared.gnodes ∧ ∀ u, x ∉ (s'.threads u).lnodes ∧
          (∀ call ∈ (s'.threads u).calls, x ∉ call.nodes u) ∧
            (s'.threads u).pc ≠ .decWaiting (some x) := by
  have hends : ((run (step edgeSystem true) Any steal (init edgeSystem 2 0 1)).bind fun s =>
      (run (step edgeSystem true) Any reopen s).map fun s' =>
        ((s.threads 1).pc.steals, (s'.threads 0).pc.opens))
      = some (some (.thread 0), some 1) := by
    decide +kernel
  obtain ⟨s, hsteal, hends⟩ := Option.bind_eq_some_iff.mp hends
  obtain ⟨s', hreopen, hends⟩ := Option.map_eq_some_iff.mp hends
  obtain ⟨hsteals, hopens⟩ := Prod.mk.inj hends
  have hpc := eq_getRoot_of_opens hopens
  have hreaches : Reaches (step edgeSystem true) Any (init edgeSystem 2 0 1) s' :=
    (reaches_of_run hsteal).trans (reaches_of_run hreopen)
  exact ⟨s, s', hsteal, hreopen, hsteals, hpc,
    getRoot_unshared _ 1 1 true StdSort.insertion true 2 0 1 s' hreaches 0 1 hpc⟩

end ParallelEnum.ParallelPthreadsSteal.Callbacks
