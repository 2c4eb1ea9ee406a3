import ParallelEnum.Enumerator.Equiv.DistributedMpi.FirstAnswer
import ParallelEnum.Enumerator.Equiv.DistributedMpi.Work

/-!
# Correctness of the dynamic mode of `DistributedMPI`

* `refines_start`: as long as no worker starts with a garbage range, the master and its workers
  refine the pool of work.
* `complete_of_done`: when the master has sent the termination every root and every piece of work
  that was split off has been given to one worker, everything has been expanded once, and the
  master knows of every solution.
* `not_allReceived`: with more than one worker the workers never receive everything that was
  sent.  A request that crosses a steal request is taken for the answer to it, and the worker,
  which discards the steal request, sends another one that nobody receives.
-/

namespace ParallelEnum.DistributedMpi

open ParallelPthreadsSteal (FiniteSystem)
open Transition

variable {Node : Type} {W : ℕ} {c : FiniteSystem Node} {isSolution : Node → Bool}

/-! ### What is split off is delivered -/

/-- The piece of work in a message to the master. -/
def ToMaster.pieces : ToMaster Node → List (List (Work Node))
  | .data items => [items]
  | _ => []

/-- The piece of work in a message to a worker. -/
def ToWorker.pieces : ToWorker Node → List (List (Work Node))
  | .data items => [items]
  | _ => []

theorem passes_pieces : Passes (ToMaster.pieces : ToMaster Node → List (List (Work Node)))
    ToWorker.pieces where
  request _ := rfl
  lenUp _ := rfl
  steal := rfl
  lenDown _ := rfl
  termination := rfl
  data _ := rfl

/-- What the master hands out and what the workers split off is all accounted for. -/
structure Delivered (c : FiniteSystem Node) (s : State Node W) : Prop where
  nonempty : ∀ w b e, .rangeResponse b e ∈ s.toWorker w → 0 < e
  roots : handedOut s + ↑(List.range s.master.unsent) = ↑(List.range c.maxRoots)
  pieces : ∑ w, (↑(s.workers w).split : Multiset (List (Work Node)))
    = content ToMaster.pieces ToWorker.pieces s + ∑ w, ↑(s.workers w).received

/-- What was split off and received at a worker, and is under way to or from it. -/
def delivery (w : Worker Node) (up : List (ToMaster Node)) (down : List (ToWorker Node)) :
    Multiset (List (Work Node)) :=
  ↑(up.flatMap ToMaster.pieces) + ↑(down.flatMap ToWorker.pieces) + ↑w.received

theorem moreWork_split (garbage : ℕ × ℕ) (info : MoreWorkInfo) (items : List (Work Node))
    (w : Worker Node) : (w.moreWork c garbage info items).split = w.split ∧
      (w.moreWork c garbage info items).received = w.received := by
  unfold Worker.moreWork
  cases w.firstInfo with
  | none => exact ⟨rfl, rfl⟩
  | some _ => cases info <;> exact ⟨rfl, rfl⟩

/-- A worker that splits something off sends it, and receives what it is sent. -/
theorem Moves.delivery {w w' : Worker Node} {up up' : List (ToMaster Node)}
    {down down' : List (ToWorker Node)} (h : Moves c isSolution w up down w' up' down') :
    (↑w'.split + DistributedMpi.delivery w up down : Multiset (List (Work Node)))
      = ↑w.split + DistributedMpi.delivery w' up' down' := by
  unfold DistributedMpi.delivery
  cases h with
  | send count _ _ hpc => simp [ToMaster.pieces]
  | discard _ down' hpc => simp [ToWorker.pieces]
  | gotLen areRoots _ down' hpc => simp [ToWorker.pieces]
  | gotRange garbage b e _ down' hpc =>
    obtain ⟨hsplit, hreceived⟩ := moreWork_split (c := c) garbage .range (w.rangeItems c b e) w
    rw [hsplit, hreceived]
    simp [ToWorker.pieces]
  | gotTermination garbage _ down' hpc =>
    obtain ⟨hsplit, hreceived⟩ := moreWork_split (c := c) garbage .nothing []
      { w with terminated := true }
    rw [hsplit, hreceived]
    simp [ToWorker.pieces]
  | gotData garbage areRoots items _ down' hpc =>
    obtain ⟨hsplit, hreceived⟩ := moreWork_split (c := c) garbage
      (if areRoots then .roots else .subtree) items { w with received := w.received ++ [items] }
    rw [hsplit, hreceived]
    simp only [List.flatMap_cons, ToWorker.pieces, ← Multiset.coe_add]
    abel
  | expand item kept _ _ hpc hwork => cases item <;> rfl
  | split areRoots items kept _ down' hpc hwork =>
    simp only [List.flatMap_append, List.flatMap_cons, List.flatMap_nil, ToMaster.pieces,
      ToWorker.pieces, List.append_nil, List.nil_append, ← Multiset.coe_add]
    abel
  | request _ _ hpc hwork => rfl

/-- A worker takes messages from its channel, and puts none into it. -/
theorem Moves.subset {w w' : Worker Node} {up up' : List (ToMaster Node)}
    {down down' : List (ToWorker Node)} (h : Moves c isSolution w up down w' up' down') :
    down' ⊆ down := by
  cases h with
  | send | expand | request => exact List.Subset.refl _
  | _ => exact List.subset_cons_self _ _

theorem Delivered.worker {s : State Node W} (hs : Delivered c s) {i : Fin W} {w : Worker Node}
    {up : List (ToMaster Node)} {down : List (ToWorker Node)}
    (h : Moves c isSolution (s.workers i) (s.toMaster i) (s.toWorker i) w up down) :
    Delivered c { s with
      workers := Function.update s.workers i w
      toMaster := Function.update s.toMaster i up
      toWorker := Function.update s.toWorker i down } := by
  refine ⟨?_, hs.roots, ?_⟩
  · intro j b e hmem
    change _ ∈ Function.update s.toWorker i down j at hmem
    rcases eq_or_ne i j with rfl | hne
    · rw [Function.update_self] at hmem
      exact hs.nonempty i b e (h.subset hmem)
    · rw [Function.update_of_ne hne.symm] at hmem
      exact hs.nonempty j b e hmem
  · obtain ⟨restSplit, hsplit, hsplit'⟩ := exists_sum_update
      (fun w : Worker Node => (↑w.split : Multiset (List (Work Node)))) s.workers i
    obtain ⟨restReceived, hreceived, hreceived'⟩ := exists_sum_update
      (fun w : Worker Node => (↑w.received : Multiset (List (Work Node)))) s.workers i
    obtain ⟨restUp, hup, hup'⟩ := exists_upContent_update s.toMaster i ToMaster.pieces
    obtain ⟨restDown, hdown, hdown'⟩ := exists_downContent_update s.toWorker i ToWorker.pieces
    have hdelivery := h.delivery
    have hpieces := hs.pieces
    rw [content, hsplit, hreceived, hup, hdown] at hpieces
    show ∑ j, (↑(Function.update s.workers i w j).split : Multiset (List (Work Node)))
      = upContent ToMaster.pieces (Function.update s.toMaster i up)
        + downContent ToWorker.pieces (Function.update s.toWorker i down)
        + ∑ j, ↑(Function.update s.workers i w j).received
    rw [hsplit', hreceived', hup', hdown']
    -- what the worker has split off changes by what changes of its delivery
    apply add_right_cancel
      (b := DistributedMpi.delivery (s.workers i) (s.toMaster i) (s.toWorker i))
    calc _ = (↑w.split + DistributedMpi.delivery (s.workers i) (s.toMaster i) (s.toWorker i))
          + restSplit := by abel
      _ = (↑(s.workers i).split + restSplit) + DistributedMpi.delivery w up down := by
          rw [hdelivery]
          abel
      _ = _ := by
          rw [hpieces, DistributedMpi.delivery, DistributedMpi.delivery]
          abel

theorem Delivered.master {sent : List (ℕ × ℕ)} {s s' : State Node W} (hs : Delivered c s)
    (h : HandsOut sent s s') : Delivered c s' := by
  refine ⟨?_, ?_, ?_⟩
  · intro w b e hmem
    rcases h.sends w b e hmem with hmem | hmem
    · exact hs.nonempty w b e hmem
    · exact (Nat.zero_le b).trans_lt (h.nonempty (b, e) hmem)
  · have hroots := hs.roots
    rw [h.unsent, ← Multiset.coe_add] at hroots
    rw [h.given, ← hroots]
    abel
  · have hnone : (sent.flatMap fun range =>
        (ToWorker.rangeResponse range.1 range.2 : ToWorker Node).pieces) = [] := by
      rw [List.flatMap_eq_nil_iff]
      exact fun _ _ => rfl
    rw [h.workers, h.content passes_pieces, hnone, hs.pieces]
    show _ = _ + (0 : Multiset (List (Work Node))) + _
    rw [add_zero]

theorem delivered_init [NeZero W] (hroots : W ≤ c.maxRoots) {rootsPerNode : ℕ}
    (hpos : 0 < rootsPerNode) : Delivered c (init c rootsPerNode : State Node W) := by
  have hW : 0 < W := Nat.pos_of_ne_zero (NeZero.ne W)
  have hunsent : (init c rootsPerNode : State Node W).master.unsent = c.maxRoots :=
    unsent_nextCall (clampRootsPerNode_pos hW hroots hpos) rfl
  refine ⟨nofun, ?_, ?_⟩
  · rw [hunsent]
    show ∑ _ : Fin W, (0 : Multiset ℕ) + _ = _
    rw [Finset.sum_const_zero, zero_add]
  · simp [init, content, upContent, downContent]

theorem reaches_delivered [DecidableEq Node] [NeZero W] {C : State Node W → Action Node W → Prop}
    {rootsPerNode : ℕ} (hroots : W ≤ c.maxRoots) (hpos : 0 < rootsPerNode) {s : State Node W}
    (h : Reaches (step c isSolution) C (init c rootsPerNode) s) : Delivered c s := by
  apply h.invariant_of (J := Inv c) (I := Delivered c)
  · exact fun _ hrun => reaches_inv hroots hpos hrun
  · exact delivered_init hroots hpos
  · intro s a s' hinv hs _ hstep
    rcases step_cases hstep with hmaster | ⟨i, w, up, down, hmoves, rfl⟩
    · obtain ⟨sent, hsent⟩ := hmaster.handsOut hinv
      exact hs.master hsent
    · exact hs.worker hmoves

/-! ### The master and its workers refine the pool -/

theorem pool_init [NeZero W] (hroots : W ≤ c.maxRoots) {rootsPerNode : ℕ}
    (hpos : 0 < rootsPerNode) : pool (init c rootsPerNode : State Node W) = Pool.start c := by
  have hW : 0 < W := Nat.pos_of_ne_zero (NeZero.ne W)
  have hunsent : (init c rootsPerNode : State Node W).master.unsent = c.maxRoots :=
    unsent_nextCall (clampRootsPerNode_pos hW hroots hpos) rfl
  have hcount : (init c rootsPerNode : State Node W).master.solutionsCount = 0 := by
    show (Master.nextCall c.maxRoots _).solutionsCount = 0
    unfold Master.nextCall
    split_ifs <;> rfl
  apply Pool.ext
  · show held _ = rootsBelow c.maxRoots
    rw [held, hunsent]
    simp [init, content, upContent, downContent]
  · simp [pool, init, Pool.start]
  · simp [pool, init, Pool.start]
  · simp [pool, init, Pool.start]
  · show counted _ = 0
    rw [counted, hcount]
    simp [init, requested, requests, Worker.Pc.toSend]

/-- A worker that has not started on a garbage range never had, and a step that leads there moves
work, or expands one piece of it. -/
theorem pool_step [DecidableEq Node] [NeZero W] {s s' : State Node W} {a : Action Node W}
    (hinv : Inv c s) (hs : Delivered c s) (h : step c isSolution s a = some s')
    (hstarted : ∀ w, (s'.workers w).StartedWithRange) :
    (∀ w, (s.workers w).StartedWithRange) ∧
      (pool s' = pool s ∨ Pool.Step c isSolution (pool s) (pool s')) := by
  rcases step_cases h with hmaster | ⟨i, w, up, down, hmoves, rfl⟩
  · obtain ⟨sent, hsent⟩ := hmaster.handsOut hinv
    rw [hsent.workers] at hstarted
    exact ⟨hstarted, Or.inl hsent.pool_eq⟩
  · have hworkers : ∀ j, (Function.update s.workers i w j).StartedWithRange := hstarted
    have hi : w.StartedWithRange := by
      have hself := hworkers i
      rwa [Function.update_self] at hself
    refine ⟨?_, pool_worker hinv hs.nonempty hmoves hi⟩
    intro j
    rcases eq_or_ne j i with rfl | hne
    · exact hmoves.startedWithRange hi
    · have hj := hworkers j
      rwa [Function.update_of_ne hne] at hj

/-- **The master and its workers refine the pool of work**, as long as no worker has started on a
garbage range. -/
theorem refines_start [DecidableEq Node] [NeZero W] {C : State Node W → Action Node W → Prop}
    {rootsPerNode : ℕ} (hroots : W ≤ c.maxRoots) (hpos : 0 < rootsPerNode) {s : State Node W}
    (h : Reaches (step c isSolution) C (init c rootsPerNode) s)
    (hstarted : ∀ w, (s.workers w).StartedWithRange) :
    Relation.ReflTransGen (Pool.Step c isSolution) (Pool.start c) (pool s) := by
  have hruns := h.invariant_of
    (J := fun s => Inv c s ∧ Delivered c s)
    (I := fun s => (∀ w, (s.workers w).StartedWithRange) →
      Relation.ReflTransGen (Pool.Step c isSolution) (Pool.start c) (pool s))
    (fun _ hrun => ⟨reaches_inv hroots hpos hrun, reaches_delivered hroots hpos hrun⟩)
  apply hruns ?_ ?_ hstarted
  · intro _
    rw [pool_init hroots hpos]
  · intro s a s' ⟨hinv, hs⟩ ih _ hstep hstarted'
    obtain ⟨hbefore, heq | hpool⟩ := pool_step hinv hs hstep hstarted'
    · rw [heq]
      exact ih hbefore
    · exact (ih hbefore).tail hpool

theorem good_of_refines {p : Pool Node}
    (h : Relation.ReflTransGen (Pool.Step c isSolution) (Pool.start c) p) :
    Pool.Good c isSolution p := by
  induction h with
  | refl => exact Pool.good_start
  | tail _ hstep ih => exact hstep.good ih

/-! ### The termination -/

/-- All work has been done, and the master knows of all solutions. -/
structure Complete (c : FiniteSystem Node) (isSolution : Node → Bool) (s : State Node W) :
    Prop where
  /-- No work is left at a worker. -/
  work : ∀ w, (s.workers w).work = []
  /-- No work and no solution is under way to the master. -/
  toMaster : ∀ w, ∀ msg ∈ s.toMaster w, msg = .rangeRequest 0
  /-- No work is under way to a worker. -/
  toWorker : ∀ w, ∀ msg ∈ s.toWorker w, msg = .stealRequest ∨ msg = .termination
  /-- Every root has been given to one worker, in one range. -/
  handedOut : handedOut s = ↑(List.range c.maxRoots)
  /-- Everything that was split off has been received by one worker. -/
  pieces : ∑ w, (↑(s.workers w).split : Multiset (List (Work Node)))
    = ∑ w, ↑(s.workers w).received
  /-- Every root has been opened once. -/
  opened : ∑ w, (↑(s.workers w).opened : Multiset ℕ) = ↑(List.range c.maxRoots)
  /-- The children of every node have been listed once. -/
  listed : ∑ w, (↑(s.workers w).listed : Multiset Node) = ↑c.nodes
  /-- Every node has been reported once. -/
  reported : ∑ w, (↑(s.workers w).reported : Multiset Node) = ↑c.nodes
  /-- `Master::Run` returns the number of solutions that the workers have found. -/
  solutionsCount : s.master.solutionsCount = ∑ w, (s.workers w).reported.countP isSolution

/-- Channels that hold nothing. -/
theorem content_eq_zero {α : Type} {f : ToMaster Node → List α} {g : ToWorker Node → List α}
    {s : State Node W} (hup : ∀ w, ∀ msg ∈ s.toMaster w, f msg = [])
    (hdown : ∀ w, ∀ msg ∈ s.toWorker w, g msg = []) : content f g s = 0 := by
  have hup' : upContent f s.toMaster = 0 := by
    apply Finset.sum_eq_zero
    intro w _
    rw [List.flatMap_eq_nil_iff.mpr (hup w), Multiset.coe_nil]
  have hdown' : downContent g s.toWorker = 0 := by
    apply Finset.sum_eq_zero
    intro w _
    rw [List.flatMap_eq_nil_iff.mpr (hdown w), Multiset.coe_nil]
  rw [content, hup', hdown', add_zero]

/-- **When the master has sent the termination, the work is complete.** -/
theorem complete_of_done [DecidableEq Node] [NeZero W] (c : FiniteSystem Node)
    (isSolution : Node → Bool) (hroots : W ≤ c.maxRoots) {rootsPerNode : ℕ}
    (hpos : 1 ≤ rootsPerNode) {s : State Node W}
    (h : Reaches (step c isSolution) Any (init c rootsPerNode) s)
    (hstarted : ∀ w, (s.workers w).StartedWithRange) {last : Fin W}
    (hdone : s.master.pc = .done last) : Complete c isSolution s := by
  have hinv := reaches_inv hroots hpos h
  have hdelivered := reaches_delivered hroots hpos h
  have hfinal := hinv.finallyLinked last hdone
  have hclean := fun w => (hfinal w).clean (hstarted w)
  have hup : ∀ w, ∀ msg ∈ s.toMaster w, msg = .rangeRequest 0 := fun w =>
    (hfinal w).toMaster_eq (hstarted w)
  have hdown : ∀ w, ∀ msg ∈ s.toWorker w, msg = .stealRequest ∨ msg = .termination := fun w =>
    (hfinal w).toWorker_eq
  have hnothing : ∀ {α : Type} {f : ToMaster Node → List α} {g : ToWorker Node → List α},
      Passes f g → content f g s = 0 := by
    intro α f g hfg
    apply content_eq_zero
    · intro w msg hmsg
      rw [hup w msg hmsg, hfg.request]
    · intro w msg hmsg
      rcases hdown w msg hmsg with rfl | rfl
      · exact hfg.steal
      · exact hfg.termination
  have hloop : s.master.inRangeLoop = false := hinv.handout.not_loop (by rw [hdone]; nofun)
  have hunsent : s.master.unsent = 0 := unsent_of_not_loop hloop
  have hwork : ∑ w, (↑(s.workers w).work : Multiset (Work Node)) = 0 := by
    apply Finset.sum_eq_zero
    intro w _
    rw [(hclean w).2.1, Multiset.coe_nil]
  have hempty : (pool s).items = 0 := by
    show held s = 0
    rw [held, hunsent, hnothing passes_items, hwork]
    rfl
  have hgood := good_of_refines (refines_start hroots hpos h hstarted)
  obtain ⟨hopened, hlisted, hreported, _⟩ := Pool.complete hgood hempty
  -- no solution is left in a request, or at a worker
  have hcounted : (pool s).found = s.master.solutionsCount := by
    have hrequested : requested s.workers s.toMaster = 0 :=
      Finset.sum_eq_zero fun w _ => List.sum_eq_zero (hclean w).2.2.2
    have hfound : ∑ w, (s.workers w).solutionsFound = 0 :=
      Finset.sum_eq_zero fun w _ => (hclean w).2.2.1
    show counted s = _
    rw [counted, hrequested, hfound]
    rfl
  constructor
  case work => exact fun w => (hclean w).2.1
  case toMaster => exact hup
  case toWorker => exact hdown
  case handedOut =>
    have hgiven := hdelivered.roots
    rw [hunsent] at hgiven
    exact (add_zero _).symm.trans hgiven
  case pieces => rw [hdelivered.pieces, hnothing passes_pieces, zero_add]
  case opened => exact hopened
  case listed => exact hlisted
  case reported => exact hreported
  case solutionsCount =>
    rw [← hcounted, hgood.found]
    show (∑ w, (↑(s.workers w).reported : Multiset Node)).countP (isSolution ·) = _
    rw [← Multiset.coe_countPAddMonoidHom, map_sum]
    simp

/-- Each of two workers gets a range and asks the other one for more; the first one is given the
root of the second one, and gives it the node under that root back. -/
def stealingRun : List (Action ℕ 2) :=
  ask 0 0 ++ ask 1 1 ++ search 0 1 ++ [.worker 0 .send, .master 0 2] ++
    [.worker 1 (.splitRoots [0] []), .master 1 3, .master 1 4] ++
    [.worker 1 .request, .worker 1 .send, .master 1 5] ++
    [.worker 0 (.receive (0, 0)), .worker 0 (.receive (0, 0)), .worker 0 (.expand (.root 0) [])] ++
    [.worker 0 (.splitSubtree 0 []), .master 0 6, .master 0 7] ++
    [.worker 0 .request, .worker 0 .send, .master 0 8] ++
    [.worker 1 (.receive (0, 0)), .worker 1 (.receive (0, 0)),
      .worker 1 (.expand (.subtree 0) []), .worker 1 .request] ++
    -- this request is taken for the answer to the steal request
    [.worker 1 .send, .master 1 9]

theorem complete_of_done_two :
    ∃ s, run (step twoRoots fun _ => true) Any stealingRun (init twoRoots 1 : State ℕ 2) = some s ∧
      Complete twoRoots (fun _ => true) s := by
  have hends : (run (step twoRoots fun _ => true) Any stealingRun
      (init twoRoots 1 : State ℕ 2)).map
        (fun s => ((s.workers 0).firstInfo, (s.workers 1).firstInfo, s.master.pc))
      = some (some .range, some .range, .done 0) := by
    decide +kernel
  obtain ⟨s, hrun, hends⟩ := Option.map_eq_some_iff.mp hends
  obtain ⟨h0, h1, hdone⟩ : _ ∧ _ ∧ _ := by simpa using hends
  have hstarted : ∀ w, (s.workers w).StartedWithRange := by
    intro w info hinfo
    match w with
    | 0 => exact Option.some.inj (hinfo.symm.trans h0)
    | 1 => exact Option.some.inj (hinfo.symm.trans h1)
  have hroots : 2 ≤ twoRoots.maxRoots := le_rfl
  exact ⟨s, hrun, complete_of_done twoRoots _ hroots le_rfl (reaches_of_run hrun) hstarted hdone⟩

/-! ### What nobody receives -/

/-- Every message that was sent has been received. -/
def AllReceived (s : State Node W) : Prop := ∀ w, s.toMaster w = [] ∧ s.toWorker w = []

/-- A worker that the master did not serve last has sent a request that nobody receives. -/
theorem FinalLink.exists_request {w : Worker Node} {up : List (ToMaster Node)}
    {down : List (ToWorker Node)} (hl : FinalLink false w up down) (hterm : w.terminated = true) :
    ∃ count, .rangeRequest count ∈ up := by
  have hdown : down = [] := hl.received.mp hterm
  have htokens := hl.tokens
  rw [hdown] at htokens
  have hsend : w.pc.toSend.length ≤ w.pc.waiting := by
    cases w.pc <;> simp [Worker.Pc.toSend, Worker.Pc.waiting]
  have hne : up ≠ [] := by
    rintro rfl
    simp only [requests, List.filterMap_nil, List.nil_append, List.countP_nil,
      Bool.toNat_false] at htokens
    omega
  obtain ⟨msg, hmsg⟩ := List.exists_mem_of_ne_nil up hne
  obtain ⟨count, rfl⟩ := hl.requestsOnly msg hmsg
  exact ⟨count, hmsg⟩

/-- **With more than one worker some request is never received.** -/
theorem not_allReceived [DecidableEq Node] [NeZero W] (c : FiniteSystem Node)
    (isSolution : Node → Bool) (hW : 2 ≤ W) (hroots : W ≤ c.maxRoots) {rootsPerNode : ℕ}
    (hpos : 1 ≤ rootsPerNode) {s : State Node W}
    (h : Reaches (step c isSolution) Any (init c rootsPerNode) s) {last : Fin W}
    (hdone : s.master.pc = .done last) (hterm : ∀ w, (s.workers w).terminated = true) :
    ¬AllReceived s := by
  intro hall
  have hinv := reaches_inv hroots hpos h
  obtain ⟨w, hw⟩ : ∃ w : Fin W, w ≠ last := by
    have : Nontrivial (Fin W) := Fin.nontrivial_iff_two_le.mpr hW
    exact exists_ne last
  have hlink := hinv.finallyLinked last hdone w
  rw [decide_eq_false hw.symm] at hlink
  obtain ⟨count, hcount⟩ := hlink.exists_request (hterm w)
  rw [(hall w).1] at hcount
  cases hcount

/-- The two workers receive the termination. -/
def terminatedRun : List (Action ℕ 2) :=
  stealingRun ++ [.worker 0 (.receive (0, 0)), .worker 1 (.receive (0, 0)), .worker 1 .send,
    .worker 1 (.receive (0, 0))]

/-- Where this run ends: the second request of the second worker is not received. -/
theorem terminatedRun_ends :
    ∃ s, run (step twoRoots fun _ => true) Any terminatedRun (init twoRoots 1 : State ℕ 2)
      = some s ∧ s.master.pc = .done 0 ∧ (∀ w, (s.workers w).terminated = true) ∧
        s.toMaster 1 = [.rangeRequest 0] := by
  have hends : (run (step twoRoots fun _ => true) Any terminatedRun
      (init twoRoots 1 : State ℕ 2)).map
        (fun s => ((s.master.pc, (s.workers 0).terminated, (s.workers 1).terminated),
          s.toMaster 1))
      = some ((.done 0, true, true), [.rangeRequest 0]) := by
    decide +kernel
  obtain ⟨s, hrun, hends⟩ := Option.map_eq_some_iff.mp hends
  obtain ⟨⟨hdone, h0, h1⟩, hpending⟩ : (_ ∧ _ ∧ _) ∧ _ := by simpa using hends
  refine ⟨s, hrun, hdone, fun w => ?_, hpending⟩
  match w with
  | 0 => exact h0
  | 1 => exact h1

theorem not_allReceived_two :
    ∃ s, run (step twoRoots fun _ => true) Any terminatedRun (init twoRoots 1 : State ℕ 2)
      = some s ∧ ¬AllReceived s := by
  obtain ⟨s, hrun, hdone, hterm, -⟩ := terminatedRun_ends
  have hroots : 2 ≤ twoRoots.maxRoots := le_rfl
  exact ⟨s, hrun, not_allReceived twoRoots _ le_rfl hroots le_rfl (reaches_of_run hrun) hdone hterm⟩

/-- The second worker is done, and its second request is not received. -/
theorem not_forall_allReceived :
    ¬∀ s, Reaches (step twoRoots fun _ => true) Any (init twoRoots 1 : State ℕ 2) s →
      (∃ last, s.master.pc = .done last) → (∀ w, (s.workers w).terminated = true) →
        AllReceived s := by
  intro h
  obtain ⟨s, hrun, hdone, hterm, hpending⟩ := terminatedRun_ends
  have hnil := (h s (reaches_of_run hrun) ⟨0, hdone⟩ hterm 1).1
  rw [hpending] at hnil
  cases hnil

end ParallelEnum.DistributedMpi
