import ParallelEnum.Enumerator.Equiv.DistributedMpi.Threads.Held
import ParallelEnum.Enumerator.Equiv.ParallelPthreadsSteal.Closing

/-!
# What else a step of a thread does to its process

* `held_eq_zero`: a process that asks for more work, or has been told that there is none, has none.
* `sendsWork_of_reaches`: what `ServeSteal` sends is some roots, or the node that it was given.
* `solutions_of_step`, `passed_of_step`: how the counts of solutions change.
-/

namespace ParallelEnum.DistributedMpi.Threads

open ParallelPthreadsSteal (FiniteSystem)
open ParallelPthreadsSteal.Callbacks
open Transition (Reaches Any)

variable {Value : Type} {nthreads : ℕ} {c : FiniteSystem Value} {isSolution : Value → Bool}

/-! ### The callback that is made -/

theorem serveCallback_ne_moreWork (stage : ServeStage Unit Value) :
    serveCallback stage ≠ some .moreWork := by
  cases stage <;> exact nofun

theorem callback_eq_moreWork {th : Thread nthreads Unit Value} :
    callback th = some .moreWork ↔ th.pc = .moreWork .moreWork := by
  obtain ⟨pc, l, k⟩ := th
  constructor
  · intro h
    cases pc with
    | serve b stage => exact absurd h (serveCallback_ne_moreWork stage)
    | working b =>
      match k with
      | [] => cases h
      | .getRoot rest :: k => cases h
      | .listChildren node i :: k => cases h
      | .solutionCb node (.serve stage) :: k => exact absurd h (serveCallback_ne_moreWork stage)
      | .solutionCb node .report :: k => cases h
      | .solutionCb node .start :: k => cases h
      | .solutionCb node (.gotSize size) :: k => cases h
      | .solutionCb node (.gotWaiting waiting) :: k => cases h
      | .solutionCb node .enqueue :: k => cases h
      | .solutionCb node .keep :: k => cases h
    | moreWork stage =>
      cases stage with
      | moreWork => rfl
      | _ => cases h
    | _ => cases h
  · rintro rfl
    rfl

/-! ### No work -/

section Idle

variable {s : Group nthreads Value}

/-- Without nodes in the queues, with the threads or in the calls, no work is left. -/
theorem held_eq_zero_of_threads (hroots : s.shared.possibleRoots = [])
    (hgnodes : s.shared.gnodes = [])
    (hthreads : ∀ t, pcWork (s.threads t).pc = 0 ∧ (s.threads t).lnodes = [] ∧
      (s.threads t).calls = []) : held c s = 0 ∧ owed c s = 0 := by
  constructor
  · rw [held, sharedWork, hroots, hgnodes, Finset.sum_eq_zero]
    · rfl
    · intro t _
      obtain ⟨hpc, hlnodes, hcalls⟩ := hthreads t
      rw [threadWork, hpc, hlnodes, hcalls]
      rfl
  · rw [owed, Finset.sum_eq_zero]
    intro t _
    rw [threadOwed, (hthreads t).2.2]
    rfl

theorem moreWorkWork_of_idle {stage : MoreWorkStage Unit Value} (h : stage.Idle) :
    moreWorkWork stage = 0 := by
  cases stage with
  | reset mwd =>
    obtain rfl : mwd = .nothing := h
    rfl
  | enqueueRoots roots => exact h.elim
  | enqueueNodes nodes => exact h.elim
  | _ => rfl

/-- A process that has been told that there is no more work has none. -/
theorem held_of_closing (hcontrol : Control s) (h : Closing s) : held c s = 0 ∧ owed c s = 0 := by
  apply held_eq_zero_of_threads h.roots h.gnodes
  intro t
  obtain ⟨hlnodes, hcalls, -⟩ := h.idle hcontrol t
  refine ⟨?_, hlnodes, hcalls⟩
  have hclosing := h.threads t
  generalize (s.threads t).pc = pc at hclosing
  cases pc with
  | moreWork stage => exact moreWorkWork_of_idle hclosing
  | outer => rfl
  | done => rfl
  | barrier second wait => rfl
  | _ => exact hclosing.elim

/-- A process that asks for more work has none. -/
theorem held_of_asking (hcontrol : Control s) {t : Fin nthreads}
    {stage : MoreWorkStage Unit Value} (hround : RoundOk s.shared (s.threads t))
    (hpc : (s.threads t).pc = .moreWork stage)
    (hstage : stage = .readTerminate ∨ stage = .moreWork) : held c s = 0 ∧ owed c s = 0 := by
  have hknows : s.shared.possibleRoots = [] ∧ s.shared.gnodes = [] := by
    rcases hstage with rfl | rfl
    · exact hround.stage _ hpc
    · exact hround.stage _ hpc
  have hholds : 0 < holds (s.threads t) := by
    rcases hstage with rfl | rfl
    · exact holds_moreWork hpc rfl
    · exact holds_moreWork hpc rfl
  apply held_eq_zero_of_threads hknows.1 hknows.2
  intro u
  have hbetween := hcontrol.between (between_moreWork stage hpc) u
  have hidle := idle_of_between (hcontrol.tidy u) hbetween
  refine ⟨?_, hidle.1, by_contra fun hcalls => hidle.2 (Or.inr hcalls)⟩
  by_cases hut : u = t
  · rw [hut, hpc]
    rcases hstage with rfl | rfl <;> rfl
  · -- nobody else holds `checkingSteal`
    have hzero := hcontrol.holds_eq_zero hholds hut
    rcases between_cases hbetween with ⟨b, w, hu⟩ | ⟨stage', hu⟩
    · rw [hu]
      rfl
    · rw [hu]
      cases stage' with
      | testAndSet => rfl
      | decWaiting => rfl
      | _ => exact absurd hzero (holds_moreWork hu rfl).ne'

end Idle

/-! ### What `ServeSteal` sends -/

/-- `ServeSteal` sends some roots, or the node that it was given. -/
def SendsOf (node : Option (Node nthreads Value)) (stage : ServeStage Unit Value) : Prop :=
  ∀ data, stage = .sendSteal data → (∃ roots, roots ≠ [] ∧ data = .roots roots) ∨
    ∃ x, node = some x ∧ data = .subtree [((), x.value)]

def callSends : Call nthreads Unit Value → Prop
  | .solutionCb node (.serve stage) => SendsOf (some node) stage
  | _ => True

def pcSends : Pc nthreads Unit Value → Prop
  | .serve _ stage => SendsOf (none : Option (Node nthreads Value)) stage
  | _ => True

/-- What holds of the data that a thread is about to send. -/
structure SendsWork (th : Thread nthreads Unit Value) : Prop where
  pc : pcSends th.pc
  calls : ∀ call ∈ th.calls, callSends call

section Sends

variable {t : Fin nthreads} {pick : ℕ} {answer : MoreWorkData Unit Value}
  {sh sh' : ParallelPthreadsSteal.Callbacks.Shared nthreads Unit Value}
  {th th' : Thread nthreads Unit Value}

theorem sendsOf_step {node : Option (Node nthreads Value)} {stage stage' : ServeStage Unit Value}
    (h : stage.step (systemOf c isSolution) true pick node sh = some (sh', .inl stage')) :
    SendsOf node stage' := by
  rintro data rfl
  cases stage with
  | choose roots =>
    cases roots with
    | cons i roots =>
      obtain ⟨-, hdata⟩ := Prod.mk.inj (Option.some.inj h)
      obtain rfl : MoreWorkData.roots (i :: roots) = data := by simpa using hdata
      exact Or.inl ⟨i :: roots, List.cons_ne_nil _ _, rfl⟩
    | nil =>
      cases node with
      | none =>
        obtain ⟨-, hdata⟩ := Prod.mk.inj (Option.some.inj h)
        cases hdata
      | some x =>
        obtain ⟨-, hdata⟩ := Prod.mk.inj (Option.some.inj h)
        obtain rfl : MoreWorkData.subtree [((), x.value)] = data := by simpa using hdata
        exact Or.inr ⟨x, rfl, rfl⟩
  | testAndSet =>
    rw [ServeStage.step] at h
    split_ifs at h <;> cases h
  | checkSteal =>
    obtain ⟨-, hstage⟩ := Prod.mk.inj (Option.some.inj h)
    split_ifs at hstage <;> cases hstage
  | readSize roots =>
    obtain ⟨-, hstage⟩ := Prod.mk.inj (Option.some.inj h)
    split_ifs at hstage <;> cases hstage
  | compareSize roots =>
    obtain ⟨-, hstage⟩ := Prod.mk.inj (Option.some.inj h)
    split_ifs at hstage <;> cases hstage
  | dequeueRoot roots =>
    rw [ServeStage.step, Option.map_eq_some_iff] at h
    obtain ⟨⟨_ | i, left⟩, -, h⟩ := h <;> cases h
  | sendSteal data => cases data <;> cases h
  | clear offloadedNode => cases h

theorem callSends_afterServe {node : Node nthreads Value} {stage : ServeStage Unit Value}
    {r : ServeStage Unit Value ⊕ Bool}
    (h : stage.step (systemOf c isSolution) true pick (some node) sh = some (sh', r)) :
    callSends (.solutionCb node (Thread.afterServe r)) := by
  rcases r with stage' | _ | _
  · exact sendsOf_step h
  · trivial
  · trivial

theorem sendsWork_step (hsends : SendsWork th)
    (h : Thread.step (systemOf c isSolution) true t pick answer sh th = some (sh', th')) :
    SendsWork th' := by
  obtain ⟨hpc, hcalls⟩ := hsends
  have htest : ∀ node : Option (Node nthreads Value), SendsOf node .testAndSet := fun _ => nofun
  cases ParallelPthreadsSteal.Callbacks.moves_of_step h with
  | noRoots k hroots => exact ⟨htest none, hcalls⟩
  | missRoot l k hroots => exact ⟨htest none, hcalls⟩
  | finish l => exact ⟨htest none, hcalls⟩
  | serve b l k hserve => exact ⟨sendsOf_step hserve, hcalls⟩
  | serveNode b x l k hserve =>
    have hrest := (List.forall_mem_cons.mp hcalls).2
    exact ⟨trivial, List.forall_mem_cons.mpr ⟨callSends_afterServe hserve, hrest⟩⟩
  | passRoot b v rest l k =>
    have hrest := (List.forall_mem_cons.mp hcalls).2
    exact ⟨trivial, List.forall_mem_cons.mpr ⟨htest _, List.forall_mem_cons.mpr ⟨trivial, hrest⟩⟩⟩
  | passChild b x i v l k =>
    have hrest := (List.forall_mem_cons.mp hcalls).2
    exact ⟨trivial, List.forall_mem_cons.mpr ⟨htest _, List.forall_mem_cons.mpr ⟨trivial, hrest⟩⟩⟩
  | recurse b x l k =>
    have hrest := (List.forall_mem_cons.mp hcalls).2
    exact ⟨trivial, List.forall_mem_cons.mpr ⟨trivial, List.forall_mem_cons.mpr ⟨trivial, hrest⟩⟩⟩
  | pop => exact ⟨trivial, List.forall_mem_cons.mpr ⟨trivial, hcalls⟩⟩
  | getRoot => exact ⟨trivial, List.forall_mem_cons.mpr ⟨trivial, hcalls⟩⟩
  | stole => exact ⟨trivial, List.forall_mem_cons.mpr ⟨trivial, hcalls⟩⟩
  | endRoot => exact ⟨trivial, (List.forall_mem_cons.mp hcalls).2⟩
  | endList => exact ⟨trivial, (List.forall_mem_cons.mp hcalls).2⟩
  | report => exact ⟨trivial, (List.forall_mem_cons.mp hcalls).2⟩
  | reportSolution => exact ⟨trivial, (List.forall_mem_cons.mp hcalls).2⟩
  | readSize | readWaiting | fewNodes | manyNodes | manyWaiting | fewWaiting | enqueue | push =>
    have hrest := (List.forall_mem_cons.mp hcalls).2
    exact ⟨trivial, List.forall_mem_cons.mpr ⟨trivial, hrest⟩⟩
  | _ => exact ⟨trivial, hcalls⟩

/-- What a thread is about to send. -/
theorem SendsWork.data (hsends : SendsWork th) {data : MoreWorkData Unit Value}
    (h : callback th = some (.sendSteal data)) :
    (∃ roots, roots ≠ [] ∧ data = .roots roots) ∨ ∃ value, data = .subtree [((), value)] := by
  have hstage : ∀ (node : Option (Node nthreads Value)) (stage : ServeStage Unit Value),
      SendsOf node stage → serveCallback stage = some (.sendSteal data) →
      (∃ roots, roots ≠ [] ∧ data = .roots roots) ∨ ∃ value, data = .subtree [((), value)] := by
    intro node stage hsendsOf hcallback
    cases stage with
    | sendSteal data' =>
      obtain rfl : data' = data := by simpa [serveCallback] using hcallback
      exact (hsendsOf data' rfl).imp_right fun ⟨x, _, hx⟩ => ⟨x.value, hx⟩
    | _ => cases hcallback
  obtain ⟨hpc, hcalls⟩ := hsends
  obtain ⟨pc, l, k⟩ := th
  cases pc with
  | serve b stage => exact hstage _ stage hpc h
  | working b =>
    match k with
    | [] => cases h
    | .getRoot rest :: k => cases h
    | .listChildren node i :: k => cases h
    | .solutionCb node stage :: k =>
      cases stage with
      | serve stage => exact hstage _ stage (List.forall_mem_cons.mp hcalls).1 h
      | _ => cases h
  | moreWork stage => cases stage <;> cases h
  | _ => cases h

/-! ### Counts -/

/-- One if the callback reports a solution. -/
def solutionsOf (isSolution : Value → Bool) : Option (Callback Value) → ℕ
  | some (.reportSolution value) => [value].countP isSolution
  | _ => 0

theorem solutionsOf_serve (stage : ServeStage Unit Value) :
    solutionsOf isSolution (serveCallback stage) = 0 := by
  cases stage <;> rfl

/-- A node that is reported is counted if it is a solution. -/
theorem solutions_of_report {b : Bool} {node : Node nthreads Value}
    {l : List (Node nthreads Value)} {k : List (Call nthreads Unit Value)}
    (h : Thread.step (systemOf c isSolution) true t pick answer sh
      ⟨.working b, l, .solutionCb node .report :: k⟩ = some (sh', th')) :
    sh'.solutions = sh.solutions + [node.value].countP isSolution := by
  have hsolution : (systemOf c isSolution).isSolution
      (sh.buffer (systemOf c isSolution) node.ref) node.value = isSolution node.value := rfl
  simp only [Thread.step, Thread.work, Thread.solutionCb, hsolution] at h
  obtain ⟨rfl, -⟩ := Prod.mk.inj (Option.some.inj h)
  rw [List.countP_singleton]
  split_ifs <;> rfl

theorem solutions_of_step
    (h : Thread.step (systemOf c isSolution) true t pick answer sh th = some (sh', th')) :
    sh'.solutions = sh.solutions + solutionsOf isSolution (callback th) := by
  cases ParallelPthreadsSteal.Callbacks.moves_of_step h with
  | report b x l k => exact solutions_of_report h
  | reportSolution b x l k => exact solutions_of_report h
  | serveNode b x l k hserve =>
    obtain ⟨roots, flag, rfl, -⟩ := serveStage_step hserve
    exact (congrArg (sh.solutions + ·) (solutionsOf_serve _)).symm
  | serve b l k hserve =>
    obtain ⟨roots, flag, rfl, -⟩ := serveStage_step hserve
    exact (congrArg (sh.solutions + ·) (solutionsOf_serve _)).symm
  | served l k hserve =>
    obtain ⟨roots, flag, rfl, -⟩ := serveStage_step hserve
    exact (congrArg (sh.solutions + ·) (solutionsOf_serve _)).symm
  | servedIdle l k hserve =>
    obtain ⟨roots, flag, rfl, -⟩ := serveStage_step hserve
    exact (congrArg (sh.solutions + ·) (solutionsOf_serve _)).symm
  | moreWork l k hmove => cases hmove <;> rfl
  | _ => rfl

/-- A count is passed to the `MoreWork` callback when the callback is invoked. -/
theorem passed_of_step
    (h : Thread.step (systemOf c isSolution) true t pick answer sh th = some (sh', th')) :
    (th'.pc ≠ .moreWork .moreWork ∧ sh'.passed = sh.passed) ∨
      (th.pc = .moreWork .readTerminate ∧ th'.pc = .moreWork .moreWork ∧
        sh'.passed = sh.passed ++ [sh.solutionsFound]) := by
  cases (ParallelPthreadsSteal.Callbacks.moves_of_step h).countMove with
  | same solutions passed found handed invoked => exact Or.inl ⟨invoked, passed⟩
  | solution working working' solutions passed found =>
    left
    refine ⟨?_, passed⟩
    intro hpc
    rw [hpc] at working'
    exact working'
  | invoke before after solutions passed found => exact Or.inr ⟨before, after, passed⟩
  | reset before after solutions passed found =>
    left
    refine ⟨?_, passed⟩
    intro hpc
    rw [hpc] at after
    exact after trivial

end Sends

end ParallelEnum.DistributedMpi.Threads
