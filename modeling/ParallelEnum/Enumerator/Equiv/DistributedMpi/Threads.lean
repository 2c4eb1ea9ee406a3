import ParallelEnum.Enumerator.Equiv.DistributedMpi.Threads.Refines
import ParallelEnum.Theory.Simulation

/-!
# Correctness of `DistributedMPI` down to the threads

* `refines_of_reaches`: every run of the program is a run of the protocol of `DistributedMpi`, in
  which the threads of a process are the worker that they implement.
* `reported_of_done`: so when the master has returned, the threads of the processes have reported
  every node once, and the master knows the number of solutions.
-/

namespace ParallelEnum.DistributedMpi.Threads

open ParallelPthreadsSteal (FiniteSystem)
open Transition

variable {Value : Type} {W nthreads : ℕ} {c : FiniteSystem Value} {isSolution : Value → Bool}

/-! ### The master -/

section Master

variable (s : DistributedMpi.State Value W) (workers : Fin W → Worker Value) (maxRoots : ℕ)
  (i : Fin W)

theorem leaveSteal_workers : ({ s with workers := workers }).leaveSteal maxRoots i
    = { s.leaveSteal maxRoots i with workers := workers } := by
  unfold State.leaveSteal
  by_cases hterm : s.master.terminated = true
  · rw [if_pos hterm, if_pos hterm]
    rfl
  · rw [if_neg hterm, if_neg hterm]
    rfl

theorem stealFromNext_workers [NeZero W] : ({ s with workers := workers }).stealFromNext maxRoots i
    = { s.stealFromNext maxRoots i with workers := workers } := by
  unfold State.stealFromNext
  by_cases hterm : (!s.master.terminated) = true
  · rw [if_pos hterm, if_pos hterm]
    rfl
  · rw [if_neg hterm, if_neg hterm]
    exact leaveSteal_workers s workers maxRoots i

/-- A step of the master does not look at the workers. -/
theorem masterStep_workers [NeZero W] (now : ℕ) : ({ s with workers := workers }).masterStep c i now
    = (s.masterStep c i now).map fun s => { s with workers := workers } := by
  cases hpc : s.master.pc with
  | wait rangeBegin rangeEnd =>
    cases hup : s.toMaster i with
    | nil => simp only [State.masterStep, hpc, hup, Option.map_none]
    | cons msg rest =>
      cases msg with
      | rangeRequest count =>
        simp only [State.masterStep, hpc, hup]
        split_ifs
        · rfl
        · exact congrArg some (stealFromNext_workers (((s.recvFrom i rest).mapMaster
            (·.addRequest i now count)).mapMaster (·.setState i .stealWait)) workers c.maxRoots i)
      | _ => simp only [State.masterStep, hpc, hup, Option.map_none]
  | steal stealer victim =>
    cases hup : s.toMaster victim with
    | nil => simp only [State.masterStep, hpc, hup, Option.map_none]
    | cons msg rest =>
      cases msg with
      | data items => simp only [State.masterStep, hpc, hup, Option.map_none]
      | stealResponseLen areRoots =>
        simp only [State.masterStep, hpc, hup, Option.map_some]
        rfl
      | rangeRequest count =>
        simp only [State.masterStep, hpc, hup, Option.map_some]
        exact congrArg some (stealFromNext_workers ((s.recvFrom victim rest).mapMaster fun m =>
          (m.addRequest victim now count).setState victim .stealWait) workers c.maxRoots stealer)
  | data stealer victim areRoots =>
    cases hup : s.toMaster victim with
    | nil => simp only [State.masterStep, hpc, hup, Option.map_none]
    | cons msg rest =>
      cases msg with
      | data items =>
        simp only [State.masterStep, hpc, hup, Option.map_some]
        exact congrArg some (leaveSteal_workers (((s.recvFrom victim rest).sendTo stealer
          [.stealResponseLen areRoots, .data items]).mapMaster
            (·.setState stealer .stealProcessing)) workers c.maxRoots stealer)
      | _ => simp only [State.masterStep, hpc, hup, Option.map_none]
  | done stealer => simp only [State.masterStep, hpc, Option.map_none]

end Master

/-! ### Runs -/

section Runs

variable [DecidableEq Value] [NeZero W]

/-- A state of the program and the state of the protocol that it implements. -/
def Implements (c : FiniteSystem Value) (isSolution : Value → Bool) (s : State nthreads Value W)
    (t : DistributedMpi.State Value W) : Prop :=
  t = s.net t.workers ∧ ∀ i, Refines c isSolution (s.processes i) (t.workers i)

/-- What one process does, its worker does. -/
theorem implements_update {s : State nthreads Value W} {t : DistributedMpi.State Value W}
    (h : Implements c isSolution s t) {i : Fin W} {r : Process.Result nthreads Value}
    {w' : Worker Value}
    (hfollows : Follows c isSolution (t.workers i) (s.toMaster i) (s.toWorker i) w' r.toMaster
      r.toWorker) (hrefines : Refines c isSolution r.process w') :
    ∃ t', Reaches (DistributedMpi.step c isSolution) Any t t' ∧
      Implements c isSolution (s.setProcess i r) t' := by
  obtain ⟨hnet, hall⟩ := h
  rcases hfollows with ⟨rfl, hup, hdown⟩ | ⟨a, ha⟩
  · refine ⟨t, Reaches.refl t, ?_, ?_⟩
    · rw [hnet]
      simp only [State.net, State.setProcess, hup, hdown, Function.update_eq_self]
    · have hrelated := related_update hall i hrefines
      rwa [Function.update_eq_self] at hrelated
  · refine ⟨{ t with
      workers := Function.update t.workers i w'
      toMaster := Function.update t.toMaster i r.toMaster
      toWorker := Function.update t.toWorker i r.toWorker },
      Reaches.single (DistributedMpi.Action.worker i a) trivial ?_, ?_,
      related_update hall i hrefines⟩
    · rw [DistributedMpi.step, hnet]
      show ((t.workers i).step c isSolution a (s.toMaster i) (s.toWorker i)).map _ = _
      rw [ha]
      rfl
    · rw [hnet]
      rfl

/-- **The program simulates the protocol.** -/
theorem implements_step : ForwardSimulation (step c isSolution : State nthreads Value W → _ → _) Any
    (DistributedMpi.step c isSolution) Any (Implements c isSolution) := by
  intro s a s' t h _ hstep
  have hnet := h.1
  cases a with
  | master i now =>
    rw [step, Option.map_eq_some_iff] at hstep
    obtain ⟨r, hr, rfl⟩ := hstep
    refine ⟨{ r with workers := t.workers },
      Reaches.single (DistributedMpi.Action.master i now) trivial ?_, rfl, h.2⟩
    rw [DistributedMpi.step, hnet]
    have hworkers := masterStep_workers (c := c) (s.net fun _ => {}) t.workers i now
    rw [hr] at hworkers
    exact hworkers
  | send i =>
    cases hpc : (s.processes i).pc with
    | send count =>
      rw [step, hpc] at hstep
      obtain rfl := Option.some.inj hstep
      have hrefines := h.2 i
      have hresting : ¬ Resting (s.processes i) := by
        simp [Resting, hpc]
      refine implements_update h (Or.inr ⟨.send, ?_⟩) (hrefines.setPc hresting (by simp) (by simp))
      simp only [Worker.step, hrefines.pc, hpc]
    | _ =>
      rw [step, hpc] at hstep
      cases hstep
  | receive i garbage u =>
    cases hdown : s.toWorker i with
    | nil =>
      rw [step, hdown] at hstep
      cases hstep
    | cons msg rest =>
      rw [step, hdown] at hstep
      obtain ⟨p, hp, rfl⟩ := Option.map_eq_some_iff.mp hstep
      obtain ⟨w', hw', hrefines⟩ := (h.2 i).receive hp
      refine implements_update h (Or.inr ⟨.receive garbage, ?_⟩) hrefines
      simp only [Worker.step, hdown, hw', Option.map_some]
  | thread i u pick =>
    rw [step, Option.map_eq_some_iff] at hstep
    obtain ⟨r, hr, rfl⟩ := hstep
    obtain ⟨w', hfollows, hrefines⟩ := (h.2 i).threadStep hr
    exact implements_update h hfollows hrefines

omit [DecidableEq Value] in
theorem implements_init (nthreads rootsPerNode : ℕ) :
    Implements c isSolution (init c nthreads rootsPerNode : State nthreads Value W)
      (DistributedMpi.init c rootsPerNode) :=
  ⟨rfl, fun _ => refines_init⟩

/-- **Every run of the program is a run of the protocol.** -/
theorem refines_of_reaches (c : FiniteSystem Value) (isSolution : Value → Bool)
    {rootsPerNode : ℕ} {s : State nthreads Value W}
    (h : Reaches (step c isSolution) Any (init c nthreads rootsPerNode) s) :
    ∃ workers, Reaches (DistributedMpi.step c isSolution) Any (DistributedMpi.init c rootsPerNode)
        (s.net workers) ∧ ∀ i, Refines c isSolution (s.processes i) (workers i) := by
  obtain ⟨t, hrun, hnet, hall⟩ := h.simulate implements_step (implements_init nthreads rootsPerNode)
  rw [hnet] at hrun
  exact ⟨t.workers, hrun, hall⟩

/-- One process with two threads that take turns, up to the end of the master. -/
def aloneRun : List (Action 2 1) :=
  [.send (Fin.last 0), .master (Fin.last 0) 0, .receive (Fin.last 0) (0, 0) (Fin.last 1)] ++
    (List.replicate 51 [.thread (Fin.last 0) ⟨0, Nat.two_pos⟩ 0,
      .thread (Fin.last 0) (Fin.last 1) 0]).flatten ++
    [.send (Fin.last 0), .master (Fin.last 0) 1]

omit [NeZero W] in
theorem refines_of_reaches_alone :
    ∃ s, run (step ParallelPthreadsSteal.cherry (· = 2)) Any aloneRun
        (init ParallelPthreadsSteal.cherry 2 1 : State 2 ℕ 1) = some s ∧
      s.master.pc = .done (Fin.last 0) ∧
      ∃ workers, Reaches (DistributedMpi.step ParallelPthreadsSteal.cherry (· = 2)) Any
          (DistributedMpi.init ParallelPthreadsSteal.cherry 1) (s.net workers) ∧
        ∀ i, Refines ParallelPthreadsSteal.cherry (· = 2) (s.processes i) (workers i) := by
  have hends : (run (step ParallelPthreadsSteal.cherry (· = 2)) Any aloneRun
      (init ParallelPthreadsSteal.cherry 2 1 : State 2 ℕ 1)).map (·.master.pc)
      = some (.done (Fin.last 0)) := by
    decide +kernel
  obtain ⟨s, hrun, hdone⟩ := Option.map_eq_some_iff.mp hends
  exact ⟨s, hrun, hdone, refines_of_reaches _ _ (reaches_of_run hrun)⟩

/-! ### The end -/

/-- When the master has returned, the pool of work is empty, and all solutions are counted. -/
theorem pool_of_done (hroots : W ≤ c.maxRoots) {rootsPerNode : ℕ} (hpos : 1 ≤ rootsPerNode)
    {s : DistributedMpi.State Value W}
    (h : Reaches (DistributedMpi.step c isSolution) Any (DistributedMpi.init c rootsPerNode) s)
    (hstarted : ∀ w, (s.workers w).StartedWithRange) {last : Fin W}
    (hdone : s.master.pc = .done last) :
    (pool s).items = 0 ∧ (pool s).found = s.master.solutionsCount ∧
      ∀ w, (s.workers w).pc ≠ .running := by
  have hinv := reaches_inv hroots hpos h
  have hfinal := hinv.finallyLinked last hdone
  have hclean := fun w => (hfinal w).clean (hstarted w)
  have hcontent : content ToMaster.items ToWorker.items s = 0 := by
    apply content_eq_zero
    · intro w msg hmsg
      rw [(hfinal w).toMaster_eq (hstarted w) msg hmsg]
      rfl
    · intro w msg hmsg
      rcases (hfinal w).toWorker_eq msg hmsg with rfl | rfl <;> rfl
  have hunsent : s.master.unsent = 0 :=
    unsent_of_not_loop (hinv.handout.not_loop (by rw [hdone]; exact nofun))
  have hwork : ∑ w, (↑(s.workers w).work : Multiset (Work Value)) = 0 := by
    apply Finset.sum_eq_zero
    intro w _
    rw [(hclean w).2.1, Multiset.coe_nil]
  have hrequested : requested s.workers s.toMaster = 0 :=
    Finset.sum_eq_zero fun w _ => List.sum_eq_zero (hclean w).2.2.2
  have hfound : ∑ w, (s.workers w).solutionsFound = 0 :=
    Finset.sum_eq_zero fun w _ => (hclean w).2.2.1
  refine ⟨?_, ?_, fun w => (hclean w).1⟩
  · show DistributedMpi.held s = 0
    rw [DistributedMpi.held, hunsent, hcontent, hwork]
    rfl
  · show counted s = _
    rw [counted, hrequested, hfound]
    rfl

/-- A process whose first call of `MoreWork` has returned a range, if it has returned. -/
def Process.StartedWithRange (p : Process nthreads Value) : Prop :=
  ∀ info, p.firstInfo = some info → info = .range

/-- **The threads of all processes report every node once.**  When the master has returned, and no
process has started on a garbage range, the threads of the processes have reported every node of
the forest once, and `Master::Run` returns the number of solutions. -/
theorem reported_of_done (c : FiniteSystem Value) (isSolution : Value → Bool)
    (hroots : W ≤ c.maxRoots) {rootsPerNode : ℕ} (hpos : 1 ≤ rootsPerNode)
    {s : State nthreads Value W}
    (h : Reaches (step c isSolution) Any (init c nthreads rootsPerNode) s)
    (hstarted : ∀ i, (s.processes i).StartedWithRange) {last : Fin W}
    (hdone : s.master.pc = .done last) :
    (∑ i, (↑(s.processes i).reported : Multiset Value)) = ↑c.nodes ∧
      s.master.solutionsCount = c.nodes.countP isSolution := by
  obtain ⟨workers, hrun, hall⟩ := refines_of_reaches c isSolution h
  have hstarted' : ∀ i, (workers i).StartedWithRange := by
    intro i info hinfo
    exact hstarted i info ((hall i).firstInfo.symm.trans hinfo)
  obtain ⟨hitems, hfound, hpc⟩ := pool_of_done hroots hpos hrun hstarted' hdone
  have hgood := good_of_refines (refines_start hroots hpos hrun hstarted')
  obtain ⟨-, -, hreported, hcount⟩ := Pool.complete hgood hitems
  refine ⟨?_, hfound.symm.trans hcount⟩
  rw [← hreported]
  apply Finset.sum_congr rfl
  intro i _
  exact ((hall i).reported_of_idle (hpc i)).symm

/-- Steps of the only thread of process `i`. -/
def steps (n : ℕ) (i : Fin 2) (pick : ℕ) : List (Action 1 2) :=
  List.replicate n (.thread i (Fin.last 0) pick)

/-- Two processes get a range each; the first one asks for more, and gets the root of the second
one. -/
def stolenRun : List (Action 1 2) :=
  [.send 0, .master 0 0, .receive 0 (0, 0) (Fin.last 0)] ++
    [.send 1, .master 1 1, .receive 1 (0, 0) (Fin.last 0)] ++
    steps 42 0 0 ++ [.send 0, .master 0 2] ++
    -- the second process finds the request, and answers it
    steps 6 1 0 ++ steps 1 1 1 ++ steps 3 1 0 ++ [.master 1 3, .master 1 4] ++
    [.receive 0 (0, 0) (Fin.last 0), .receive 0 (0, 0) (Fin.last 0)] ++ steps 38 0 0 ++
    [.send 0, .master 0 5] ++
    -- it is the first one that is asked now
    [.receive 0 (0, 0) (Fin.last 0), .send 0, .master 0 6] ++ steps 26 1 0 ++
    [.send 1, .master 1 7]

omit [NeZero W] in
theorem reported_of_done_two :
    ∃ s, run (step twoRoots fun _ => true) Any stolenRun (init twoRoots 1 1 : State 1 ℕ 2)
        = some s ∧
      (∑ i, (↑(s.processes i).reported : Multiset ℕ)) = ↑twoRoots.nodes ∧
      s.master.solutionsCount = twoRoots.nodes.countP fun _ => true := by
  have hends : (run (step twoRoots fun _ => true) Any stolenRun
      (init twoRoots 1 1 : State 1 ℕ 2)).map
        (fun s => ((s.processes 0).firstInfo, (s.processes 1).firstInfo, s.master.pc))
      = some (some .range, some .range, .done 0) := by
    decide +kernel
  obtain ⟨s, hrun, hends⟩ := Option.map_eq_some_iff.mp hends
  obtain ⟨h0, h1, hdone⟩ : _ ∧ _ ∧ _ := by simpa using hends
  have hstarted : ∀ i, (s.processes i).StartedWithRange := by
    intro i info hinfo
    match i with
    | 0 => exact Option.some.inj (hinfo.symm.trans h0)
    | 1 => exact Option.some.inj (hinfo.symm.trans h1)
  have hroots : 2 ≤ twoRoots.maxRoots := le_rfl
  exact ⟨s, hrun, reported_of_done twoRoots _ hroots le_rfl (reaches_of_run hrun) hstarted hdone⟩

end Runs

end ParallelEnum.DistributedMpi.Threads
