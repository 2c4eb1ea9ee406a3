import ParallelEnum.Enumerator.Equiv.ParallelPthreadsSteal.Control

/-!
# When the `MoreWork` callback is invoked

A thread comes to the first barrier only after it has seen `possibleRoots` empty, and nobody puts
roots there before all threads have come (`RoundOk`).  So the thread that invokes the callback is
alone: `moreWork_alone`.
-/

namespace ParallelEnum.ParallelPthreadsSteal.Callbacks

open Transition

variable {n : ℕ} {Buffer Value : Type} {c : BufferSystem Buffer Value} {callbacks : Bool}

/-! ### What a thread knows -/

/-- The thread has seen `possibleRoots` empty and has not done anything since. -/
def Pc.Dry : Pc n Buffer Value → Prop
  | .serve false _ => True
  | .incWaiting => True
  | .dequeue => True
  | .checkTerminate => True
  | .checkWaiting => True
  | .decWaiting _ => True
  | .enterMoreWork => True
  | .barrier false _ => True
  | _ => False

/-- The call has read a positive `waiting`. -/
def Call.Eager : Call n Buffer Value → Prop
  | .solutionCb _ (.gotWaiting waiting) => 0 < waiting
  | .solutionCb _ .enqueue => True
  | _ => False

/-- No node refers to the buffer of a thread. -/
def AllReceived (nodes : List (Node n Value)) : Prop :=
  ∀ x ∈ nodes, ∀ t, x.ref ≠ .thread t

/-- What the holder of `checkingSteal` has made sure of between the barriers. -/
def MoreWorkStage.Knows (sh : Shared n Buffer Value) : MoreWorkStage Buffer Value → Prop
  | .readGnodes => sh.possibleRoots = []
  | .readTerminate => sh.possibleRoots = [] ∧ sh.gnodes = []
  | .moreWork => sh.possibleRoots = [] ∧ sh.gnodes = []
  | .reset _ => sh.possibleRoots = [] ∧ sh.gnodes = []
  | .enqueueRoots _ => sh.gnodes = []
  | .enqueueNodes _ => AllReceived sh.gnodes
  | _ => True

/-- What a thread knows about the queues. -/
structure RoundOk (sh : Shared n Buffer Value) (th : Thread n Buffer Value) : Prop where
  dry : th.pc.Dry → ¬ Between sh th → sh.possibleRoots = []
  eager : ∀ call ∈ th.calls, call.Eager → sh.possibleRoots = []
  stage : ∀ stage, th.pc = .moreWork stage → stage.Knows sh

theorem roundOk_outer (sh : Shared n Buffer Value) : RoundOk sh {} where
  dry := fun h => h.elim
  eager := by simp
  stage := nofun

/-! ### Frames -/

section Moves

variable {t : Fin n} {pick : ℕ} {answer : MoreWorkData Buffer Value}
  {sh sh' : Shared n Buffer Value} {th th' : Thread n Buffer Value}

theorem between_cases (h : Between sh th) :
    (∃ b w, th.pc = .barrier b w) ∨ ∃ stage, th.pc = .moreWork stage := by
  obtain ⟨pc, l, k⟩ := th
  cases pc with
  | barrier b w => exact Or.inl ⟨b, w, rfl⟩
  | moreWork stage => exact Or.inr ⟨stage, rfl⟩
  | _ => cases h

theorem between_moreWork (stage : MoreWorkStage Buffer Value) (hpc : th.pc = .moreWork stage) :
    Between sh th := by
  unfold Between party
  rw [hpc]
  rfl

theorem not_between_of_mayCall (sh : Shared n Buffer Value) (h : th.pc.MayCall) :
    ¬ Between sh th := by
  intro hbetween
  rcases between_cases hbetween with ⟨b, w, hpc⟩ | ⟨stage, hpc⟩
  · rw [hpc] at h
    exact h
  · rw [hpc] at h
    exact h

/-- Roots are put into `possibleRoots` in one place only. -/
theorem Moves.possibleRoots (h : Moves c callbacks t pick answer sh th sh' th') :
    sh'.possibleRoots ⊆ sh.possibleRoots ∨ ∃ roots, th.pc = .moreWork (.enqueueRoots roots) := by
  cases h with
  | takeRoot i roots l k h => exact Or.inl fun j hj => h.mem_iff.mpr (List.mem_cons_of_mem i hj)
  | serveNode b x l k h =>
    obtain ⟨_, _, rfl, hroots, -⟩ := serveStage_step h
    exact Or.inl hroots
  | serve b l k h =>
    obtain ⟨_, _, rfl, hroots, -⟩ := serveStage_step h
    exact Or.inl hroots
  | served l k h =>
    obtain ⟨_, _, rfl, hroots, -⟩ := serveStage_step h
    exact Or.inl hroots
  | servedIdle l k h =>
    obtain ⟨_, _, rfl, hroots, -⟩ := serveStage_step h
    exact Or.inl hroots
  | moreWork l k h =>
    cases h with
    | enqueueRoot i roots => exact Or.inr ⟨_, rfl⟩
    | _ => exact Or.inl (List.Subset.refl _)
  | _ => exact Or.inl (List.Subset.refl _)

/-- While the threads are not between the barriers, no root is put into `possibleRoots`. -/
theorem Moves.roots_eq_nil (h : Moves c callbacks t pick answer sh th sh' th')
    (hbetween : ¬ Between sh th) (hroots : sh.possibleRoots = []) : sh'.possibleRoots = [] := by
  rcases h.possibleRoots with hsub | ⟨roots, hpc⟩
  · rw [hroots] at hsub
    exact List.subset_nil.mp hsub
  · exact absurd (between_moreWork _ hpc) hbetween

/-- Between the barriers, only the holder of `checkingSteal` touches the queues and the counts. -/
theorem Moves.quiet (h : Moves c callbacks t pick answer sh th sh' th') (hbetween : Between sh th)
    (hholds : Callbacks.holds th = 0) : ∃ waiting flag bar, sh' =
      { sh with waiting := waiting, checkingSteal := flag, barrier := bar } := by
  cases h with
  | wait b l k h => exact ⟨_, _, _, rfl⟩
  | leaveFirst l k h => exact ⟨_, _, _, rfl⟩
  | leaveSecond l k h => exact ⟨_, _, _, rfl⟩
  | endMoreWork l k => exact ⟨_, _, _, rfl⟩
  | moreWork l k h =>
    cases h with
    | acquire h => exact ⟨_, _, _, rfl⟩
    | occupied => exact ⟨_, _, _, rfl⟩
    | _ => simp [Callbacks.holds, MoreWorkStage.holds] at hholds
  | _ => cases hbetween

/-! ### The thread that moves -/

theorem Moves.dry (h : Moves c callbacks t pick answer sh th sh' th') (hdry : th'.pc.Dry)
    (hnot : ¬ Between sh' th') : ¬ Between sh th ∧ (th.pc.Dry ∨ sh.possibleRoots = []) := by
  cases h with
  | noRoots k h => exact ⟨nofun, Or.inr h⟩
  | missRoot l k h => exact ⟨nofun, Or.inr h⟩
  | serve b l k h =>
    cases b with
    | false => exact ⟨nofun, Or.inl trivial⟩
    | true => exact hdry.elim
  | @wait b w _ _ l k h =>
    cases b with
    | true => exact hdry.elim
    | false =>
      refine ⟨fun hbetween => ?_, Or.inl trivial⟩
      change (false ^^ Barrier.released sh.barrier (some w)) = true at hbetween
      rw [Barrier.released_of_go h] at hbetween
      cases hbetween
  | _ =>
    first
    | exact hdry.elim
    | exact ⟨nofun, Or.inl trivial⟩

/-- A call that is no longer serving has not read `waiting`. -/
theorem not_eager_afterServe (x : Node n Value) (r : ServeStage Buffer Value ⊕ Bool) :
    ¬ Call.Eager (.solutionCb x (Thread.afterServe r)) := by
  rcases r with _ | _ | _ <;> exact id

theorem Moves.eager (h : Moves c callbacks t pick answer sh th sh' th') {call : Call n Buffer Value}
    (hcall : call ∈ th'.calls) (heager : call.Eager) :
    (∃ call' ∈ th.calls, call'.Eager) ∨ (th.pc.MayCall ∧ 0 < sh.waiting) := by
  cases h with
  | readWaiting b x l k =>
    rcases List.mem_cons.mp hcall with rfl | hcall
    · exact Or.inr ⟨trivial, heager⟩
    · exact Or.inl ⟨call, List.mem_cons_of_mem _ hcall, heager⟩
  | fewNodes b x m l k h => exact Or.inr ⟨trivial, h⟩
  | manyWaiting b x w l k h => exact Or.inl ⟨_, List.mem_cons_self, h⟩
  | serveNode b x l k h =>
    rcases List.mem_cons.mp hcall with rfl | hcall
    · exact absurd heager (not_eager_afterServe x _)
    · exact Or.inl ⟨call, List.mem_cons_of_mem _ hcall, heager⟩
  | _ =>
    refine Or.inl ⟨call, ?_, heager⟩
    first
    | exact hcall
    | grind [Call.Eager]

theorem Moves.knows (h : Moves c callbacks t pick answer sh th sh' th')
    (hknows : ∀ stage, th.pc = .moreWork stage → stage.Knows sh)
    {stage : MoreWorkStage Buffer Value} (hpc : th'.pc = .moreWork stage) : stage.Knows sh' := by
  cases h with
  | leaveFirst l k h =>
    obtain rfl := Pc.moreWork.inj hpc
    trivial
  | moreWork l k h =>
    have hknows := hknows _ rfl
    obtain rfl := Pc.moreWork.inj hpc
    cases h with
    | noRoots h => exact h
    | noGnodes h => exact ⟨hknows, h⟩
    | invoke => exact hknows
    | answer => exact hknows
    | receiveRoots mwd roots => exact hknows.2
    | receiveNodes mwd nodes =>
      intro x hx
      rw [hknows.2] at hx
      cases hx
    | enqueueRoot i roots => exact hknows
    | enqueueNode buffer value nodes =>
      intro x hx u
      rcases List.mem_append.mp hx with hx | hx
      · exact hknows x hx u
      · obtain rfl := List.mem_singleton.mp hx
        exact nofun
    | _ => trivial
  | _ => cases hpc

end Moves

/-! ### All threads -/

section Control

variable {s s' : State n Buffer Value} {t u : Fin n}

/-- A thread that is counted in `waiting` has seen `possibleRoots` empty. -/
theorem Control.roots_of_waiting (h : Control s) (hround : ∀ t, RoundOk s.shared (s.threads t))
    (ht : ¬ Between s.shared (s.threads t)) (hwaiting : 0 < s.shared.waiting) :
    s.shared.possibleRoots = [] := by
  rw [← h.counts] at hwaiting
  obtain ⟨u, -, hu⟩ := Finset.exists_ne_zero_of_sum_ne_zero hwaiting.ne'
  have hnot : ¬ Between s.shared (s.threads u) := fun hbetween => ht (h.between hbetween t)
  apply (hround u).dry _ hnot
  generalize s.threads u = th at hu hnot
  obtain ⟨pc, l, k⟩ := th
  cases pc with
  | barrier b w => cases b <;> simp_all [Callbacks.counts, Pc.Dry]
  | moreWork stage => exact absurd (between_moreWork stage rfl) hnot
  | _ => simp_all [Callbacks.counts, Pc.Dry]

theorem Control.mayCall (h : Control s) {call : Call n Buffer Value}
    (hcall : call ∈ (s.threads t).calls) : (s.threads t).pc.MayCall := by
  by_contra hnot
  rw [(h.tidy t).calls hnot] at hcall
  cases hcall

/-- A thread at the first barrier does not slip back. -/
theorem Control.not_between (h : Control s) {c : BufferSystem Buffer Value} {pick : ℕ}
    {answer : MoreWorkData Buffer Value} {sh' : Shared n Buffer Value} {th' : Thread n Buffer Value}
    (hmoves : Moves c callbacks t pick answer s.shared (s.threads t) sh' th') (hu : u ≠ t)
    (hdry : (s.threads u).pc.Dry) (hnot : ¬ Between sh' (s.threads u)) :
    ¬ Between s.shared (s.threads u) := by
  intro hbetween
  apply hnot
  have hstays := h.barrier.released_stays hmoves.party hu
  rcases between_cases hbetween with ⟨b, w, hpc⟩ | ⟨stage, hpc⟩
  · cases b with
    | true =>
      rw [hpc] at hdry
      exact hdry.elim
    | false =>
      unfold Between party at hbetween ⊢
      simp only [Function.comp_apply, party, hpc] at hstays
      rw [hpc] at hbetween ⊢
      simpa [Barrier.past] using hstays (by simpa [Barrier.past] using hbetween)
  · rw [hpc] at hdry
    exact hdry.elim

/-- The holder of `checkingSteal` knows what it knew. -/
theorem Control.knows (h : Control s) {c : BufferSystem Buffer Value} {pick : ℕ}
    {answer : MoreWorkData Buffer Value} {sh' : Shared n Buffer Value} {th' : Thread n Buffer Value}
    (hmoves : Moves c callbacks t pick answer s.shared (s.threads t) sh' th') (hu : u ≠ t)
    {stage : MoreWorkStage Buffer Value} (hpc : (s.threads u).pc = .moreWork stage)
    (hknows : stage.Knows s.shared) : stage.Knows sh' := by
  by_cases hholds : stage.holds = 0
  · cases stage with
    | testAndSet => trivial
    | decWaiting => trivial
    | _ => cases hholds
  · have hholdsU : 0 < Callbacks.holds (s.threads u) := by
      unfold Callbacks.holds
      rw [hpc]
      dsimp only
      omega
    have hbetween := h.between (between_moreWork stage hpc) t
    -- nobody else touches the queues while `u` holds `checkingSteal`
    obtain ⟨_, _, _, rfl⟩ := hmoves.quiet hbetween (h.holds_eq_zero hholdsU hu.symm)
    cases stage <;> exact hknows

theorem roundOk_step {a : Action n Buffer Value} (h : Control s)
    (hround : ∀ t, RoundOk s.shared (s.threads t)) (hstep : step c callbacks s a = some s') :
    ∀ t, RoundOk s'.shared (s'.threads t) := by
  obtain ⟨th', hmoves, hthreads⟩ := moves_of_run_step hstep
  rw [hthreads]
  refine (Function.forall_update_iff s.threads fun _ th => RoundOk s'.shared th).mpr ⟨?_, ?_⟩
  · have hround' := hround a.thread
    constructor
    case dry =>
      intro hdry hnot
      obtain ⟨hnot', hdry' | hroots⟩ := hmoves.dry hdry hnot
      · exact hmoves.roots_eq_nil hnot' (hround'.dry hdry' hnot')
      · exact hmoves.roots_eq_nil hnot' hroots
    case eager =>
      intro call hcall heager
      rcases hmoves.eager hcall heager with ⟨call', hcall', heager'⟩ | ⟨hmay, hwaiting⟩
      · have hnot := not_between_of_mayCall s.shared (h.mayCall hcall')
        exact hmoves.roots_eq_nil hnot (hround'.eager call' hcall' heager')
      · have hnot := not_between_of_mayCall s.shared hmay
        exact hmoves.roots_eq_nil hnot (h.roots_of_waiting hround hnot hwaiting)
    case stage =>
      intro stage hpc
      exact hmoves.knows hround'.stage hpc
  · intro u hu
    constructor
    case dry =>
      intro hdry hnot
      have hnot' := h.not_between hmoves hu hdry hnot
      have hroots := (hround u).dry hdry hnot'
      exact hmoves.roots_eq_nil (fun hbetween => hnot' (h.between hbetween u)) hroots
    case eager =>
      intro call hcall heager
      have hnot := not_between_of_mayCall s.shared (h.mayCall hcall)
      have hroots := (hround u).eager call hcall heager
      exact hmoves.roots_eq_nil (fun hbetween => hnot (h.between hbetween u)) hroots
    case stage =>
      intro stage hpc
      exact h.knows hmoves hu hpc ((hround u).stage stage hpc)

theorem roundOk_of_reaches {minRootId maxRootId : ℕ} {s : State n Buffer Value}
    (h : Reaches (step c callbacks) Any (init c n minRootId maxRootId) s) (t : Fin n) :
    RoundOk s.shared (s.threads t) := by
  have hround : ∀ t, RoundOk s.shared (s.threads t) :=
    h.invariant_of (I := fun s => ∀ t, RoundOk s.shared (s.threads t)) (J := Control)
      (fun _ => control_of_reaches) (fun _ => roundOk_outer _)
      fun _ _ _ hcontrol hround _ hstep => roundOk_step hcontrol hround hstep
  exact hround t

/-! ### The count of solutions -/

/-- The thread has passed `solutions_found_` to the callback and has not reset it. -/
def Pc.Handed : Pc n Buffer Value → Prop
  | .moreWork .moreWork => True
  | .moreWork (.reset _) => True
  | _ => False

/-- Every solution is counted once, in `solutions_found_` or in a value that was passed. -/
structure Counted (s : State n Buffer Value) : Prop where
  kept : (∀ t, ¬ (s.threads t).pc.Handed) →
    s.shared.solutions = s.shared.passed.sum + s.shared.solutionsFound
  handed : ∀ t, (s.threads t).pc.Handed → s.shared.solutions = s.shared.passed.sum
  last : ∀ t, (s.threads t).pc = .moreWork .moreWork →
    ∃ earlier, s.shared.passed = earlier ++ [s.shared.solutionsFound]

theorem holds_of_handed {th : Thread n Buffer Value} (h : th.pc.Handed) : 0 < holds th := by
  obtain ⟨pc, l, k⟩ := th
  cases pc with
  | moreWork stage =>
    cases stage with
    | moreWork => simp [holds, MoreWorkStage.holds]
    | reset mwd => simp [holds, MoreWorkStage.holds]
    | _ => cases h
  | _ => cases h

theorem handed_of_moreWork {th : Thread n Buffer Value} (h : th.pc = .moreWork .moreWork) :
    th.pc.Handed := by
  rw [h]
  trivial

theorem between_of_handed {sh : Shared n Buffer Value} {th : Thread n Buffer Value}
    (h : th.pc.Handed) : Between sh th := by
  obtain ⟨pc, l, k⟩ := th
  cases pc with
  | moreWork stage => exact between_moreWork stage rfl
  | _ => cases h

section Counted

variable {t : Fin n} {pick : ℕ} {answer : MoreWorkData Buffer Value}
  {sh sh' : Shared n Buffer Value} {th th' : Thread n Buffer Value}

/-- How a step may change the counts. -/
inductive CountMove (sh : Shared n Buffer Value) (pc : Pc n Buffer Value)
    (sh' : Shared n Buffer Value) (pc' : Pc n Buffer Value) : Prop
  | same (solutions : sh'.solutions = sh.solutions) (passed : sh'.passed = sh.passed)
      (found : sh'.solutionsFound = sh.solutionsFound) (handed : pc'.Handed ↔ pc.Handed)
      (invoked : pc' ≠ .moreWork .moreWork)
  | solution (working : pc.MayCall) (working' : pc'.MayCall)
      (solutions : sh'.solutions = sh.solutions + 1) (passed : sh'.passed = sh.passed)
      (found : sh'.solutionsFound = sh.solutionsFound + 1)
  | invoke (before : pc = .moreWork .readTerminate) (after : pc' = .moreWork .moreWork)
      (solutions : sh'.solutions = sh.solutions)
      (passed : sh'.passed = sh.passed ++ [sh.solutionsFound])
      (found : sh'.solutionsFound = sh.solutionsFound)
  | reset (before : pc.Handed) (after : ¬ pc'.Handed) (solutions : sh'.solutions = sh.solutions)
      (passed : sh'.passed = sh.passed) (found : sh'.solutionsFound = 0)

theorem Moves.countMove (h : Moves c callbacks t pick answer sh th sh' th') :
    CountMove sh th.pc sh' th'.pc := by
  cases h with
  | reportSolution b x l k => exact CountMove.solution trivial trivial rfl rfl rfl
  | serveNode b x l k h =>
    obtain ⟨_, _, rfl, -⟩ := serveStage_step h
    exact CountMove.same rfl rfl rfl Iff.rfl nofun
  | serve b l k h =>
    obtain ⟨_, _, rfl, -⟩ := serveStage_step h
    exact CountMove.same rfl rfl rfl Iff.rfl nofun
  | served l k h =>
    obtain ⟨_, _, rfl, -⟩ := serveStage_step h
    exact CountMove.same rfl rfl rfl Iff.rfl nofun
  | servedIdle l k h =>
    obtain ⟨_, _, rfl, -⟩ := serveStage_step h
    exact CountMove.same rfl rfl rfl Iff.rfl nofun
  | moreWork l k h =>
    cases h with
    | invoke => exact CountMove.invoke rfl rfl rfl rfl rfl
    | receiveRoots mwd roots => exact CountMove.reset trivial id rfl rfl rfl
    | receiveNodes mwd nodes => exact CountMove.reset trivial id rfl rfl rfl
    | receiveNothing mwd => exact CountMove.reset trivial id rfl rfl rfl
    | _ => exact CountMove.same rfl rfl rfl Iff.rfl nofun
  | _ => exact CountMove.same rfl rfl rfl Iff.rfl nofun

end Counted

theorem Counted.step {a : Action n Buffer Value} (h : Control s) (hcounted : Counted s)
    (hstep : Callbacks.step c callbacks s a = some s') : Counted s' := by
  obtain ⟨th', hmoves, hthreads⟩ := moves_of_run_step hstep
  have hself : s'.threads a.thread = th' := by rw [hthreads, Function.update_self]
  have hother : ∀ u, u ≠ a.thread → s'.threads u = s.threads u := by
    intro u hu
    rw [hthreads, Function.update_of_ne hu]
  cases hmoves.countMove with
  | same solutions passed found handed invoked =>
    have hiff : ∀ u, (s'.threads u).pc.Handed ↔ (s.threads u).pc.Handed := by
      intro u
      by_cases hu : u = a.thread
      · rw [hu, hself, handed]
      · rw [hother u hu]
    constructor
    case kept =>
      intro hnone
      rw [solutions, passed, found]
      exact hcounted.kept fun u hu => hnone u ((hiff u).mpr hu)
    case handed =>
      intro u hu
      rw [solutions, passed]
      exact hcounted.handed u ((hiff u).mp hu)
    case last =>
      intro u hu
      by_cases hut : u = a.thread
      · rw [hut, hself] at hu
        exact absurd hu invoked
      · rw [hother u hut] at hu
        rw [passed, found]
        exact hcounted.last u hu
  | solution working working' solutions passed found =>
    -- a solution is reported outside the barriers, and the value is passed between them
    have hnone : ∀ u, ¬ (s.threads u).pc.Handed := by
      intro u hu
      exact not_between_of_mayCall s.shared working (h.between (between_of_handed hu) a.thread)
    have hnone' : ∀ u, ¬ (s'.threads u).pc.Handed := by
      intro u hu
      by_cases hut : u = a.thread
      · rw [hut, hself] at hu
        exact not_between_of_mayCall s.shared working' (between_of_handed hu)
      · rw [hother u hut] at hu
        exact hnone u hu
    constructor
    case kept =>
      intro _
      rw [solutions, passed, found, hcounted.kept hnone, Nat.add_assoc]
    case handed =>
      intro u hu
      exact absurd hu (hnone' u)
    case last =>
      intro u hu
      exact absurd (handed_of_moreWork hu) (hnone' u)
  | invoke before after solutions passed found =>
    -- whoever has passed a value still holds `checkingSteal`
    have hholds : 0 < Callbacks.holds (s.threads a.thread) := by
      simp [Callbacks.holds, before, MoreWorkStage.holds]
    have hnone : ∀ u, ¬ (s.threads u).pc.Handed := by
      intro u hu
      by_cases hut : u = a.thread
      · rw [hut, before] at hu
        exact hu
      · exact (holds_of_handed hu).ne' (h.holds_eq_zero hholds hut)
    have hkept := hcounted.kept hnone
    constructor
    case kept =>
      intro hnone'
      have hpc : (s'.threads a.thread).pc = .moreWork .moreWork := by rw [hself, after]
      exact absurd (handed_of_moreWork hpc) (hnone' a.thread)
    case handed =>
      intro _ _
      rw [solutions, passed, List.sum_append, List.sum_singleton, hkept]
    case last =>
      intro _ _
      exact ⟨s.shared.passed, by rw [passed, found]⟩
  | reset before after solutions passed found =>
    -- the value passed last is what is reset
    have hnone' : ∀ u, ¬ (s'.threads u).pc.Handed := by
      intro u hu
      by_cases hut : u = a.thread
      · rw [hut, hself] at hu
        exact after hu
      · rw [hother u hut] at hu
        exact (holds_of_handed hu).ne' (h.holds_eq_zero (holds_of_handed before) hut)
    constructor
    case kept =>
      intro _
      rw [solutions, passed, found, Nat.add_zero]
      exact hcounted.handed a.thread before
    case handed =>
      intro u hu
      exact absurd hu (hnone' u)
    case last =>
      intro u hu
      exact absurd (handed_of_moreWork hu) (hnone' u)

theorem counted_of_reaches {minRootId maxRootId : ℕ} {s : State n Buffer Value}
    (h : Reaches (step c callbacks) Any (init c n minRootId maxRootId) s) : Counted s := by
  have hinit : Counted (init c n minRootId maxRootId) := by
    constructor
    case kept => exact fun _ => rfl
    case handed =>
      intro t ht
      cases ht
    case last =>
      intro t ht
      cases ht
  exact h.invariant_of (fun _ => control_of_reaches) hinit
    fun _ _ _ hcontrol hcounted _ hstep => hcounted.step hcontrol hstep

/-! ### The callback -/

/-- `ServeSteal` is in a callback. -/
def ServeStage.InCallback : ServeStage Buffer Value → Prop
  | .checkSteal => True
  | .sendSteal _ => True
  | _ => False

/-- The thread is in the `MoreWork`, the `CheckSteal` or the `SendSteal` callback. -/
def InCallback (th : Thread n Buffer Value) : Prop :=
  th.pc = .moreWork .moreWork ∨ (∃ b stage, th.pc = .serve b stage ∧ stage.InCallback) ∨
    ∃ x stage, .solutionCb x (.serve stage) ∈ th.calls ∧ stage.InCallback

/-- The thread executes `GetRoot` or `ListChildren`. -/
def Expanding (th : Thread n Buffer Value) : Prop := (∃ i, th.pc = .getRoot i) ∨ th.calls ≠ []

theorem ServeStage.holds_of_inCallback {stage : ServeStage Buffer Value} (h : stage.InCallback) :
    stage.holds = 1 := by
  cases stage with
  | checkSteal => rfl
  | sendSteal data => rfl
  | _ => cases h

theorem holds_of_inCallback {th : Thread n Buffer Value} (h : InCallback th) : 0 < holds th := by
  unfold holds
  rcases h with hpc | ⟨b, stage, hpc, hstage⟩ | ⟨x, stage, hmem, hstage⟩
  · simp [hpc, MoreWorkStage.holds]
  · simp [hpc, ServeStage.holds_of_inCallback hstage]
  · have hle := List.single_le_sum (l := th.calls.map Call.holds) (by simp) _
      (List.mem_map_of_mem hmem)
    rw [holds_serve, ServeStage.holds_of_inCallback hstage] at hle
    omega

/-- Between the barriers a thread has no nodes. -/
theorem idle_of_between {sh : Shared n Buffer Value} {th : Thread n Buffer Value} (h : Tidy th)
    (hbetween : Between sh th) : th.lnodes = [] ∧ ¬ Expanding th := by
  obtain ⟨hcalls, hlnodes⟩ := h
  rcases between_cases hbetween with ⟨b, w, hpc⟩ | ⟨stage, hpc⟩
  · simp_all [Expanding, Pc.MayCall, Pc.MayKeep]
  · simp_all [Expanding, Pc.MayCall, Pc.MayKeep]

/-- **A thread that invokes the `MoreWork` callback is alone**: no other thread is in a callback,
the queues and all local nodes are used up, and nobody expands a node.  The values passed to the
callback add up to the number of solutions found. -/
theorem moreWork_alone (c : BufferSystem Buffer Value) (n minRootId maxRootId : ℕ)
    (s : State n Buffer Value) (h : Reaches (step c true) Any (init c n minRootId maxRootId) s) :
    (∀ t, (s.threads t).pc = .moreWork .moreWork →
      (∀ u, u ≠ t → ¬ InCallback (s.threads u)) ∧
        s.shared.possibleRoots = [] ∧ s.shared.gnodes = [] ∧
        (∀ u, (s.threads u).lnodes = [] ∧ ¬ Expanding (s.threads u)) ∧
        ∃ earlier, s.shared.passed = earlier ++ [s.shared.solutionsFound] ∧
          s.shared.solutions = earlier.sum + s.shared.solutionsFound) ∧
    (∀ t mwd, (s.threads t).pc = .moreWork (.reset mwd) →
      s.shared.solutions = s.shared.passed.sum) ∧
    ((∀ t, ¬ (s.threads t).pc.Handed) →
      s.shared.solutions = s.shared.passed.sum + s.shared.solutionsFound) := by
  have hcontrol := control_of_reaches h
  have hcounted := counted_of_reaches h
  refine ⟨?_, ?_, hcounted.kept⟩
  · intro t ht
    have hhanded := handed_of_moreWork ht
    have hknows := (roundOk_of_reaches h t).stage _ ht
    refine ⟨?_, hknows.1, hknows.2, ?_, ?_⟩
    · intro u hu hin
      exact (holds_of_inCallback hin).ne' (hcontrol.holds_eq_zero (holds_of_handed hhanded) hu)
    · intro u
      exact idle_of_between (hcontrol.tidy u) (hcontrol.between (between_moreWork _ ht) u)
    · obtain ⟨earlier, hpassed⟩ := hcounted.last t ht
      refine ⟨earlier, hpassed, ?_⟩
      rw [hcounted.handed t hhanded, hpassed, List.sum_append, List.sum_singleton]
  · intro t mwd ht
    apply hcounted.handed t
    rw [ht]
    trivial

end Control

/-- A run of two threads that take turns, up to the first `MoreWork` callback. -/
def turns : List (Action 2 Unit ℕ) :=
  (List.replicate 51 [⟨0, 0, .nothing⟩, ⟨1, 0, .nothing⟩]).flatten

theorem moreWork_alone_cherry :
    ∃ s, run (step (ofFiniteSystem cherry) true) Any turns (init (ofFiniteSystem cherry) 2 0 0)
        = some s ∧
      (s.threads 1).pc = .moreWork .moreWork ∧ s.shared.solutionsFound = 3 ∧
        ¬ InCallback (s.threads 0) ∧ s.shared.solutions = 3 := by
  have hends : (run (step (ofFiniteSystem cherry) true) Any turns
      (init (ofFiniteSystem cherry) 2 0 0)).map
        (fun s => ((s.threads 1).pc, s.shared.passed, s.shared.solutionsFound))
      = some (.moreWork .moreWork, [3], 3) := by
    decide +kernel
  obtain ⟨s, hrun, hends⟩ := Option.map_eq_some_iff.mp hends
  obtain ⟨hpc, hpassed, hfound⟩ : _ ∧ _ ∧ _ := by simpa using hends
  have halone := (moreWork_alone _ 2 0 0 s (reaches_of_run hrun)).1 1 hpc
  obtain ⟨hnot, -, -, -, earlier, hlast, hsolutions⟩ := halone
  refine ⟨s, hrun, hpc, hfound, hnot 0 (by decide), ?_⟩
  rw [hpassed, hfound] at hlast
  obtain rfl : earlier = [] := by simpa using hlast.symm
  rw [hsolutions, hfound]
  rfl

end ParallelEnum.ParallelPthreadsSteal.Callbacks
