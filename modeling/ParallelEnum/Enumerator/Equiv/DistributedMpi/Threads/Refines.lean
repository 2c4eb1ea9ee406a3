import ParallelEnum.Enumerator.Equiv.DistributedMpi
import ParallelEnum.Enumerator.Equiv.DistributedMpi.Threads.Steps

/-!
# The threads of a worker implement the worker

`DistributedMpi` describes a worker process by the work that it holds.  `Refines` relates a process
whose threads run `ParallelPthreadsSteal` to such a worker.  It is a forward simulation: what a
process does in one step, the worker does in one step or in none (`Refines.threadStep`,
`Refines.receive`).
-/

namespace ParallelEnum.DistributedMpi.Threads

open ParallelPthreadsSteal (FiniteSystem)
open ParallelPthreadsSteal.Callbacks (Closing Control Counted MoreWorkData RoundOk Thread
  closing_of_answer control_of_reaches counted_of_reaches holds holds_moreWork holds_of_handed
  roundOk_of_reaches roundOk_step)
open Transition

variable {Value : Type} {nthreads : ℕ} {c : FiniteSystem Value} {isSolution : Value → Bool}

/-! ### A process and its worker -/

/-- The process is not executing `MoreWork`. -/
def Resting (p : Process nthreads Value) : Prop := p.pc = .running ∨ p.pc = .done

/-- What holds of the threads of a process in every state of a run. -/
structure Sound (s : Group nthreads Value) : Prop where
  control : Control s
  round : ∀ t, RoundOk s.shared (s.threads t)
  counted : Counted s
  sends : ∀ t, SendsWork (s.threads t)

/-- What relates a process whose threads have been started to a worker. -/
structure Started (c : FiniteSystem Value) (isSolution : Value → Bool)
    (p : Process nthreads Value) (w : Worker Value)
    (s : Group nthreads Value) : Prop where
  firstInfo : p.firstInfo ≠ none
  sound : Sound s
  work : (w.work : Multiset (Work Value)) = held c s
  reported : (w.reported : Multiset Value) = ↑p.reported + owed c s
  found : w.solutionsFound + s.shared.passed.sum
    = s.shared.solutions + (owed c s).countP (isSolution ·)
  asks : (∃ t, (s.threads t).pc = .moreWork .moreWork) ↔ ¬ Resting p
  closing : p.pc = .done → Closing s

/-- A process that has not started its threads. -/
structure NotStarted (p : Process nthreads Value) (w : Worker Value) : Prop where
  firstInfo : p.firstInfo = none
  asks : ¬ Resting p
  work : w.work = []
  found : w.solutionsFound = 0
  reported : w.reported = []
  nothing : p.reported = []

/-- **A process and the worker that it implements.** -/
structure Refines (c : FiniteSystem Value) (isSolution : Value → Bool)
    (p : Process nthreads Value) (w : Worker Value) : Prop where
  pc : w.pc = p.pc
  firstInfo : w.firstInfo = p.firstInfo
  notStarted : p.threads = none → NotStarted p w
  started : ∀ s, p.threads = some s → Started c isSolution p w s

theorem refines_init : Refines c isSolution ({} : Process nthreads Value) {} where
  pc := rfl
  firstInfo := rfl
  notStarted _ := ⟨rfl, fun h => h.elim nofun nofun, rfl, rfl, rfl, rfl⟩
  started _ h := by cases h

/-! ### Steps of the threads -/

section Run

variable {p : Process nthreads Value} {w : Worker Value} {t : Fin nthreads} {pick : ℕ}
  {mwd : MoreWorkData Unit Value} {s s' : Group nthreads Value}

theorem sound_init (minRootId maxRootId : ℕ) :
    Sound (Group.init c isSolution nthreads minRootId maxRootId) := by
  have h : Reaches (ParallelPthreadsSteal.Callbacks.step (systemOf c isSolution) true) Any
      (Group.init c isSolution nthreads minRootId maxRootId)
      (Group.init c isSolution nthreads minRootId maxRootId) := Reaches.refl _
  exact ⟨control_of_reaches h, roundOk_of_reaches h, counted_of_reaches h,
    fun _ => ⟨trivial, nofun⟩⟩

theorem Sound.step (h : Sound s) (hstep : Group.step c isSolution t pick mwd s = some s') :
    Sound s' where
  control := h.control.step hstep
  round := roundOk_step h.control h.round hstep
  counted := h.counted.step h.control hstep
  sends := by
    obtain ⟨th', hthread, hthreads⟩ := thread_of_step hstep
    rw [hthreads]
    refine (Function.forall_update_iff s.threads fun _ th => SendsWork th).mpr ⟨?_, ?_⟩
    · exact sendsWork_step (h.sends t) hthread
    · exact fun u _ => h.sends u

/-- A process that executes `MoreWork`, or has been told that there is no more work, has none. -/
theorem Started.held_eq_zero (h : Started c isSolution p w s) (hpc : p.pc ≠ .running) :
    held c s = 0 ∧ owed c s = 0 := by
  by_cases hdone : p.pc = .done
  · exact held_of_closing h.sound.control (h.closing hdone)
  · have hresting : ¬ Resting p := fun h => h.elim hpc hdone
    obtain ⟨t, ht⟩ := h.asks.mpr hresting
    exact held_of_asking h.sound.control (h.sound.round t) ht (Or.inr rfl)

/-- A process that is not at work has reported all that its worker has. -/
theorem Refines.reported_of_idle (h : Refines c isSolution p w) (hpc : w.pc ≠ .running) :
    (w.reported : Multiset Value) = ↑p.reported := by
  cases hthreads : p.threads with
  | none =>
    obtain ⟨-, -, -, -, hreported, hnothing⟩ := h.notStarted hthreads
    rw [hreported, hnothing]
  | some s =>
    have hs := h.started s hthreads
    rw [hs.reported, (hs.held_eq_zero (h.pc ▸ hpc)).2, add_zero]

/-- A process that holds work is not executing `MoreWork`. -/
theorem Started.running (h : Started c isSolution p w s) (hheld : held c s ≠ 0) :
    p.pc = .running := by
  by_contra hpc
  exact hheld (h.held_eq_zero hpc).1

/-- The state after a step that neither invokes `MoreWork` nor returns from it. -/
theorem Started.next (h : Started c isSolution p w s)
    (hstep : Group.step c isSolution t pick mwd s = some s')
    (hbefore : (s.threads t).pc ≠ .moreWork .moreWork)
    (hafter : (s'.threads t).pc ≠ .moreWork .moreWork) (p' : Process nthreads Value)
    (w' : Worker Value) (hpc : p'.pc = p.pc) (hfirst : p'.firstInfo = p.firstInfo)
    (hwork : (w'.work : Multiset (Work Value)) = held c s')
    (hreported : (w'.reported : Multiset Value) = ↑p'.reported + owed c s')
    (hfound : w'.solutionsFound + s'.shared.passed.sum
      = s'.shared.solutions + (owed c s').countP (isSolution ·)) :
    Started c isSolution p' w' s' where
  firstInfo := hfirst ▸ h.firstInfo
  sound := h.sound.step hstep
  work := hwork
  reported := hreported
  found := hfound
  asks := by
    have hsame : (∃ u, (s'.threads u).pc = .moreWork .moreWork)
        ↔ ∃ u, (s.threads u).pc = .moreWork .moreWork := by
      obtain ⟨th', -, hthreads⟩ := thread_of_step hstep
      apply exists_congr
      intro u
      rcases eq_or_ne u t with rfl | hne
      · exact iff_of_false hafter hbefore
      · rw [hthreads, Function.update_of_ne hne]
    have hresting : Resting p' ↔ Resting p := by rw [Resting, Resting, hpc]
    rw [hsame, h.asks, hresting]
  closing := fun hdone => (h.closing (hpc ▸ hdone)).step h.sound.control hstep

/-- A thread that is about to invoke `MoreWork` is alone in doing so. -/
theorem Sound.eq_of_holds (h : Sound s) (hpc : (s.threads t).pc = .moreWork .readTerminate)
    {u : Fin nthreads} (hu : 0 < holds (s.threads u)) : u = t := by
  by_contra hut
  exact hu.ne' (h.control.holds_eq_zero (holds_moreWork hpc rfl) hut)

theorem Sound.solutions_of_readTerminate (h : Sound s)
    (hpc : (s.threads t).pc = .moreWork .readTerminate) :
    s.shared.solutions = s.shared.passed.sum + s.shared.solutionsFound := by
  apply h.counted.kept
  intro u hu
  obtain rfl := h.eq_of_holds hpc (holds_of_handed hu)
  rw [hpc] at hu
  exact hu

/-- Only a process that is not executing `MoreWork` invokes it. -/
theorem Started.running_of_readTerminate (h : Started c isSolution p w s)
    (hstep : Group.step c isSolution t pick mwd s = some s')
    (hpc : (s.threads t).pc = .moreWork .readTerminate)
    (hafter : (s'.threads t).pc = .moreWork .moreWork) : p.pc = .running := by
  by_contra hrunning
  by_cases hdone : p.pc = .done
  · have hclosing := (h.closing hdone).step h.sound.control hstep
    have hthread := hclosing.threads t
    rw [hafter] at hthread
    exact hthread
  · obtain ⟨u, hu⟩ := h.asks.mpr fun h => h.elim hrunning hdone
    obtain rfl := h.sound.eq_of_holds hpc (holds_moreWork hu rfl)
    rw [hpc] at hu
    cases hu

theorem solutions_of_group_step (h : Group.step c isSolution t pick mwd s = some s') :
    s'.shared.solutions = s.shared.solutions + solutionsOf isSolution (callback (s.threads t)) := by
  obtain ⟨th', hthread, -⟩ := thread_of_step h
  exact solutions_of_step hthread

/-- A step of a thread may invoke `MoreWork`. -/
theorem run_cases {p' : Process nthreads Value} (h : p.run c isSolution t pick s = some p') :
    ∃ s', Group.step c isSolution t pick .nothing s = some s' ∧
      (((s'.threads t).pc ≠ .moreWork .moreWork ∧ s'.shared.passed = s.shared.passed ∧
          p' = { p with threads := some s' }) ∨
        ((s.threads t).pc = .moreWork .readTerminate ∧ (s'.threads t).pc = .moreWork .moreWork ∧
          s'.shared.passed = s.shared.passed ++ [s.shared.solutionsFound] ∧
          p' = { p with pc := .send s.shared.solutionsFound, threads := some s' })) := by
  rw [Process.run, Option.map_eq_some_iff] at h
  obtain ⟨s', hstep, rfl⟩ := h
  refine ⟨s', hstep, ?_⟩
  obtain ⟨th', hthread, hthreads⟩ := thread_of_step hstep
  have hself : s'.threads t = th' := by rw [hthreads, Function.update_self]
  rcases passed_of_step hthread with ⟨hpc, hpassed⟩ | ⟨hbefore, hpc, hpassed⟩
  · left
    refine ⟨by rwa [hself], hpassed, ?_⟩
    split
    · rename_i hcallback
      rw [hself] at hcallback
      exact absurd (callback_eq_moreWork.mp hcallback) hpc
    · rfl
  · right
    have hcallback : callback (s'.threads t) = some .moreWork := by
      rw [hself]
      exact callback_eq_moreWork.mpr hpc
    refine ⟨hbefore, by rwa [hself], hpassed, ?_⟩
    rw [hcallback]

/-- A step in which a thread makes a callback does not invoke `MoreWork`. -/
theorem run_of_callback {p' : Process nthreads Value} (hcallback : callback (s.threads t) ≠ none)
    (h : p.run c isSolution t pick s = some p') :
    ∃ s', Group.step c isSolution t pick .nothing s = some s' ∧
      (s'.threads t).pc ≠ .moreWork .moreWork ∧ s'.shared.passed = s.shared.passed ∧
      p' = { p with threads := some s' } := by
  obtain ⟨s', hstep, hafter | ⟨hpc, -⟩⟩ := run_cases h
  · exact ⟨s', hstep, hafter⟩
  · exfalso
    apply hcallback
    unfold callback
    rw [hpc]

theorem Started.refines (h : Started c isSolution p w s) (hpc : w.pc = p.pc)
    (hfirst : w.firstInfo = p.firstInfo) (hthreads : p.threads = some s) :
    Refines c isSolution p w where
  pc := hpc
  firstInfo := hfirst
  notStarted hnone := by
    rw [hthreads] at hnone
    cases hnone
  started s' hs' := by
    rw [hthreads] at hs'
    obtain rfl := Option.some.inj hs'
    exact h

/-- A step in which a thread makes a callback, and what remains to be shown about it. -/
theorem Refines.afterCallback (h : Refines c isSolution p w) (hthreads : p.threads = some s)
    {p' : Process nthreads Value} (hrun : p.run c isSolution t pick s = some p')
    (hcallback : callback (s.threads t) ≠ none)
    (hmoreWork : callback (s.threads t) ≠ some .moreWork) :
    ∃ s', Progress c .nothing (held c s) (held c s') (owed c s) (owed c s')
        (callback (s.threads t)) ∧ p' = { p with threads := some s' } ∧
      ∀ (reported : List Value) (w' : Worker Value), w'.pc = w.pc → w'.firstInfo = w.firstInfo →
        (w'.work : Multiset (Work Value)) = held c s' →
        (w'.reported : Multiset Value) = ↑reported + owed c s' →
        w'.solutionsFound + s.shared.passed.sum = s.shared.solutions
          + solutionsOf isSolution (callback (s.threads t)) + (owed c s').countP (isSolution ·) →
        Refines c isSolution { p with threads := some s', reported := reported } w' := by
  have hs := h.started s hthreads
  obtain ⟨s', hstep, hafter, hpassed, rfl⟩ := run_of_callback hcallback hrun
  refine ⟨s', progress_of_group_step hstep, rfl, ?_⟩
  intro reported w' hpc hfirst hwork hreported hfound
  rw [← solutions_of_group_step hstep, ← hpassed] at hfound
  have hbefore : (s.threads t).pc ≠ .moreWork .moreWork := by rwa [Ne, ← callback_eq_moreWork]
  exact (hs.next hstep hbefore hafter { p with threads := some s', reported := reported } w' rfl rfl
    hwork hreported hfound).refines (hpc.trans h.pc) (hfirst.trans h.firstInfo) rfl

/-- `CheckSteal` does not change what the process holds. -/
theorem Refines.checkSteal (h : Refines c isSolution p w) (hthreads : p.threads = some s)
    (hcallback : callback (s.threads t) = some .checkSteal) {p' : Process nthreads Value}
    (hrun : p.run c isSolution t pick s = some p') : Refines c isSolution p' w := by
  have hs := h.started s hthreads
  obtain ⟨s', hprogress, rfl, hnext⟩ := h.afterCallback hthreads hrun
    (by rw [hcallback]; exact nofun) (by rw [hcallback]; exact nofun)
  rw [hcallback] at hprogress hnext
  obtain ⟨hheld, howed⟩ := hprogress
  rw [hheld, howed] at hnext
  exact hnext p.reported w rfl rfl hs.work hs.reported hs.found

/-- A node that is reported was owed. -/
theorem Refines.report (h : Refines c isSolution p w) (hthreads : p.threads = some s)
    {value : Value}
    (hcallback : callback (s.threads t) = some (.reportSolution value))
    {p' : Process nthreads Value} (hrun : p.run c isSolution t pick s = some p') :
    Refines c isSolution { p' with reported := p'.reported ++ [value] } w := by
  have hs := h.started s hthreads
  obtain ⟨s', hprogress, rfl, hnext⟩ := h.afterCallback hthreads hrun
    (by rw [hcallback]; exact nofun) (by rw [hcallback]; exact nofun)
  rw [hcallback] at hprogress hnext
  obtain ⟨hheld, howed⟩ := hprogress
  refine hnext (p.reported ++ [value]) w rfl rfl ?_ ?_ ?_
  · rw [hheld]
    exact hs.work
  · rw [hs.reported, howed, ← Multiset.coe_add, Multiset.coe_singleton, add_assoc,
      Multiset.singleton_add]
  · have hfound := hs.found
    rw [howed, Multiset.countP_cons] at hfound
    rw [hfound, solutionsOf, List.countP_singleton]
    omega

/-- A worker takes a step, or none. -/
def Follows [DecidableEq Value] (c : FiniteSystem Value) (isSolution : Value → Bool)
    (w : Worker Value) (up : List (ToMaster Value)) (down : List (ToWorker Value))
    (w' : Worker Value) (up' : List (ToMaster Value)) (down' : List (ToWorker Value)) : Prop :=
  (w' = w ∧ up' = up ∧ down' = down) ∨ ∃ a, w.step c isSolution a up down = some (w', up', down')

variable [DecidableEq Value] {up : List (ToMaster Value)} {down : List (ToWorker Value)}

/-- A step of a thread that makes no callback. -/
theorem Refines.run (h : Refines c isSolution p w) (hthreads : p.threads = some s)
    (hcallback : callback (s.threads t) = none) {p' : Process nthreads Value}
    (hrun : p.run c isSolution t pick s = some p') :
    ∃ w', Follows c isSolution w up down w' up down ∧ Refines c isSolution p' w' := by
  have hs := h.started s hthreads
  obtain ⟨s', hstep, hcases⟩ := run_cases hrun
  have hprogress := progress_of_group_step hstep
  have hsolutions := solutions_of_group_step hstep
  have hfound := hs.found
  rw [hcallback] at hprogress hsolutions
  have hbefore : (s.threads t).pc ≠ .moreWork .moreWork := by
    rw [Ne, ← callback_eq_moreWork, hcallback]
    exact nofun
  rcases hcases with ⟨hafter, hpassed, rfl⟩ | ⟨hpc, hafter, hpassed, rfl⟩
  · rcases hprogress with ⟨hheld, howed⟩ | ⟨item, rest, hheld, hheld', howed⟩
    · -- the worker does not see the step
      refine ⟨w, Or.inl ⟨rfl, rfl, rfl⟩, ?_⟩
      refine (hs.next hstep hbefore hafter { p with threads := some s' } w rfl rfl ?_ ?_
        ?_).refines h.pc h.firstInfo rfl
      · rw [hheld]
        exact hs.work
      · rw [howed]
        exact hs.reported
      · rw [howed, hpassed, hsolutions]
        exact hfound
    · -- a root is opened, or a node is listed
      have hrunning : p.pc = .running := hs.running (by rw [hheld]; exact Multiset.cons_ne_zero)
      have hperm : w.work.Perm (item :: rest.toList) := by
        rw [← Multiset.coe_eq_coe, hs.work, hheld, ← Multiset.cons_coe, Multiset.coe_toList]
      set w' := w.expand c isSolution item rest.toList with hw'
      refine ⟨w', Or.inr ⟨.expand item rest.toList, if_pos ⟨h.pc.trans hrunning, hperm⟩⟩, ?_⟩
      refine (hs.next hstep hbefore hafter { p with threads := some s' } w' rfl rfl ?_ ?_
        ?_).refines ((expand_pc item _ w).trans h.pc) ((expand_firstInfo item _ w).trans
          h.firstInfo) rfl
      · rw [hheld', hw', expand_work, ← Multiset.coe_add, Multiset.coe_toList]
        rfl
      · rw [howed, hw', expand_reported, ← Multiset.coe_add, hs.reported]
        abel
      · have hcount : (↑(Pool.successors c item) : Multiset Value).countP (isSolution ·)
            = (Pool.successors c item).countP isSolution := by
          rw [Multiset.coe_countP]
          simp
        rw [howed, hpassed, hsolutions, hw', expand_solutionsFound, Multiset.countP_add, hcount]
        simp only [solutionsOf]
        omega
  · -- the thread asks for more work
    have hrunning := hs.running_of_readTerminate hstep hpc hafter
    obtain ⟨hheld, howed⟩ : held c s = 0 ∧ owed c s = 0 :=
      held_of_asking hs.sound.control (hs.sound.round t) hpc (Or.inl rfl)
    obtain ⟨hheld', howed'⟩ : held c s' = 0 ∧ owed c s' = 0 :=
      held_of_asking (hs.sound.step hstep).control ((hs.sound.step hstep).round t) hafter
        (Or.inr rfl)
    have hwork : w.work = [] := by
      rw [← Multiset.coe_eq_zero, hs.work, hheld]
    have hcount : w.solutionsFound = s.shared.solutionsFound := by
      have hkept := hs.sound.solutions_of_readTerminate hpc
      rw [howed, Multiset.countP_zero] at hfound
      omega
    set w' : Worker Value := { w with pc := .send w.solutionsFound, solutionsFound := 0 } with hw'
    refine ⟨w', Or.inr ⟨.request, if_pos ⟨h.pc.trans hrunning, hwork⟩⟩, ?_⟩
    suffices hs' : Started c isSolution
        { p with pc := .send s.shared.solutionsFound, threads := some s' } w' s' from
      hs'.refines (congrArg Worker.Pc.send hcount) h.firstInfo rfl
    constructor
    case firstInfo => exact hs.firstInfo
    case sound => exact hs.sound.step hstep
    case work =>
      rw [hheld', hw']
      exact congrArg _ hwork
    case reported =>
      rw [howed', ← howed]
      exact hs.reported
    case found =>
      rw [howed', hpassed, hsolutions, List.sum_append, List.sum_singleton, Multiset.countP_zero]
      have hkept := hs.sound.solutions_of_readTerminate hpc
      show 0 + _ = _ + 0 + 0
      omega
    case asks => exact iff_of_true ⟨t, hafter⟩ fun h => h.elim nofun nofun
    case closing => exact nofun

/-- `SendSteal` splits some of the work off. -/
theorem Refines.sendSteal (h : Refines c isSolution p w) (hthreads : p.threads = some s)
    {data : MoreWorkData Unit Value} (hcallback : callback (s.threads t) = some (.sendSteal data))
    {p' : Process nthreads Value} (hrun : p.run c isSolution t pick s = some p') :
    ∃ w', Follows c isSolution w up (.stealRequest :: down) w'
        (up ++ [.stealResponseLen (serialize data).1, .data (serialize data).2]) down ∧
      Refines c isSolution p' w' := by
  have hs := h.started s hthreads
  have hdata := (hs.sound.sends t).data hcallback
  obtain ⟨s', hprogress, rfl, hnext⟩ := h.afterCallback hthreads hrun
    (by rw [hcallback]; exact nofun) (by rw [hcallback]; exact nofun)
  rw [hcallback] at hprogress hnext
  obtain ⟨hheld, howed⟩ := hprogress
  -- the work that is kept, as the worker sees it
  obtain ⟨kept, hkept⟩ := (held c s').exists_rep
  have hsplit : (w.work : Multiset (Work Value)) = dataWork data + ↑kept := by
    rw [hs.work, hheld, ← hkept]
    rfl
  have hrunning : dataWork data ≠ 0 → w.pc = .running := by
    intro hne
    rw [h.pc]
    apply hs.running
    rw [hheld]
    exact fun hzero => hne (add_eq_zero.mp hzero).1
  have hrefines : ∀ split, Refines c isSolution { p with threads := some s' }
      { w with work := kept, split := split } := by
    intro split
    refine hnext p.reported { w with work := kept, split := split } rfl rfl hkept ?_ ?_
    · rw [howed]
      exact hs.reported
    · rw [howed]
      exact hs.found
  rcases hdata with ⟨roots, hroots, rfl⟩ | ⟨value, rfl⟩
  · have hperm : w.work.Perm (roots.map .root ++ kept) := Multiset.coe_eq_coe.mp hsplit
    have hpc : w.pc = .running := by
      apply hrunning
      intro hzero
      exact hroots (List.map_eq_nil_iff.mp ((Multiset.coe_eq_zero _).mp hzero))
    exact ⟨_, Or.inr ⟨.splitRoots roots kept, if_pos ⟨hpc, hroots, hperm⟩⟩, hrefines _⟩
  · have hperm : w.work.Perm (.subtree value :: kept) := Multiset.coe_eq_coe.mp hsplit
    have hpc : w.pc = .running := hrunning (Multiset.singleton_ne_zero (Work.subtree value))
    exact ⟨_, Or.inr ⟨.splitSubtree value kept, if_pos ⟨hpc, hperm⟩⟩, hrefines _⟩

/-- **A step of a thread.** -/
theorem Refines.threadStep (h : Refines c isSolution p w) {r : Process.Result nthreads Value}
    (hstep : p.threadStep c isSolution t pick up down = some r) :
    ∃ w', Follows c isSolution w up down w' r.toMaster r.toWorker ∧
      Refines c isSolution r.process w' := by
  cases hthreads : p.threads with
  | none =>
    rw [Process.threadStep, hthreads] at hstep
    cases hstep
  | some s =>
    simp only [Process.threadStep, hthreads] at hstep
    cases hcallback : callback (s.threads t) with
    | none =>
      simp only [hcallback, Option.map_eq_some_iff] at hstep
      obtain ⟨p', hrun, rfl⟩ := hstep
      exact h.run hthreads hcallback hrun
    | some call =>
      cases call with
      | moreWork =>
        rw [hcallback] at hstep
        cases hstep
      | checkSteal =>
        simp only [hcallback] at hstep
        split_ifs at hstep
        obtain ⟨p', hrun, rfl⟩ := Option.map_eq_some_iff.mp hstep
        exact ⟨w, Or.inl ⟨rfl, rfl, rfl⟩, h.checkSteal hthreads hcallback hrun⟩
      | sendSteal data =>
        simp only [hcallback] at hstep
        match hdown : down with
        | .stealRequest :: rest =>
          obtain ⟨p', hrun, rfl⟩ := Option.map_eq_some_iff.mp hstep
          exact h.sendSteal hthreads hcallback hrun
      | reportSolution value =>
        simp only [hcallback, Option.map_eq_some_iff] at hstep
        obtain ⟨p', hrun, rfl⟩ := hstep
        exact ⟨w, Or.inl ⟨rfl, rfl, rfl⟩, h.report hthreads hcallback hrun⟩

end Run

/-! ### Steps of `MoreWork` -/

section MoreWork

variable {p p' : Process nthreads Value} {w : Worker Value} {t : Fin nthreads} {garbage : ℕ × ℕ}
  {mwd : MoreWorkData Unit Value}

/-- The threads start with the roots of a range. -/
theorem held_init (first second : ℕ) :
    held c (Group.init c isSolution nthreads first second)
        = rootWork (ParallelPthreadsSteal.rootIds c first second) ∧
      owed c (Group.init c isSolution nthreads first second) = 0 := by
  constructor
  · have hthreads : ∑ t, threadWork c ((Group.init c isSolution nthreads first second).threads t)
        = 0 := Finset.sum_eq_zero fun _ _ => rfl
    rw [held, hthreads, add_zero]
    exact add_zero _
  · exact Finset.sum_eq_zero fun _ _ => rfl

theorem eq_nothing (h : infoOf mwd = .nothing) : mwd = .nothing := by
  cases mwd with
  | nothing => rfl
  | _ => cases h

theorem moreWork_first (hfirst : w.firstInfo = none) {items : List (Work Value)}
    (hitems : infoOf mwd = .range → items = (ParallelPthreadsSteal.rootIds c
      (rangeOf garbage mwd).1 (rangeOf garbage mwd).2).map .root) :
    w.moreWork c garbage (infoOf mwd) items =
      { w with
        pc := .running
        firstInfo := some (infoOf mwd)
        work := (ParallelPthreadsSteal.rootIds c (rangeOf garbage mwd).1
          (rangeOf garbage mwd).2).map .root } := by
  unfold Worker.moreWork
  rw [hfirst]
  cases mwd with
  | range first second =>
    rw [hitems rfl]
    rfl
  | _ => rfl

theorem moreWork_later (hfirst : w.firstInfo ≠ none) (hwork : w.work = [])
    {items : List (Work Value)} (hitems : infoOf mwd = .nothing → items = []) :
    w.moreWork c garbage (infoOf mwd) items =
      { w with pc := if infoOf mwd = .nothing then .done else .running, work := items } := by
  by_cases hinfo : infoOf mwd = .nothing
  · unfold Worker.moreWork
    cases h : w.firstInfo with
    | none => exact absurd h hfirst
    | some info =>
      rw [hinfo, hitems hinfo, if_pos rfl, ← hwork]
  · rw [moreWork_of_some hfirst hinfo, if_neg hinfo, hwork, List.nil_append]

/-- `MoreWork` returns to `Worker::Run`, which starts the threads. -/
theorem Refines.start (h : Refines c isSolution p w) (hthreads : p.threads = none)
    (hreturn : p.moreWork c isSolution garbage t mwd = some p') {items : List (Work Value)}
    (hitems : infoOf mwd = .range → items = (ParallelPthreadsSteal.rootIds c
      (rangeOf garbage mwd).1 (rangeOf garbage mwd).2).map .root) :
    Refines c isSolution p' (w.moreWork c garbage (infoOf mwd) items) := by
  have hp := h.notStarted hthreads
  rw [Process.moreWork, hthreads] at hreturn
  obtain rfl := Option.some.inj hreturn
  rw [moreWork_first (h.firstInfo.trans hp.firstInfo) hitems]
  set s := Group.init c isSolution nthreads (rangeOf garbage mwd).1 (rangeOf garbage mwd).2 with hs
  obtain ⟨hheld, howed⟩ : held c s = _ ∧ owed c s = 0 := held_init _ _
  suffices hs : Started c isSolution _ _ s from hs.refines rfl rfl rfl
  constructor
  case firstInfo => exact nofun
  case sound => exact sound_init _ _
  case work => exact hheld.symm
  case reported =>
    rw [howed, add_zero]
    show (w.reported : Multiset Value) = ↑p.reported
    rw [hp.reported, hp.nothing]
  case found =>
    rw [howed, Multiset.countP_zero]
    exact hp.found
  case asks => exact iff_of_false nofun fun h => h (Or.inl rfl)
  case closing => exact nofun

/-- `MoreWork` returns to the thread that has called it. -/
theorem Refines.resume (h : Refines c isSolution p w) {s : Group nthreads Value}
    (hthreads : p.threads = some s) (hreturn : p.moreWork c isSolution garbage t mwd = some p')
    {items : List (Work Value)} (hitems : (↑items : Multiset (Work Value)) = dataWork mwd) :
    Refines c isSolution p' (w.moreWork c garbage (infoOf mwd) items) := by
  have hs := h.started s hthreads
  simp only [Process.moreWork, hthreads] at hreturn
  split at hreturn
  case h_2 => cases hreturn
  rename_i hcallback
  obtain ⟨s', hstep, rfl⟩ := Option.map_eq_some_iff.mp hreturn
  have hpc := callback_eq_moreWork.mp hcallback
  have hprogress := progress_of_group_step hstep
  have hsolutions := solutions_of_group_step hstep
  rw [hcallback] at hprogress hsolutions
  obtain ⟨hheld', howed'⟩ := hprogress
  obtain ⟨hheld, howed⟩ : held c s = 0 ∧ owed c s = 0 :=
    held_of_asking hs.sound.control (hs.sound.round t) hpc (Or.inr rfl)
  have hwork : w.work = [] := by
    rw [← Multiset.coe_eq_zero, hs.work, hheld]
  have hnothing : infoOf mwd = .nothing → items = [] := by
    intro hinfo
    obtain rfl := eq_nothing hinfo
    exact (Multiset.coe_eq_zero items).mp hitems
  have hfirst : w.firstInfo ≠ none := by
    rw [h.firstInfo]
    exact hs.firstInfo
  rw [moreWork_later hfirst hwork hnothing]
  obtain ⟨th', hthread, hthreads'⟩ := thread_of_step hstep
  have hself : s'.threads t = th' := by rw [hthreads', Function.update_self]
  obtain ⟨hafter, hpassed⟩ : th'.pc ≠ .moreWork .moreWork ∧ s'.shared.passed = s.shared.passed := by
    rcases passed_of_step hthread with hsame | ⟨hbefore, -⟩
    · exact hsame
    · cases hpc.symm.trans hbefore
  suffices hs' : Started c isSolution _ _ s' from hs'.refines rfl h.firstInfo rfl
  constructor
  case firstInfo => exact hs.firstInfo
  case sound => exact hs.sound.step hstep
  case work =>
    rw [hheld', hheld, zero_add]
    exact hitems
  case reported =>
    rw [howed']
    exact hs.reported
  case found =>
    rw [howed', hpassed, hsolutions]
    exact hs.found
  case asks =>
    refine iff_of_false ?_ ?_
    · -- no other thread is in the callback
      rintro ⟨u, hu⟩
      rcases eq_or_ne u t with rfl | hne
      · rw [hself] at hu
        exact hafter hu
      · rw [hthreads', Function.update_of_ne hne] at hu
        have hzero := hs.sound.control.holds_eq_zero (holds_moreWork hpc rfl) hne
        exact (holds_moreWork hu rfl).ne' hzero
    · intro hresting
      apply hresting
      by_cases hinfo : infoOf mwd = .nothing
      · exact Or.inr (if_pos hinfo)
      · exact Or.inl (if_neg hinfo)
  case closing =>
    intro hdone
    have hinfo : infoOf mwd = .nothing := by
      by_contra hinfo
      cases (if_neg hinfo).symm.trans hdone
    exact closing_of_answer hs.sound.control (hs.sound.round t) hpc (eq_nothing hinfo) hstep

/-- `MoreWork` goes on. -/
theorem Refines.setPc (h : Refines c isSolution p w) (hp : ¬ Resting p) {pc : Worker.Pc}
    (hrunning : pc ≠ .running) (hdone : pc ≠ .done) :
    Refines c isSolution { p with pc := pc } { w with pc := pc } where
  pc := rfl
  firstInfo := h.firstInfo
  notStarted hthreads := by
    obtain ⟨hfirst, -, hwork, hfound, hreported, hnothing⟩ := h.notStarted hthreads
    exact ⟨hfirst, fun h => h.elim hrunning hdone, hwork, hfound, hreported, hnothing⟩
  started s hthreads := by
    obtain ⟨hfirst, hsound, hwork, hreported, hfound, hasks, -⟩ := h.started s hthreads
    refine ⟨hfirst, hsound, hwork, hreported, hfound, ?_, fun h => absurd h hdone⟩
    exact iff_of_true (hasks.mpr hp) fun h => h.elim hrunning hdone

/-- The record that a worker keeps of what it has received is not looked at. -/
theorem Refines.record (h : Refines c isSolution p w) (terminated : Bool)
    (received : List (List (Work Value))) :
    Refines c isSolution p { w with terminated := terminated, received := received } where
  pc := h.pc
  firstInfo := h.firstInfo
  notStarted hthreads := by
    obtain ⟨hfirst, hasks, hwork, hfound, hreported, hnothing⟩ := h.notStarted hthreads
    exact ⟨hfirst, hasks, hwork, hfound, hreported, hnothing⟩
  started s hthreads := by
    obtain ⟨hfirst, hsound, hwork, hreported, hfound, hasks, hclosing⟩ := h.started s hthreads
    exact ⟨hfirst, hsound, hwork, hreported, hfound, hasks, hclosing⟩

/-- `MoreWork` returns something else than a range. -/
theorem Refines.moreWork (h : Refines c isSolution p w)
    (hreturn : p.moreWork c isSolution garbage t mwd = some p') {items : List (Work Value)}
    (hinfo : infoOf mwd ≠ .range) (hitems : (↑items : Multiset (Work Value)) = dataWork mwd) :
    Refines c isSolution p' (w.moreWork c garbage (infoOf mwd) items) := by
  cases hthreads : p.threads with
  | none => exact h.start hthreads hreturn fun h => absurd h hinfo
  | some s => exact h.resume hthreads hreturn hitems

theorem mapM_rootOf {items : List (Work Value)} {roots : List ℕ}
    (h : items.mapM rootOf = some roots) : items = roots.map .root := by
  induction items generalizing roots with
  | nil =>
    obtain rfl := Option.some.inj h
    rfl
  | cons item items ih =>
    cases item with
    | subtree node => simp [rootOf] at h
    | root i =>
      obtain ⟨rest, hrest, rfl⟩ : ∃ rest, items.mapM rootOf = some rest ∧ i :: rest = roots := by
        simpa [rootOf, Option.bind_eq_some_iff] using h
      rw [ih hrest]
      rfl

theorem mapM_nodeOf {items : List (Work Value)} {nodes : List (Unit × Value)}
    (h : items.mapM nodeOf = some nodes) : items = (nodes.map Prod.snd).map .subtree := by
  induction items generalizing nodes with
  | nil =>
    obtain rfl := Option.some.inj h
    rfl
  | cons item items ih =>
    cases item with
    | root i => simp [nodeOf] at h
    | subtree node =>
      obtain ⟨rest, hrest, rfl⟩ : ∃ rest, items.mapM nodeOf = some rest ∧
          ((), node) :: rest = nodes := by
        simpa [nodeOf, Option.bind_eq_some_iff] using h
      rw [ih hrest]
      rfl

/-- What is deserialized is what was serialized. -/
theorem deserialize_eq {areRoots : Bool} {items : List (Work Value)}
    (h : deserialize areRoots items = some mwd) :
    infoOf mwd = (if areRoots then .roots else .subtree) ∧
      (↑items : Multiset (Work Value)) = dataWork mwd := by
  unfold deserialize at h
  split_ifs at h with hroots
  · obtain ⟨roots, hitems, rfl⟩ := Option.map_eq_some_iff.mp h
    refine ⟨(if_pos hroots).symm, ?_⟩
    rw [mapM_rootOf hitems]
    rfl
  · obtain ⟨nodes, hitems, rfl⟩ := Option.map_eq_some_iff.mp h
    refine ⟨(if_neg hroots).symm, ?_⟩
    rw [mapM_nodeOf hitems]
    rfl

/-- **A receive in `MoreWork`.** -/
theorem Refines.receive (h : Refines c isSolution p w) {msg : ToWorker Value}
    (hreceive : p.receive c isSolution garbage t msg = some p') :
    ∃ w', w.receive c garbage msg = some w' ∧ Refines c isSolution p' w' := by
  have hpc := h.pc
  unfold Process.receive at hreceive
  split at hreceive
  · rename_i hrecv
    obtain rfl := Option.some.inj hreceive
    refine ⟨{ w with pc := .send 0 }, ?_, h.setPc ?_ (by simp) (by simp)⟩
    · simp only [Worker.receive, hpc, hrecv]
    · simp [Resting, hrecv]
  · rename_i areRoots hrecv
    obtain rfl := Option.some.inj hreceive
    refine ⟨{ w with pc := .recvData areRoots }, ?_, h.setPc ?_ (by simp) (by simp)⟩
    · simp only [Worker.receive, hpc, hrecv]
    · simp [Resting, hrecv]
  · rename_i rangeBegin rangeEnd hrecv
    refine ⟨w.moreWork c garbage .range (w.rangeItems c rangeBegin rangeEnd), ?_, ?_⟩
    · simp only [Worker.receive, hpc, hrecv]
    cases hthreads : p.threads with
    | none =>
      apply h.start hthreads hreceive
      intro _
      rw [Worker.rangeItems, h.firstInfo, (h.notStarted hthreads).firstInfo]
      rfl
    | some s =>
      have hfirst := (h.started s hthreads).firstInfo
      apply h.resume hthreads hreceive
      rw [Worker.rangeItems, h.firstInfo]
      cases hinfo : p.firstInfo with
      | none => exact absurd hinfo hfirst
      | some info => rfl
  · rename_i hrecv
    refine ⟨{ w with terminated := true }.moreWork c garbage .nothing [], ?_, ?_⟩
    · simp only [Worker.receive, hpc, hrecv]
    exact (h.record true w.received).moreWork hreceive (by simp [infoOf]) rfl
  · rename_i areRoots items hrecv
    obtain ⟨mwd, hmwd, hreturn⟩ := Option.bind_eq_some_iff.mp hreceive
    obtain ⟨hinfo, hitems⟩ := deserialize_eq hmwd
    refine ⟨{ w with received := w.received ++ [items] }.moreWork c garbage
      (if areRoots then .roots else .subtree) items, ?_, ?_⟩
    · simp only [Worker.receive, hpc, hrecv]
    rw [← hinfo]
    refine (h.record w.terminated (w.received ++ [items])).moreWork hreturn ?_ hitems
    rw [hinfo]
    split_ifs <;> simp
  · cases hreceive

end MoreWork

end ParallelEnum.DistributedMpi.Threads
