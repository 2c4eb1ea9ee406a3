import ParallelEnum.Enumerator.Equiv.ParallelPthreadsSteal.MoreWork

/-!
# After the `MoreWork` callback has returned `MORE_WORK_NOTHING`

The thread that invoked the callback sets `terminate` while all threads are between the barriers,
so no thread comes back to its work: `closing_of_answer`, `Closing.step`.
-/

namespace ParallelEnum.ParallelPthreadsSteal.Callbacks

open Transition

variable {n : ℕ} {Buffer Value : Type} {c : BufferSystem Buffer Value} {callbacks : Bool}

/-- A stage in which nothing is asked for or put into a queue. -/
def MoreWorkStage.Idle : MoreWorkStage Buffer Value → Prop
  | .moreWork => False
  | .reset mwd => mwd = .nothing
  | .enqueueRoots _ => False
  | .enqueueNodes _ => False
  | _ => True

/-- Where a thread may be after the callback has returned `MORE_WORK_NOTHING`. -/
def Pc.Closing (terminate : Bool) : Pc n Buffer Value → Prop
  | .barrier _ _ => True
  | .moreWork stage => stage.Idle
  | .outer => terminate = true
  | .done => terminate = true
  | _ => False

/-- About to set `terminate`. -/
def MoreWorkStage.Ends (stage : MoreWorkStage Buffer Value) : Prop :=
  stage = .reset .nothing ∨ stage = .setTerminate

/-- The callback has returned `MORE_WORK_NOTHING`. -/
structure Closing (s : State n Buffer Value) : Prop where
  roots : s.shared.possibleRoots = []
  gnodes : s.shared.gnodes = []
  threads : ∀ t, (s.threads t).pc.Closing s.shared.terminate
  ending : s.shared.terminate = true ∨ ∃ t stage, (s.threads t).pc = .moreWork stage ∧ stage.Ends

/-! ### One step -/

/-- What a thread does once the callback has returned `MORE_WORK_NOTHING`. -/
structure Closes (sh : Shared n Buffer Value) (th : Thread n Buffer Value)
    (sh' : Shared n Buffer Value) (th' : Thread n Buffer Value) : Prop where
  roots : sh'.possibleRoots = sh.possibleRoots
  gnodes : sh'.gnodes = sh.gnodes
  terminate : sh.terminate = true → sh'.terminate = true
  pc : th'.pc = .outer ∨ th'.pc.Closing sh'.terminate
  ending : ∀ stage, th.pc = .moreWork stage → stage.Ends →
    sh'.terminate = true ∨ ∃ stage', th'.pc = .moreWork stage' ∧ stage'.Ends

section Step

variable {t : Fin n} {pick : ℕ} {answer : MoreWorkData Buffer Value}
  {sh sh' : Shared n Buffer Value} {th th' : Thread n Buffer Value}

/-- Between the barriers. -/
theorem closes_moreWork {stage : MoreWorkStage Buffer Value} (l : List (Node n Value))
    (k : List (Call n Buffer Value)) (hidle : stage.Idle)
    (hready : stage = .readTerminate → sh.terminate = true)
    (h : Thread.step c callbacks t pick answer sh ⟨.moreWork stage, l, k⟩ = some (sh', th')) :
    Closes sh ⟨.moreWork stage, l, k⟩ sh' th' := by
  obtain ⟨rfl, rfl⟩ := Prod.mk.inj (Option.some.inj h)
  cases stage with
  | testAndSet =>
    cases hset : sh.checkingSteal <;>
      constructor <;> simp [MoreWorkStage.step, hset, Pc.Closing, MoreWorkStage.Idle,
        MoreWorkStage.Ends]
  | readTerminate =>
    have hterm := hready rfl
    constructor <;> simp [MoreWorkStage.step, hterm, Pc.Closing, MoreWorkStage.Idle]
  | reset mwd =>
    obtain rfl : mwd = .nothing := hidle
    constructor <;> simp [MoreWorkStage.step, Pc.Closing, MoreWorkStage.Idle, MoreWorkStage.Ends]
  | moreWork => exact hidle.elim
  | enqueueRoots roots => exact hidle.elim
  | enqueueNodes nodes => exact hidle.elim
  | readLnodes =>
    cases l <;> constructor <;>
      simp [MoreWorkStage.step, Pc.Closing, MoreWorkStage.Idle, MoreWorkStage.Ends]
  | readRoots =>
    constructor <;> try (simp [MoreWorkStage.step, MoreWorkStage.Ends]; done)
    simp only [MoreWorkStage.step]
    split_ifs <;> exact Or.inr trivial
  | readGnodes =>
    constructor <;> try (simp [MoreWorkStage.step, MoreWorkStage.Ends]; done)
    simp only [MoreWorkStage.step]
    split_ifs <;> exact Or.inr trivial
  | _ =>
    constructor <;> simp [MoreWorkStage.step, Pc.Closing, MoreWorkStage.Idle, MoreWorkStage.Ends]

theorem closes_of_step (hclosing : th.pc.Closing sh.terminate)
    (hready : th.pc = .moreWork .readTerminate → sh.terminate = true)
    (h : Thread.step c callbacks t pick answer sh th = some (sh', th')) :
    Closes sh th sh' th' := by
  obtain ⟨pc, l, k⟩ := th
  cases pc with
  | outer =>
    have hterm : sh.terminate = true := hclosing
    obtain ⟨rfl, rfl⟩ := Prod.mk.inj (Option.some.inj h)
    constructor <;> simp [hterm, Pc.Closing]
  | barrier second wait =>
    obtain ⟨rfl, rfl⟩ := Prod.mk.inj (Option.some.inj h)
    constructor
    case roots => rfl
    case gnodes => rfl
    case terminate => exact id
    case pc =>
      rcases (wait.step sh.barrier).2 with _ | wait'
      · cases second with
        | false => exact Or.inr trivial
        | true => exact Or.inl rfl
      · exact Or.inr trivial
    case ending => exact nofun
  | moreWork stage => exact closes_moreWork l k hclosing (fun hstage => hready (by rw [hstage])) h
  | done => cases h
  | _ => exact hclosing.elim

end Step

/-! ### Runs -/

section Run

variable {s s' : State n Buffer Value} {t : Fin n}

theorem MoreWorkStage.Ends.holds {stage : MoreWorkStage Buffer Value} (h : stage.Ends) :
    stage.holds = 1 := by
  rcases h with rfl | rfl <;> rfl

theorem holds_moreWork {th : Thread n Buffer Value} {stage : MoreWorkStage Buffer Value}
    (hpc : th.pc = .moreWork stage) (hholds : stage.holds = 1) : 0 < holds th := by
  unfold holds
  rw [hpc]
  dsimp only
  omega

/-- **`MORE_WORK_NOTHING` is final**: no step leads out of the end of the run. -/
theorem Closing.step {a : Action n Buffer Value} (h : Closing s) (hcontrol : Control s)
    (hstep : Callbacks.step c callbacks s a = some s') : Closing s' := by
  have hcontrol' := hcontrol.step hstep
  rw [Callbacks.step, Option.map_eq_some_iff] at hstep
  obtain ⟨⟨sh', th'⟩, hthread, rfl⟩ := hstep
  -- the thread that is about to set `terminate` holds `checkingSteal`
  have hready : (s.threads a.thread).pc = .moreWork .readTerminate →
      s.shared.terminate = true := by
    intro hpc
    rcases h.ending with hterm | ⟨u, stage, hu, hstage⟩
    · exact hterm
    · exfalso
      by_cases hut : a.thread = u
      · rw [hut, hu] at hpc
        obtain rfl := Pc.moreWork.inj hpc
        rcases hstage with hstage | hstage <;> cases hstage
      · have hzero := hcontrol.holds_eq_zero (holds_moreWork hu hstage.holds) hut
        exact (holds_moreWork hpc rfl).ne' hzero
  have hcloses := closes_of_step (h.threads a.thread) hready hthread
  have hself : Function.update s.threads a.thread th' a.thread = th' := Function.update_self ..
  have hother : ∀ u, u ≠ a.thread → Function.update s.threads a.thread th' u = s.threads u :=
    fun u hu => Function.update_of_ne hu ..
  have hending : sh'.terminate = true ∨ ∃ u stage,
      (Function.update s.threads a.thread th' u).pc = .moreWork stage ∧ stage.Ends := by
    rcases h.ending with hterm | ⟨u, stage, hu, hstage⟩
    · exact Or.inl (hcloses.terminate hterm)
    · by_cases hut : u = a.thread
      · rcases hcloses.ending stage (hut ▸ hu) hstage with hterm | ⟨stage', hpc, hstage'⟩
        · exact Or.inl hterm
        · exact Or.inr ⟨a.thread, stage', by rw [hself]; exact hpc, hstage'⟩
      · exact Or.inr ⟨u, stage, by rw [hother u hut]; exact hu, hstage⟩
  constructor
  case roots => exact hcloses.roots.trans h.roots
  case gnodes => exact hcloses.gnodes.trans h.gnodes
  case ending => exact hending
  case threads =>
    intro u
    show (Function.update s.threads a.thread th' u).pc.Closing sh'.terminate
    by_cases hut : u = a.thread
    · rw [hut, hself]
      rcases hcloses.pc with hpc | hpc
      · -- a thread leaves the second barrier only after all threads have come to it
        rcases hending with hterm | ⟨v, stage, hv, -⟩
        · rw [hpc]
          exact hterm
        · exfalso
          have hbetween : Between sh' (Function.update s.threads a.thread th' a.thread) :=
            hcontrol'.between (between_moreWork stage hv) a.thread
          rw [hself] at hbetween
          rcases between_cases hbetween with ⟨b, w, hpc'⟩ | ⟨stage', hpc'⟩
          · cases hpc.symm.trans hpc'
          · cases hpc.symm.trans hpc'
      · exact hpc
    · rw [hother u hut]
      have hclosing := h.threads u
      generalize (s.threads u).pc = pc at hclosing
      cases pc with
      | outer => exact hcloses.terminate hclosing
      | done => exact hcloses.terminate hclosing
      | barrier second wait => trivial
      | moreWork stage => exact hclosing
      | _ => exact hclosing.elim

/-- The end of the run begins when the callback returns `MORE_WORK_NOTHING`. -/
theorem closing_of_answer {a : Action n Buffer Value} (hcontrol : Control s)
    (hround : RoundOk s.shared (s.threads a.thread))
    (hpc : (s.threads a.thread).pc = .moreWork .moreWork) (hanswer : a.answer = .nothing)
    (hstep : Callbacks.step c callbacks s a = some s') : Closing s' := by
  rw [Callbacks.step, Option.map_eq_some_iff] at hstep
  obtain ⟨⟨sh', th'⟩, hthread, rfl⟩ := hstep
  obtain ⟨hroots, hgnodes⟩ := hround.stage _ hpc
  have hholds : 0 < holds (s.threads a.thread) := holds_moreWork hpc rfl
  simp only [Thread.step, hpc, MoreWorkStage.step, hanswer, Option.some.injEq, Prod.mk.injEq]
    at hthread
  obtain ⟨rfl, rfl⟩ := hthread
  constructor
  case roots => exact hroots
  case gnodes => exact hgnodes
  case ending =>
    refine Or.inr ⟨a.thread, .reset .nothing, ?_, Or.inl rfl⟩
    show (Function.update s.threads a.thread _ a.thread).pc = _
    rw [Function.update_self]
  case threads =>
    intro u
    show (Function.update s.threads a.thread _ u).pc.Closing _
    by_cases hut : u = a.thread
    · rw [hut, Function.update_self]
      exact rfl
    · rw [Function.update_of_ne hut]
      -- the other threads are between the barriers, without `checkingSteal`
      have hbetween := hcontrol.between (between_moreWork _ hpc) u
      have hzero := hcontrol.holds_eq_zero hholds hut
      rcases between_cases hbetween with ⟨b, w, hu⟩ | ⟨stage, hu⟩
      · rw [hu]
        trivial
      · rw [hu]
        cases stage with
        | testAndSet => trivial
        | decWaiting => trivial
        | _ => exact absurd hzero (holds_moreWork hu rfl).ne'

/-- A run that ends has no work, and makes no callback. -/
theorem Closing.idle (h : Closing s) (hcontrol : Control s) (t : Fin n) :
    (s.threads t).lnodes = [] ∧ (s.threads t).calls = [] ∧ ¬ Expanding (s.threads t) ∧
      ¬ InCallback (s.threads t) := by
  have hclosing := h.threads t
  obtain ⟨hcalls, hlnodes⟩ := hcontrol.tidy t
  generalize s.threads t = th at hclosing hcalls hlnodes
  obtain ⟨pc, l, k⟩ := th
  cases pc with
  | outer => simp_all [Expanding, InCallback, Pc.MayCall, Pc.MayKeep]
  | done => simp_all [Expanding, InCallback, Pc.MayCall, Pc.MayKeep]
  | barrier second wait => simp_all [Expanding, InCallback, Pc.MayCall, Pc.MayKeep]
  | moreWork stage =>
    have hne : stage ≠ .moreWork := by
      rintro rfl
      exact hclosing.elim
    simp_all [Expanding, InCallback, Pc.MayCall, Pc.MayKeep]
  | _ => exact hclosing.elim

end Run

/-- **`MORE_WORK_NOTHING` is final.** Once the `MoreWork` callback has returned it, there is no root
and no node left anywhere, no thread expands a node, and no callback is made again. -/
theorem final_of_nothing (c : BufferSystem Buffer Value) {minRootId maxRootId : ℕ}
    {s s' s'' : State n Buffer Value} {a : Action n Buffer Value}
    (h : Reaches (step c true) Any (init c n minRootId maxRootId) s)
    (hpc : (s.threads a.thread).pc = .moreWork .moreWork) (hanswer : a.answer = .nothing)
    (hstep : step c true s a = some s') (h' : Reaches (step c true) Any s' s'') :
    s''.shared.possibleRoots = [] ∧ s''.shared.gnodes = [] ∧
      ∀ t, (s''.threads t).lnodes = [] ∧ ¬ Expanding (s''.threads t) ∧
        ¬ InCallback (s''.threads t) := by
  have hcontrol := control_of_reaches h
  have hclosing := closing_of_answer hcontrol (roundOk_of_reaches h a.thread) hpc hanswer hstep
  have hends : Control s'' ∧ Closing s'' := by
    apply h'.invariant (I := fun s => Control s ∧ Closing s)
    · exact ⟨hcontrol.step hstep, hclosing⟩
    · rintro s a t ⟨hcontrol, hclosing⟩ _ hstep
      exact ⟨hcontrol.step hstep, hclosing.step hcontrol hstep⟩
  refine ⟨hends.2.roots, hends.2.gnodes, fun t => ?_⟩
  obtain ⟨hlnodes, -, hexpanding, hcallback⟩ := hends.2.idle hends.1 t
  exact ⟨hlnodes, hexpanding, hcallback⟩

/-- The two threads leave the barriers, and return. -/
def leave : List (Action 2 Unit ℕ) :=
  (List.replicate 9 [⟨0, 0, .nothing⟩, ⟨1, 0, .nothing⟩]).flatten ++ [⟨0, 0, .nothing⟩]

theorem final_of_nothing_cherry :
    ∃ s s' s'', run (step (ofFiniteSystem cherry) true) Any turns
        (init (ofFiniteSystem cherry) 2 0 0) = some s ∧
      step (ofFiniteSystem cherry) true s ⟨1, 0, .nothing⟩ = some s' ∧
      run (step (ofFiniteSystem cherry) true) Any leave s' = some s'' ∧
      (s''.threads 0).pc = .done ∧ (s''.threads 1).pc = .done ∧
      s''.shared.possibleRoots = [] ∧ s''.shared.gnodes = [] ∧
      ∀ t, (s''.threads t).lnodes = [] ∧ ¬ Expanding (s''.threads t) ∧
        ¬ InCallback (s''.threads t) := by
  have hends : ((run (step (ofFiniteSystem cherry) true) Any turns
      (init (ofFiniteSystem cherry) 2 0 0)).bind fun s =>
        (step (ofFiniteSystem cherry) true s ⟨1, 0, .nothing⟩).bind fun s' =>
          (run (step (ofFiniteSystem cherry) true) Any leave s').map fun s'' =>
            ((s.threads 1).pc, (s''.threads 0).pc, (s''.threads 1).pc))
      = some (.moreWork .moreWork, .done, .done) := by
    decide +kernel
  obtain ⟨s, hrun, hends⟩ := Option.bind_eq_some_iff.mp hends
  obtain ⟨s', hstep, hends⟩ := Option.bind_eq_some_iff.mp hends
  obtain ⟨s'', hleave, hends⟩ := Option.map_eq_some_iff.mp hends
  obtain ⟨hpc, h0, h1⟩ : _ ∧ _ ∧ _ := by simpa using hends
  have hfinal := final_of_nothing _ (reaches_of_run hrun) hpc rfl hstep (reaches_of_run hleave)
  exact ⟨s, s', s'', hrun, hstep, hleave, h0, h1, hfinal⟩

end ParallelEnum.ParallelPthreadsSteal.Callbacks
