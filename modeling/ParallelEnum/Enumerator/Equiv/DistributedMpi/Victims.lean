import ParallelEnum.Enumerator.Equiv.DistributedMpi.FirstAnswer

/-!
# The victims of the master

`GetStealVictim` passes over the previous victim and answers `0` if it finds no other worker.
`asksProperly_of_hasVictim`: the worker it answers is neither waiting nor the one that is served
exactly when some worker other than the previous victim is not waiting, or worker `0` is not.
Nothing in the source makes it so (`not_asksProperly_two`).
-/

namespace ParallelEnum.DistributedMpi

open ParallelPthreadsSteal (FiniteSystem)
open Transition

variable {Node : Type} {W : ℕ} {c : FiniteSystem Node} {isSolution : Node → Bool}

/-! ### `GetStealVictim` -/

namespace Master

/-- A worker that `GetStealVictim` does not pass over. -/
def Eligible (m : Master W) (i : Fin W) : Prop :=
  i ≠ m.lastStealVictim ∧ m.workersStates i ≠ .stealWait

/-- Some worker other than the previous victim is not waiting, or worker `0` is not. -/
def HasVictim [NeZero W] (m : Master W) : Prop :=
  ∃ i, m.workersStates i ≠ .stealWait ∧ (i ≠ m.lastStealVictim ∨ i = 0)

instance [NeZero W] (m : Master W) : Decidable m.HasVictim :=
  inferInstanceAs (Decidable (∃ i, m.workersStates i ≠ .stealWait ∧
    (i ≠ m.lastStealVictim ∨ i = 0)))

/-- The loop of `GetStealVictim` ends on an eligible worker if it meets one. -/
theorem scan_spec [NeZero W] (m : Master W) (l : List (Fin W)) :
    let r := l.foldl
      (fun (r : Option ℕ × Fin W) i =>
        if i ≠ m.lastStealVictim ∧ r.1.all (fun minimum => m.lastRequest i < minimum) ∧
            m.workersStates i ≠ .stealWait then
          (some (m.lastRequest i), i)
        else r)
      (none, 0)
    (r = (none, 0) ∧ ∀ i ∈ l, ¬ m.Eligible i) ∨ (∃ t, r.1 = some t) ∧ m.Eligible r.2 := by
  induction l using List.reverseRecOn with
  | nil => exact Or.inl ⟨rfl, fun _ h => absurd h List.not_mem_nil⟩
  | append_singleton l i ih =>
    dsimp only at ih ⊢
    rw [List.foldl_append, List.foldl_cons, List.foldl_nil]
    split_ifs with htest
    · exact Or.inr ⟨⟨_, rfl⟩, htest.1, htest.2.2⟩
    · rcases ih with ⟨hr, hnone⟩ | hsome
      · left
        refine ⟨hr, ?_⟩
        intro j hj
        rcases List.mem_append.mp hj with hj | hj
        · exact hnone j hj
        · obtain rfl := List.mem_singleton.mp hj
          -- with no minimum yet, only the other two tests can fail
          rintro ⟨hne, hstate⟩
          apply htest
          rw [hr]
          exact ⟨hne, rfl, hstate⟩
      · exact Or.inr hsome

theorem getStealVictim_cases [NeZero W] (m : Master W) :
    m.Eligible m.getStealVictim ∨ m.getStealVictim = 0 ∧ ∀ i, ¬ m.Eligible i := by
  rcases m.scan_spec (List.finRange W) with ⟨hr, hnone⟩ | ⟨_, heligible⟩
  · right
    exact ⟨congrArg Prod.snd hr, fun i => hnone i (List.mem_finRange i)⟩
  · exact Or.inl heligible

/-- **The worker that `GetStealVictim` answers is not waiting** if there is such a worker for it
to answer. -/
theorem getStealVictim_iff [NeZero W] (m : Master W) :
    m.workersStates m.getStealVictim ≠ .stealWait ↔ m.HasVictim := by
  rcases m.getStealVictim_cases with heligible | ⟨hzero, hnone⟩
  · exact iff_of_true heligible.2 ⟨_, heligible.2, Or.inl heligible.1⟩
  · rw [hzero]
    constructor
    · exact fun hstate => ⟨0, hstate, Or.inr rfl⟩
    · rintro ⟨i, hstate, hne | rfl⟩
      · exact absurd ⟨hne, hstate⟩ (hnone i)
      · exact hstate

/-- The worker that the master has asked for work is not waiting itself. -/
def AsksProperly (m : Master W) : Prop :=
  ∀ stealer victim, m.pc = .steal stealer victim →
    victim ≠ stealer ∧ m.workersStates victim ≠ .stealWait

/-- The worker that the master serves is waiting. -/
def ServesWaiting (m : Master W) : Prop :=
  ∀ stealer victim, m.pc = .steal stealer victim → m.workersStates stealer = .stealWait

end Master

/-! ### The calls of `GetStealVictim` -/

/-- The call of `GetStealVictim` that a step begins or continues the loop of `WaitRangeRequest`
with: the worker that is served, and the master at the time of the call. -/
def victimCall (c : FiniteSystem Node) (s : State Node W) :
    Action Node W → Option (Fin W × Master W)
  | .worker _ _ => none
  | .master i now =>
    match s.master.pc with
    | .wait rangeBegin _ =>
      match s.toMaster i with
      | .rangeRequest count :: _ =>
        let m := (s.master.addRequest i now count).setState i .stealWait
        if rangeBegin = c.maxRoots ∧ m.terminated = false then some (i, m) else none
      | _ => none
    | .steal stealer victim =>
      match s.toMaster victim with
      | .rangeRequest count :: _ =>
        let m := (s.master.addRequest victim now count).setState victim .stealWait
        if m.terminated = false then some (stealer, m) else none
      | _ => none
    | _ => none

/-- If a step calls `GetStealVictim`, there is a worker for it to answer. -/
def HasVictim [NeZero W] (c : FiniteSystem Node) (s : State Node W) (a : Action Node W) : Prop :=
  ∀ call ∈ victimCall c s a, call.2.HasVictim

instance [NeZero W] (c : FiniteSystem Node) (s : State Node W) (a : Action Node W) :
    Decidable (HasVictim c s a) :=
  inferInstanceAs (Decidable (∀ call ∈ victimCall c s a, call.2.HasVictim))

/-- The master after a call of `GetStealVictim`. -/
def Master.asked [NeZero W] (m : Master W) (stealer : Fin W) : Master W :=
  { m with lastStealVictim := m.getStealVictim, pc := .steal stealer m.getStealVictim }

theorem stealFromNext_master [NeZero W] {s : State Node W} {maxRoots : ℕ} {stealer : Fin W}
    (hterm : s.master.terminated = false) :
    (s.stealFromNext maxRoots stealer).master = s.master.asked stealer := by
  unfold State.stealFromNext
  rw [hterm]
  rfl

/-- When `WaitRangeRequest` returns the master asks nobody. -/
theorem returned_pc_ne {maxRoots : ℕ} {i : Fin W} {result : Bool} {m : Master W}
    {stealer victim : Fin W} : (m.returned maxRoots i result).pc ≠ .steal stealer victim := by
  unfold Master.returned Master.nextCall
  split_ifs <;> exact nofun

theorem leaveSteal_pc_ne {s : State Node W} {maxRoots : ℕ} {i stealer victim : Fin W} :
    (s.leaveSteal maxRoots i).master.pc ≠ .steal stealer victim := by
  unfold State.leaveSteal
  split_ifs <;> exact returned_pc_ne

theorem stealFromNext_pc_ne [NeZero W] {s : State Node W} {maxRoots : ℕ} {i stealer victim : Fin W}
    (hterm : s.master.terminated = true) :
    (s.stealFromNext maxRoots i).master.pc ≠ .steal stealer victim := by
  unfold State.stealFromNext
  rw [hterm]
  exact leaveSteal_pc_ne

/-- The calls of `GetStealVictim`, by what the master waits for and what has come. -/
theorem victimCall_wait {s : State Node W} {i : Fin W} {now rangeBegin rangeEnd count : ℕ}
    {rest : List (ToMaster Node)} (hpc : s.master.pc = .wait rangeBegin rangeEnd)
    (hup : s.toMaster i = .rangeRequest count :: rest) : victimCall c s (.master i now) =
      if rangeBegin = c.maxRoots ∧
        ((s.master.addRequest i now count).setState i .stealWait).terminated = false then
        some (i, (s.master.addRequest i now count).setState i .stealWait) else none := by
  simp only [victimCall, hpc, hup]

theorem victimCall_steal {s : State Node W} {i stealer victim : Fin W} {now count : ℕ}
    {rest : List (ToMaster Node)} (hpc : s.master.pc = .steal stealer victim)
    (hup : s.toMaster victim = .rangeRequest count :: rest) : victimCall c s (.master i now) =
      if ((s.master.addRequest victim now count).setState victim .stealWait).terminated = false then
        some (stealer, (s.master.addRequest victim now count).setState victim .stealWait)
      else none := by
  simp only [victimCall, hpc, hup]

theorem victimCall_stealResponse {s : State Node W} {i stealer victim : Fin W} {now : ℕ}
    {areRoots : Bool} {rest : List (ToMaster Node)} (hpc : s.master.pc = .steal stealer victim)
    (hup : s.toMaster victim = .stealResponseLen areRoots :: rest) :
    victimCall c s (.master i now) = none := by
  simp only [victimCall, hpc, hup]

theorem victimCall_data {s : State Node W} {i stealer victim : Fin W} {now : ℕ} {areRoots : Bool}
    (hpc : s.master.pc = .data stealer victim areRoots) :
    victimCall c s (.master i now) = none := by
  simp only [victimCall, hpc]

/-- A step of the master calls `GetStealVictim` and asks the worker it answers, or asks nobody. -/
theorem masterStep_victimCall [NeZero W] {s s' : State Node W} {i : Fin W} {now : ℕ}
    (h : s.masterStep c i now = some s') :
    (∃ stealer m, victimCall c s (.master i now) = some (stealer, m) ∧
      s'.master = m.asked stealer ∧
      (s.master.ServesWaiting → m.workersStates stealer = .stealWait)) ∨
    (victimCall c s (.master i now) = none ∧
      ∀ stealer victim, s'.master.pc ≠ .steal stealer victim) := by
  unfold State.masterStep at h
  split at h
  case h_1 rangeBegin rangeEnd hpc =>
    -- a request is answered with a range, or its sender is served
    split at h
    · rename_i count rest hup
      rw [victimCall_wait hpc hup]
      dsimp only at h
      split_ifs at h with hbegin
      · obtain rfl := Option.some.inj h
        right
        exact ⟨if_neg fun h => hbegin h.1, fun _ _ => returned_pc_ne⟩
      · obtain rfl := Option.some.inj h
        cases hterm : ((s.master.addRequest i now count).setState i .stealWait).terminated with
        | false =>
          left
          refine ⟨i, _, if_pos ⟨not_not.mp hbegin, rfl⟩, stealFromNext_master hterm, ?_⟩
          exact fun _ => Function.update_self _ _ _
        | true =>
          right
          exact ⟨if_neg fun h => Bool.false_ne_true h.2.symm, fun _ _ => stealFromNext_pc_ne hterm⟩
    · cases h
  case h_2 stealer victim hpc =>
    -- the victim answers, or its own request has crossed the steal request
    split at h
    · rename_i areRoots rest hup
      obtain rfl := Option.some.inj h
      exact Or.inr ⟨victimCall_stealResponse hpc hup, fun _ _ h => by cases h⟩
    · rename_i count rest hup
      obtain rfl := Option.some.inj h
      rw [victimCall_steal hpc hup]
      cases hterm :
          ((s.master.addRequest victim now count).setState victim .stealWait).terminated with
      | false =>
        left
        refine ⟨stealer, _, if_pos rfl, stealFromNext_master hterm, ?_⟩
        intro hserves
        show Function.update s.master.workersStates victim .stealWait stealer = .stealWait
        by_cases hne : stealer = victim
        · rw [hne, Function.update_self]
        · rw [Function.update_of_ne hne]
          exact hserves stealer victim hpc
      | true =>
        right
        exact ⟨if_neg fun h => Bool.false_ne_true h.symm, fun _ _ => stealFromNext_pc_ne hterm⟩
    · cases h
  case h_3 stealer victim areRoots hpc =>
    split at h
    · obtain rfl := Option.some.inj h
      exact Or.inr ⟨victimCall_data hpc, fun _ _ => leaveSteal_pc_ne⟩
    · cases h
  case h_4 => cases h

/-! ### Runs -/

/-- The master starts by waiting for a request. -/
theorem init_pc_ne [NeZero W] {rootsPerNode : ℕ} {stealer victim : Fin W} :
    (init c rootsPerNode : State Node W).master.pc ≠ .steal stealer victim := by
  unfold init Master.nextCall
  dsimp only
  split_ifs <;> exact nofun

section Runs

variable [DecidableEq Node] [NeZero W]

theorem servesWaiting_step {s s' : State Node W} {a : Action Node W}
    (hs : s.master.ServesWaiting) (h : step c isSolution s a = some s') :
    s'.master.ServesWaiting := by
  cases a with
  | master i now =>
    rcases masterStep_victimCall h with ⟨stealer, m, _, hmaster, hwait⟩ | ⟨_, hpc⟩
    · rw [hmaster]
      intro stealer' victim' hpc
      obtain ⟨rfl, _⟩ := Master.Pc.steal.inj hpc
      exact hwait hs
    · exact fun stealer victim h => absurd h (hpc stealer victim)
  | worker i a =>
    rw [step, Option.map_eq_some_iff] at h
    obtain ⟨_, _, rfl⟩ := h
    exact hs

/-- **A step that has a victim asks it, and only such a step does.** -/
theorem asksProperly_step_iff {s s' : State Node W} {a : Action Node W}
    (hserves : s.master.ServesWaiting) (hs : s.master.AsksProperly)
    (h : step c isSolution s a = some s') : s'.master.AsksProperly ↔ HasVictim c s a := by
  cases a with
  | master i now =>
    rcases masterStep_victimCall h with ⟨stealer, m, hcall, hmaster, hwait⟩ | ⟨hcall, hpc⟩
    · have hhas : HasVictim c s (.master i now) ↔ m.HasVictim := by
        unfold HasVictim
        rw [hcall]
        simp
      rw [hhas, ← m.getStealVictim_iff, hmaster]
      constructor
      · exact fun hasks => (hasks stealer m.getStealVictim rfl).2
      · intro hstate stealer' victim' hpc
        obtain ⟨rfl, rfl⟩ := Master.Pc.steal.inj hpc
        refine ⟨?_, hstate⟩
        -- the worker that is served is waiting
        intro heq
        rw [heq] at hstate
        exact hstate (hwait hserves)
    · apply iff_of_true
      · exact fun stealer victim h => absurd h (hpc stealer victim)
      · intro call hmem
        rw [hcall] at hmem
        cases hmem
  | worker i a =>
    rw [step, Option.map_eq_some_iff] at h
    obtain ⟨_, _, rfl⟩ := h
    exact iff_of_true hs fun call hmem => absurd hmem (Option.not_mem_none call)

theorem servesWaiting_of_reaches {C : State Node W → Action Node W → Prop} {rootsPerNode : ℕ}
    {s : State Node W} (h : Reaches (step c isSolution) C (init c rootsPerNode) s) :
    s.master.ServesWaiting := by
  apply h.invariant (I := fun s => s.master.ServesWaiting)
  · exact fun _ _ hpc => absurd hpc init_pc_ne
  · exact fun _ _ _ hs _ hstep => servesWaiting_step hs hstep

/-- **Where there is a victim for every call the master asks no waiting worker.** A step without
one asks a waiting worker. -/
theorem asksProperly_of_hasVictim (c : FiniteSystem Node) (isSolution : Node → Bool)
    (rootsPerNode : ℕ) :
    (∀ s, Reaches (step c isSolution) (HasVictim c) (init c rootsPerNode : State Node W) s →
      s.master.AsksProperly) ∧
    ∀ s a s', Reaches (step c isSolution) Any (init c rootsPerNode : State Node W) s →
      step c isSolution s a = some s' → s.master.AsksProperly →
        (s'.master.AsksProperly ↔ HasVictim c s a) := by
  constructor
  · intro s h
    apply h.invariant_of (J := fun s => s.master.ServesWaiting)
      (I := fun s => s.master.AsksProperly)
    · exact fun _ hrun => servesWaiting_of_reaches hrun
    · exact fun _ _ hpc => absurd hpc init_pc_ne
    · exact fun _ _ _ hserves hs hC hstep => (asksProperly_step_iff hserves hs hstep).mpr hC
  · intro s a s' hrun hstep hs
    exact asksProperly_step_iff (servesWaiting_of_reaches hrun) hs hstep

end Runs

/-- Four roots, and a node under each of them. -/
def fourRoots : FiniteSystem ℕ where
  canUseRecursion := false
  maxRoots := 4
  getRoot i := [i]
  forest := oneRoot.forest
  ok_getRoot _ _ _ _ := trivial

/-- Each of the two workers gets two roots; the first one runs out of work and steals a root. -/
def stealOnce : List (Action ℕ 2) :=
  ask 0 0 ++ ask 1 1 ++
    [.worker 0 (.expand (.root 2) [.root 3]), .worker 0 (.expand (.root 3) [.subtree 2]),
      .worker 0 (.expand (.subtree 2) [.subtree 3]), .worker 0 (.expand (.subtree 3) []),
      .worker 0 .request, .worker 0 .send, .master 0 2,
      .worker 1 (.splitRoots [0] [.root 1]), .master 0 3, .master 0 4,
      .worker 0 (.receive (0, 0)), .worker 0 (.receive (0, 0))]

theorem asksProperly_of_hasVictim_two :
    ∃ s, run (step fourRoots fun _ => true) (HasVictim fourRoots) stealOnce
      (init fourRoots 2 : State ℕ 2) = some s ∧ s.master.AsksProperly := by
  have hsome : (run (step fourRoots fun _ => true) (HasVictim fourRoots) stealOnce
      (init fourRoots 2 : State ℕ 2)).isSome = true := by
    decide +kernel
  obtain ⟨s, hrun⟩ := Option.isSome_iff_exists.mp hsome
  exact ⟨s, hrun, (asksProperly_of_hasVictim fourRoots (fun _ => true) 2).1 s
    (reaches_of_run hrun)⟩

/-- The first worker runs out of work again while the second one, its previous victim, is the
only one that has some: the master asks the first worker for work for itself. -/
theorem not_asksProperly_two :
    ¬∀ s, Reaches (step fourRoots fun _ => true) Any (init fourRoots 2 : State ℕ 2) s →
      s.master.AsksProperly := by
  intro h
  have hpc : (run (step fourRoots fun _ => true) Any
      (stealOnce ++ search 0 0 ++ [.worker 0 .send, .master 0 5])
      (init fourRoots 2 : State ℕ 2)).map (fun s => s.master.pc) = some (.steal 0 0) := by
    decide +kernel
  obtain ⟨s, hrun, hsteal⟩ := Option.map_eq_some_iff.mp hpc
  exact (h s (reaches_of_run hrun) 0 0 hsteal).1 rfl

end ParallelEnum.DistributedMpi
