import ParallelEnum.Enumerator.Equiv.DistributedMpi.Master

/-!
# The invariant of the master and its workers

`MasterMoves` lists what one receive of the master can do.  `Inv` says that the first loop of
`Master::Run` hands out ranges as long as there are roots left (`Handout`), that until the master
returns every worker is linked to it, and that from then on every worker is finally linked to it.

`reaches_inv` is the induction over a run that all results about runs use.
-/

namespace ParallelEnum.DistributedMpi

open ParallelPthreadsSteal (FiniteSystem)
open Transition

variable {Node : Type} {W : ℕ} {c : FiniteSystem Node} {isSolution : Node → Bool}

/-! ### Steps of the master -/

/-- What one step of the master can do. -/
inductive MasterMoves [NeZero W] (c : FiniteSystem Node) (s : State Node W) : State Node W → Prop
  | range (i now rangeBegin rangeEnd count rest) (hpc : s.master.pc = .wait rangeBegin rangeEnd)
      (hup : s.toMaster i = .rangeRequest count :: rest) (hbegin : rangeBegin ≠ c.maxRoots) :
      MasterMoves c s
        { ((((s.recvFrom i rest).mapMaster (·.addRequest i now count)).sendTo i
            [.rangeResponse rangeBegin rangeEnd]).mapMaster (·.returned c.maxRoots i false)) with
          given := Function.update s.given i (s.given i ++ [(rangeBegin, rangeEnd)]) }
  | serve (i now rangeBegin rangeEnd count rest) (hpc : s.master.pc = .wait rangeBegin rangeEnd)
      (hup : s.toMaster i = .rangeRequest count :: rest) (hbegin : rangeBegin = c.maxRoots) :
      MasterMoves c s
        ((((s.recvFrom i rest).mapMaster (·.addRequest i now count)).mapMaster
          (·.setState i .stealWait)).stealFromNext c.maxRoots i)
  | crossed (stealer victim now count rest) (hpc : s.master.pc = .steal stealer victim)
      (hup : s.toMaster victim = .rangeRequest count :: rest) :
      MasterMoves c s
        (((s.recvFrom victim rest).mapMaster fun m =>
          (m.addRequest victim now count).setState victim .stealWait).stealFromNext
            c.maxRoots stealer)
  | gotLen (stealer victim areRoots rest) (hpc : s.master.pc = .steal stealer victim)
      (hup : s.toMaster victim = .stealResponseLen areRoots :: rest) :
      MasterMoves c s
        ((s.recvFrom victim rest).mapMaster ({ · with pc := .data stealer victim areRoots }))
  | forward (stealer victim areRoots items rest)
      (hpc : s.master.pc = .data stealer victim areRoots)
      (hup : s.toMaster victim = .data items :: rest) :
      MasterMoves c s
        ((((s.recvFrom victim rest).sendTo stealer
          [.stealResponseLen areRoots, .data items]).mapMaster
            (·.setState stealer .stealProcessing)).leaveSteal c.maxRoots stealer)

theorem masterMoves_of_step [NeZero W] {i : Fin W} {now : ℕ} {s s' : State Node W}
    (h : s.masterStep c i now = some s') : MasterMoves c s s' := by
  unfold State.masterStep at h
  split at h
  case h_1 rangeBegin rangeEnd hpc =>
    split at h
    · rename_i count rest hup
      dsimp only at h
      split_ifs at h with hbegin
      · exact Option.some.inj h ▸
          MasterMoves.range i now rangeBegin rangeEnd count rest hpc hup hbegin
      · exact Option.some.inj h ▸
          MasterMoves.serve i now rangeBegin rangeEnd count rest hpc hup (not_not.mp hbegin)
    · cases h
  case h_2 stealer victim hpc =>
    split at h
    · rename_i areRoots rest hup
      exact Option.some.inj h ▸ MasterMoves.gotLen stealer victim areRoots rest hpc hup
    · rename_i count rest hup
      exact Option.some.inj h ▸ MasterMoves.crossed stealer victim now count rest hpc hup
    · cases h
  case h_3 stealer victim areRoots hpc =>
    split at h
    · rename_i items rest hup
      exact Option.some.inj h ▸ MasterMoves.forward stealer victim areRoots items rest hpc hup
    · cases h
  case h_4 => cases h

/-! ### The invariant -/

namespace Master.Pc

/-- The master is serving this worker. -/
def serves : Master.Pc W → Fin W → Bool
  | .steal stealer _, w | .data stealer _ _, w => stealer = w
  | _, _ => false

/-- The master waits for the answer of this worker to a steal request. -/
def asks : Master.Pc W → Fin W → Bool
  | .steal _ victim, w => victim = w
  | _, _ => false

/-- The master waits for the data of this worker. -/
def expects : Master.Pc W → Fin W → Bool
  | .data _ victim _, w => victim = w
  | _, _ => false

end Master.Pc

/-- Every worker is linked to the master, in the roles that are given. -/
def Linked (serves asks expects : Fin W → Bool) (s : State Node W) : Prop :=
  ∀ w, Link (serves w) (asks w) (expects w) (s.master.workersStates w) (s.workers w)
    (s.toMaster w) (s.toWorker w)

/-- Every worker is finally linked to the master. -/
def FinallyLinked (last : Fin W) (s : State Node W) : Prop :=
  ∀ w, FinalLink (decide (last = w)) (s.workers w) (s.toMaster w) (s.toWorker w)

/-- Where the master is in the two loops of `Run`. -/
structure Handout (maxRoots : ℕ) (m : Master W) : Prop where
  rootsPerNode_pos : 0 < m.rootsPerNode
  /-- In the first loop a non-empty range is waiting to be handed out, and no one steals. -/
  loop : m.inRangeLoop = true → ∃ rangeEnd, m.pc = .wait m.nextRangeStart rangeEnd ∧
    m.nextRangeStart < rangeEnd ∧ rangeEnd ≤ maxRoots ∧ ∀ w, m.workersStates w = .roots
  /-- After it there is no range left. -/
  final : m.inRangeLoop = false → m.nextRangeStart = 0 ∧
    ∀ rangeBegin rangeEnd, m.pc = .wait rangeBegin rangeEnd → rangeBegin = maxRoots

structure Inv (c : FiniteSystem Node) (s : State Node W) : Prop where
  handout : Handout c.maxRoots s.master
  linked : (∀ last, s.master.pc ≠ .done last) →
    Linked s.master.pc.serves s.master.pc.asks s.master.pc.expects s
  finallyLinked : ∀ last, s.master.pc = .done last → FinallyLinked last s

/-- A step that changes the link of one worker only, in its roles or in its messages. -/
theorem Linked.update {serves serves' asks asks' expects expects' : Fin W → Bool}
    {s s' : State Node W} (h : Linked serves asks expects s) (v : Fin W)
    (hroles : ∀ w, w ≠ v → serves' w = serves w ∧ asks' w = asks w ∧ expects' w = expects w)
    (hstate : ∀ w, w ≠ v → s'.master.workersStates w = s.master.workersStates w ∧
      s'.workers w = s.workers w ∧ s'.toMaster w = s.toMaster w ∧ s'.toWorker w = s.toWorker w)
    (hv : Link (serves' v) (asks' v) (expects' v) (s'.master.workersStates v) (s'.workers v)
      (s'.toMaster v) (s'.toWorker v)) : Linked serves' asks' expects' s' := by
  intro w
  rcases eq_or_ne w v with rfl | hne
  · exact hv
  · obtain ⟨h1, h2, h3⟩ := hroles w hne
    obtain ⟨h4, h5, h6, h7⟩ := hstate w hne
    rw [h1, h2, h3, h4, h5, h6, h7]
    exact h w

/-- A role that belongs to one worker is not one of the others. -/
theorem decide_role {v w : Fin W} (h : w ≠ v) : decide (v = w) = false :=
  decide_eq_false h.symm

theorem terminated_iff {m : Master W} :
    m.terminated = true ↔ ∀ w, m.workersStates w = .stealWait := by
  simp [Master.terminated]

/-- A range is not empty, and ends where the ranges before it begin. -/
theorem nextRange_spec {rootsPerNode nextRangeStart : ℕ} (hpos : 0 < rootsPerNode)
    (hstart : 0 < nextRangeStart) :
    (nextRange rootsPerNode nextRangeStart).1 < nextRangeStart ∧
      (nextRange rootsPerNode nextRangeStart).2 = nextRangeStart := by
  unfold nextRange
  split_ifs with h
  · show nextRangeStart - rootsPerNode < nextRangeStart ∧
      nextRangeStart - rootsPerNode + rootsPerNode = nextRangeStart
    omega
  · exact ⟨hstart, rfl⟩

/-- The roots below a bound are those below a smaller one and a range. -/
theorem range_eq_append {b e : ℕ} (h : b ≤ e) :
    List.range e = List.range b ++ List.range' b (e - b) := by
  have happend := List.range'_append_1 (s := 0) (m := b) (n := e - b)
  rw [Nat.zero_add, Nat.add_sub_cancel' h] at happend
  rw [List.range_eq_range', List.range_eq_range']
  exact happend.symm

/-- The first loop goes on to its next range, or to the second loop. -/
theorem handout_nextCall {maxRoots : ℕ} {m : Master W} (hpos : 0 < m.rootsPerNode)
    (hloop : m.inRangeLoop = true) (hle : m.nextRangeStart ≤ maxRoots)
    (hstates : ∀ w, m.workersStates w = .roots) : Handout maxRoots (m.nextCall maxRoots) := by
  unfold Master.nextCall
  split_ifs with hstart
  · obtain ⟨hlt, heq⟩ := nextRange_spec hpos hstart
    refine ⟨hpos, fun _ => ⟨_, rfl, ?_, ?_, hstates⟩, fun h => ?_⟩
    · show (nextRange _ _).1 < (nextRange _ _).2
      omega
    · show (nextRange _ _).2 ≤ maxRoots
      omega
    · exact absurd (hloop.symm.trans h) nofun
  · refine ⟨hpos, nofun, fun _ => ⟨?_, ?_⟩⟩
    · show m.nextRangeStart = 0
      omega
    · intro b e h
      exact (Master.Pc.wait.inj h).1.symm

theorem nextCall_pc (maxRoots : ℕ) (m : Master W) :
    ∃ b e, (m.nextCall maxRoots).pc = .wait b e := by
  unfold Master.nextCall
  split_ifs <;> exact ⟨_, _, rfl⟩

theorem nextCall_workersStates {maxRoots : ℕ} (m : Master W) :
    (m.nextCall maxRoots).workersStates = m.workersStates := by
  unfold Master.nextCall
  split_ifs <;> rfl

/-- A master that waits for a request from any source has no roles to give. -/
theorem Master.Pc.roles_wait {pc : Master.Pc W} {b e : ℕ} (h : pc = .wait b e) :
    pc.serves = (fun _ => false) ∧ pc.asks = (fun _ => false) ∧ pc.expects = fun _ => false := by
  subst h
  exact ⟨rfl, rfl, rfl⟩

theorem inv_of_wait {s : State Node W} {b e : ℕ} (hpc : s.master.pc = .wait b e)
    (hhandout : Handout c.maxRoots s.master)
    (hlinked : Linked (fun _ => false) (fun _ => false) (fun _ => false) s) : Inv c s where
  handout := hhandout
  linked _ := by
    obtain ⟨h1, h2, h3⟩ := Master.Pc.roles_wait hpc
    rw [h1, h2, h3]
    exact hlinked
  finallyLinked last h := by
    rw [hpc] at h
    cases h

theorem clampRootsPerNode_pos {maxRoots numWorkers rootsPerNode : ℕ} (hW : 0 < numWorkers)
    (hroots : numWorkers ≤ maxRoots) (hpos : 0 < rootsPerNode) :
    0 < clampRootsPerNode maxRoots numWorkers rootsPerNode := by
  have hdiv : 0 < maxRoots / numWorkers := Nat.div_pos hroots hW
  unfold clampRootsPerNode
  split_ifs
  · exact hdiv
  · exact hpos

theorem inv_init [NeZero W] (hroots : W ≤ c.maxRoots) {rootsPerNode : ℕ}
    (hpos : 0 < rootsPerNode) : Inv c (init c rootsPerNode : State Node W) := by
  have hW : 0 < W := Nat.pos_of_ne_zero (NeZero.ne W)
  have hclamp : 0 < clampRootsPerNode c.maxRoots W rootsPerNode :=
    clampRootsPerNode_pos hW hroots hpos
  obtain ⟨b, e, hpc⟩ := nextCall_pc c.maxRoots
    ({ pc := .wait 0 0
       rootsPerNode := clampRootsPerNode c.maxRoots W rootsPerNode
       nextRangeStart := c.maxRoots
       inRangeLoop := true
       workersStates := fun _ => .roots
       lastRequest := fun _ => 0
       lastStealVictim := 0
       solutionsCount := 0 } : Master W)
  apply inv_of_wait hpc
  · exact handout_nextCall hclamp rfl le_rfl fun _ => rfl
  · intro w
    show Link false false false ((init c rootsPerNode : State Node W).master.workersStates w) _ _ _
    rw [show (init c rootsPerNode : State Node W).master.workersStates w = .roots from
      congrFun (nextCall_workersStates _) w]
    exact link_init

/-! ### Every step keeps the invariant -/

/-- `WaitRangeRequest` is called with a range in the first loop, and without one in the second. -/
theorem Handout.loop_iff {maxRoots : ℕ} {m : Master W} (h : Handout maxRoots m) {b e : ℕ}
    (hpc : m.pc = .wait b e) : m.inRangeLoop = true ↔ b ≠ maxRoots := by
  constructor
  · intro hloop hb
    obtain ⟨e', hwait, hlt, hle, _⟩ := h.loop hloop
    have := (Master.Pc.wait.inj (hpc.symm.trans hwait)).1
    omega
  · intro hb
    by_contra hloop
    exact hb ((h.final (Bool.eq_false_iff.mpr hloop)).2 _ _ hpc)

/-- In the second loop the return of `WaitRangeRequest` only moves the master on. -/
theorem returned_of_not_loop {maxRoots : ℕ} {stealer : Fin W} {m : Master W}
    (h : m.inRangeLoop = false) (result : Bool) : m.returned maxRoots stealer result
      = { m with pc := if !result then .wait maxRoots 0 else .done stealer } :=
  if_neg (by rw [h]; exact Bool.false_ne_true)

/-- In the second loop a master that waits for a request from any source has no range left. -/
theorem handout_of_not_loop {maxRoots : ℕ} {m : Master W} (hpos : 0 < m.rootsPerNode)
    (hloop : m.inRangeLoop = false) (hstart : m.nextRangeStart = 0)
    (hwait : ∀ b e, m.pc = .wait b e → b = maxRoots) : Handout maxRoots m where
  rootsPerNode_pos := hpos
  loop h := absurd (hloop.symm.trans h) nofun
  final _ := ⟨hstart, hwait⟩

/-- A master in its second loop asks the next victim, or sends the termination. -/
theorem inv_stealFromNext [NeZero W] {s : State Node W} {stealer : Fin W}
    (hpos : 0 < s.master.rootsPerNode) (hloop : s.master.inRangeLoop = false)
    (hstart : s.master.nextRangeStart = 0)
    (hlinked : Linked (fun w => decide (stealer = w)) (fun _ => false) (fun _ => false) s) :
    Inv c (s.stealFromNext c.maxRoots stealer) := by
  unfold State.stealFromNext
  cases hterm : s.master.terminated with
  | false =>
    simp only [Bool.not_false, if_true]
    set victim := s.master.getStealVictim
    refine ⟨handout_of_not_loop hpos hloop hstart nofun, ?_, nofun⟩
    intro _
    refine hlinked.update victim (fun w hne => ⟨rfl, decide_role hne, rfl⟩)
      (fun w hne => ⟨rfl, rfl, rfl, Function.update_of_ne hne _ _⟩) ?_
    show Link (decide (stealer = victim)) (decide (victim = victim)) false
      (s.master.workersStates victim) (s.workers victim) (s.toMaster victim)
      (Function.update s.toWorker victim (s.toWorker victim ++ [.stealRequest]) victim)
    rw [Function.update_self, decide_eq_true rfl]
    exact (hlinked victim).steal
  | true =>
    simp only [Bool.not_true, Bool.false_eq_true, if_false, State.leaveSteal, hterm, if_true]
    have hdone : (s.broadcastTermination.mapMaster
        (·.returned c.maxRoots stealer true)).master = { s.master with pc := .done stealer } := by
      exact returned_of_not_loop hloop true
    constructor
    case handout =>
      rw [hdone]
      exact handout_of_not_loop hpos hloop hstart nofun
    case linked =>
      intro h
      rw [hdone] at h
      exact absurd rfl (h stealer)
    case finallyLinked =>
      intro last hlast w
      rw [hdone] at hlast
      obtain rfl := Master.Pc.done.inj hlast
      have hl := hlinked w
      rw [terminated_iff.mp hterm w] at hl
      exact hl.terminate

/-- A master that is past its first loop keeps out of it. -/
theorem Handout.not_loop {maxRoots : ℕ} {m : Master W} (h : Handout maxRoots m)
    (hpc : ∀ b e, m.pc ≠ .wait b e) : m.inRangeLoop = false := by
  cases hloop : m.inRangeLoop with
  | false => rfl
  | true =>
    obtain ⟨e, hwait, _⟩ := h.loop hloop
    exact absurd hwait (hpc _ e)

/-- The first loop sends a worker its range, and no one has a role. -/
theorem inv_range [NeZero W] {s : State Node W} (hs : Inv c s) {i : Fin W}
    {now rangeBegin rangeEnd count : ℕ} {rest : List (ToMaster Node)}
    (hpc : s.master.pc = .wait rangeBegin rangeEnd)
    (hup : s.toMaster i = .rangeRequest count :: rest) (hbegin : rangeBegin ≠ c.maxRoots) :
    Inv c { ((((s.recvFrom i rest).mapMaster (·.addRequest i now count)).sendTo i
      [.rangeResponse rangeBegin rangeEnd]).mapMaster (·.returned c.maxRoots i false)) with
        given := Function.update s.given i (s.given i ++ [(rangeBegin, rangeEnd)]) } := by
  obtain ⟨hhandout, hlinked, -⟩ := hs
  have hl := hlinked (by rw [hpc]; nofun)
  obtain ⟨h1, h2, h3⟩ := Master.Pc.roles_wait hpc
  rw [h1, h2, h3] at hl
  have hloop : s.master.inRangeLoop = true := (hhandout.loop_iff hpc).mpr hbegin
  obtain ⟨e, hwait, hlt, hle, hstates⟩ := hhandout.loop hloop
  set m := s.master.addRequest i now count
  have hmaster : m.returned c.maxRoots i false = m.nextCall c.maxRoots := if_pos hloop
  obtain ⟨b', e', hpc'⟩ := nextCall_pc c.maxRoots m
  have hstates' : (m.nextCall c.maxRoots).workersStates = s.master.workersStates :=
    nextCall_workersStates m
  apply inv_of_wait (b := b') (e := e')
  · exact (congrArg Master.pc hmaster).trans hpc'
  · show Handout c.maxRoots (m.returned c.maxRoots i false)
    rw [hmaster]
    exact handout_nextCall hhandout.rootsPerNode_pos hloop (hlt.le.trans hle) hstates
  · have hstates'' : (m.returned c.maxRoots i false).workersStates = s.master.workersStates := by
      rw [hmaster, hstates']
    refine hl.update i (fun w _ => ⟨rfl, rfl, rfl⟩) (fun w hne => ⟨congrFun hstates'' w, rfl,
      Function.update_of_ne hne _ _, Function.update_of_ne hne _ _⟩) ?_
    show Link false false false ((m.returned c.maxRoots i false).workersStates i) (s.workers i)
      (Function.update s.toMaster i rest i) (Function.update s.toWorker i
        (s.toWorker i ++ [.rangeResponse rangeBegin rangeEnd]) i)
    have hi := hl i
    rw [hstates i, hup] at hi
    rw [hstates'', hstates i, Function.update_self, Function.update_self]
    exact (hi.range nofun rangeBegin rangeEnd).2

/-- The stealer gets what the victim has given, and the master waits for a request again. -/
theorem inv_forward [NeZero W] {s : State Node W} (hs : Inv c s) {stealer victim : Fin W}
    {areRoots : Bool} {items : List (Work Node)} {rest : List (ToMaster Node)}
    (hpc : s.master.pc = .data stealer victim areRoots)
    (hup : s.toMaster victim = .data items :: rest) :
    Inv c ((((s.recvFrom victim rest).sendTo stealer
      [.stealResponseLen areRoots, .data items]).mapMaster
        (·.setState stealer .stealProcessing)).leaveSteal c.maxRoots stealer) := by
  obtain ⟨hhandout, hlinked, -⟩ := hs
  have hl := hlinked (by rw [hpc]; nofun)
  rw [hpc] at hl
  have hloop := hhandout.not_loop (by rw [hpc]; nofun)
  set s₁ := ((s.recvFrom victim rest).sendTo stealer
    [.stealResponseLen areRoots, .data items]).mapMaster
      (·.setState stealer .stealProcessing) with hs₁
  have hterm : s₁.master.terminated = false := by
    rw [Bool.eq_false_iff]
    intro hterm
    have hstate := terminated_iff.mp hterm stealer
    rw [show s₁.master.workersStates stealer = .stealProcessing from
      Function.update_self _ _ _] at hstate
    cases hstate
  have hleave : s₁.leaveSteal c.maxRoots stealer
      = s₁.mapMaster (·.returned c.maxRoots stealer false) := by
    simp [State.leaveSteal, hterm]
  have hmaster : s₁.master.returned c.maxRoots stealer false
      = { s₁.master with pc := .wait c.maxRoots 0 } := by
    have hloop₁ : s₁.master.inRangeLoop = false := hloop
    exact returned_of_not_loop hloop₁ false
  -- the victim gave its data first, then the stealer gets them
  have hgot : Linked (fun w => decide (stealer = w)) (fun _ => false) (fun _ => false)
      (s.recvFrom victim rest) := by
    refine hl.update victim (fun w hne => ⟨rfl, rfl, (decide_role hne).symm⟩)
      (fun w hne => ⟨rfl, rfl, Function.update_of_ne hne _ _, rfl⟩) ?_
    show Link (decide (stealer = victim)) false false (s.master.workersStates victim)
      (s.workers victim) (Function.update s.toMaster victim rest victim) (s.toWorker victim)
    have hvictim : Link (decide (stealer = victim)) false (decide (victim = victim)) _ _ _ _ :=
      hl victim
    rw [hup, decide_eq_true rfl] at hvictim
    rw [Function.update_self]
    exact hvictim.gotData
  rw [hleave]
  apply inv_of_wait (b := c.maxRoots) (e := 0)
  · exact congrArg Master.pc hmaster
  · show Handout c.maxRoots (s₁.master.returned c.maxRoots stealer false)
    rw [hmaster]
    exact handout_of_not_loop hhandout.rootsPerNode_pos hloop (hhandout.final hloop).1
      fun b e h => (Master.Pc.wait.inj h).1.symm
  · have hstates : (s₁.master.returned c.maxRoots stealer false).workersStates
        = Function.update s.master.workersStates stealer .stealProcessing := by
      rw [hmaster]
      rfl
    refine hgot.update stealer (fun w hne => ⟨(decide_role hne).symm, rfl, rfl⟩) (fun w hne =>
      ⟨(congrFun hstates w).trans (Function.update_of_ne hne _ _), rfl, rfl,
        Function.update_of_ne hne _ _⟩) ?_
    show Link false false false
      ((s₁.master.returned c.maxRoots stealer false).workersStates stealer) (s.workers stealer)
      (Function.update s.toMaster victim rest stealer) (Function.update s.toWorker stealer
        (s.toWorker stealer ++ [.stealResponseLen areRoots, .data items]) stealer)
    have hstealer : Link (decide (stealer = stealer)) false false _ _ _ _ := hgot stealer
    rw [decide_eq_true rfl] at hstealer
    rw [hstates, Function.update_self, Function.update_self]
    exact hstealer.forward areRoots items

theorem MasterMoves.inv [NeZero W] {s s' : State Node W} (h : MasterMoves c s s')
    (hs : Inv c s) : Inv c s' := by
  have hhandout := hs.handout
  have hlinked := hs.linked
  cases h with
  | range i now rangeBegin rangeEnd count rest hpc hup hbegin =>
    exact inv_range hs hpc hup hbegin
  | serve i now rangeBegin rangeEnd count rest hpc hup hbegin =>
    -- the second loop: worker `i` waits from now on
    have hl := hlinked (by rw [hpc]; nofun)
    obtain ⟨h1, h2, h3⟩ := Master.Pc.roles_wait hpc
    rw [h1, h2, h3] at hl
    have hloop : s.master.inRangeLoop = false :=
      Bool.eq_false_iff.mpr fun hloop => (hhandout.loop_iff hpc).mp hloop hbegin
    apply inv_stealFromNext
    · exact hhandout.rootsPerNode_pos
    · exact hloop
    · exact (hhandout.final hloop).1
    refine hl.update i (fun w hne => ⟨decide_role hne, rfl, rfl⟩) (fun w hne =>
      ⟨Function.update_of_ne hne _ _, rfl, Function.update_of_ne hne _ _, rfl⟩) ?_
    show Link (decide (i = i)) false false
      (Function.update s.master.workersStates i .stealWait i) (s.workers i)
      (Function.update s.toMaster i rest i) (s.toWorker i)
    have hi := hl i
    rw [hup] at hi
    rw [Function.update_self, Function.update_self, decide_eq_true rfl]
    exact hi.consumed rfl
  | crossed stealer victim now count rest hpc hup =>
    -- the victim asked for work itself before it got the steal request
    have hl := hlinked (by rw [hpc]; nofun)
    rw [hpc] at hl
    have hloop := hhandout.not_loop (by rw [hpc]; nofun)
    apply inv_stealFromNext
    · exact hhandout.rootsPerNode_pos
    · exact hloop
    · exact (hhandout.final hloop).1
    refine hl.update victim (fun w hne => ⟨rfl, (decide_role hne).symm, rfl⟩) (fun w hne =>
      ⟨Function.update_of_ne hne _ _, rfl, Function.update_of_ne hne _ _, rfl⟩) ?_
    show Link (decide (stealer = victim)) false false
      (Function.update s.master.workersStates victim .stealWait victim) (s.workers victim)
      (Function.update s.toMaster victim rest victim) (s.toWorker victim)
    have hvictim : Link (decide (stealer = victim)) (decide (victim = victim)) false _ _ _ _ :=
      hl victim
    rw [hup, decide_eq_true rfl] at hvictim
    rw [Function.update_self, Function.update_self]
    exact hvictim.consumed (by simp)
  | gotLen stealer victim areRoots rest hpc hup =>
    have hl := hlinked (by rw [hpc]; nofun)
    rw [hpc] at hl
    have hloop := hhandout.not_loop (by rw [hpc]; nofun)
    refine ⟨handout_of_not_loop hhandout.rootsPerNode_pos hloop (hhandout.final hloop).1 nofun,
      ?_, nofun⟩
    intro _
    refine hl.update victim (fun w hne => ⟨rfl, (decide_role hne).symm, decide_role hne⟩)
      (fun w hne => ⟨rfl, rfl, Function.update_of_ne hne _ _, rfl⟩) ?_
    show Link (decide (stealer = victim)) false (decide (victim = victim))
      (s.master.workersStates victim) (s.workers victim)
      (Function.update s.toMaster victim rest victim) (s.toWorker victim)
    have hvictim : Link (decide (stealer = victim)) (decide (victim = victim)) false _ _ _ _ :=
      hl victim
    rw [hup, decide_eq_true rfl] at hvictim
    rw [Function.update_self, decide_eq_true rfl]
    exact hvictim.gotLen
  | forward stealer victim areRoots items rest hpc hup =>
    exact inv_forward hs hpc hup

/-- A step of the system is a step of the master or of one worker. -/
theorem step_cases [DecidableEq Node] [NeZero W] {s s' : State Node W} {a : Action Node W}
    (h : step c isSolution s a = some s') :
    MasterMoves c s s' ∨ ∃ i w up down,
      Moves c isSolution (s.workers i) (s.toMaster i) (s.toWorker i) w up down ∧
        s' = { s with
          workers := Function.update s.workers i w
          toMaster := Function.update s.toMaster i up
          toWorker := Function.update s.toWorker i down } := by
  cases a with
  | master i now => exact Or.inl (masterMoves_of_step h)
  | worker i a =>
    right
    rw [step, Option.map_eq_some_iff] at h
    obtain ⟨⟨w, up, down⟩, hr, rfl⟩ := h
    exact ⟨i, w, up, down, moves_of_step hr, rfl⟩

theorem inv_step [DecidableEq Node] [NeZero W] {s s' : State Node W} {a : Action Node W}
    (hs : Inv c s) (h : step c isSolution s a = some s') : Inv c s' := by
  rcases step_cases h with hmaster | ⟨i, w, up, down, hmoves, rfl⟩
  · exact hmaster.inv hs
  · refine ⟨hs.handout, ?_, ?_⟩
    · intro hpc j
      show Link _ _ _ (s.master.workersStates j) (Function.update s.workers i w j)
        (Function.update s.toMaster i up j) (Function.update s.toWorker i down j)
      have hj := hs.linked hpc j
      rcases eq_or_ne i j with rfl | hne
      · rw [Function.update_self, Function.update_self, Function.update_self]
        exact hmoves.link hj
      · rw [Function.update_of_ne hne.symm, Function.update_of_ne hne.symm,
          Function.update_of_ne hne.symm]
        exact hj
    · intro last hpc j
      show FinalLink _ (Function.update s.workers i w j) (Function.update s.toMaster i up j)
        (Function.update s.toWorker i down j)
      have hj := hs.finallyLinked last hpc j
      rcases eq_or_ne i j with rfl | hne
      · rw [Function.update_self, Function.update_self, Function.update_self]
        exact hmoves.finalLink hj
      · rw [Function.update_of_ne hne.symm, Function.update_of_ne hne.symm,
          Function.update_of_ne hne.symm]
        exact hj

/-- **The invariant holds in every state of every run.** -/
theorem reaches_inv [DecidableEq Node] [NeZero W] {C : State Node W → Action Node W → Prop}
    {rootsPerNode : ℕ} (hroots : W ≤ c.maxRoots) (hpos : 0 < rootsPerNode) {s : State Node W}
    (h : Reaches (step c isSolution) C (init c rootsPerNode) s) : Inv c s :=
  h.invariant (inv_init hroots hpos) fun _ _ _ hs _ hstep => inv_step hs hstep

end ParallelEnum.DistributedMpi
