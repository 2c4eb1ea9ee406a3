import Mathlib.Data.Fintype.Card
import ParallelEnum.Enumerator.Equiv.DistributedMpi.Contents

/-!
# The first answer that a worker gets

`firstAnswerIsRange_of_sharesRanges`: every worker is answered with a range first, if a worker
that already has a range gets another one only while enough ranges are left for the workers that
have none.  Nothing in the source makes it so (`not_firstAnswerIsRange_two`).

The invariant is `Shared`: as long as the master hands out ranges there are enough of them for
the workers that have none, and once it no longer does every worker has one.
-/

namespace ParallelEnum.DistributedMpi

open ParallelPthreadsSteal (FiniteSystem)
open Transition

variable {Node : Type} {W : ℕ} {c : FiniteSystem Node} {isSolution : Node → Bool}

/-! ### Sharing the ranges -/

/-- The number of ranges that the first loop hands out after the current one. -/
def rangesLeft (m : Master W) : ℕ := (m.nextRangeStart + m.rootsPerNode - 1) / m.rootsPerNode

/-- A worker that already has a range gets another one only while the ranges that are left after
it are enough for the workers that have none. -/
def SharesRanges (s : State Node W) : Action Node W → Prop
  | .master i _ => s.master.inRangeLoop = true → s.given i ≠ [] →
    (Finset.univ.filter fun w => s.given w = []).card ≤ rangesLeft s.master
  | .worker _ _ => True

instance (s : State Node W) (a : Action Node W) : Decidable (SharesRanges s a) :=
  match a with
  | .master i _ => inferInstanceAs (Decidable (s.master.inRangeLoop = true → s.given i ≠ [] →
      (Finset.univ.filter fun w => s.given w = []).card ≤ rangesLeft s.master))
  | .worker _ _ => inferInstanceAs (Decidable True)

/-- The first call of `MoreWork` returns a range if it returns, and until then nothing comes
before a range in the channel to the worker. -/
def FirstAnswerIsRange (s : State Node W) (w : Fin W) : Prop :=
  (s.workers w).StartedWithRange ∧ ((s.workers w).firstInfo = none →
    s.toWorker w = [] ∨ ∃ b e rest, s.toWorker w = .rangeResponse b e :: rest)

/-! ### The two loops of the master -/

/-- A step of the master that changes no worker, and only sends messages that are no ranges. -/
structure SendsOnly (s s' : State Node W) : Prop where
  workers : s'.workers = s.workers
  given : s'.given = s.given
  sends : ∀ w, ∃ msgs, s'.toWorker w = s.toWorker w ++ msgs ∧ ∀ b e, .rangeResponse b e ∉ msgs
  loop : s'.master.inRangeLoop = s.master.inRangeLoop

theorem SendsOnly.trans {s t u : State Node W} (h : SendsOnly s t) (h' : SendsOnly t u) :
    SendsOnly s u where
  workers := h'.workers.trans h.workers
  given := h'.given.trans h.given
  sends w := by
    obtain ⟨msgs, hmsgs, hnone⟩ := h.sends w
    obtain ⟨msgs', hmsgs', hnone'⟩ := h'.sends w
    refine ⟨msgs ++ msgs', by rw [hmsgs', hmsgs, List.append_assoc], ?_⟩
    exact fun b e hmem => (List.mem_append.mp hmem).elim (hnone b e) (hnone' b e)
  loop := h'.loop.trans h.loop

theorem Signals.sendsOnly {s s' : State Node W} (h : Signals s s') : SendsOnly s s' where
  workers := h.workers
  given := h.given
  sends w := by
    obtain ⟨msgs, hmsgs, hsignals⟩ := h.sends w
    refine ⟨msgs, hmsgs, ?_⟩
    intro b e hmem
    rcases hsignals _ hmem with heq | heq <;> cases heq
  loop := h.loop

/-- A receive of the master, before it sends anything. -/
theorem sendsOnly_recv {s s' : State Node W} (hworkers : s'.workers = s.workers)
    (hgiven : s'.given = s.given) (htoWorker : s'.toWorker = s.toWorker)
    (hloop : s'.master.inRangeLoop = s.master.inRangeLoop) : SendsOnly s s' where
  workers := hworkers
  given := hgiven
  sends w := ⟨[], by rw [htoWorker, List.append_nil], fun _ _ => List.not_mem_nil⟩
  loop := hloop

/-- In the first loop the master hands out ranges, in the second it sends other messages. -/
theorem masterStep_cases [NeZero W] {s s' : State Node W} {i : Fin W} {now : ℕ}
    (h : s.masterStep c i now = some s') (hs : Inv c s) :
    (s.master.inRangeLoop = true ∧ ∃ b e count rest,
      s' = { ((((s.recvFrom i rest).mapMaster (·.addRequest i now count)).sendTo i
          [.rangeResponse b e]).mapMaster (·.returned c.maxRoots i false)) with
        given := Function.update s.given i (s.given i ++ [(b, e)]) }) ∨
      (s.master.inRangeLoop = false ∧ SendsOnly s s') := by
  cases hloop : s.master.inRangeLoop with
  | true =>
    left
    obtain ⟨e, hwait, hlt, hle, _⟩ := hs.handout.loop hloop
    unfold State.masterStep at h
    simp only [hwait] at h
    split at h
    · rename_i count rest hup
      rw [if_pos (by omega)] at h
      exact ⟨rfl, _, e, count, rest, (Option.some.inj h).symm⟩
    · cases h
  | false =>
    right
    refine ⟨rfl, ?_⟩
    cases masterMoves_of_step h with
    | range i now b e count rest hpc hup hbegin =>
      exact absurd (hloop.symm.trans ((hs.handout.loop_iff hpc).mpr hbegin)) Bool.false_ne_true
    | serve i now b e count rest hpc hup hbegin =>
      refine SendsOnly.trans ?_ (signals_stealFromNext (by exact hloop)).sendsOnly
      exact sendsOnly_recv rfl rfl rfl rfl
    | crossed stealer victim now count rest hpc hup =>
      refine SendsOnly.trans ?_ (signals_stealFromNext (by exact hloop)).sendsOnly
      exact sendsOnly_recv rfl rfl rfl rfl
    | gotLen stealer victim areRoots rest hpc hup => exact sendsOnly_recv rfl rfl rfl rfl
    | forward stealer victim areRoots items rest hpc hup =>
      refine SendsOnly.trans ?_ (signals_leaveSteal (by exact hloop)).sendsOnly
      refine ⟨rfl, rfl, ?_, rfl⟩
      intro w
      rcases eq_or_ne w stealer with rfl | hne
      · exact ⟨_, Function.update_self _ _ _, by simp⟩
      · refine ⟨[], ?_, fun _ _ => List.not_mem_nil⟩
        rw [List.append_nil]
        exact Function.update_of_ne hne _ _

/-- What holds all along a run in which the ranges are shared. -/
structure Shared (s : State Node W) : Prop where
  /-- In the first loop there is a range for every worker that has none. -/
  enough : s.master.inRangeLoop = true →
    (Finset.univ.filter fun w => s.given w = []).card ≤ rangesLeft s.master + 1
  /-- After it every worker has a range. -/
  allGiven : s.master.inRangeLoop = false → ∀ w, s.given w ≠ []
  /-- A worker is sent nothing before its first range. -/
  notGiven : ∀ w, s.given w = [] → (s.workers w).firstInfo = none ∧ s.toWorker w = []
  /-- The first range is the first message that a worker receives. -/
  first : ∀ w, (s.workers w).firstInfo = none → s.given w ≠ [] →
    ∃ b e rest, s.toWorker w = .rangeResponse b e :: rest
  started : ∀ w, (s.workers w).StartedWithRange

theorem Shared.firstAnswerIsRange {s : State Node W} (hs : Shared s) (w : Fin W) :
    FirstAnswerIsRange s w := by
  refine ⟨hs.started w, ?_⟩
  intro hnone
  by_cases hgiven : s.given w = []
  · exact Or.inl (hs.notGiven w hgiven).2
  · exact Or.inr (hs.first w hnone hgiven)

theorem rangesLeft_eq {maxRoots : ℕ} {m : Master W} (hpos : 0 < m.rootsPerNode)
    (hstart : 0 < m.nextRangeStart) : rangesLeft m = rangesLeft (m.nextCall maxRoots) + 1 := by
  have hcall : rangesLeft (m.nextCall maxRoots)
      = ((nextRange m.rootsPerNode m.nextRangeStart).1 + m.rootsPerNode - 1) / m.rootsPerNode := by
    unfold Master.nextCall
    rw [if_pos hstart]
    rfl
  rw [hcall, rangesLeft]
  unfold nextRange
  split_ifs with hle
  · show _ = (m.nextRangeStart - m.rootsPerNode + m.rootsPerNode - 1) / m.rootsPerNode + 1
    rw [← Nat.add_div_right _ hpos]
    congr 1
    omega
  · show _ = (0 + m.rootsPerNode - 1) / m.rootsPerNode + 1
    rw [Nat.div_eq_of_lt (show 0 + m.rootsPerNode - 1 < m.rootsPerNode by omega)]
    apply Nat.div_eq_of_lt_le <;> omega

theorem rangesLeft_eq_zero {m : Master W} (hpos : 0 < m.rootsPerNode)
    (hstart : m.nextRangeStart = 0) : rangesLeft m = 0 := by
  rw [rangesLeft, hstart]
  apply Nat.div_eq_of_lt
  omega

/-! ### Every step that shares the ranges keeps the invariant -/

/-- A worker that waits for its first range receives nothing else. -/
theorem Moves.first {w w' : Worker Node} {up up' : List (ToMaster Node)}
    {down down' : List (ToWorker Node)} (h : Moves c isSolution w up down w' up' down')
    (hstarted : w.StartedWithRange)
    (hfirst : w.firstInfo = none → down = [] ∨ ∃ b e rest, down = .rangeResponse b e :: rest) :
    (w'.firstInfo = w.firstInfo ∧ (w.firstInfo = none → down' = down)) ∨
      (w'.firstInfo = some .range ∧ down ≠ []) := by
  -- any other message comes when the first call of `MoreWork` has returned
  have hlater : ∀ {msg rest}, down = msg :: rest → (∀ b e, msg ≠ .rangeResponse b e) →
      w.firstInfo ≠ none := by
    intro msg rest hdown hmsg hnone
    rcases hfirst hnone with h | ⟨b, e, rest', h⟩
    · cases hdown.symm.trans h
    · exact hmsg b e (List.cons.inj (hdown.symm.trans h)).1
  cases h with
  | gotRange garbage b e _ down' hpc =>
    right
    refine ⟨?_, List.cons_ne_nil _ _⟩
    rw [moreWork_firstInfo]
    cases hinfo : w.firstInfo with
    | none => rfl
    | some info => rw [hstarted info hinfo]; rfl
  | discard _ down' hpc => exact Or.inl ⟨rfl, fun hnone => absurd hnone (hlater rfl nofun)⟩
  | gotLen areRoots _ down' hpc =>
    exact Or.inl ⟨rfl, fun hnone => absurd hnone (hlater rfl nofun)⟩
  | split areRoots items kept _ down' hpc hwork =>
    exact Or.inl ⟨rfl, fun hnone => absurd hnone (hlater rfl nofun)⟩
  | gotTermination garbage _ down' hpc =>
    left
    have hsome := hlater rfl nofun
    refine ⟨?_, fun hnone => absurd hnone hsome⟩
    obtain ⟨info, hinfo⟩ := Option.ne_none_iff_exists'.mp hsome
    rw [moreWork_firstInfo, hinfo]
    rfl
  | gotData garbage areRoots items _ down' hpc =>
    left
    have hsome := hlater rfl nofun
    refine ⟨?_, fun hnone => absurd hnone hsome⟩
    obtain ⟨info, hinfo⟩ := Option.ne_none_iff_exists'.mp hsome
    rw [moreWork_firstInfo, hinfo]
    rfl
  | expand item kept _ _ hpc hwork => exact Or.inl ⟨expand_firstInfo item kept w, fun _ => rfl⟩
  | send | request => exact Or.inl ⟨rfl, fun _ => rfl⟩

theorem Shared.worker {s : State Node W} (hs : Shared s) {i : Fin W} {w : Worker Node}
    {up : List (ToMaster Node)} {down : List (ToWorker Node)}
    (h : Moves c isSolution (s.workers i) (s.toMaster i) (s.toWorker i) w up down) :
    Shared { s with
      workers := Function.update s.workers i w
      toMaster := Function.update s.toMaster i up
      toWorker := Function.update s.toWorker i down } := by
  have hmoves := h.first (hs.started i) (hs.firstAnswerIsRange i).2
  constructor
  case enough => exact hs.enough
  case allGiven => exact hs.allGiven
  case notGiven =>
    intro j hgiven
    show (Function.update s.workers i w j).firstInfo = none ∧
      Function.update s.toWorker i down j = []
    have hj := hs.notGiven j hgiven
    rcases eq_or_ne i j with rfl | hne
    · rw [Function.update_self, Function.update_self]
      rcases hmoves with ⟨hinfo, hdown⟩ | ⟨_, hdown⟩
      · exact ⟨hinfo.trans hj.1, (hdown hj.1).trans hj.2⟩
      · exact absurd hj.2 hdown
    · rw [Function.update_of_ne hne.symm, Function.update_of_ne hne.symm]
      exact hj
  case first =>
    intro j
    show (Function.update s.workers i w j).firstInfo = none → s.given j ≠ [] →
      ∃ b e rest, Function.update s.toWorker i down j = .rangeResponse b e :: rest
    rcases eq_or_ne i j with rfl | hne
    · rw [Function.update_self, Function.update_self]
      intro hnone hgiven
      rcases hmoves with ⟨hinfo, hdown⟩ | ⟨hinfo, _⟩
      · rw [hdown (hinfo.symm.trans hnone)]
        exact hs.first i (hinfo.symm.trans hnone) hgiven
      · cases hinfo.symm.trans hnone
    · rw [Function.update_of_ne hne.symm, Function.update_of_ne hne.symm]
      exact hs.first j
  case started =>
    intro j
    show (Function.update s.workers i w j).StartedWithRange
    rcases eq_or_ne i j with rfl | hne
    · rw [Function.update_self]
      intro info hinfo
      rcases hmoves with ⟨heq, _⟩ | ⟨heq, _⟩
      · exact hs.started i info (heq.symm.trans hinfo)
      · exact (Option.some.inj (heq.symm.trans hinfo)).symm
    · rw [Function.update_of_ne hne.symm]
      exact hs.started j

/-- After a range has been handed out, enough ranges are left. -/
theorem card_notGiven_update {given : Fin W → List (ℕ × ℕ)} {i : Fin W} {n : ℕ} (range : ℕ × ℕ)
    (henough : (Finset.univ.filter fun w => given w = []).card ≤ n + 1)
    (hshares : given i ≠ [] → (Finset.univ.filter fun w => given w = []).card ≤ n) :
    (Finset.univ.filter fun w => Function.update given i (given i ++ [range]) w = []).card
      ≤ n := by
  have herase : (Finset.univ.filter fun w => Function.update given i (given i ++ [range]) w = [])
      = (Finset.univ.filter fun w => given w = []).erase i := by
    ext w
    rcases eq_or_ne w i with rfl | hne
    · simp
    · simp [hne]
  rw [herase]
  by_cases hgiven : given i = []
  · rw [Finset.card_erase_of_mem (by simp [hgiven])]
    omega
  · rw [Finset.erase_eq_of_notMem (by simp [hgiven])]
    exact hshares hgiven

theorem Shared.handOut {s : State Node W} (hs : Shared s) (hhandout : Handout c.maxRoots s.master)
    (hloop : s.master.inRangeLoop = true) {i : Fin W}
    (hshares : s.given i ≠ [] →
      (Finset.univ.filter fun w => s.given w = []).card ≤ rangesLeft s.master)
    (now b e count : ℕ) (rest : List (ToMaster Node)) :
    Shared { ((((s.recvFrom i rest).mapMaster (·.addRequest i now count)).sendTo i
        [.rangeResponse b e]).mapMaster (·.returned c.maxRoots i false)) with
      given := Function.update s.given i (s.given i ++ [(b, e)]) } := by
  have hcard := card_notGiven_update (b, e) (hs.enough hloop) hshares
  set m := s.master.addRequest i now count with hm
  have hmaster : m.returned c.maxRoots i false = m.nextCall c.maxRoots := if_pos hloop
  have hpos : 0 < m.rootsPerNode := hhandout.rootsPerNode_pos
  have hgiven : ∀ w, Function.update s.given i (s.given i ++ [(b, e)]) w = [] →
      w ≠ i ∧ s.given w = [] := by
    intro w hw
    rcases eq_or_ne w i with rfl | hne
    · rw [Function.update_self] at hw
      exact absurd hw (List.append_ne_nil_of_right_ne_nil _ (List.cons_ne_nil _ _))
    · rw [Function.update_of_ne hne] at hw
      exact ⟨hne, hw⟩
  constructor
  case enough =>
    show (m.returned c.maxRoots i false).inRangeLoop = true →
      _ ≤ rangesLeft (m.returned c.maxRoots i false) + 1
    rw [hmaster]
    intro hnext
    have hstart : 0 < m.nextRangeStart := by
      by_contra hstart
      rw [Master.nextCall, if_neg hstart] at hnext
      cases hnext
    rw [← rangesLeft_eq hpos hstart]
    exact hcard
  case allGiven =>
    show (m.returned c.maxRoots i false).inRangeLoop = false → _
    rw [hmaster]
    intro hnext w hw
    have hstart : m.nextRangeStart = 0 := by
      by_contra hstart
      rw [Master.nextCall, if_pos (Nat.pos_of_ne_zero hstart)] at hnext
      exact absurd (hloop.symm.trans hnext) nofun
    -- no range is left, so no worker is without one
    have hzero : rangesLeft s.master = 0 := rangesLeft_eq_zero hpos hstart
    rw [hzero, Nat.le_zero, Finset.card_eq_zero] at hcard
    exact Finset.filter_eq_empty_iff.mp hcard (Finset.mem_univ w) hw
  case notGiven =>
    intro w hw
    obtain ⟨hne, hw⟩ := hgiven w hw
    obtain ⟨hnone, hdown⟩ := hs.notGiven w hw
    exact ⟨hnone, (Function.update_of_ne hne _ _).trans hdown⟩
  case first =>
    intro w hnone hw
    show ∃ b' e' rest, Function.update s.toWorker i (s.toWorker i ++ [.rangeResponse b e]) w = _
    rcases eq_or_ne w i with rfl | hne
    · rw [Function.update_self]
      by_cases hgiven : s.given w = []
      · rw [(hs.notGiven w hgiven).2]
        exact ⟨b, e, [], rfl⟩
      · obtain ⟨b', e', rest', hdown⟩ := hs.first w hnone hgiven
        rw [hdown]
        exact ⟨b', e', rest' ++ [.rangeResponse b e], rfl⟩
    · rw [Function.update_of_ne hne]
      have hgiven : Function.update s.given i (s.given i ++ [(b, e)]) w = s.given w :=
        Function.update_of_ne hne _ _
      exact hs.first w hnone fun h => hw (hgiven.trans h)
  case started => exact hs.started

theorem Shared.sendsOnly {s s' : State Node W} (hs : Shared s) (h : SendsOnly s s')
    (hloop : s.master.inRangeLoop = false) : Shared s' := by
  have hall := hs.allGiven hloop
  constructor
  case enough =>
    intro hloop'
    exact absurd (hloop.symm.trans (h.loop.symm.trans hloop')) nofun
  case allGiven =>
    intro _ w
    rw [h.given]
    exact hall w
  case notGiven =>
    intro w hgiven
    rw [h.given] at hgiven
    exact absurd hgiven (hall w)
  case first =>
    intro w hnone _
    rw [h.workers] at hnone
    obtain ⟨b, e, rest, hdown⟩ := hs.first w hnone (hall w)
    obtain ⟨msgs, hmsgs, _⟩ := h.sends w
    exact ⟨b, e, rest ++ msgs, by rw [hmsgs, hdown, List.cons_append]⟩
  case started =>
    intro w
    rw [h.workers]
    exact hs.started w

theorem Shared.step [DecidableEq Node] [NeZero W] {s s' : State Node W} {a : Action Node W}
    (hs : Shared s) (hinv : Inv c s) (hC : SharesRanges s a)
    (h : DistributedMpi.step c isSolution s a = some s') : Shared s' := by
  cases a with
  | master i now =>
    rcases masterStep_cases h hinv with ⟨hloop, b, e, count, rest, rfl⟩ | ⟨hloop, hsends⟩
    · exact hs.handOut hinv.handout hloop (hC hloop) now b e count rest
    · exact hs.sendsOnly hsends hloop
  | worker i a =>
    rw [DistributedMpi.step, Option.map_eq_some_iff] at h
    obtain ⟨⟨w, up, down⟩, hr, rfl⟩ := h
    exact hs.worker (moves_of_step hr)

theorem shared_init [NeZero W] (hroots : W ≤ c.maxRoots) {rootsPerNode : ℕ}
    (hpos : 1 ≤ rootsPerNode) : Shared (init c rootsPerNode : State Node W) := by
  have hW : 0 < W := Nat.pos_of_ne_zero (NeZero.ne W)
  set m : Master W :=
    { pc := .wait 0 0
      rootsPerNode := clampRootsPerNode c.maxRoots W rootsPerNode
      nextRangeStart := c.maxRoots
      inRangeLoop := true
      workersStates := fun _ => .roots
      lastRequest := fun _ => 0
      lastStealVictim := 0
      solutionsCount := 0 }
  have hclamp : 0 < m.rootsPerNode := clampRootsPerNode_pos hW hroots hpos
  have hstart : 0 < m.nextRangeStart := hW.trans_le hroots
  refine ⟨?_, ?_, fun _ _ => ⟨rfl, rfl⟩, fun _ _ h => absurd rfl h, nofun⟩
  · intro _
    show (Finset.univ.filter fun _ => ([] : List (ℕ × ℕ)) = []).card
      ≤ rangesLeft (m.nextCall c.maxRoots) + 1
    rw [← rangesLeft_eq hclamp hstart, Finset.filter_true_of_mem fun _ _ => rfl,
      Finset.card_univ, Fintype.card_fin]
    -- the chunks are so small that there is one for every worker
    have hle : m.rootsPerNode ≤ c.maxRoots / W := by
      show clampRootsPerNode c.maxRoots W rootsPerNode ≤ _
      unfold clampRootsPerNode
      split_ifs <;> omega
    calc W ≤ c.maxRoots / m.rootsPerNode := by
          rw [Nat.le_div_iff_mul_le hclamp, Nat.mul_comm]
          exact (Nat.le_div_iff_mul_le hW).mp hle
      _ ≤ rangesLeft m := by
          apply Nat.div_le_div_right
          show c.maxRoots ≤ c.maxRoots + m.rootsPerNode - 1
          omega
  · intro h
    have hcall : (m.nextCall c.maxRoots).inRangeLoop = true := by
      rw [Master.nextCall, if_pos hstart]
    exact absurd (hcall.symm.trans h) nofun

/-- **Where the ranges are shared every worker is answered with a range first.** -/
theorem firstAnswerIsRange_of_sharesRanges [DecidableEq Node] [NeZero W] (c : FiniteSystem Node)
    (isSolution : Node → Bool) (hroots : W ≤ c.maxRoots) {rootsPerNode : ℕ}
    (hpos : 1 ≤ rootsPerNode) {s : State Node W}
    (h : Reaches (step c isSolution) SharesRanges (init c rootsPerNode) s) :
    ∀ w, FirstAnswerIsRange s w := by
  apply Shared.firstAnswerIsRange
  apply h.invariant_of (J := Inv c) (I := Shared)
  · exact fun _ hrun => reaches_inv hroots hpos hrun
  · exact shared_init hroots hpos
  · exact fun _ _ _ hinv hs hC hstep => hs.step hinv hC hstep

/-- Two roots, and a node under each of them. -/
def twoRoots : FiniteSystem ℕ where
  canUseRecursion := false
  maxRoots := 2
  getRoot i := [i]
  forest := oneRoot.forest
  ok_getRoot _ _ _ _ := trivial

/-- A worker asks for work, is answered, and receives the answer. -/
def ask {W : ℕ} (w : Fin W) (now : ℕ) : List (Action ℕ W) :=
  [.worker w .send, .master w now, .worker w (.receive (0, 0))]

/-- A worker expands a root and the node under it, and runs out of work. -/
def search {W : ℕ} (w : Fin W) (i : ℕ) : List (Action ℕ W) :=
  [.worker w (.expand (.root i) []), .worker w (.expand (.subtree i) []), .worker w .request]

/-- Each of the two workers gets a range. -/
def sharedRun : List (Action ℕ 2) := ask 0 0 ++ ask 1 1

theorem firstAnswerIsRange_of_sharesRanges_two :
    ∃ s, run (step twoRoots fun _ => true) SharesRanges sharedRun
      (init twoRoots 1 : State ℕ 2) = some s ∧ ∀ w, FirstAnswerIsRange s w := by
  have hsome : (run (step twoRoots fun _ => true) SharesRanges sharedRun
      (init twoRoots 1 : State ℕ 2)).isSome = true := by
    decide +kernel
  obtain ⟨s, hrun⟩ := Option.isSome_iff_exists.mp hsome
  have hroots : 2 ≤ twoRoots.maxRoots := le_rfl
  exact ⟨s, hrun, firstAnswerIsRange_of_sharesRanges twoRoots _ hroots le_rfl (reaches_of_run hrun)⟩

/-- The first worker is faster and gets both ranges; the steal request for it and the request of
the second worker cross. -/
def unsharedRun : List (Action ℕ 2) :=
  ask 0 0 ++ search 0 1 ++ ask 0 1 ++ search 0 0 ++ [.worker 0 .send, .master 0 2] ++
    ask 1 3 ++ [.worker 1 .send, .worker 1 (.receive (0, 0))]

/-- The first call of `MoreWork` of the second worker returns `MORE_WORK_NOTHING`. -/
theorem not_firstAnswerIsRange_two :
    ¬∀ s, Reaches (step twoRoots fun _ => true) Any (init twoRoots 1 : State ℕ 2) s →
      ∀ w, FirstAnswerIsRange s w := by
  intro h
  have hinfo : (run (step twoRoots fun _ => true) Any unsharedRun
      (init twoRoots 1 : State ℕ 2)).map (fun s => (s.workers 1).firstInfo)
        = some (some .nothing) := by
    decide +kernel
  obtain ⟨s, hrun, hnothing⟩ := Option.map_eq_some_iff.mp hinfo
  cases (h s (reaches_of_run hrun) 1).1 _ hnothing

end ParallelEnum.DistributedMpi
