import Mathlib.Tactic.Abel
import ParallelEnum.Enumerator.Equiv.DistributedMpi.Ranges

/-!
# What the master does to what is under way

A step of the master hands out one range or none (`HandsOut`): it takes its roots from those that
are left, records it and sends it.  What the other messages hold it passes on as it is, whatever
is counted of them, and it changes no worker (`MasterMoves.handsOut`).
-/

namespace ParallelEnum.DistributedMpi

open ParallelPthreadsSteal (FiniteSystem)
open Transition

variable {Node : Type} {W : ℕ} {c : FiniteSystem Node} {α : Type}

/-! ### What is counted -/

/-- The first root, counted from zero, that is not left to be handed out. -/
def Master.unsent (m : Master W) : ℕ :=
  if m.inRangeLoop then
    match m.pc with
    | .wait _ rangeEnd => rangeEnd
    | _ => 0
  else 0

/-- The roots of the ranges that have been handed out. -/
def handedOut (s : State Node W) : Multiset ℕ := ∑ w, ↑((s.given w).flatMap rootsOf)

/-- What the messages in the channels to the master hold. -/
def upContent (f : ToMaster Node → List α) (up : Fin W → List (ToMaster Node)) :
    Multiset α :=
  ∑ w, (↑((up w).flatMap f) : Multiset α)

/-- What the messages in the channels to the workers hold. -/
def downContent (f : ToWorker Node → List α) (down : Fin W → List (ToWorker Node)) :
    Multiset α :=
  ∑ w, (↑((down w).flatMap f) : Multiset α)

/-- What the messages in all channels hold. -/
def content (f : ToMaster Node → List α) (g : ToWorker Node → List α) (s : State Node W) :
    Multiset α :=
  upContent f s.toMaster + downContent g s.toWorker

/-- The solutions in requests that the master has not received. -/
def requested (workers : Fin W → Worker Node) (up : Fin W → List (ToMaster Node)) : ℕ :=
  ∑ w, (requests (workers w).pc (up w)).sum

section Sums

variable (workers : Fin W → Worker Node) (up : Fin W → List (ToMaster Node))
  (down : Fin W → List (ToWorker Node)) (i : Fin W)

theorem exists_upContent_update (f : ToMaster Node → List α) :
    ∃ rest, upContent f up = ↑((up i).flatMap f) + rest ∧
      ∀ l, upContent f (Function.update up i l) = ↑(l.flatMap f) + rest :=
  exists_sum_update (fun l : List (ToMaster Node) => (↑(l.flatMap f) : Multiset α)) up i

theorem exists_downContent_update (f : ToWorker Node → List α) :
    ∃ rest, downContent f down = ↑((down i).flatMap f) + rest ∧
      ∀ l, downContent f (Function.update down i l) = ↑(l.flatMap f) + rest :=
  exists_sum_update (fun l : List (ToWorker Node) => (↑(l.flatMap f) : Multiset α)) down i

theorem exists_requested_update :
    ∃ rest, requested workers up = (requests (workers i).pc (up i)).sum + rest ∧
      ∀ w l, requested (Function.update workers i w) (Function.update up i l)
        = (requests w.pc l).sum + rest := by
  obtain ⟨rest, hsum, hsum'⟩ := exists_sum_update
    (fun p : Worker Node × List (ToMaster Node) => (requests p.1.pc p.2).sum)
    (fun j => (workers j, up j)) i
  refine ⟨rest, hsum, ?_⟩
  intro w l
  have hpairs : (fun j => (Function.update workers i w j, Function.update up i l j))
      = Function.update (fun j => (workers j, up j)) i (w, l) := by
    funext j
    rcases eq_or_ne j i with rfl | hne
    · simp
    · simp [hne]
  rw [← hsum' (w, l), ← hpairs]
  rfl

end Sums

/-- The master receives a message. -/
theorem upContent_recv (f : ToMaster Node → List α)
    {up : Fin W → List (ToMaster Node)} {i : Fin W} {msg : ToMaster Node}
    {rest : List (ToMaster Node)} (h : up i = msg :: rest) :
    upContent f up = ↑(f msg) + upContent f (Function.update up i rest) := by
  obtain ⟨other, hup, hup'⟩ := exists_upContent_update up i f
  rw [hup, hup', h, List.flatMap_cons, ← Multiset.coe_add, add_assoc]

/-- The master sends messages to one worker. -/
theorem downContent_send (f : ToWorker Node → List α)
    (down : Fin W → List (ToWorker Node)) (i : Fin W) (msgs : List (ToWorker Node)) :
    downContent f (Function.update down i (down i ++ msgs))
      = downContent f down + ↑(msgs.flatMap f) := by
  obtain ⟨other, hdown, hdown'⟩ := exists_downContent_update down i f
  rw [hdown, hdown', List.flatMap_append, ← Multiset.coe_add]
  abel

/-- The master receives a message, and gets to know of the solutions in it. -/
theorem requested_recv (workers : Fin W → Worker Node) {up : Fin W → List (ToMaster Node)}
    {i : Fin W} {msg : ToMaster Node} {rest : List (ToMaster Node)} (h : up i = msg :: rest) :
    requested workers up
      = msg.count?.getD 0 + requested workers (Function.update up i rest) := by
  obtain ⟨other, hup, hup'⟩ := exists_requested_update workers up i
  have hrest := hup' (workers i) rest
  rw [Function.update_eq_self] at hrest
  rw [hup, hrest, h]
  cases msg with
  | rangeRequest count =>
    rw [requests_cons, List.sum_cons, add_assoc]
    rfl
  | _ => exact (Nat.zero_add _).symm

/-! ### Signals -/

/-- A step that only sends, and sends messages that hold nothing. -/
structure Signals (s s' : State Node W) : Prop where
  workers : s'.workers = s.workers
  given : s'.given = s.given
  toMaster : s'.toMaster = s.toMaster
  solutionsCount : s'.master.solutionsCount = s.master.solutionsCount
  loop : s'.master.inRangeLoop = s.master.inRangeLoop
  sends : ∀ w, ∃ msgs, s'.toWorker w = s.toWorker w ++ msgs ∧
    ∀ msg ∈ msgs, msg = .stealRequest ∨ msg = .termination

/-- In the second loop the return of `WaitRangeRequest` changes nothing that is counted. -/
theorem returned_frame (maxRoots : ℕ) (stealer : Fin W) {m : Master W}
    (h : m.inRangeLoop = false) (result : Bool) :
    (m.returned maxRoots stealer result).solutionsCount = m.solutionsCount ∧
      (m.returned maxRoots stealer result).inRangeLoop = m.inRangeLoop := by
  rw [returned_of_not_loop h]
  exact ⟨rfl, rfl⟩

theorem signals_leaveSteal {maxRoots : ℕ} {stealer : Fin W} {s : State Node W}
    (hloop : s.master.inRangeLoop = false) : Signals s (s.leaveSteal maxRoots stealer) := by
  unfold State.leaveSteal
  split_ifs
  · obtain ⟨hcount, hloop'⟩ := returned_frame maxRoots stealer hloop true
    refine ⟨rfl, rfl, rfl, hcount, hloop', ?_⟩
    exact fun w => ⟨[.termination], rfl, fun _ h => Or.inr (List.mem_singleton.mp h)⟩
  · obtain ⟨hcount, hloop'⟩ := returned_frame maxRoots stealer hloop false
    refine ⟨rfl, rfl, rfl, hcount, hloop', ?_⟩
    exact fun w => ⟨[], (List.append_nil _).symm, nofun⟩

theorem signals_stealFromNext [NeZero W] {maxRoots : ℕ} {stealer : Fin W} {s : State Node W}
    (hloop : s.master.inRangeLoop = false) : Signals s (s.stealFromNext maxRoots stealer) := by
  unfold State.stealFromNext
  split_ifs
  · refine ⟨rfl, rfl, rfl, rfl, rfl, ?_⟩
    intro w
    rcases eq_or_ne w s.master.getStealVictim with heq | hne
    · refine ⟨[.stealRequest], ?_, fun _ h => Or.inl (List.mem_singleton.mp h)⟩
      rw [heq]
      exact Function.update_self _ _ _
    · refine ⟨[], ?_, fun _ h => absurd h List.not_mem_nil⟩
      rw [List.append_nil]
      exact Function.update_of_ne hne _ _
  · exact signals_leaveSteal hloop

/-! ### Handing out -/

/-- Only ranges and data hold something, and data hold the same in both directions. -/
structure Passes (f : ToMaster Node → List α) (g : ToWorker Node → List α) : Prop where
  request : ∀ count, f (.rangeRequest count) = []
  lenUp : ∀ areRoots, f (.stealResponseLen areRoots) = []
  steal : g .stealRequest = []
  lenDown : ∀ areRoots, g (.stealResponseLen areRoots) = []
  termination : g .termination = []
  data : ∀ items, f (.data items) = g (.data items)

/-- A step of the master that hands out the ranges `sent`. -/
structure HandsOut (sent : List (ℕ × ℕ)) (s s' : State Node W) : Prop where
  nonempty : ∀ range ∈ sent, range.1 < range.2
  unsent : List.range s.master.unsent = List.range s'.master.unsent ++ sent.flatMap rootsOf
  given : handedOut s' = handedOut s + ↑(sent.flatMap rootsOf)
  sends : ∀ w b e, .rangeResponse b e ∈ s'.toWorker w →
    .rangeResponse b e ∈ s.toWorker w ∨ (b, e) ∈ sent
  workers : s'.workers = s.workers
  counted : s'.master.solutionsCount + requested s'.workers s'.toMaster
    = s.master.solutionsCount + requested s.workers s.toMaster
  content : ∀ {α : Type} {f : ToMaster Node → List α} {g : ToWorker Node → List α}, Passes f g →
    content f g s' = content f g s + ↑(sent.flatMap fun range => g (.rangeResponse range.1 range.2))

theorem unsent_of_not_loop {m : Master W} (h : m.inRangeLoop = false) : m.unsent = 0 :=
  if_neg (by rw [h]; exact Bool.false_ne_true)

/-- Signals go unnoticed. -/
theorem Signals.content {s s' : State Node W} (h : Signals s s') {f : ToMaster Node → List α}
    {g : ToWorker Node → List α} (hfg : Passes f g) : content f g s' = content f g s := by
  rw [DistributedMpi.content, DistributedMpi.content, h.toMaster]
  congr 1
  apply Finset.sum_congr rfl
  intro w _
  obtain ⟨msgs, hmsgs, hsignals⟩ := h.sends w
  have hnothing : msgs.flatMap g = [] := by
    rw [List.flatMap_eq_nil_iff]
    intro msg hmsg
    rcases hsignals msg hmsg with rfl | rfl
    · exact hfg.steal
    · exact hfg.termination
  rw [hmsgs, List.flatMap_append, hnothing, List.append_nil]

theorem HandsOut.signals {sent : List (ℕ × ℕ)} {s t u : State Node W} (h : HandsOut sent s t)
    (hloop : t.master.inRangeLoop = false) (h' : Signals t u) : HandsOut sent s u where
  nonempty := h.nonempty
  unsent := by
    rw [h.unsent, unsent_of_not_loop hloop, unsent_of_not_loop (h'.loop.trans hloop)]
  given := by rw [handedOut, h'.given]; exact h.given
  sends w b e hmem := by
    obtain ⟨msgs, hmsgs, hsignals⟩ := h'.sends w
    rw [hmsgs] at hmem
    rcases List.mem_append.mp hmem with hmem | hmem
    · exact h.sends w b e hmem
    · rcases hsignals _ hmem with heq | heq <;> cases heq
  workers := h'.workers.trans h.workers
  counted := by rw [h'.solutionsCount, h'.workers, h'.toMaster, h.counted]
  content hfg := by rw [h'.content hfg, h.content hfg]

/-- The master answers a request with a range, in its first loop. -/
theorem handsOut_range {s t : State Node W} {i : Fin W} {b e count : ℕ}
    {rest : List (ToMaster Node)} (hup : s.toMaster i = .rangeRequest count :: rest) (hlt : b < e)
    (hworkers : t.workers = s.workers)
    (hgiven : t.given = Function.update s.given i (s.given i ++ [(b, e)]))
    (htoMaster : t.toMaster = Function.update s.toMaster i rest)
    (htoWorker : t.toWorker
      = Function.update s.toWorker i (s.toWorker i ++ [.rangeResponse b e]))
    (hbefore : s.master.unsent = e) (hafter : t.master.unsent = b)
    (hcount : t.master.solutionsCount = s.master.solutionsCount + count) :
    HandsOut [(b, e)] s t where
  nonempty := List.forall_mem_singleton.mpr hlt
  unsent := by
    rw [hbefore, hafter]
    show _ = List.range b ++ (rootsOf (b, e) ++ [])
    rw [List.append_nil]
    exact range_eq_append hlt.le
  given := by
    obtain ⟨other, hsum, hsum'⟩ := exists_sum_update
      (fun l : List (ℕ × ℕ) => (↑(l.flatMap rootsOf) : Multiset ℕ)) s.given i
    rw [handedOut, handedOut, hgiven, hsum, hsum', List.flatMap_append, ← Multiset.coe_add]
    abel
  sends w b' e' hmem := by
    rw [htoWorker] at hmem
    rcases eq_or_ne w i with rfl | hne
    · rw [Function.update_self] at hmem
      rcases List.mem_append.mp hmem with hmem | hmem
      · exact Or.inl hmem
      · obtain ⟨rfl, rfl⟩ := ToWorker.rangeResponse.inj (List.mem_singleton.mp hmem)
        exact Or.inr List.mem_cons_self
    · rw [Function.update_of_ne hne] at hmem
      exact Or.inl hmem
  workers := hworkers
  counted := by
    rw [hworkers, htoMaster, requested_recv s.workers hup, hcount, add_assoc]
    rfl
  content := by
    intro α f g hfg
    rw [DistributedMpi.content, DistributedMpi.content, htoMaster, htoWorker, downContent_send,
      upContent_recv f hup, hfg.request, Multiset.coe_nil, zero_add, add_assoc]
    rfl

/-- The master receives a message that holds nothing, in its second loop. -/
theorem handsOut_recv {s t : State Node W} {i : Fin W} {msg : ToMaster Node}
    {rest : List (ToMaster Node)} (hup : s.toMaster i = msg :: rest)
    (hmsg : ∀ items, msg ≠ .data items) (hworkers : t.workers = s.workers)
    (hgiven : t.given = s.given) (htoMaster : t.toMaster = Function.update s.toMaster i rest)
    (htoWorker : t.toWorker = s.toWorker) (hloop : s.master.inRangeLoop = false)
    (hloop' : t.master.inRangeLoop = false)
    (hcount : t.master.solutionsCount = s.master.solutionsCount + msg.count?.getD 0) :
    HandsOut [] s t where
  nonempty := nofun
  unsent := by rw [unsent_of_not_loop hloop, unsent_of_not_loop hloop']; rfl
  given := by rw [handedOut, hgiven]; exact (add_zero _).symm
  sends w b e hmem := Or.inl (htoWorker ▸ hmem)
  workers := hworkers
  counted := by rw [hworkers, htoMaster, requested_recv s.workers hup, hcount, add_assoc]
  content := by
    intro α f g hfg
    have hnothing : f msg = [] := by
      cases msg with
      | rangeRequest count => exact hfg.request count
      | stealResponseLen areRoots => exact hfg.lenUp areRoots
      | data items => exact absurd rfl (hmsg items)
    rw [DistributedMpi.content, DistributedMpi.content, upContent_recv f hup, hnothing, htoMaster,
      htoWorker, Multiset.coe_nil, zero_add]
    exact (add_zero _).symm

/-- The master passes the data of the victim on to the stealer. -/
theorem handsOut_forward {s t : State Node W} {stealer victim : Fin W} {areRoots : Bool}
    {items : List (Work Node)} {rest : List (ToMaster Node)}
    (hup : s.toMaster victim = .data items :: rest) (hworkers : t.workers = s.workers)
    (hgiven : t.given = s.given) (htoMaster : t.toMaster = Function.update s.toMaster victim rest)
    (htoWorker : t.toWorker = Function.update s.toWorker stealer
      (s.toWorker stealer ++ [.stealResponseLen areRoots, .data items]))
    (hloop : s.master.inRangeLoop = false) (hloop' : t.master.inRangeLoop = false)
    (hcount : t.master.solutionsCount = s.master.solutionsCount) : HandsOut [] s t where
  nonempty := nofun
  unsent := by rw [unsent_of_not_loop hloop, unsent_of_not_loop hloop']; rfl
  given := by rw [handedOut, hgiven]; exact (add_zero _).symm
  sends w b e hmem := by
    left
    rw [htoWorker] at hmem
    rcases eq_or_ne w stealer with rfl | hne
    · rw [Function.update_self] at hmem
      simpa using hmem
    · rwa [Function.update_of_ne hne] at hmem
  workers := hworkers
  counted := by
    rw [hworkers, htoMaster, requested_recv s.workers hup, hcount]
    exact congrArg _ (Nat.zero_add _).symm
  content := by
    intro α f g hfg
    rw [DistributedMpi.content, DistributedMpi.content, htoMaster, htoWorker, downContent_send,
      upContent_recv f hup, hfg.data]
    simp only [List.flatMap_cons, List.flatMap_nil, hfg.lenDown, List.append_nil,
      List.nil_append, Multiset.coe_nil, add_zero]
    abel

/-- What is left to be handed out when the first loop goes on. -/
theorem unsent_nextCall {maxRoots : ℕ} {m : Master W} (hpos : 0 < m.rootsPerNode)
    (hloop : m.inRangeLoop = true) : (m.nextCall maxRoots).unsent = m.nextRangeStart := by
  unfold Master.nextCall
  split_ifs with hstart
  · exact (if_pos hloop).trans (nextRange_spec hpos hstart).2
  · exact (Nat.eq_zero_of_not_pos hstart).symm

/-- **A step of the master hands out one range or none.** -/
theorem MasterMoves.handsOut [NeZero W] {s s' : State Node W} (h : MasterMoves c s s')
    (hs : Inv c s) : ∃ sent, HandsOut sent s s' := by
  cases h with
  | range i now b e count rest hpc hup hbegin =>
    have hloop : s.master.inRangeLoop = true := (hs.handout.loop_iff hpc).mpr hbegin
    obtain ⟨e', hwait, hlt, _⟩ := hs.handout.loop hloop
    obtain ⟨hb, he⟩ := Master.Pc.wait.inj (hpc.symm.trans hwait)
    set m := s.master.addRequest i now count
    have hmaster : m.returned c.maxRoots i false = m.nextCall c.maxRoots := if_pos hloop
    have hbefore : s.master.unsent = e := by
      rw [Master.unsent, if_pos hloop, hpc]
    have hafter : (m.returned c.maxRoots i false).unsent = b := by
      have hcall : (m.nextCall c.maxRoots).unsent = m.nextRangeStart :=
        unsent_nextCall hs.handout.rootsPerNode_pos hloop
      rw [hmaster, hcall, hb]
      rfl
    have hcount : (m.nextCall c.maxRoots).solutionsCount = s.master.solutionsCount + count := by
      unfold Master.nextCall
      split_ifs <;> rfl
    refine ⟨[(b, e)], handsOut_range hup (by omega) rfl rfl rfl rfl hbefore hafter ?_⟩
    exact (congrArg Master.solutionsCount hmaster).trans hcount
  | serve i now b e count rest hpc hup hbegin =>
    have hloop : s.master.inRangeLoop = false :=
      Bool.eq_false_iff.mpr fun hloop => (hs.handout.loop_iff hpc).mp hloop hbegin
    refine ⟨[], HandsOut.signals ?_ ?_ (signals_stealFromNext (by exact hloop))⟩
    · exact handsOut_recv hup nofun rfl rfl rfl rfl hloop hloop rfl
    · exact hloop
  | crossed stealer victim now count rest hpc hup =>
    have hloop := hs.handout.not_loop (by rw [hpc]; nofun)
    refine ⟨[], HandsOut.signals ?_ ?_ (signals_stealFromNext (by exact hloop))⟩
    · exact handsOut_recv hup nofun rfl rfl rfl rfl hloop hloop rfl
    · exact hloop
  | gotLen stealer victim areRoots rest hpc hup =>
    have hloop := hs.handout.not_loop (by rw [hpc]; nofun)
    exact ⟨[], handsOut_recv hup nofun rfl rfl rfl rfl hloop hloop rfl⟩
  | forward stealer victim areRoots items rest hpc hup =>
    have hloop := hs.handout.not_loop (by rw [hpc]; nofun)
    refine ⟨[], HandsOut.signals ?_ ?_ (signals_leaveSteal (by exact hloop))⟩
    · exact handsOut_forward hup rfl rfl rfl rfl hloop hloop rfl
    · exact hloop

end ParallelEnum.DistributedMpi
