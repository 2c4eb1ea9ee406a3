import ParallelEnum.Enumerator.Equiv.ParallelPthreadsSteal
import ParallelEnum.Enumerator.ParallelPthreadsSteal.Callbacks

/-!
# Where the threads are

`Moves` lists what one step of one thread can do.  `Control` is what holds of a run whatever the
nodes are: the barriers keep the threads together, `checkingSteal` is held by at most one thread,
and `waiting` counts the threads that have incremented it and not decremented it.
-/

namespace ParallelEnum.ParallelPthreadsSteal.Callbacks

open Transition

variable {n : ℕ} {Buffer Value : Type} {c : BufferSystem Buffer Value} {callbacks : Bool}

/-! ### What a step does -/

/-- What one step between the barriers can do, other than the last one. -/
inductive MoreWorkMoves (answer : MoreWorkData Buffer Value) (l : List (Node n Value))
    (sh : Shared n Buffer Value) : MoreWorkStage Buffer Value → Shared n Buffer Value →
      MoreWorkStage Buffer Value → Prop
  | acquire (h : sh.checkingSteal = false) : MoreWorkMoves answer l sh .testAndSet
      { sh with checkingSteal := true } .readLnodes
  | occupied : MoreWorkMoves answer l sh .testAndSet sh .decWaiting
  | noLnodes : MoreWorkMoves answer l sh .readLnodes sh .readRoots
  | someLnodes : MoreWorkMoves answer l sh .readLnodes sh .clear
  | noRoots (h : sh.possibleRoots = []) : MoreWorkMoves answer l sh .readRoots sh .readGnodes
  | someRoots : MoreWorkMoves answer l sh .readRoots sh .clear
  | noGnodes (h : sh.gnodes = []) : MoreWorkMoves answer l sh .readGnodes sh .readTerminate
  | someGnodes : MoreWorkMoves answer l sh .readGnodes sh .clear
  | invoke : MoreWorkMoves answer l sh .readTerminate
      { sh with passed := sh.passed ++ [sh.solutionsFound] } .moreWork
  | terminated : MoreWorkMoves answer l sh .readTerminate sh .clear
  | answer : MoreWorkMoves answer l sh .moreWork sh (.reset answer)
  | receiveRoots (mwd roots) : MoreWorkMoves answer l sh (.reset mwd)
      { sh with solutionsFound := 0 } (.enqueueRoots roots)
  | receiveNodes (mwd nodes) : MoreWorkMoves answer l sh (.reset mwd)
      { sh with solutionsFound := 0 } (.enqueueNodes nodes)
  | receiveNothing (mwd) : MoreWorkMoves answer l sh (.reset mwd)
      { sh with solutionsFound := 0 } .setTerminate
  | enqueueRoot (i roots) : MoreWorkMoves answer l sh (.enqueueRoots (i :: roots))
      { sh with possibleRoots := sh.possibleRoots ++ [i] } (.enqueueRoots roots)
  | endRoots : MoreWorkMoves answer l sh (.enqueueRoots []) sh .clear
  | enqueueNode (buffer value nodes) :
      MoreWorkMoves answer l sh (.enqueueNodes ((buffer, value) :: nodes))
        { sh with
          received := sh.received ++ [buffer]
          gnodes := sh.gnodes ++ [⟨.received sh.received.length, value⟩] }
        (.enqueueNodes nodes)
  | endNodes : MoreWorkMoves answer l sh (.enqueueNodes []) sh .clear
  | setTerminate :
      MoreWorkMoves answer l sh .setTerminate { sh with terminate := true } .clear
  | clear : MoreWorkMoves answer l sh .clear { sh with checkingSteal := false } .decWaiting

/-- What one step can do to the shared variables and to the thread that takes it. -/
inductive Moves (c : BufferSystem Buffer Value) (callbacks : Bool) (t : Fin n) (pick : ℕ)
    (answer : MoreWorkData Buffer Value) (sh : Shared n Buffer Value) :
    Thread n Buffer Value → Shared n Buffer Value → Thread n Buffer Value → Prop
  | enter (l k) : Moves c callbacks t pick answer sh ⟨.outer, l, k⟩ sh ⟨.inner, l, k⟩
  | exit (l k) : Moves c callbacks t pick answer sh ⟨.outer, l, k⟩ sh ⟨.done, l, k⟩
  | pop (x l k) : Moves c callbacks t pick answer sh ⟨.inner, x :: l, k⟩ sh
      ⟨.working false, l, .listChildren x 0 :: k⟩
  | someRoots (k) : Moves c callbacks t pick answer sh ⟨.inner, [], k⟩ sh ⟨.openRoot, [], k⟩
  | noRoots (k) (h : sh.possibleRoots = []) :
      Moves c callbacks t pick answer sh ⟨.inner, [], k⟩ sh ⟨.serve false .testAndSet, [], k⟩
  | takeRoot (i roots l k) (h : sh.possibleRoots.Perm (i :: roots)) :
      Moves c callbacks t pick answer sh ⟨.openRoot, l, k⟩ { sh with possibleRoots := roots }
        ⟨.getRoot i, l, k⟩
  | missRoot (l k) (h : sh.possibleRoots = []) :
      Moves c callbacks t pick answer sh ⟨.openRoot, l, k⟩ sh ⟨.serve false .testAndSet, l, k⟩
  | getRoot (i l k) : Moves c callbacks t pick answer sh ⟨.getRoot i, l, k⟩
      { sh with buffers := Function.update sh.buffers t (c.getRoot i (sh.buffers t)).1 }
      ⟨.working false, l, .getRoot (c.getRoot i (sh.buffers t)).2 :: k⟩
  | finish (l) : Moves c callbacks t pick answer sh ⟨.working false, l, []⟩ sh
      ⟨.serve true .testAndSet, l, []⟩
  | finishStolen (l) :
      Moves c callbacks t pick answer sh ⟨.working true, l, []⟩ sh ⟨.inner, l, []⟩
  | endRoot (b l k) : Moves c callbacks t pick answer sh ⟨.working b, l, .getRoot [] :: k⟩ sh
      ⟨.working b, l, k⟩
  | endList (b x i l k) : Moves c callbacks t pick answer sh ⟨.working b, l, .listChildren x i :: k⟩
      sh ⟨.working b, l, k⟩
  | passRoot (b v rest l k) :
      Moves c callbacks t pick answer sh ⟨.working b, l, .getRoot (v :: rest) :: k⟩ sh
        ⟨.working b, l, .solutionCb ⟨.thread t, v⟩ (.serve .testAndSet) :: .getRoot rest :: k⟩
  | passChild (b x i v l k) :
      Moves c callbacks t pick answer sh ⟨.working b, l, .listChildren x i :: k⟩ sh
        ⟨.working b, l, .solutionCb ⟨x.ref, v⟩ (.serve .testAndSet) :: .listChildren x (i + 1) :: k⟩
  | serveNode (b x) {stage sh' r} (l k)
      (h : stage.step c callbacks pick (some x) sh = some (sh', r)) :
      Moves c callbacks t pick answer sh ⟨.working b, l, .solutionCb x (.serve stage) :: k⟩ sh'
        ⟨.working b, l, .solutionCb x (Thread.afterServe r) :: k⟩
  | readSize (b x l k) :
      Moves c callbacks t pick answer sh ⟨.working b, l, .solutionCb x .start :: k⟩ sh
        ⟨.working b, l, .solutionCb x (.gotSize sh.gnodes.length) :: k⟩
  | readWaiting (b x l k) :
      Moves c callbacks t pick answer sh ⟨.working b, l, .solutionCb x .start :: k⟩ sh
        ⟨.working b, l, .solutionCb x (.gotWaiting sh.waiting) :: k⟩
  | fewNodes (b x m l k) (h : 0 < sh.waiting) :
      Moves c callbacks t pick answer sh ⟨.working b, l, .solutionCb x (.gotSize m) :: k⟩ sh
        ⟨.working b, l, .solutionCb x .enqueue :: k⟩
  | manyNodes (b x m l k) :
      Moves c callbacks t pick answer sh ⟨.working b, l, .solutionCb x (.gotSize m) :: k⟩ sh
        ⟨.working b, l, .solutionCb x .keep :: k⟩
  | manyWaiting (b x w l k) (h : 0 < w) :
      Moves c callbacks t pick answer sh ⟨.working b, l, .solutionCb x (.gotWaiting w) :: k⟩ sh
        ⟨.working b, l, .solutionCb x .enqueue :: k⟩
  | fewWaiting (b x w l k) :
      Moves c callbacks t pick answer sh ⟨.working b, l, .solutionCb x (.gotWaiting w) :: k⟩ sh
        ⟨.working b, l, .solutionCb x .keep :: k⟩
  | enqueue (b x l k) :
      Moves c callbacks t pick answer sh ⟨.working b, l, .solutionCb x .enqueue :: k⟩
        { sh with gnodes := sh.gnodes ++ [x] } ⟨.working b, l, .solutionCb x .report :: k⟩
  | push (b x l k) :
      Moves c callbacks t pick answer sh ⟨.working b, l, .solutionCb x .keep :: k⟩ sh
        ⟨.working b, x :: l, .solutionCb x .report :: k⟩
  | recurse (b x l k) :
      Moves c callbacks t pick answer sh ⟨.working b, l, .solutionCb x .keep :: k⟩ sh
        ⟨.working b, l, .listChildren x 0 :: .solutionCb x .report :: k⟩
  | report (b x l k) :
      Moves c callbacks t pick answer sh ⟨.working b, l, .solutionCb x .report :: k⟩ sh
        ⟨.working b, l, k⟩
  | reportSolution (b x l k) :
      Moves c callbacks t pick answer sh ⟨.working b, l, .solutionCb x .report :: k⟩
        { sh with solutionsFound := sh.solutionsFound + 1, solutions := sh.solutions + 1 }
        ⟨.working b, l, k⟩
  | serve (b) {stage sh' stage'} (l k)
      (h : stage.step c callbacks pick none sh = some (sh', .inl stage')) :
      Moves c callbacks t pick answer sh ⟨.serve b stage, l, k⟩ sh' ⟨.serve b stage', l, k⟩
  | served {stage sh' r} (l k) (h : stage.step c callbacks pick none sh = some (sh', .inr r)) :
      Moves c callbacks t pick answer sh ⟨.serve true stage, l, k⟩ sh' ⟨.inner, l, k⟩
  | servedIdle {stage sh' r} (l k) (h : stage.step c callbacks pick none sh = some (sh', .inr r)) :
      Moves c callbacks t pick answer sh ⟨.serve false stage, l, k⟩ sh' ⟨.incWaiting, l, k⟩
  | incWaiting (l k) : Moves c callbacks t pick answer sh ⟨.incWaiting, l, k⟩
      { sh with waiting := sh.waiting + 1 } ⟨.dequeue, l, k⟩
  | steal (x gnodes l k) (h : sh.gnodes.Perm (x :: gnodes)) :
      Moves c callbacks t pick answer sh ⟨.dequeue, l, k⟩ { sh with gnodes := gnodes }
        ⟨.decWaiting (some x), l, k⟩
  | miss (l k) : Moves c callbacks t pick answer sh ⟨.dequeue, l, k⟩ sh ⟨.checkTerminate, l, k⟩
  | notTerminated (l k) :
      Moves c callbacks t pick answer sh ⟨.checkTerminate, l, k⟩ sh ⟨.checkWaiting, l, k⟩
  | terminated (l k) :
      Moves c callbacks t pick answer sh ⟨.checkTerminate, l, k⟩ sh ⟨.decWaiting none, l, k⟩
  | again (l k) : Moves c callbacks t pick answer sh ⟨.checkWaiting, l, k⟩ sh ⟨.dequeue, l, k⟩
  | allWaiting (l k) :
      Moves c callbacks t pick answer sh ⟨.checkWaiting, l, k⟩ sh ⟨.decWaiting none, l, k⟩
  | stole (x l k) : Moves c callbacks t pick answer sh ⟨.decWaiting (some x), l, k⟩
      { sh with waiting := sh.waiting - 1 } ⟨.working true, l, .listChildren x 0 :: k⟩
  | giveUp (l k) : Moves c callbacks t pick answer sh ⟨.decWaiting none, l, k⟩
      { sh with waiting := sh.waiting - 1 } ⟨.enterMoreWork, l, k⟩
  | giveUpAlone (l k) : Moves c callbacks t pick answer sh ⟨.decWaiting none, l, k⟩
      { sh with waiting := sh.waiting - 1 } ⟨.setTerminate, l, k⟩
  | setTerminate (l k) : Moves c callbacks t pick answer sh ⟨.setTerminate, l, k⟩
      { sh with terminate := true } ⟨.outer, l, k⟩
  | enterMoreWork (l k) : Moves c callbacks t pick answer sh ⟨.enterMoreWork, l, k⟩
      { sh with waiting := sh.waiting + 1 } ⟨.barrier false .start, l, k⟩
  | wait (b) {w w' bar} (l k) (h : w.step sh.barrier = (bar, some w')) :
      Moves c callbacks t pick answer sh ⟨.barrier b w, l, k⟩ { sh with barrier := bar }
        ⟨.barrier b w', l, k⟩
  | leaveFirst {w bar} (l k) (h : w.step sh.barrier = (bar, none)) :
      Moves c callbacks t pick answer sh ⟨.barrier false w, l, k⟩ { sh with barrier := bar }
        ⟨.moreWork .testAndSet, l, k⟩
  | leaveSecond {w bar} (l k) (h : w.step sh.barrier = (bar, none)) :
      Moves c callbacks t pick answer sh ⟨.barrier true w, l, k⟩ { sh with barrier := bar }
        ⟨.outer, l, k⟩
  | moreWork {stage sh' stage'} (l k) (h : MoreWorkMoves answer l sh stage sh' stage') :
      Moves c callbacks t pick answer sh ⟨.moreWork stage, l, k⟩ sh' ⟨.moreWork stage', l, k⟩
  | endMoreWork (l k) : Moves c callbacks t pick answer sh ⟨.moreWork .decWaiting, l, k⟩
      { sh with waiting := sh.waiting - 1 } ⟨.barrier true .start, l, k⟩

/-- A thread leaves the part between the barriers when it decrements `waiting`. -/
theorem moreWorkStage_none {answer : MoreWorkData Buffer Value} {l : List (Node n Value)}
    {sh sh' : Shared n Buffer Value} {stage : MoreWorkStage Buffer Value}
    (h : stage.step answer l sh = (sh', none)) :
    stage = .decWaiting ∧ sh' = { sh with waiting := sh.waiting - 1 } := by
  cases stage with
  | decWaiting => exact ⟨rfl, (Prod.mk.inj h).1.symm⟩
  | testAndSet =>
    rw [MoreWorkStage.step] at h
    split_ifs at h <;> cases h
  | readTerminate =>
    rw [MoreWorkStage.step] at h
    split_ifs at h <;> cases h
  | reset mwd => cases mwd <;> cases h
  | enqueueRoots roots => cases roots <;> cases h
  | enqueueNodes nodes => cases nodes <;> cases h
  | _ => cases h

theorem moreWorkMoves_of_step {answer : MoreWorkData Buffer Value} {l : List (Node n Value)}
    {sh sh' : Shared n Buffer Value} {stage stage' : MoreWorkStage Buffer Value}
    (h : stage.step answer l sh = (sh', some stage')) :
    MoreWorkMoves answer l sh stage sh' stage' := by
  cases stage with
  | testAndSet =>
    rw [MoreWorkStage.step] at h
    split_ifs at h with hclear
    · cases h
      exact MoreWorkMoves.acquire (by simpa using hclear)
    · cases h
      exact MoreWorkMoves.occupied
  | readLnodes =>
    cases l with
    | nil =>
      cases h
      exact MoreWorkMoves.noLnodes
    | cons x l =>
      cases h
      exact MoreWorkMoves.someLnodes
  | readRoots =>
    by_cases hroots : sh.possibleRoots.length = 0
    · rw [MoreWorkStage.step, if_pos hroots] at h
      cases h
      exact MoreWorkMoves.noRoots (List.eq_nil_of_length_eq_zero hroots)
    · rw [MoreWorkStage.step, if_neg hroots] at h
      cases h
      exact MoreWorkMoves.someRoots
  | readGnodes =>
    by_cases hgnodes : sh.gnodes.length = 0
    · rw [MoreWorkStage.step, if_pos hgnodes] at h
      cases h
      exact MoreWorkMoves.noGnodes (List.eq_nil_of_length_eq_zero hgnodes)
    · rw [MoreWorkStage.step, if_neg hgnodes] at h
      cases h
      exact MoreWorkMoves.someGnodes
  | readTerminate =>
    rw [MoreWorkStage.step] at h
    split_ifs at h
    · cases h
      exact MoreWorkMoves.invoke
    · cases h
      exact MoreWorkMoves.terminated
  | moreWork =>
    cases h
    exact MoreWorkMoves.answer
  | reset mwd =>
    cases mwd with
    | range first second =>
      cases h
      exact MoreWorkMoves.receiveRoots _ _
    | roots roots =>
      cases h
      exact MoreWorkMoves.receiveRoots _ _
    | subtree nodes =>
      cases h
      exact MoreWorkMoves.receiveNodes _ _
    | nothing =>
      cases h
      exact MoreWorkMoves.receiveNothing _
  | enqueueRoots roots =>
    cases roots with
    | nil =>
      cases h
      exact MoreWorkMoves.endRoots
    | cons i roots =>
      cases h
      exact MoreWorkMoves.enqueueRoot i roots
  | enqueueNodes nodes =>
    cases nodes with
    | nil =>
      cases h
      exact MoreWorkMoves.endNodes
    | cons node nodes =>
      cases h
      exact MoreWorkMoves.enqueueNode node.1 node.2 nodes
  | setTerminate =>
    cases h
    exact MoreWorkMoves.setTerminate
  | clear =>
    cases h
    exact MoreWorkMoves.clear
  | decWaiting => cases h

section Moves

variable {t : Fin n} {pick : ℕ} {answer : MoreWorkData Buffer Value}
  {sh sh' : Shared n Buffer Value} {th th' : Thread n Buffer Value}

theorem moves_solutionCb {b : Bool} {x : Node n Value} {l : List (Node n Value)}
    {k : List (Call n Buffer Value)} {stage : Stage Buffer Value}
    (h : Thread.solutionCb c callbacks pick x k sh ⟨.working b, l, .solutionCb x stage :: k⟩ stage
      = some (sh', th')) :
    Moves c callbacks t pick answer sh ⟨.working b, l, .solutionCb x stage :: k⟩ sh' th' := by
  cases stage with
  | serve stage =>
    rw [Thread.solutionCb, Option.map_eq_some_iff] at h
    obtain ⟨⟨sh₁, r⟩, hr, h⟩ := h
    obtain ⟨rfl, rfl⟩ := Prod.mk.inj h
    exact Moves.serveNode b x l k hr
  | start =>
    obtain ⟨rfl, rfl⟩ := Prod.mk.inj (Option.some.inj h)
    split_ifs
    · exact Moves.readSize b x l k
    · exact Moves.readWaiting b x l k
  | gotSize m =>
    obtain ⟨rfl, rfl⟩ := Prod.mk.inj (Option.some.inj h)
    split_ifs with hlt
    · exact Moves.fewNodes b x m l k (Nat.zero_lt_of_lt hlt)
    · exact Moves.manyNodes b x m l k
  | gotWaiting w =>
    obtain ⟨rfl, rfl⟩ := Prod.mk.inj (Option.some.inj h)
    split_ifs with hlt
    · exact Moves.manyWaiting b x w l k (Nat.zero_lt_of_lt hlt)
    · exact Moves.fewWaiting b x w l k
  | enqueue =>
    obtain ⟨rfl, rfl⟩ := Prod.mk.inj (Option.some.inj h)
    exact Moves.enqueue b x l k
  | keep =>
    rw [Thread.solutionCb] at h
    split_ifs at h
    · obtain ⟨rfl, rfl⟩ := Prod.mk.inj (Option.some.inj h)
      exact Moves.push b x l k
    · obtain ⟨rfl, rfl⟩ := Prod.mk.inj (Option.some.inj h)
      exact Moves.recurse b x l k
  | report =>
    obtain ⟨rfl, rfl⟩ := Prod.mk.inj (Option.some.inj h)
    split_ifs
    · exact Moves.reportSolution b x l k
    · exact Moves.report b x l k

theorem moves_work {b : Bool} {l : List (Node n Value)} {k : List (Call n Buffer Value)}
    (h : Thread.work c callbacks t pick b sh ⟨.working b, l, k⟩ = some (sh', th')) :
    Moves c callbacks t pick answer sh ⟨.working b, l, k⟩ sh' th' := by
  cases k with
  | nil =>
    obtain ⟨rfl, rfl⟩ := Prod.mk.inj (Option.some.inj h)
    cases b with
    | false => exact Moves.finish l
    | true => exact Moves.finishStolen l
  | cons call k =>
    cases call with
    | getRoot rest =>
      cases rest with
      | nil =>
        obtain ⟨rfl, rfl⟩ := Prod.mk.inj (Option.some.inj h)
        exact Moves.endRoot b l k
      | cons v rest =>
        obtain ⟨rfl, rfl⟩ := Prod.mk.inj (Option.some.inj h)
        exact Moves.passRoot b v rest l k
    | listChildren x i =>
      rw [Thread.work] at h
      dsimp only at h
      split at h
      · obtain ⟨rfl, rfl⟩ := Prod.mk.inj (Option.some.inj h)
        exact Moves.endList b x i l k
      · rename_i v _
        obtain ⟨rfl, rfl⟩ := Prod.mk.inj (Option.some.inj h)
        exact Moves.passChild b x i v l k
    | solutionCb x stage => exact moves_solutionCb h

theorem moves_of_step (h : Thread.step c callbacks t pick answer sh th = some (sh', th')) :
    Moves c callbacks t pick answer sh th sh' th' := by
  obtain ⟨pc, l, k⟩ := th
  cases pc with
  | outer =>
    obtain ⟨rfl, rfl⟩ := Prod.mk.inj (Option.some.inj h)
    cases sh.terminate with
    | false => exact Moves.enter l k
    | true => exact Moves.exit l k
  | inner =>
    cases l with
    | cons x l =>
      obtain ⟨rfl, rfl⟩ := Prod.mk.inj (Option.some.inj h)
      exact Moves.pop x l k
    | nil =>
      obtain ⟨rfl, rfl⟩ := Prod.mk.inj (Option.some.inj h)
      by_cases hroots : sh.possibleRoots.length = 0
      · rw [if_pos hroots]
        exact Moves.noRoots k (List.eq_nil_of_length_eq_zero hroots)
      · rw [if_neg hroots]
        exact Moves.someRoots k
  | openRoot =>
    rw [Thread.step, Option.map_eq_some_iff] at h
    obtain ⟨r, hr, h⟩ := h
    rcases tryDequeue_cases hr with ⟨hroots, rfl⟩ | ⟨i, roots, rfl, hperm⟩
    · obtain ⟨rfl, rfl⟩ := Prod.mk.inj h
      rw [← hroots]
      exact Moves.missRoot l k hroots
    · obtain ⟨rfl, rfl⟩ := Prod.mk.inj h
      exact Moves.takeRoot i roots l k hperm
  | getRoot i =>
    obtain ⟨rfl, rfl⟩ := Prod.mk.inj (Option.some.inj h)
    exact Moves.getRoot i l k
  | working b => exact moves_work h
  | serve b stage =>
    rw [Thread.step, Option.map_eq_some_iff] at h
    obtain ⟨⟨sh₁, r⟩, hr, h⟩ := h
    cases r with
    | inl stage' =>
      obtain ⟨rfl, rfl⟩ := Prod.mk.inj h
      exact Moves.serve b l k hr
    | inr r =>
      obtain ⟨rfl, rfl⟩ := Prod.mk.inj h
      cases b with
      | false => exact Moves.servedIdle l k hr
      | true => exact Moves.served l k hr
  | incWaiting =>
    obtain ⟨rfl, rfl⟩ := Prod.mk.inj (Option.some.inj h)
    exact Moves.incWaiting l k
  | dequeue =>
    rw [Thread.step, Option.map_eq_some_iff] at h
    obtain ⟨r, hr, h⟩ := h
    -- `try_dequeue` fails only on an empty queue, and takes any element of another
    rcases tryDequeue_cases hr with ⟨hempty, rfl⟩ | ⟨x, gnodes, rfl, hperm⟩
    · obtain ⟨rfl, rfl⟩ := Prod.mk.inj h
      rw [← hempty]
      exact Moves.miss l k
    · obtain ⟨rfl, rfl⟩ := Prod.mk.inj h
      exact Moves.steal x gnodes l k hperm
  | checkTerminate =>
    obtain ⟨rfl, rfl⟩ := Prod.mk.inj (Option.some.inj h)
    cases sh.terminate with
    | false => exact Moves.notTerminated l k
    | true => exact Moves.terminated l k
  | checkWaiting =>
    obtain ⟨rfl, rfl⟩ := Prod.mk.inj (Option.some.inj h)
    -- the last thread to wait leaves the loop
    by_cases hw : sh.waiting < n
    · rw [if_pos hw]
      exact Moves.again l k
    · rw [if_neg hw]
      exact Moves.allWaiting l k
  | decWaiting stolen =>
    cases stolen with
    | some x =>
      obtain ⟨rfl, rfl⟩ := Prod.mk.inj (Option.some.inj h)
      exact Moves.stole x l k
    | none =>
      obtain ⟨rfl, rfl⟩ := Prod.mk.inj (Option.some.inj h)
      cases callbacks with
      | true => exact Moves.giveUp l k
      | false => exact Moves.giveUpAlone l k
  | enterMoreWork =>
    obtain ⟨rfl, rfl⟩ := Prod.mk.inj (Option.some.inj h)
    exact Moves.enterMoreWork l k
  | barrier b w =>
    obtain ⟨rfl, rfl⟩ := Prod.mk.inj (Option.some.inj h)
    rcases hw : w.step sh.barrier with ⟨bar, _ | w'⟩
    · cases b with
      | false => exact Moves.leaveFirst l k hw
      | true => exact Moves.leaveSecond l k hw
    · exact Moves.wait b l k hw
  | moreWork stage =>
    obtain ⟨rfl, rfl⟩ := Prod.mk.inj (Option.some.inj h)
    rcases hstage : stage.step answer l sh with ⟨sh₁, _ | stage'⟩
    · obtain ⟨rfl, rfl⟩ := moreWorkStage_none hstage
      exact Moves.endMoreWork l k
    · exact Moves.moreWork l k (moreWorkMoves_of_step hstage)
  | setTerminate =>
    obtain ⟨rfl, rfl⟩ := Prod.mk.inj (Option.some.inj h)
    exact Moves.setTerminate l k
  | done => cases h

end Moves

/-! ### The parts of a step that are steps of their own -/

/-- One for a thread in `ServeSteal` that has set `checkingSteal`. -/
def ServeStage.holds : ServeStage Buffer Value → ℕ
  | .testAndSet => 0
  | _ => 1

/-- One for a thread between the barriers that has set `checkingSteal`. -/
def MoreWorkStage.holds : MoreWorkStage Buffer Value → ℕ
  | .testAndSet => 0
  | .decWaiting => 0
  | _ => 1

def holdsAfter : ServeStage Buffer Value ⊕ Bool → ℕ
  | .inl stage => stage.holds
  | .inr _ => 0

/-- `ServeSteal` takes roots, and sets and clears `checkingSteal`. -/
theorem serveStage_step {pick : ℕ} {x : Option (Node n Value)} {sh sh' : Shared n Buffer Value}
    {stage : ServeStage Buffer Value} {r : ServeStage Buffer Value ⊕ Bool}
    (h : stage.step c callbacks pick x sh = some (sh', r)) :
    ∃ roots flag, sh' = { sh with possibleRoots := roots, checkingSteal := flag } ∧
      roots ⊆ sh.possibleRoots ∧
      (stage.holds ≤ sh.checkingSteal.toNat →
        flag.toNat + stage.holds = sh.checkingSteal.toNat + holdsAfter r) := by
  -- most steps leave the shared variables alone
  have hsame : sh = sh' → stage.holds = holdsAfter r →
      ∃ roots flag, sh' = { sh with possibleRoots := roots, checkingSteal := flag } ∧
        roots ⊆ sh.possibleRoots ∧
        (stage.holds ≤ sh.checkingSteal.toNat →
          flag.toNat + stage.holds = sh.checkingSteal.toNat + holdsAfter r) := by
    rintro rfl hr
    exact ⟨sh.possibleRoots, sh.checkingSteal, rfl, List.Subset.refl _, fun _ => by rw [hr]⟩
  cases stage with
  | testAndSet =>
    rw [ServeStage.step] at h
    split_ifs at h with hset
    · obtain ⟨rfl, rfl⟩ := Prod.mk.inj (Option.some.inj h)
      have hclear : sh.checkingSteal = false := by
        simpa using (Bool.and_eq_true_iff.mp hset).2
      refine ⟨sh.possibleRoots, true, rfl, List.Subset.refl _, ?_⟩
      simp [hclear, ServeStage.holds, holdsAfter]
    · obtain ⟨hsh, rfl⟩ := Prod.mk.inj (Option.some.inj h)
      exact hsame hsh rfl
  | checkSteal =>
    obtain ⟨hsh, rfl⟩ := Prod.mk.inj (Option.some.inj h)
    apply hsame hsh
    split_ifs <;> rfl
  | readSize roots =>
    obtain ⟨hsh, rfl⟩ := Prod.mk.inj (Option.some.inj h)
    apply hsame hsh
    split_ifs <;> rfl
  | compareSize roots =>
    obtain ⟨hsh, rfl⟩ := Prod.mk.inj (Option.some.inj h)
    apply hsame hsh
    split_ifs <;> rfl
  | dequeueRoot roots =>
    rw [ServeStage.step, Option.map_eq_some_iff] at h
    obtain ⟨q, hq, h⟩ := h
    rcases tryDequeue_cases hq with ⟨hroots, rfl⟩ | ⟨i, left, rfl, hperm⟩
    · obtain ⟨rfl, rfl⟩ := Prod.mk.inj h
      exact ⟨[], sh.checkingSteal, rfl, List.nil_subset _, fun _ => rfl⟩
    · obtain ⟨rfl, rfl⟩ := Prod.mk.inj h
      refine ⟨left, sh.checkingSteal, rfl, ?_, fun _ => rfl⟩
      exact fun j hj => hperm.mem_iff.mpr (List.mem_cons_of_mem i hj)
  | choose roots =>
    cases roots with
    | cons i roots =>
      obtain ⟨hsh, rfl⟩ := Prod.mk.inj (Option.some.inj h)
      exact hsame hsh rfl
    | nil =>
      cases x with
      | none =>
        obtain ⟨hsh, rfl⟩ := Prod.mk.inj (Option.some.inj h)
        exact hsame hsh rfl
      | some x =>
        obtain ⟨hsh, rfl⟩ := Prod.mk.inj (Option.some.inj h)
        exact hsame hsh rfl
  | sendSteal data =>
    cases data with
    | subtree nodes =>
      obtain ⟨hsh, rfl⟩ := Prod.mk.inj (Option.some.inj h)
      exact hsame hsh rfl
    | _ =>
      obtain ⟨hsh, rfl⟩ := Prod.mk.inj (Option.some.inj h)
      exact hsame hsh rfl
  | clear offloadedNode =>
    obtain ⟨rfl, rfl⟩ := Prod.mk.inj (Option.some.inj h)
    refine ⟨sh.possibleRoots, false, rfl, List.Subset.refl _, fun hle => ?_⟩
    have hset := sh.checkingSteal.toNat_le
    simp only [ServeStage.holds, holdsAfter, Bool.toNat_false] at hle ⊢
    omega

/-! ### The barriers -/

/-- A thread as a party to the barrier: its phase is odd between the two barriers. -/
def party (th : Thread n Buffer Value) : Barrier.Party :=
  match th.pc with
  | .barrier second wait => ⟨second, some wait⟩
  | .moreWork _ => ⟨true, none⟩
  | _ => ⟨false, none⟩

section Step

variable {t : Fin n} {pick : ℕ} {answer : MoreWorkData Buffer Value}
  {sh sh' : Shared n Buffer Value} {th th' : Thread n Buffer Value}

theorem Moves.party (h : Moves c callbacks t pick answer sh th sh' th') :
    Barrier.Move sh.barrier (party th) sh'.barrier (party th') := by
  cases h with
  | serveNode _ _ _ _ h =>
    obtain ⟨_, _, rfl, -⟩ := serveStage_step h
    exact Barrier.Move.stay _
  | serve _ _ _ h =>
    obtain ⟨_, _, rfl, -⟩ := serveStage_step h
    exact Barrier.Move.stay _
  | served _ _ h =>
    obtain ⟨_, _, rfl, -⟩ := serveStage_step h
    exact Barrier.Move.stay _
  | servedIdle _ _ h =>
    obtain ⟨_, _, rfl, -⟩ := serveStage_step h
    exact Barrier.Move.stay _
  | enterMoreWork l k => exact Barrier.Move.enter false
  | wait b l k h => exact Barrier.Move.go h
  | leaveFirst l k h => exact Barrier.Move.leave h
  | leaveSecond l k h => exact Barrier.Move.leave h
  | moreWork l k h => cases h <;> exact Barrier.Move.stay _
  | endMoreWork l k => exact Barrier.Move.enter true
  | _ => exact Barrier.Move.stay _

/-! ### `checkingSteal` -/

/-- One for a call in progress that has set `checkingSteal`. -/
def Call.holds : Call n Buffer Value → ℕ
  | .solutionCb _ (.serve stage) => stage.holds
  | _ => 0

/-- One for a thread that has set `checkingSteal`. -/
def holds (th : Thread n Buffer Value) : ℕ :=
  (match th.pc with
    | .serve _ stage => stage.holds
    | .moreWork stage => stage.holds
    | _ => 0) + (th.calls.map Call.holds).sum

theorem holds_serve (x : Node n Value) (stage : ServeStage Buffer Value) :
    Call.holds (.solutionCb x (.serve stage)) = stage.holds := rfl

theorem holds_afterServe (x : Node n Value) (r : ServeStage Buffer Value ⊕ Bool) :
    Call.holds (.solutionCb x (Thread.afterServe r)) = holdsAfter r := by
  rcases r with _ | _ | _ <;> rfl

theorem Moves.holds (h : Moves c callbacks t pick answer sh th sh' th')
    (hle : holds th ≤ sh.checkingSteal.toNat) :
    sh'.checkingSteal.toNat + holds th = sh.checkingSteal.toNat + holds th' := by
  cases h with
  | serveNode b x l k h =>
    obtain ⟨_, _, rfl, -, hflag⟩ := serveStage_step h
    simp only [Callbacks.holds, List.map_cons, List.sum_cons, holds_serve,
      holds_afterServe] at hle ⊢
    have := hflag (by omega)
    omega
  | serve b l k h =>
    obtain ⟨_, _, rfl, -, hflag⟩ := serveStage_step h
    simp only [Callbacks.holds] at hle ⊢
    have := hflag (by omega)
    simp only [holdsAfter] at this
    omega
  | served l k h =>
    obtain ⟨_, _, rfl, -, hflag⟩ := serveStage_step h
    simp only [Callbacks.holds] at hle ⊢
    have := hflag (by omega)
    simp only [holdsAfter] at this
    omega
  | servedIdle l k h =>
    obtain ⟨_, _, rfl, -, hflag⟩ := serveStage_step h
    simp only [Callbacks.holds] at hle ⊢
    have := hflag (by omega)
    simp only [holdsAfter] at this
    omega
  | moreWork l k h =>
    have hflag := sh.checkingSteal.toNat_le
    cases h with
    | acquire hclear => simp [Callbacks.holds, MoreWorkStage.holds, hclear]
    | clear =>
      simp only [Callbacks.holds, MoreWorkStage.holds, Bool.toNat_false] at hle ⊢
      omega
    | _ => rfl
  | _ => simp [Callbacks.holds, Call.holds, ServeStage.holds, MoreWorkStage.holds]

/-! ### `waiting` -/

/-- One for a thread that has incremented `waiting` and not decremented it. -/
def counts (th : Thread n Buffer Value) : ℕ :=
  match th.pc with
  | .dequeue => 1
  | .checkTerminate => 1
  | .checkWaiting => 1
  | .decWaiting _ => 1
  | .barrier false _ => 1
  | .moreWork _ => 1
  | _ => 0

theorem Moves.counts (h : Moves c callbacks t pick answer sh th sh' th')
    (hle : counts th ≤ sh.waiting) : sh'.waiting + counts th = sh.waiting + counts th' := by
  cases h with
  | serveNode b x l k h =>
    obtain ⟨_, _, rfl, -⟩ := serveStage_step h
    rfl
  | serve b l k h =>
    obtain ⟨_, _, rfl, -⟩ := serveStage_step h
    rfl
  | served l k h =>
    obtain ⟨_, _, rfl, -⟩ := serveStage_step h
    rfl
  | servedIdle l k h =>
    obtain ⟨_, _, rfl, -⟩ := serveStage_step h
    rfl
  | moreWork l k h => cases h <;> rfl
  | endMoreWork l k => exact Nat.sub_add_cancel hle
  | stole x l k => exact Nat.sub_add_cancel hle
  | giveUp l k => exact Nat.sub_add_cancel hle
  | giveUpAlone l k => exact Nat.sub_add_cancel hle
  | wait b l k h => cases b <;> rfl
  | _ => rfl

/-! ### Calls and local nodes -/

/-- The places where a call may be in progress. -/
def Pc.MayCall : Pc n Buffer Value → Prop
  | .working _ => True
  | _ => False

/-- The places where there may be local nodes. -/
def Pc.MayKeep : Pc n Buffer Value → Prop
  | .inner => True
  | .working _ => True
  | .serve true _ => True
  | _ => False

/-- A thread has calls in progress and local nodes where it may have them only. -/
structure Tidy (th : Thread n Buffer Value) : Prop where
  calls : ¬ th.pc.MayCall → th.calls = []
  lnodes : ¬ th.pc.MayKeep → th.lnodes = []

theorem Moves.tidy (h : Moves c callbacks t pick answer sh th sh' th') (htidy : Tidy th) :
    Tidy th' := by
  obtain ⟨hcalls, hlnodes⟩ := htidy
  cases h with
  | serve b l k h => cases b <;> constructor <;> simp_all [Pc.MayCall, Pc.MayKeep]
  | _ => constructor <;> simp_all [Pc.MayCall, Pc.MayKeep]

end Step

/-! ### All threads -/

/-- What holds of a run whatever the nodes are. -/
structure Control (s : State n Buffer Value) : Prop where
  barrier : Barrier.Inv s.shared.barrier (party ∘ s.threads)
  holds : ∑ t, holds (s.threads t) = s.shared.checkingSteal.toNat
  counts : ∑ t, counts (s.threads t) = s.shared.waiting
  tidy : ∀ t, Tidy (s.threads t)

theorem control_init (minRootId maxRootId : ℕ) : Control (init c n minRootId maxRootId) where
  barrier := Barrier.Inv.init n (Fintype.card_fin n) 0
  holds := by simp [init, holds]
  counts := by simp [init, counts]
  tidy := fun _ => ⟨fun _ => rfl, fun _ => rfl⟩

/-- What a step does, seen from the thread that takes it. -/
theorem moves_of_run_step {s s' : State n Buffer Value} {a : Action n Buffer Value}
    (h : step c callbacks s a = some s') :
    ∃ th', Moves c callbacks a.thread a.pick a.answer s.shared (s.threads a.thread) s'.shared th' ∧
      s'.threads = Function.update s.threads a.thread th' := by
  rw [step, Option.map_eq_some_iff] at h
  obtain ⟨⟨sh', th'⟩, hstep, rfl⟩ := h
  exact ⟨th', moves_of_step hstep, rfl⟩

theorem Control.step {s s' : State n Buffer Value} {a : Action n Buffer Value} (h : Control s)
    (hstep : step c callbacks s a = some s') : Control s' := by
  obtain ⟨th', hmoves, hthreads⟩ := moves_of_run_step hstep
  constructor
  case barrier =>
    rw [hthreads, Function.comp_update]
    exact h.barrier.move hmoves.party
  case holds =>
    obtain ⟨rest, hsum, hupdate⟩ := exists_sum_update Callbacks.holds s.threads a.thread
    have hall := h.holds
    rw [hthreads, hupdate th']
    have := hmoves.holds (by omega)
    omega
  case counts =>
    obtain ⟨rest, hsum, hupdate⟩ := exists_sum_update Callbacks.counts s.threads a.thread
    have hall := h.counts
    rw [hthreads, hupdate th']
    have := hmoves.counts (by omega)
    omega
  case tidy =>
    rw [hthreads]
    refine (Function.forall_update_iff s.threads fun _ th => Tidy th).mpr ⟨?_, fun t _ => h.tidy t⟩
    exact hmoves.tidy (h.tidy a.thread)

theorem control_of_reaches {minRootId maxRootId : ℕ} {s : State n Buffer Value}
    (h : Reaches (step c callbacks) Any (init c n minRootId maxRootId) s) : Control s :=
  h.invariant (control_init minRootId maxRootId) fun _ _ _ hs _ hstep => hs.step hstep

/-- The thread has left the first barrier, or may leave it, and not the second one. -/
def Between (sh : Shared n Buffer Value) (th : Thread n Buffer Value) : Prop :=
  Barrier.past sh.barrier (party th) = true

section Control

variable {s : State n Buffer Value} {t u : Fin n}

/-- **The barriers keep the threads together.** -/
theorem Control.between (h : Control s) (ht : Between s.shared (s.threads t)) (u : Fin n) :
    Between s.shared (s.threads u) := by
  obtain ⟨m, hm⟩ := h.barrier.past_eq
  have hmu : Barrier.past s.shared.barrier (party (s.threads u)) = m := hm u
  have hmt : Barrier.past s.shared.barrier (party (s.threads t)) = m := hm t
  unfold Between at ht ⊢
  rw [hmu, ← hmt, ht]

/-- `checkingSteal` excludes. -/
theorem Control.holds_eq_zero (h : Control s) (ht : 0 < Callbacks.holds (s.threads t))
    (hu : u ≠ t) : Callbacks.holds (s.threads u) = 0 := by
  have hle := Finset.add_le_sum (f := fun t => Callbacks.holds (s.threads t))
    (fun _ _ => Nat.zero_le _) (Finset.mem_univ u) (Finset.mem_univ t) hu
  have hflag := s.shared.checkingSteal.toNat_le
  have hall := h.holds
  omega

end Control

end ParallelEnum.ParallelPthreadsSteal.Callbacks
