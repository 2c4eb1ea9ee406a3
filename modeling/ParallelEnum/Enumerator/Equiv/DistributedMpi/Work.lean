import ParallelEnum.Enumerator.Equiv.DistributedMpi.Pool
import ParallelEnum.Enumerator.Equiv.DistributedMpi.Contents

/-!
# The protocol moves work, and loses none

The roots that the master has not handed out, the contents of the messages under way and the work
of the workers make up one pool (`pool`).  As long as no worker starts with a garbage range, a
step of the protocol leaves the pool as it is, or expands one piece of work in it
(`pool_step`): the master and its workers refine the pool.
-/

namespace ParallelEnum.DistributedMpi

open ParallelPthreadsSteal (FiniteSystem rootIds lastRootId)
open Transition

variable {Node : Type} {W : ℕ} {c : FiniteSystem Node} {isSolution : Node → Bool}

/-- The work in a message to the master. -/
def ToMaster.items : ToMaster Node → List (Work Node)
  | .data items => items
  | _ => []

/-- The work in a message to a worker. -/
def ToWorker.items : ToWorker Node → List (Work Node)
  | .rangeResponse rangeBegin rangeEnd =>
    (List.range' rangeBegin (rangeEnd - rangeBegin)).map .root
  | .data items => items
  | _ => []

/-- The first `n` roots. -/
def rootsBelow (n : ℕ) : Multiset (Work Node) := ↑((List.range n).map (Work.root : ℕ → Work Node))

/-- All the work that is left. -/
def held (s : State Node W) : Multiset (Work Node) :=
  rootsBelow s.master.unsent + content ToMaster.items ToWorker.items s
    + ∑ w, (↑(s.workers w).work : Multiset (Work Node))

/-- All solutions found: those the master knows of, those in requests and those not sent yet. -/
def counted (s : State Node W) : ℕ :=
  s.master.solutionsCount + requested s.workers s.toMaster
    + ∑ w, (s.workers w).solutionsFound

/-- The pool that a state of the protocol stands for. -/
def pool (s : State Node W) : Pool Node where
  items := held s
  opened := ∑ w, ((s.workers w).opened : Multiset ℕ)
  listed := ∑ w, ((s.workers w).listed : Multiset Node)
  reported := ∑ w, ((s.workers w).reported : Multiset Node)
  found := counted s

/-! ### Steps of a worker -/

/-- A worker that has not started with a garbage range never had. -/
theorem Moves.startedWithRange {w w' : Worker Node} {up up' : List (ToMaster Node)}
    {down down' : List (ToWorker Node)} (h : Moves c isSolution w up down w' up' down')
    (hw' : w'.StartedWithRange) : w.StartedWithRange := by
  intro info hinfo
  apply hw'
  cases h with
  | gotRange | gotTermination | gotData =>
    rw [moreWork_firstInfo]
    show some ((w.firstInfo).getD _) = _
    rw [hinfo]
    rfl
  | expand item kept =>
    rw [expand_firstInfo]
    exact hinfo
  | _ => exact hinfo

/-- What a worker has found and not sent. -/
def unsentCount (w : Worker Node) (up : List (ToMaster Node)) : ℕ :=
  (requests w.pc up).sum + w.solutionsFound

/-- The work of a worker and in its channels. -/
def share (w : Worker Node) (up : List (ToMaster Node)) (down : List (ToWorker Node)) :
    Multiset (Work Node) :=
  ↑(up.flatMap ToMaster.items) + ↑(down.flatMap ToWorker.items) + ↑w.work

/-- A step of a worker that only moves work. -/
structure SameWork (w : Worker Node) (up : List (ToMaster Node)) (down : List (ToWorker Node))
    (w' : Worker Node) (up' : List (ToMaster Node)) (down' : List (ToWorker Node)) : Prop where
  share : share w' up' down' = share w up down
  count : unsentCount w' up' = unsentCount w up
  opened : w'.opened = w.opened
  listed : w'.listed = w.listed
  reported : w'.reported = w.reported

/-- A step that leaves the channel to the master alone. -/
theorem sameWork_of_up {w w' : Worker Node} {up : List (ToMaster Node)}
    {down down' : List (ToWorker Node)} (hshare : share w' up down' = share w up down)
    (hcount : w'.pc.toSend.sum + w'.solutionsFound = w.pc.toSend.sum + w.solutionsFound)
    (hkept : w'.opened = w.opened ∧ w'.listed = w.listed ∧ w'.reported = w.reported) :
    SameWork w up down w' up down' where
  share := hshare
  count := by
    unfold unsentCount requests
    rw [List.sum_append, List.sum_append]
    omega
  opened := hkept.1
  listed := hkept.2.1
  reported := hkept.2.2

/-- With later answers the work of a worker grows by what it is sent. -/
theorem moreWork_of_some {garbage : ℕ × ℕ} {info : MoreWorkInfo} {items : List (Work Node)}
    {w : Worker Node} (hfirst : w.firstInfo ≠ none) (hinfo : info ≠ .nothing) :
    w.moreWork c garbage info items = { w with pc := .running, work := w.work ++ items } := by
  unfold Worker.moreWork
  cases h : w.firstInfo with
  | none => exact absurd h hfirst
  | some _ =>
    cases info with
    | nothing => exact absurd rfl hinfo
    | _ => rfl

/-- A range is the work of a worker that has none, whether it is the first one or not. -/
theorem moreWork_range (garbage : ℕ × ℕ) (items : List (Work Node)) {w : Worker Node}
    (hwork : w.work = []) : ∃ first, w.moreWork c garbage .range items
      = { w with pc := .running, firstInfo := first, work := items } := by
  cases hfirst : w.firstInfo with
  | none =>
    refine ⟨some .range, ?_⟩
    simp [Worker.moreWork, hfirst]
  | some info =>
    have hne : w.firstInfo ≠ none := by
      rw [hfirst]
      nofun
    refine ⟨w.firstInfo, ?_⟩
    rw [moreWork_of_some hne (show MoreWorkInfo.range ≠ .nothing by nofun), hwork, List.nil_append]

/-- The first answer is a range, or the start is on garbage. -/
theorem firstInfo_of_started {garbage : ℕ × ℕ} {info : MoreWorkInfo} {items : List (Work Node)}
    {w : Worker Node} (hinfo : info ≠ .range)
    (h : (w.moreWork c garbage info items).StartedWithRange) : w.firstInfo ≠ none := by
  intro hfirst
  apply hinfo
  apply h
  rw [moreWork_firstInfo, hfirst]
  rfl

/-- A range stands for the same roots, first or later. -/
theorem rangeItems_eq (w : Worker Node) {b e : ℕ} (he : 0 < e) :
    w.rangeItems c b e = (List.range' b (e - b)).map .root := by
  unfold Worker.rangeItems
  split
  · rw [rootIds, lastRootId, if_neg (by omega)]
  · rfl

/-- **A step of a worker moves work, or expands one piece of it.** -/
theorem Moves.work {w w' : Worker Node} {up up' : List (ToMaster Node)}
    {down down' : List (ToWorker Node)} (h : Moves c isSolution w up down w' up' down')
    (hstarted : w'.StartedWithRange) (hidle : w.pc ≠ .running → w.work = [])
    (hranges : ∀ b e, .rangeResponse b e ∈ down → 0 < e) :
    SameWork w up down w' up' down' ∨
      ∃ item kept, w.work.Perm (item :: kept) ∧ w.pc = .running ∧
        w' = w.expand c isSolution item kept ∧ up' = up ∧ down' = down := by
  cases h with
  | send count _ _ hpc =>
    left
    refine ⟨?_, ?_, rfl, rfl, rfl⟩
    · simp [share, ToMaster.items]
    · simp [unsentCount, requests, hpc, ToMaster.count?, Worker.Pc.toSend]
  | discard _ down' hpc =>
    left
    refine sameWork_of_up ?_ ?_ ⟨rfl, rfl, rfl⟩
    · simp [share, ToWorker.items]
    · simp [hpc, Worker.Pc.toSend]
  | gotLen areRoots _ down' hpc =>
    left
    refine sameWork_of_up ?_ ?_ ⟨rfl, rfl, rfl⟩
    · simp [share, ToWorker.items]
    · simp [hpc, Worker.Pc.toSend]
  | gotRange garbage b e _ down' hpc =>
    left
    have hitems := rangeItems_eq (c := c) w (b := b) (hranges b e List.mem_cons_self)
    have hwork : w.work = [] := hidle (by rw [hpc]; decide)
    -- an idle worker has no work, so its work is the range that it gets
    obtain ⟨first, heq⟩ := moreWork_range (c := c) garbage (w.rangeItems c b e) hwork
    rw [heq]
    refine sameWork_of_up ?_ ?_ ⟨rfl, rfl, rfl⟩
    · simp only [share, List.flatMap_cons, ToWorker.items, hitems, hwork, ← Multiset.coe_add,
        Multiset.coe_nil]
      abel
    · simp [hpc, Worker.Pc.toSend]
  | gotTermination garbage _ down' hpc =>
    left
    set w₀ : Worker Node := { w with terminated := true } with hw₀
    rcases moreWork_nothing (c := c) garbage [] w₀ with ⟨_, _, heq⟩ | ⟨_, hfirst⟩
    · rw [heq]
      refine sameWork_of_up ?_ ?_ ⟨rfl, rfl, rfl⟩
      · simp [share, ToWorker.items, hw₀]
      · simp [hpc, Worker.Pc.toSend, hw₀]
    · -- a termination as the first answer starts the worker on garbage
      exact absurd (hstarted _ hfirst) (by decide)
  | gotData garbage areRoots items _ down' hpc =>
    left
    -- a first answer with nodes or roots would not be a range, so it is a later one
    set w₀ : Worker Node := { w with received := w.received ++ [items] } with hw₀
    have hinfo : (if areRoots then MoreWorkInfo.roots else .subtree) ≠ .range ∧
        (if areRoots then MoreWorkInfo.roots else .subtree) ≠ .nothing := by
      split_ifs <;> decide
    have hfirst : w₀.firstInfo ≠ none := firstInfo_of_started hinfo.1 hstarted
    rw [moreWork_of_some hfirst hinfo.2]
    refine sameWork_of_up ?_ ?_ ⟨rfl, rfl, rfl⟩
    · simp only [share, List.flatMap_cons, ToWorker.items, hw₀, ← Multiset.coe_add]
      abel
    · simp [hpc, Worker.Pc.toSend, hw₀]
  | expand item kept _ _ hpc hwork => exact Or.inr ⟨item, kept, hwork, hpc, rfl, rfl, rfl⟩
  | split areRoots items kept _ down' hpc hwork =>
    left
    refine ⟨?_, ?_, rfl, rfl, rfl⟩
    · have hperm : (w.work : Multiset (Work Node)) = ↑(items ++ kept) :=
        Multiset.coe_eq_coe.mpr hwork
      rw [share, share, hperm]
      simp only [List.flatMap_append, List.flatMap_cons, List.flatMap_nil, ToMaster.items,
        ToWorker.items, List.append_nil, List.nil_append, ← Multiset.coe_add]
      abel
    · simp [unsentCount, requests, ToMaster.count?, List.filterMap_cons]
  | request _ _ hpc hwork =>
    left
    refine sameWork_of_up rfl ?_ ⟨rfl, rfl, rfl⟩
    simp [hpc, Worker.Pc.toSend]

/-! ### The pool, when a worker moves -/

/-- The work that is left is the share of one worker and the rest. -/
theorem exists_held_update (s : State Node W) (i : Fin W) :
    ∃ rest, held s = share (s.workers i) (s.toMaster i) (s.toWorker i) + rest ∧
      ∀ w up down, held { s with
        workers := Function.update s.workers i w
        toMaster := Function.update s.toMaster i up
        toWorker := Function.update s.toWorker i down } = share w up down + rest := by
  obtain ⟨restUp, hup, hup'⟩ := exists_upContent_update s.toMaster i ToMaster.items
  obtain ⟨restDown, hdown, hdown'⟩ := exists_downContent_update s.toWorker i ToWorker.items
  obtain ⟨restWork, hwork, hwork'⟩ := exists_sum_update
    (fun w : Worker Node => (↑w.work : Multiset (Work Node))) s.workers i
  refine ⟨rootsBelow s.master.unsent + restUp + restDown + restWork, ?_, ?_⟩
  · rw [held, content, hup, hdown, hwork, share]
    abel
  · intro w up down
    simp only [held, content, hup', hdown', hwork', share]
    abel

/-- The solutions that the master does not know of are those of one worker and the rest. -/
theorem exists_counted_update (s : State Node W) (i : Fin W) :
    ∃ rest, counted s = unsentCount (s.workers i) (s.toMaster i) + rest ∧
      ∀ w up down, counted { s with
        workers := Function.update s.workers i w
        toMaster := Function.update s.toMaster i up
        toWorker := Function.update s.toWorker i down } = unsentCount w up + rest := by
  obtain ⟨restReq, hreq, hreq'⟩ := exists_requested_update s.workers s.toMaster i
  obtain ⟨restFound, hfound, hfound'⟩ := exists_sum_update
    (fun w : Worker Node => w.solutionsFound) s.workers i
  refine ⟨s.master.solutionsCount + restReq + restFound, ?_, ?_⟩
  · rw [counted, hreq, hfound, unsentCount]
    omega
  · intro w up down
    simp only [counted, hreq', hfound', unsentCount]
    omega

section Expand

variable (item : Work Node) (kept : List (Work Node)) (w : Worker Node)

theorem expand_work : (w.expand c isSolution item kept).work
    = kept ++ (Pool.successors c item).map .subtree := by
  cases item <;> rfl

theorem expand_opened : ((w.expand c isSolution item kept).opened : Multiset ℕ)
    = ↑w.opened + Pool.openedBy item := by
  cases item with
  | root i => rfl
  | subtree node => exact (add_zero _).symm

theorem expand_listed : ((w.expand c isSolution item kept).listed : Multiset Node)
    = ↑w.listed + Pool.listedBy item := by
  cases item with
  | root i => exact (add_zero _).symm
  | subtree node => rfl

theorem expand_reported : (w.expand c isSolution item kept).reported
    = w.reported ++ Pool.successors c item := by
  cases item <;> rfl

theorem expand_solutionsFound : (w.expand c isSolution item kept).solutionsFound
    = w.solutionsFound + (Pool.successors c item).countP isSolution := by
  cases item <;> rfl

end Expand

/-- A worker that the protocol leaves idle has no work. -/
theorem Inv.idle {s : State Node W} (hs : Inv c s) {i : Fin W}
    (hstarted : (s.workers i).StartedWithRange) (hpc : (s.workers i).pc ≠ .running) :
    (s.workers i).work = [] := by
  -- the invariant has another form from the moment at which the master returns
  by_cases hdone : ∃ last, s.master.pc = .done last
  · obtain ⟨last, hlast⟩ := hdone
    exact ((hs.finallyLinked last hlast i).clean hstarted).2.1
  · push Not at hdone
    exact ((hs.linked hdone i).idle hpc).1

/-- **A step of a worker refines the pool.** -/
theorem pool_worker {s : State Node W} (hs : Inv c s)
    (hranges : ∀ w b e, .rangeResponse b e ∈ s.toWorker w → 0 < e) {i : Fin W}
    {w : Worker Node} {up : List (ToMaster Node)} {down : List (ToWorker Node)}
    (h : Moves c isSolution (s.workers i) (s.toMaster i) (s.toWorker i) w up down)
    (hstarted : w.StartedWithRange) :
    let s' := { s with
      workers := Function.update s.workers i w
      toMaster := Function.update s.toMaster i up
      toWorker := Function.update s.toWorker i down }
    pool s' = pool s ∨ Pool.Step c isSolution (pool s) (pool s') := by
  intro s'
  obtain ⟨restHeld, hheld, hheld'⟩ := exists_held_update s i
  obtain ⟨restCounted, hcounted, hcounted'⟩ := exists_counted_update s i
  obtain ⟨restOpened, hopened, hopened'⟩ := exists_sum_update
    (fun w : Worker Node => (↑w.opened : Multiset ℕ)) s.workers i
  obtain ⟨restListed, hlisted, hlisted'⟩ := exists_sum_update
    (fun w : Worker Node => (↑w.listed : Multiset Node)) s.workers i
  obtain ⟨restReported, hreported, hreported'⟩ := exists_sum_update
    (fun w : Worker Node => (↑w.reported : Multiset Node)) s.workers i
  rcases h.work hstarted (hs.idle (h.startedWithRange hstarted)) (hranges i) with
    hsame | ⟨item, kept, hperm, hpc, rfl, rfl, rfl⟩
  · left
    apply Pool.ext
    · show held s' = held s
      rw [hheld, hheld', hsame.share]
    · show ∑ j, ((Function.update s.workers i w j).opened : Multiset ℕ)
        = ∑ j, ((s.workers j).opened : Multiset ℕ)
      rw [hopened, hopened', hsame.opened]
    · show ∑ j, ((Function.update s.workers i w j).listed : Multiset Node)
        = ∑ j, ((s.workers j).listed : Multiset Node)
      rw [hlisted, hlisted', hsame.listed]
    · show ∑ j, ((Function.update s.workers i w j).reported : Multiset Node)
        = ∑ j, ((s.workers j).reported : Multiset Node)
      rw [hreported, hreported', hsame.reported]
    · show counted s' = counted s
      rw [hcounted, hcounted', hsame.count]
  · right
    have hwork : ((s.workers i).work : Multiset (Work Node)) = ↑(item :: kept) :=
      Multiset.coe_eq_coe.mpr hperm
    set rest : Multiset (Work Node) := ↑((s.toMaster i).flatMap ToMaster.items)
      + ↑((s.toWorker i).flatMap ToWorker.items) + ↑kept + restHeld with hrest
    have hitems : (pool s).items = item ::ₘ rest := by
      show held s = _
      rw [hheld, share, hwork, hrest, ← Multiset.cons_coe, ← Multiset.singleton_add item,
        ← Multiset.singleton_add item]
      abel
    -- the step of the pool, whose result is the pool of the new state
    have hstep : Pool.Step c isSolution (pool s) _ := Pool.Step.expand (pool s) item rest hitems
    refine cast (congrArg (Pool.Step c isSolution (pool s)) ?_) hstep
    apply Pool.ext
    · show rest + _ = held s'
      rw [hheld', share, expand_work, hrest, ← Multiset.coe_add]
      abel
    · show (∑ j, ((s.workers j).opened : Multiset ℕ)) + _
        = ∑ j, ((Function.update s.workers i _ j).opened : Multiset ℕ)
      rw [hopened, hopened', expand_opened]
      abel
    · show (∑ j, ((s.workers j).listed : Multiset Node)) + _
        = ∑ j, ((Function.update s.workers i _ j).listed : Multiset Node)
      rw [hlisted, hlisted', expand_listed]
      abel
    · show (∑ j, ((s.workers j).reported : Multiset Node)) + _
        = ∑ j, ((Function.update s.workers i _ j).reported : Multiset Node)
      rw [hreported, hreported', expand_reported, ← Multiset.coe_add]
      abel
    · show counted s + _ = counted s'
      rw [hcounted, hcounted', unsentCount, unsentCount, expand_pc, expand_solutionsFound]
      omega

/-! ### The pool, when the master moves -/

theorem passes_items :
    Passes (ToMaster.items : ToMaster Node → List (Work Node)) ToWorker.items where
  request _ := rfl
  lenUp _ := rfl
  steal := rfl
  lenDown _ := rfl
  termination := rfl
  data _ := rfl

/-- **A step of the master leaves the pool as it is.** -/
theorem HandsOut.pool_eq {sent : List (ℕ × ℕ)} {s s' : State Node W} (h : HandsOut sent s s') :
    pool s' = pool s := by
  have hroots : (rootsBelow s.master.unsent : Multiset (Work Node))
      = rootsBelow s'.master.unsent
        + ↑(sent.flatMap fun range =>
            (ToWorker.rangeResponse range.1 range.2 : ToWorker Node).items) := by
    rw [rootsBelow, h.unsent, List.map_append, List.map_flatMap, ← Multiset.coe_add]
    rfl
  apply Pool.ext
  · show held s' = held s
    rw [held, held, hroots, h.content passes_items, h.workers]
    abel
  · simp only [pool, h.workers]
  · simp only [pool, h.workers]
  · simp only [pool, h.workers]
  · show DistributedMpi.counted s' = DistributedMpi.counted s
    rw [DistributedMpi.counted, DistributedMpi.counted, h.counted, h.workers]

end ParallelEnum.DistributedMpi
