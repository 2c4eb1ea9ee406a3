import Mathlib.Data.List.Basic
import ParallelEnum.Enumerator.DistributedMpi

/-!
# The link between the master and one worker

What is under way between the master and a worker can be counted.  A worker that waits in
`MoreWork` accounts for one token, and so does a steal request that the master waits to see
answered; each token is, at any time, a request, an answer or a steal request in a channel, a
request that the worker is about to send again, or a request that the master is serving
(`Link.tokens`).  From this count it follows that a worker that the master takes to be waiting
has no work and no answer under way (`Link.stealWait`).

`Moves` lists what one step of a worker can do; `Moves.link` shows that it keeps the link, and
`Link.request`, `Link.range` and the lemmas after them that the steps of the master do.
-/

namespace ParallelEnum.DistributedMpi

open ParallelPthreadsSteal (FiniteSystem)

variable {Node : Type} {W : ℕ} {c : FiniteSystem Node} {isSolution : Node → Bool}

/-! ### Steps of a worker -/

/-- What one step of a worker can do to the worker and its two channels. -/
inductive Moves (c : FiniteSystem Node) (isSolution : Node → Bool) (w : Worker Node) :
    List (ToMaster Node) → List (ToWorker Node) →
    Worker Node → List (ToMaster Node) → List (ToWorker Node) → Prop
  | send (count up down) (h : w.pc = .send count) :
      Moves c isSolution w up down { w with pc := .recv } (up ++ [.rangeRequest count]) down
  | discard (up down) (h : w.pc = .recv) :
      Moves c isSolution w up (.stealRequest :: down) { w with pc := .send 0 } up down
  | gotLen (areRoots up down) (h : w.pc = .recv) :
      Moves c isSolution w up (.stealResponseLen areRoots :: down)
        { w with pc := .recvData areRoots } up down
  | gotRange (garbage rangeBegin rangeEnd up down) (h : w.pc = .recv) :
      Moves c isSolution w up (.rangeResponse rangeBegin rangeEnd :: down)
        (w.moreWork c garbage .range (w.rangeItems c rangeBegin rangeEnd)) up down
  | gotTermination (garbage up down) (h : w.pc = .recv) :
      Moves c isSolution w up (.termination :: down)
        ({ w with terminated := true }.moreWork c garbage .nothing []) up down
  | gotData (garbage areRoots items up down) (h : w.pc = .recvData areRoots) :
      Moves c isSolution w up (.data items :: down)
        ({ w with received := w.received ++ [items] }.moreWork c garbage
          (if areRoots then .roots else .subtree) items) up down
  | expand (item kept up down) (h : w.pc = .running) (hwork : w.work.Perm (item :: kept)) :
      Moves c isSolution w up down (w.expand c isSolution item kept) up down
  | split (areRoots items kept up down) (h : w.pc = .running)
      (hwork : w.work.Perm (items ++ kept)) :
      Moves c isSolution w up (.stealRequest :: down)
        { w with work := kept, split := w.split ++ [items] }
        (up ++ [.stealResponseLen areRoots, .data items]) down
  | request (up down) (h : w.pc = .running) (hwork : w.work = []) :
      Moves c isSolution w up down { w with pc := .send w.solutionsFound, solutionsFound := 0 }
        up down

theorem moves_receive {garbage : ℕ × ℕ} {msg : ToWorker Node} {w w' : Worker Node}
    {up : List (ToMaster Node)} {down : List (ToWorker Node)}
    (h : w.receive c garbage msg = some w') :
    Moves c isSolution w up (msg :: down) w' up down := by
  unfold Worker.receive at h
  split at h
  case h_1 hpc => exact Option.some.inj h ▸ Moves.discard up down hpc
  case h_2 areRoots hpc => exact Option.some.inj h ▸ Moves.gotLen areRoots up down hpc
  case h_3 b e hpc => exact Option.some.inj h ▸ Moves.gotRange garbage b e up down hpc
  case h_4 hpc => exact Option.some.inj h ▸ Moves.gotTermination garbage up down hpc
  case h_5 areRoots items hpc =>
    exact Option.some.inj h ▸ Moves.gotData garbage areRoots items up down hpc
  case h_6 => cases h

theorem moves_sendSteal {areRoots : Bool} {items kept : List (Work Node)}
    {w w' : Worker Node} {up up' : List (ToMaster Node)} {down down' : List (ToWorker Node)}
    (hpc : w.pc = .running) (hwork : w.work.Perm (items ++ kept))
    (h : w.sendSteal areRoots items kept up down = some (w', up', down')) :
    Moves c isSolution w up down w' up' down' := by
  unfold Worker.sendSteal at h
  split at h
  · obtain ⟨rfl, rfl, rfl⟩ : _ ∧ _ ∧ _ := by simpa using h
    exact Moves.split areRoots items kept up _ hpc hwork
  · cases h

/-- Every step of a worker is one of those listed. -/
theorem moves_of_step [DecidableEq Node] {a : WorkerAction Node} {w w' : Worker Node}
    {up up' : List (ToMaster Node)} {down down' : List (ToWorker Node)}
    (h : w.step c isSolution a up down = some (w', up', down')) :
    Moves c isSolution w up down w' up' down' := by
  cases a with
  | send =>
    rw [Worker.step] at h
    split at h
    · rename_i count hpc
      obtain ⟨rfl, rfl, rfl⟩ : _ ∧ _ ∧ _ := by simpa using h
      exact Moves.send count up down hpc
    · cases h
  | receive garbage =>
    cases down with
    | nil => cases h
    | cons msg down =>
      rw [Worker.step, Option.map_eq_some_iff] at h
      obtain ⟨r, hr, h⟩ := h
      obtain ⟨rfl, rfl, rfl⟩ : _ ∧ _ ∧ _ := by simpa using h
      exact moves_receive hr
  | expand item kept =>
    rw [Worker.step] at h
    split_ifs at h with hwork
    obtain ⟨rfl, rfl, rfl⟩ : _ ∧ _ ∧ _ := by simpa using h
    exact Moves.expand item kept up down hwork.1 hwork.2
  | splitRoots roots kept =>
    rw [Worker.step] at h
    split_ifs at h with hwork
    exact moves_sendSteal hwork.1 hwork.2.2 h
  | splitSubtree node kept =>
    rw [Worker.step] at h
    split_ifs at h with hwork
    exact moves_sendSteal hwork.1 hwork.2 h
  | request =>
    rw [Worker.step] at h
    split_ifs at h with hwork
    obtain ⟨rfl, rfl, rfl⟩ : _ ∧ _ ∧ _ := by simpa using h
    exact Moves.request up down hwork.1 hwork.2

/-! ### What is under way -/

/-- The count in a request. -/
def ToMaster.count? : ToMaster Node → Option ℕ
  | .rangeRequest count => some count
  | _ => none

def ToMaster.isLen : ToMaster Node → Bool
  | .stealResponseLen _ => true
  | _ => false

def ToWorker.isSteal : ToWorker Node → Bool
  | .stealRequest => true
  | _ => false

/-- The messages that end a wait in `MoreWork`, other than a termination. -/
def ToWorker.isAnswer : ToWorker Node → Bool
  | .rangeResponse _ _ | .stealResponseLen _ => true
  | _ => false

/-- The request that a worker is about to send. -/
def Worker.Pc.toSend : Worker.Pc → List ℕ
  | .send count => [count]
  | _ => []

/-- Whether a worker waits for an answer to a request. -/
def Worker.Pc.waiting : Worker.Pc → ℕ
  | .send _ | .recv => 1
  | _ => 0

/-- Whether the next message to a worker has to be serialized data. -/
def Worker.Pc.dataNext : Worker.Pc → Bool
  | .recvData _ => true
  | _ => false

/-- The counts of the requests of a worker that the master has not received, the oldest first. -/
def requests (pc : Worker.Pc) (up : List (ToMaster Node)) : List ℕ :=
  up.filterMap ToMaster.count? ++ pc.toSend

/-- A request that is sent is still one that the master has not received. -/
theorem requests_recv_append (count : ℕ) (up : List (ToMaster Node)) :
    requests .recv (up ++ [.rangeRequest count]) = requests (.send count) up := by
  simp [requests, Worker.Pc.toSend, ToMaster.count?]

/-- A worker with no request to send gets one. -/
theorem requests_send (count : ℕ) (up : List (ToMaster Node)) {pc : Worker.Pc}
    (h : pc.toSend = []) : requests (.send count) up = requests pc up ++ [count] := by
  rw [requests, requests, h, List.append_nil]
  rfl

/-- A channel to the master: a steal response, if one is expected, and requests.  The Boolean
says whether the master has received the length and expects the data. -/
inductive FramedUp : Bool → List (ToMaster Node) → Prop
  | requests {up} (h : ∀ msg ∈ up, ∃ count, msg = .rangeRequest count) : FramedUp false up
  | len {areRoots up} (h : FramedUp true up) : FramedUp false (.stealResponseLen areRoots :: up)
  | data {items up} (h : ∀ msg ∈ up, ∃ count, msg = .rangeRequest count) :
      FramedUp true (.data items :: up)

/-- A channel to a worker: data follow their length, and nothing else.  The Boolean says whether
the worker has received the length and expects the data. -/
inductive FramedDown : Bool → List (ToWorker Node) → Prop
  | nil : FramedDown false []
  | range {rangeBegin rangeEnd down} (h : FramedDown false down) :
      FramedDown false (.rangeResponse rangeBegin rangeEnd :: down)
  | steal {down} (h : FramedDown false down) : FramedDown false (.stealRequest :: down)
  | termination {down} (h : FramedDown false down) : FramedDown false (.termination :: down)
  | len {areRoots down} (h : FramedDown true down) :
      FramedDown false (.stealResponseLen areRoots :: down)
  | data {items down} (h : FramedDown false down) : FramedDown true (.data items :: down)

theorem FramedUp.append_request {b : Bool} {up : List (ToMaster Node)} (h : FramedUp b up)
    (count : ℕ) : FramedUp b (up ++ [.rangeRequest count]) := by
  have hreqs : ∀ up : List (ToMaster Node), (∀ msg ∈ up, ∃ n, msg = .rangeRequest n) →
      ∀ msg ∈ up ++ [.rangeRequest count], ∃ n, msg = .rangeRequest n := by
    intro up h
    exact List.forall_mem_append.mpr ⟨h, List.forall_mem_singleton.mpr ⟨count, rfl⟩⟩
  induction h with
  | requests h => exact .requests (hreqs _ h)
  | len _ ih => exact .len ih
  | data h => exact .data (hreqs _ h)

/-- Where a request comes first there is no steal response. -/
theorem FramedUp.of_request {b : Bool} {count : ℕ} {up : List (ToMaster Node)}
    (h : FramedUp b (.rangeRequest count :: up)) :
    b = false ∧ ∀ msg ∈ up, ∃ n, msg = .rangeRequest n := by
  cases h with
  | requests h => exact ⟨rfl, (List.forall_mem_cons.mp h).2⟩

theorem lens_of_requests {up : List (ToMaster Node)}
    (h : ∀ msg ∈ up, ∃ count, msg = .rangeRequest count) : up.countP ToMaster.isLen = 0 := by
  rw [List.countP_eq_zero]
  intro msg hmsg
  obtain ⟨count, rfl⟩ := h msg hmsg
  exact Bool.false_ne_true

/-- A channel with no requests and no steal response is empty. -/
theorem FramedUp.eq_nil {up : List (ToMaster Node)} (h : FramedUp false up)
    (hreqs : up.filterMap ToMaster.count? = []) (hlen : up.countP ToMaster.isLen = 0) :
    up = [] := by
  cases h with
  | requests h =>
    cases up with
    | nil => rfl
    | cons msg up =>
      obtain ⟨count, rfl⟩ := h msg List.mem_cons_self
      cases hreqs
  | len h => simp [ToMaster.isLen] at hlen

theorem FramedDown.append {b : Bool} {down down' : List (ToWorker Node)} (h : FramedDown b down)
    (h' : FramedDown false down') : FramedDown b (down ++ down') := by
  induction h with
  | nil => exact h'
  | range _ ih => exact .range ih
  | steal _ ih => exact .steal ih
  | termination _ ih => exact .termination ih
  | len _ ih => exact .len ih
  | data _ ih => exact .data ih

/-- A channel with no answer, no steal request and no termination is empty. -/
theorem FramedDown.eq_nil {down : List (ToWorker Node)} (h : FramedDown false down)
    (hanswer : down.countP ToWorker.isAnswer = 0) (hsteal : down.countP ToWorker.isSteal = 0)
    (hterm : .termination ∉ down) : down = [] := by
  cases h with
  | nil => rfl
  | range h => simp [ToWorker.isAnswer] at hanswer
  | steal h => simp [ToWorker.isSteal] at hsteal
  | termination h => exact absurd List.mem_cons_self hterm
  | len h => simp [ToWorker.isAnswer] at hanswer

/-! ### The link -/

/-- What holds of a worker, its channels and its state in the master, until termination.
`stealer` says that the master is serving the worker, `victim` that it waits for the worker's
answer to a steal request, and `dataNext` that it waits for the worker's data. -/
structure Link (stealer victim dataNext : Bool) (state : WorkerState) (w : Worker Node)
    (up : List (ToMaster Node)) (down : List (ToWorker Node)) : Prop where
  tokens : (requests w.pc up).length + up.countP ToMaster.isLen + down.countP ToWorker.isSteal
    + down.countP ToWorker.isAnswer + stealer.toNat = w.pc.waiting + victim.toNat
  /-- A worker that runs, or is about to, has no request under way. -/
  busy : w.pc.waiting = 0 ∨ 0 < down.countP ToWorker.isAnswer → requests w.pc up = []
  /-- One answer at most is under way, to a waiting worker, and ahead of steal requests. -/
  answer : down.countP ToWorker.isAnswer ≤ w.pc.waiting
  order : ∀ rest, down = .stealRequest :: rest → rest.countP ToWorker.isAnswer = 0
  roles : victim = true → dataNext = false
  framedUp : FramedUp dataNext up
  framedDown : FramedDown w.pc.dataNext down
  noTermination : .termination ∉ down
  notDone : w.pc ≠ .done
  notTerminated : w.terminated = false
  idle : w.pc ≠ .running → w.work = [] ∧ w.solutionsFound = 0
  /-- Only the oldest request has a count. -/
  tail : ∀ count ∈ (requests w.pc up).tail, count = 0
  /-- The master takes a worker to be waiting only if it is, has no answer under way and has
  reported its solutions. -/
  stealWait : state = .stealWait → w.pc.waiting = 1 ∧ down.countP ToWorker.isAnswer = 0 ∧
    up.countP ToMaster.isLen = 0 ∧ ∀ count ∈ requests w.pc up, count = 0

theorem link_init : Link false false false .roots ({} : Worker Node) [] [] where
  tokens := rfl
  busy h := by simp [Worker.Pc.waiting] at h
  answer := Nat.zero_le _
  order _ h := by cases h
  roles _ := rfl
  framedUp := .requests nofun
  framedDown := .nil
  noTermination := List.not_mem_nil
  notDone := nofun
  notTerminated := rfl
  idle _ := ⟨rfl, rfl⟩
  tail := nofun
  stealWait := nofun

section MoreWork

variable (garbage : ℕ × ℕ) (info : MoreWorkInfo) (items : List (Work Node)) (w : Worker Node)

theorem moreWork_pc (h : info ≠ .nothing ∨ w.firstInfo = none) :
    (w.moreWork c garbage info items).pc = .running := by
  unfold Worker.moreWork
  split
  · rfl
  · rename_i hfirst
    rw [hfirst] at h
    cases info with
    | nothing => exact h.elim (absurd rfl) nofun
    | _ => rfl

theorem moreWork_terminated : (w.moreWork c garbage info items).terminated = w.terminated := by
  unfold Worker.moreWork
  cases w.firstInfo with
  | none => rfl
  | some _ => cases info <;> rfl

/-- A worker keeps the information that its first call of `MoreWork` has returned. -/
theorem moreWork_firstInfo :
    (w.moreWork c garbage info items).firstInfo = some (w.firstInfo.getD info) := by
  unfold Worker.moreWork
  cases w.firstInfo with
  | none => rfl
  | some _ => cases info <;> rfl

end MoreWork

@[simp] theorem expand_pc (item : Work Node) (kept : List (Work Node)) (w : Worker Node) :
    (w.expand c isSolution item kept).pc = w.pc := by
  cases item <;> rfl

@[simp] theorem expand_terminated (item : Work Node) (kept : List (Work Node))
    (w : Worker Node) : (w.expand c isSolution item kept).terminated = w.terminated := by
  cases item <;> rfl

theorem toSend_of_waiting {pc : Worker.Pc} (h : pc.waiting = 0) : pc.toSend = [] := by
  cases pc with
  | send => cases h
  | _ => rfl

section Steps

variable {stealer victim dataNext : Bool} {state : WorkerState} {w w' : Worker Node}
  {up : List (ToMaster Node)} {down : List (ToWorker Node)}

/-- The link with a worker that is not waiting. -/
theorem link_of_busy (hpc : w.pc.waiting = 0)
    (hdone : w.pc ≠ .done) (hterminated : w.terminated = false)
    (hidle : w.pc ≠ .running → w.work = [] ∧ w.solutionsFound = 0)
    (htokens : up.countP ToMaster.isLen + down.countP ToWorker.isSteal + stealer.toNat
      = victim.toNat)
    (hreqs : up.filterMap ToMaster.count? = []) (hanswer : down.countP ToWorker.isAnswer = 0)
    (hroles : victim = true → dataNext = false) (hup : FramedUp dataNext up)
    (hdown : FramedDown w.pc.dataNext down) (hterm : .termination ∉ down)
    (hstate : state ≠ .stealWait) : Link stealer victim dataNext state w up down := by
  have hreqs' : requests w.pc up = [] := by
    rw [requests, hreqs, toSend_of_waiting hpc]
    rfl
  constructor
  case tokens =>
    rw [hreqs', hpc, hanswer]
    show 0 + up.countP ToMaster.isLen + down.countP ToWorker.isSteal + 0 + stealer.toNat
      = 0 + victim.toNat
    omega
  case busy => exact fun _ => hreqs'
  case answer => omega
  case order =>
    intro rest hrest
    rw [hrest, List.countP_cons] at hanswer
    omega
  case roles => exact hroles
  case framedUp => exact hup
  case framedDown => exact hdown
  case noTermination => exact hterm
  case notDone => exact hdone
  case notTerminated => exact hterminated
  case idle => exact hidle
  case tail =>
    rw [hreqs']
    nofun
  case stealWait => exact fun h => absurd h hstate

/-- What the link says of a worker that is not waiting. -/
theorem Link.of_busy (hl : Link stealer victim dataNext state w up down)
    (hpc : w.pc.waiting = 0) :
    up.filterMap ToMaster.count? = [] ∧ down.countP ToWorker.isAnswer = 0 ∧
      up.countP ToMaster.isLen + down.countP ToWorker.isSteal + stealer.toNat = victim.toNat ∧
      state ≠ .stealWait := by
  have hreqs := hl.busy (Or.inl hpc)
  have hanswer := hl.answer
  have htokens := hl.tokens
  rw [hpc] at hanswer
  rw [hreqs, hpc, List.length_nil] at htokens
  refine ⟨(List.append_eq_nil_iff.mp hreqs).1, by omega, by omega, fun hstate => ?_⟩
  have := (hl.stealWait hstate).1
  omega

/-- A worker sends its request. -/
theorem Link.sent (hl : Link stealer victim dataNext state w up down) {count : ℕ}
    (hpc : w.pc = .send count) : Link stealer victim dataNext state { w with pc := .recv }
      (up ++ [.rangeRequest count]) down := by
  have hreqs : requests .recv (up ++ [.rangeRequest count]) = requests w.pc up := by
    rw [hpc]
    exact requests_recv_append count up
  have hlens : (up ++ [ToMaster.rangeRequest count]).countP ToMaster.isLen
      = up.countP ToMaster.isLen := by
    simp [ToMaster.isLen]
  have hwaiting : w.pc.waiting = 1 := by rw [hpc]; rfl
  have hanswer := hl.answer
  have hframed := hl.framedDown
  constructor
  case tokens =>
    rw [hreqs, hlens, hl.tokens, hwaiting]
    rfl
  case busy =>
    rw [hreqs]
    intro h
    exact hl.busy (h.imp_left fun h => absurd h Nat.one_ne_zero)
  case answer =>
    rw [hwaiting] at hanswer
    exact hanswer
  case order => exact hl.order
  case roles => exact hl.roles
  case framedUp => exact hl.framedUp.append_request count
  case framedDown =>
    rw [hpc] at hframed
    exact hframed
  case noTermination => exact hl.noTermination
  case notDone => nofun
  case notTerminated => exact hl.notTerminated
  case idle => exact fun _ => hl.idle (by rw [hpc]; nofun)
  case tail =>
    rw [hreqs]
    exact hl.tail
  case stealWait =>
    intro hstate
    obtain ⟨_, h⟩ := hl.stealWait hstate
    rw [hreqs, hlens]
    exact ⟨rfl, h⟩

/-- A worker that waits takes a steal request, and is about to send a request again. -/
theorem Link.discarded (hl : Link stealer victim dataNext state w up (.stealRequest :: down))
    (hpc : w.pc = .recv) :
    Link stealer victim dataNext state { w with pc := .send 0 } up down := by
  have htokens := hl.tokens
  have hframed := hl.framedDown
  rw [hpc] at htokens hframed
  have horder := hl.order down rfl
  have hreqs : requests (.send 0) up = requests .recv up ++ [0] := requests_send 0 up rfl
  have hzero : ∀ count ∈ ([0] : List ℕ), count = 0 := by simp
  constructor
  case tokens =>
    -- the request takes the place of the steal request
    rw [hreqs]
    simp only [List.length_append, List.length_singleton, List.countP_cons, ToWorker.isSteal,
      ToWorker.isAnswer, Worker.Pc.waiting, if_true, Bool.false_eq_true, if_false] at htokens ⊢
    omega
  case busy =>
    intro h
    exact h.elim (fun h => absurd h Nat.one_ne_zero) fun h => absurd horder (Nat.ne_of_gt h)
  case answer =>
    rw [horder]
    exact Nat.zero_le _
  case order =>
    intro rest hrest
    rw [hrest, List.countP_cons] at horder
    omega
  case roles => exact hl.roles
  case framedUp => exact hl.framedUp
  case framedDown =>
    cases hframed with
    | steal h => exact h
  case noTermination => exact fun h => hl.noTermination (List.mem_cons_of_mem _ h)
  case notDone => nofun
  case notTerminated => exact hl.notTerminated
  case idle => exact fun _ => hl.idle (by rw [hpc]; nofun)
  case tail =>
    have htail := hl.tail
    rw [hpc] at htail
    rw [hreqs]
    cases hcounts : requests .recv up with
    | nil => nofun
    | cons n counts =>
      rw [hcounts] at htail
      exact List.forall_mem_append.mpr ⟨htail, hzero⟩
  case stealWait =>
    intro hstate
    obtain ⟨_, _, hlen, hcounts⟩ := hl.stealWait hstate
    rw [hpc] at hcounts
    rw [hreqs]
    exact ⟨rfl, horder, hlen, List.forall_mem_append.mpr ⟨hcounts, hzero⟩⟩

/-- A worker that takes its answer out of its channel becomes busy. -/
theorem Link.answered {msg : ToWorker Node}
    (hl : Link stealer victim dataNext state w up (msg :: down))
    (hpc : w.pc = .recv) (hmsg : msg.isAnswer = true) (hpc' : w'.pc.waiting = 0)
    (hdone : w'.pc ≠ .done) (hterminated : w'.terminated = w.terminated)
    (hidle : w'.pc ≠ .running → w'.work = [] ∧ w'.solutionsFound = 0)
    (hdown : FramedDown w'.pc.dataNext down) :
    Link stealer victim dataNext state w' up down := by
  have htokens := hl.tokens
  have hanswer := hl.answer
  have hsteal : msg.isSteal = false := by
    cases msg with
    | stealRequest => cases hmsg
    | _ => rfl
  have hreqs : requests .recv up = [] := by
    rw [← hpc]
    apply hl.busy
    right
    rw [List.countP_cons_of_pos hmsg]
    omega
  rw [hpc, hreqs] at htokens
  rw [hpc] at hanswer
  simp only [List.length_nil, List.countP_cons, hmsg, hsteal, Worker.Pc.waiting, if_true,
    Bool.false_eq_true, if_false] at htokens hanswer
  apply link_of_busy hpc' hdone (hterminated.trans hl.notTerminated) hidle
  · omega
  · exact (List.append_eq_nil_iff.mp hreqs).1
  · omega
  · exact hl.roles
  · exact hl.framedUp
  · exact hdown
  · exact fun h => hl.noTermination (List.mem_cons_of_mem _ h)
  · intro hstate
    have := (hl.stealWait hstate).2.1
    rw [List.countP_cons_of_pos hmsg] at this
    omega

/-- A worker takes the data of a steal response, and runs. -/
theorem Link.filled {areRoots : Bool} {items : List (Work Node)}
    (hl : Link stealer victim dataNext state w up (.data items :: down))
    (hpc : w.pc = .recvData areRoots) (hpc' : w'.pc = .running)
    (hterminated : w'.terminated = w.terminated) :
    Link stealer victim dataNext state w' up down := by
  obtain ⟨hreqs, hanswer, htokens, hstate⟩ := hl.of_busy (by rw [hpc]; rfl)
  have hframed := hl.framedDown
  simp only [List.countP_cons, ToWorker.isSteal, ToWorker.isAnswer, Bool.false_eq_true,
    if_false] at htokens hanswer
  apply link_of_busy
  · rw [hpc']
    rfl
  · rw [hpc']
    nofun
  · exact hterminated.trans hl.notTerminated
  · exact fun h => absurd hpc' h
  · exact htokens
  · exact hreqs
  · exact hanswer
  · exact hl.roles
  · exact hl.framedUp
  · rw [hpc] at hframed
    rw [hpc']
    cases hframed with
    | data h => exact h
  · exact fun h => hl.noTermination (List.mem_cons_of_mem _ h)
  · exact hstate

/-- A worker that runs goes on. -/
theorem Link.worked (hl : Link stealer victim dataNext state w up down) (hpc : w.pc = .running)
    (hpc' : w'.pc = w.pc) (hterminated : w'.terminated = w.terminated) :
    Link stealer victim dataNext state w' up down := by
  obtain ⟨hreqs, hanswer, htokens, hstate⟩ := hl.of_busy (by rw [hpc]; rfl)
  apply link_of_busy
  · rw [hpc', hpc]
    rfl
  · rw [hpc']
    exact hl.notDone
  · exact hterminated.trans hl.notTerminated
  · exact fun h => absurd (hpc'.trans hpc) h
  · exact htokens
  · exact hreqs
  · exact hanswer
  · exact hl.roles
  · exact hl.framedUp
  · rw [hpc']
    exact hl.framedDown
  · exact hl.noTermination
  · exact hstate

/-- A worker that runs answers a steal request. -/
theorem Link.hasSplit (areRoots : Bool) (items : List (Work Node))
    (hl : Link stealer victim dataNext state w up (.stealRequest :: down))
    (hpc : w.pc = .running) (hpc' : w'.pc = w.pc) (hterminated : w'.terminated = w.terminated) :
    Link stealer victim dataNext state w' (up ++ [.stealResponseLen areRoots, .data items])
      down := by
  obtain ⟨hreqs, hanswer, htokens, hstate⟩ := hl.of_busy (by rw [hpc]; rfl)
  have hframed := hl.framedDown
  have hvictim := Bool.toNat_le victim
  simp only [List.countP_cons, ToWorker.isSteal, ToWorker.isAnswer, if_true, Bool.false_eq_true,
    if_false] at htokens hanswer
  -- the steal request was the one token of this worker
  have hrole : victim = true := by
    cases victim with
    | true => rfl
    | false =>
      simp only [Bool.toNat_false] at htokens
      omega
  have hdata := hl.roles hrole
  have hup : up = [] := by
    have hframedUp := hl.framedUp
    rw [hdata] at hframedUp
    exact hframedUp.eq_nil hreqs (by omega)
  subst hup
  apply link_of_busy
  · rw [hpc', hpc]
    rfl
  · rw [hpc']
    exact hl.notDone
  · exact hterminated.trans hl.notTerminated
  · exact fun h => absurd (hpc'.trans hpc) h
  · simp only [List.nil_append, List.countP_cons, List.countP_nil, ToMaster.isLen, if_true,
      Bool.false_eq_true, if_false]
    omega
  · rfl
  · exact hanswer
  · exact hl.roles
  · rw [hdata]
    exact .len (.data nofun)
  · rw [hpc] at hframed
    rw [hpc', hpc]
    cases hframed with
    | steal h => exact h
  · exact fun h => hl.noTermination (List.mem_cons_of_mem _ h)
  · exact hstate

/-- A worker that has no work left is about to send a request. -/
theorem Link.asked (hl : Link stealer victim dataNext state w up down) (hpc : w.pc = .running)
    (hwork : w.work = []) : Link stealer victim dataNext state
      { w with pc := .send w.solutionsFound, solutionsFound := 0 } up down := by
  obtain ⟨hcounts, hanswer, htokens, hstate⟩ := hl.of_busy (by rw [hpc]; rfl)
  have hframed := hl.framedDown
  have hreqs : requests (.send w.solutionsFound) up = [w.solutionsFound] := by
    rw [requests, hcounts]
    rfl
  constructor
  case tokens =>
    rw [hreqs]
    simp only [List.length_singleton, Worker.Pc.waiting]
    omega
  case busy =>
    intro h
    exact h.elim (fun h => absurd h Nat.one_ne_zero) fun h => absurd hanswer (Nat.ne_of_gt h)
  case answer => exact hanswer.trans_le (Nat.zero_le _)
  case order => exact hl.order
  case roles => exact hl.roles
  case framedUp => exact hl.framedUp
  case framedDown =>
    rw [hpc] at hframed
    exact hframed
  case noTermination => exact hl.noTermination
  case notDone => nofun
  case notTerminated => exact hl.notTerminated
  case idle => exact fun _ => ⟨hwork, rfl⟩
  case tail =>
    rw [hreqs]
    nofun
  case stealWait => exact fun h => absurd h hstate

/-- **A step of a worker keeps the link.** -/
theorem Moves.link {up' : List (ToMaster Node)} {down' : List (ToWorker Node)}
    (h : Moves c isSolution w up down w' up' down')
    (hl : Link stealer victim dataNext state w up down) :
    Link stealer victim dataNext state w' up' down' := by
  have hframed := hl.framedDown
  cases h with
  | send count _ _ hpc => exact hl.sent hpc
  | discard _ down' hpc => exact hl.discarded hpc
  | gotLen areRoots _ down' hpc =>
    apply hl.answered hpc rfl
    · rfl
    · nofun
    · rfl
    · exact fun _ => hl.idle (by rw [hpc]; nofun)
    · rw [hpc] at hframed
      cases hframed with
      | len h => exact h
  | gotRange garbage b e _ down' hpc =>
    have hpc' : (w.moreWork c garbage .range (w.rangeItems c b e)).pc = .running :=
      moreWork_pc _ _ _ _ (Or.inl nofun)
    apply hl.answered hpc rfl
    · rw [hpc']
      rfl
    · rw [hpc']
      nofun
    · exact moreWork_terminated _ _ _ _
    · exact fun h => absurd hpc' h
    · rw [hpc] at hframed
      rw [hpc']
      cases hframed with
      | range h => exact h
  | gotTermination garbage _ down' hpc => exact absurd List.mem_cons_self hl.noTermination
  | gotData garbage areRoots items _ down' hpc =>
    apply hl.filled hpc
    · apply moreWork_pc
      left
      split_ifs <;> nofun
    · exact moreWork_terminated _ _ _ _
  | expand item kept _ _ hpc hwork =>
    exact hl.worked hpc (expand_pc item kept w) (expand_terminated item kept w)
  | split areRoots items kept _ down' hpc hwork => exact hl.hasSplit areRoots items hpc rfl rfl
  | request _ _ hpc hwork => exact hl.asked hpc hwork

end Steps

end ParallelEnum.DistributedMpi
