import ParallelEnum.Enumerator.Equiv.DistributedMpi.Links
import ParallelEnum.Theory.Transition

/-!
# The links along a run

What a receive of the master does to the links (`Link.consumed`, `Link.range`, `Link.forward`),
what the broadcast of the termination turns them into (`FinalLink`), and the invariant `Inv` of
the whole system that follows: until the master returns every worker is linked to it, and from
then on every worker is finally linked to it.
-/

namespace ParallelEnum.DistributedMpi

open ParallelPthreadsSteal (FiniteSystem)
open Transition

variable {Node : Type} {W : ℕ} {c : FiniteSystem Node} {isSolution : Node → Bool}

/-! ### Receives of the master -/

section Receive

variable {stealer victim dataNext : Bool} {state : WorkerState} {w : Worker Node} {count : ℕ}
  {up : List (ToMaster Node)} {down : List (ToWorker Node)}

theorem requests_cons (pc : Worker.Pc) :
    requests pc (.rangeRequest count :: up) = count :: requests pc up := rfl

/-- The worker whose request comes first is waiting, and no answer is on its way. -/
theorem Link.waiting (hl : Link stealer victim dataNext state w (.rangeRequest count :: up) down) :
    w.pc.waiting = 1 ∧ down.countP ToWorker.isAnswer = 0 ∧ up.countP ToMaster.isLen = 0 ∧
      dataNext = false ∧ ∀ n ∈ requests w.pc up, n = 0 := by
  have hne : requests w.pc (.rangeRequest count :: up) ≠ [] := by
    rw [requests_cons]
    exact List.cons_ne_nil _ _
  have hbusy : ¬(w.pc.waiting = 0 ∨ 0 < down.countP ToWorker.isAnswer) := fun h => hne (hl.busy h)
  obtain ⟨hdata, hup⟩ := hl.framedUp.of_request
  have htail := hl.tail
  rw [requests_cons] at htail
  refine ⟨?_, ?_, lens_of_requests hup, hdata, htail⟩
  · cases hpc : w.pc with
    | send | recv => rfl
    | _ =>
      rw [hpc] at hbusy
      exact absurd (Or.inl rfl) hbusy
  · omega

/-- The master takes the sender of a request that it has received to be waiting: to be served,
if it received the request from any source, or not, if it waited for an answer of the worker. -/
theorem Link.consumed (hl : Link stealer victim dataNext state w (.rangeRequest count :: up) down)
    {stealer' victim' : Bool}
    (hroles : stealer'.toNat + victim.toNat = stealer.toNat + victim'.toNat + 1) :
    Link stealer' victim' false .stealWait w up down := by
  obtain ⟨hwaiting, hanswer, hlen, hdata, hzero⟩ := hl.waiting
  obtain ⟨_, hup⟩ := hl.framedUp.of_request
  have htokens := hl.tokens
  constructor
  case tokens =>
    rw [requests_cons, List.length_cons, List.countP_cons_of_neg (by simp [ToMaster.isLen])]
      at htokens
    omega
  case busy =>
    intro h
    omega
  case answer => exact hl.answer
  case order => exact hl.order
  case roles => exact fun _ => rfl
  case framedUp => exact .requests hup
  case framedDown => exact hl.framedDown
  case noTermination => exact hl.noTermination
  case notDone => exact hl.notDone
  case notTerminated => exact hl.notTerminated
  case idle => exact hl.idle
  case tail => exact fun n hn => hzero n (List.mem_of_mem_tail hn)
  case stealWait => exact fun _ => ⟨hwaiting, hanswer, hlen, hzero⟩

/-- Nothing is under way to or from a worker that is being served, or has no other role. -/
theorem Link.channels_eq_nil (hl : Link stealer false dataNext state w up down)
    (hserved : stealer = true ∨ requests w.pc up ≠ []) (hdata : dataNext = false) :
    down = [] ∧ (stealer = true → up = [] ∧ requests w.pc up = []) := by
  have htokens := hl.tokens
  have hanswer := hl.answer
  have hlength : requests w.pc up ≠ [] → 0 < (requests w.pc up).length := List.length_pos_of_ne_nil
  rw [Bool.toNat_false, Nat.add_zero] at htokens
  have hle : w.pc.waiting ≤ 1 := by cases w.pc <;> simp [Worker.Pc.waiting]
  have hpos : 0 < stealer.toNat + (requests w.pc up).length := by
    rcases hserved with rfl | h
    · simp
    · have := hlength h
      omega
  have hframed := hl.framedDown
  have hnext : w.pc.dataNext = false := by
    cases hpc : w.pc with
    | recvData =>
      have hwaiting : w.pc.waiting = 0 := by rw [hpc]; rfl
      omega
    | _ => rfl
  rw [hnext] at hframed
  refine ⟨hframed.eq_nil (by omega) (by omega) hl.noTermination, ?_⟩
  rintro rfl
  rw [Bool.toNat_true] at htokens
  have hreqs : requests w.pc up = [] := List.eq_nil_of_length_eq_zero (by omega)
  have hup := hl.framedUp
  rw [hdata] at hup
  exact ⟨hup.eq_nil (List.append_eq_nil_iff.mp hreqs).1 (by omega), hreqs⟩

/-- The link with a worker that has been sent an answer, and nothing else. -/
theorem link_of_answer {w : Worker Node} (hpc : w.pc.waiting = 1)
    (hreqs : requests w.pc up = []) (hup : up = []) (hidle : w.work = [] ∧ w.solutionsFound = 0)
    (hterminated : w.terminated = false) (hdown : FramedDown false down)
    (hanswer : down.countP ToWorker.isAnswer = 1) (hsteal : down.countP ToWorker.isSteal = 0)
    (hterm : .termination ∉ down) (hstate : state ≠ .stealWait) :
    Link false false false state w up down := by
  have hnext : w.pc.dataNext = false := by
    cases hpc' : w.pc with
    | recvData =>
      rw [hpc'] at hpc
      cases hpc
    | _ => rfl
  subst hup
  constructor
  case tokens =>
    rw [hreqs, hanswer, hsteal, hpc]
    rfl
  case busy => exact fun _ => hreqs
  case answer => omega
  case order =>
    intro rest hrest
    rw [hrest, List.countP_cons_of_pos rfl] at hsteal
    omega
  case roles => exact fun _ => rfl
  case framedUp => exact .requests nofun
  case framedDown =>
    rw [hnext]
    exact hdown
  case noTermination => exact hterm
  case notDone =>
    intro hdone
    rw [hdone] at hpc
    cases hpc
  case notTerminated => exact hterminated
  case idle => exact fun _ => hidle
  case tail =>
    rw [hreqs]
    nofun
  case stealWait => exact fun h => absurd h hstate

/-- A request from any source is answered with a range. -/
theorem Link.range (hl : Link false false false state w (.rangeRequest count :: up) down)
    (hstate : state ≠ .stealWait) (rangeBegin rangeEnd : ℕ) :
    down = [] ∧
      Link false false false state w up (down ++ [.rangeResponse rangeBegin rangeEnd]) := by
  obtain ⟨hwaiting, _⟩ := hl.waiting
  have hserved : Link true false false .stealWait w up down := hl.consumed rfl
  obtain ⟨rfl, h⟩ := hserved.channels_eq_nil (Or.inl rfl) rfl
  obtain ⟨hup, hreqs⟩ := h rfl
  have hrunning : w.pc ≠ .running := by
    intro hpc
    rw [hpc] at hwaiting
    cases hwaiting
  refine ⟨rfl, ?_⟩
  apply link_of_answer hwaiting hreqs hup (hl.idle hrunning) hl.notTerminated
  · exact .range .nil
  · rfl
  · rfl
  · simp
  · exact hstate

/-- A steal request is sent to a worker. -/
theorem Link.steal (hl : Link stealer false false state w up down) :
    Link stealer true false state w up (down ++ [.stealRequest]) := by
  have htokens := hl.tokens
  have hanswer : (down ++ [(ToWorker.stealRequest : ToWorker Node)]).countP ToWorker.isAnswer
      = down.countP ToWorker.isAnswer := by
    simp [ToWorker.isAnswer]
  constructor
  case tokens =>
    rw [hanswer, List.countP_append]
    simp only [List.countP_cons, List.countP_nil, ToWorker.isSteal, if_true, Bool.toNat_false,
      Bool.toNat_true] at htokens ⊢
    omega
  case busy =>
    rw [hanswer]
    exact hl.busy
  case answer =>
    rw [hanswer]
    exact hl.answer
  case order =>
    intro rest hrest
    cases down with
    | nil =>
      obtain rfl : [] = rest := by simpa using hrest
      rfl
    | cons msg down =>
      obtain ⟨rfl, rfl⟩ := List.cons.inj hrest
      show (down ++ [ToWorker.stealRequest]).countP ToWorker.isAnswer = 0
      rw [List.countP_append, hl.order down rfl]
      rfl
  case roles => exact fun _ => rfl
  case framedUp => exact hl.framedUp
  case framedDown => exact hl.framedDown.append (.steal .nil)
  case noTermination =>
    intro h
    rcases List.mem_append.mp h with h | h
    · exact hl.noTermination h
    · cases List.mem_singleton.mp h
  case notDone => exact hl.notDone
  case notTerminated => exact hl.notTerminated
  case idle => exact hl.idle
  case tail => exact hl.tail
  case stealWait =>
    rw [hanswer]
    exact hl.stealWait

/-- The length of a steal response is received. -/
theorem Link.gotLen {areRoots : Bool}
    (hl : Link stealer true dataNext state w (.stealResponseLen areRoots :: up) down) :
    Link stealer false true state w up down := by
  have htokens := hl.tokens
  constructor
  case tokens =>
    rw [List.countP_cons_of_pos rfl, Bool.toNat_true] at htokens
    show (requests w.pc up).length + _ + _ + _ + _ = _
    have : requests w.pc (.stealResponseLen areRoots :: up) = requests w.pc up := rfl
    rw [this] at htokens
    rw [Bool.toNat_false]
    omega
  case busy => exact hl.busy
  case answer => exact hl.answer
  case order => exact hl.order
  case roles => nofun
  case framedUp =>
    have hup := hl.framedUp
    rw [hl.roles rfl] at hup
    cases hup with
    | requests h => exact absurd (h _ List.mem_cons_self) nofun
    | len h => exact h
  case framedDown => exact hl.framedDown
  case noTermination => exact hl.noTermination
  case notDone => exact hl.notDone
  case notTerminated => exact hl.notTerminated
  case idle => exact hl.idle
  case tail => exact hl.tail
  case stealWait =>
    intro hstate
    have hlen := (hl.stealWait hstate).2.2.1
    rw [List.countP_cons_of_pos rfl] at hlen
    omega

/-- The data of a steal response are received. -/
theorem Link.gotData {items : List (Work Node)}
    (hl : Link stealer false true state w (.data items :: up) down) :
    Link stealer false false state w up down := by
  have hlen : (ToMaster.data items :: up).countP ToMaster.isLen = up.countP ToMaster.isLen := by
    rw [List.countP_cons_of_neg (by simp [ToMaster.isLen])]
  constructor
  case tokens =>
    rw [← hlen]
    exact hl.tokens
  case busy => exact hl.busy
  case answer => exact hl.answer
  case order => exact hl.order
  case roles => exact fun _ => rfl
  case framedUp =>
    cases hl.framedUp with
    | data h => exact .requests h
  case framedDown => exact hl.framedDown
  case noTermination => exact hl.noTermination
  case notDone => exact hl.notDone
  case notTerminated => exact hl.notTerminated
  case idle => exact hl.idle
  case tail => exact hl.tail
  case stealWait =>
    rw [← hlen]
    exact hl.stealWait

/-- The worker that is being served is sent the data of a steal response. -/
theorem Link.forward (hl : Link true false false state w up down) (areRoots : Bool)
    (items : List (Work Node)) :
    Link false false false .stealProcessing w up
      (down ++ [.stealResponseLen areRoots, .data items]) := by
  obtain ⟨rfl, h⟩ := hl.channels_eq_nil (Or.inl rfl) rfl
  obtain ⟨hup, hreqs⟩ := h rfl
  have htokens := hl.tokens
  rw [hreqs] at htokens
  have hwaiting : w.pc.waiting = 1 := by
    have hle : w.pc.waiting ≤ 1 := by cases w.pc <;> simp [Worker.Pc.waiting]
    simp only [Bool.toNat_true, Bool.toNat_false] at htokens
    omega
  have hrunning : w.pc ≠ .running := by
    intro hpc
    rw [hpc] at hwaiting
    cases hwaiting
  apply link_of_answer hwaiting hreqs hup (hl.idle hrunning) hl.notTerminated
  · exact .len (.data .nil)
  · rfl
  · rfl
  · simp
  · decide

end Receive

/-! ### After the termination -/

def ToWorker.isTermination : ToWorker Node → Bool
  | .termination => true
  | _ => false

/-- Every call of `MoreWork` that has returned for the first time has returned a range. -/
def Worker.StartedWithRange (w : Worker Node) : Prop :=
  ∀ info, w.firstInfo = some info → info = .range

/-- What holds of a worker and its channels when the master has sent the termination; `last` says
that the master served this worker last. -/
structure FinalLink (last : Bool) (w : Worker Node) (up : List (ToMaster Node))
    (down : List (ToWorker Node)) : Prop where
  tokens : (requests w.pc up).length + down.countP ToWorker.isSteal
    + down.countP ToWorker.isTermination + last.toNat = w.pc.waiting + 1
  requestsOnly : ∀ msg ∈ up, ∃ count, msg = .rangeRequest count
  /-- The termination comes last. -/
  ends : down = [] ∨
    ∃ steals, (∀ msg ∈ steals, msg = .stealRequest) ∧ down = steals ++ [.termination]
  waiting : down ≠ [] → w.pc.waiting = 1
  received : w.terminated = true ↔ down = []
  dataNext : w.pc.dataNext = false
  /-- A worker that did not start with a garbage range has nothing left to do. -/
  clean : w.StartedWithRange → w.pc ≠ .running ∧ w.work = [] ∧ w.solutionsFound = 0 ∧
    ∀ count ∈ requests w.pc up, count = 0

/-- A worker that has nothing left to do has reported all of its solutions. -/
theorem FinalLink.toMaster_eq {last : Bool} {w : Worker Node} {up : List (ToMaster Node)}
    {down : List (ToWorker Node)} (hl : FinalLink last w up down) (hstarted : w.StartedWithRange) :
    ∀ msg ∈ up, msg = .rangeRequest 0 := by
  intro msg hmsg
  obtain ⟨count, rfl⟩ := hl.requestsOnly msg hmsg
  obtain ⟨_, _, _, hzero⟩ := hl.clean hstarted
  rw [hzero count (List.mem_append_left _ (List.mem_filterMap.mpr ⟨_, hmsg, rfl⟩))]

theorem FinalLink.toWorker_eq {last : Bool} {w : Worker Node} {up : List (ToMaster Node)}
    {down : List (ToWorker Node)} (hl : FinalLink last w up down) :
    ∀ msg ∈ down, msg = .stealRequest ∨ msg = .termination := by
  intro msg hmsg
  rcases hl.ends with heq | ⟨steals, hsteals, heq⟩
  · rw [heq] at hmsg
    cases hmsg
  · rw [heq] at hmsg
    rcases List.mem_append.mp hmsg with hmsg | hmsg
    · exact Or.inl (hsteals msg hmsg)
    · exact Or.inr (List.mem_singleton.mp hmsg)

/-- With no answer and no termination under way there are only steal requests. -/
theorem FramedDown.all_steal {down : List (ToWorker Node)} (h : FramedDown false down)
    (hanswer : down.countP ToWorker.isAnswer = 0) (hterm : .termination ∉ down) :
    ∀ msg ∈ down, msg = .stealRequest := by
  rw [List.countP_eq_zero] at hanswer
  have hall : ∀ {b} {down : List (ToWorker Node)}, FramedDown b down → b = false →
      (∀ msg ∈ down, ¬msg.isAnswer = true) → .termination ∉ down →
      ∀ msg ∈ down, msg = .stealRequest := by
    intro b down h
    induction h with
    | nil => exact fun _ _ _ => nofun
    | range => exact fun _ h => absurd rfl (h _ List.mem_cons_self)
    | steal _ ih =>
      intro _ hanswer hterm
      have hrest := ih rfl (fun msg hmsg => hanswer msg (List.mem_cons_of_mem _ hmsg))
        fun h => hterm (List.mem_cons_of_mem _ h)
      exact List.forall_mem_cons.mpr ⟨rfl, hrest⟩
    | termination => exact fun _ _ h => absurd List.mem_cons_self h
    | len => exact fun _ h => absurd rfl (h _ List.mem_cons_self)
    | data => exact fun h => absurd h (Ne.symm Bool.false_ne_true)
  exact hall h rfl hanswer hterm

/-- The termination is sent to workers that are all taken to be waiting. -/
theorem Link.terminate {stealer : Bool} {w : Worker Node} {up : List (ToMaster Node)}
    {down : List (ToWorker Node)} (hl : Link stealer false false .stealWait w up down) :
    FinalLink stealer w up (down ++ [.termination]) := by
  obtain ⟨hwaiting, hanswer, hlen, hzero⟩ := hl.stealWait rfl
  have htokens := hl.tokens
  have hframed := hl.framedDown
  have hpc : w.pc.dataNext = false ∧ w.pc ≠ .running := by
    cases hpc : w.pc with
    | send | recv => exact ⟨rfl, nofun⟩
    | _ =>
      rw [hpc] at hwaiting
      cases hwaiting
  rw [hpc.1] at hframed
  have hsteals := hframed.all_steal hanswer hl.noTermination
  have hnone : down.countP ToWorker.isTermination = 0 := by
    rw [List.countP_eq_zero]
    intro msg hmsg
    rw [hsteals msg hmsg]
    exact Bool.false_ne_true
  constructor
  case tokens =>
    rw [List.countP_append, List.countP_append, hnone]
    rw [hlen, hanswer, Bool.toNat_false] at htokens
    show _ + (_ + 0) + (0 + 1) + _ = _
    omega
  case requestsOnly =>
    have hup := hl.framedUp
    cases hup with
    | requests h => exact h
    | len h =>
      rw [List.countP_cons_of_pos rfl] at hlen
      omega
  case ends => exact Or.inr ⟨down, hsteals, rfl⟩
  case waiting => exact fun _ => hwaiting
  case received =>
    rw [hl.notTerminated]
    simp
  case dataNext => exact hpc.1
  case clean =>
    intro _
    obtain ⟨hwork, hfound⟩ := hl.idle hpc.2
    exact ⟨hpc.2, hwork, hfound, hzero⟩

section MoreWork

variable (garbage : ℕ × ℕ) (items : List (Work Node)) (w : Worker Node)

/-- After the termination a worker has returned, or runs on a garbage range. -/
theorem moreWork_nothing :
    (w.moreWork c garbage .nothing items).pc = .done ∧ w.firstInfo ≠ none ∧
        w.moreWork c garbage .nothing items = { w with pc := .done } ∨
      (w.moreWork c garbage .nothing items).pc = .running ∧
        (w.moreWork c garbage .nothing items).firstInfo = some .nothing := by
  unfold Worker.moreWork
  cases hfirst : w.firstInfo with
  | none => exact Or.inr ⟨rfl, rfl⟩
  | some info => exact Or.inl ⟨rfl, nofun, rfl⟩

end MoreWork

@[simp] theorem expand_firstInfo (item : Work Node) (kept : List (Work Node)) (w : Worker Node) :
    (w.expand c isSolution item kept).firstInfo = w.firstInfo := by
  cases item <;> rfl

section Steps

variable {last : Bool} {w w' : Worker Node} {up : List (ToMaster Node)}
  {down : List (ToWorker Node)}

/-- What comes first in a channel that ends with the termination. -/
theorem FinalLink.head {msg : ToWorker Node} (hl : FinalLink last w up (msg :: down)) :
    (msg = .stealRequest ∧ down ≠ [] ∧ ∃ steals, (∀ msg ∈ steals, msg = .stealRequest) ∧
      down = steals ++ [.termination]) ∨ (msg = .termination ∧ down = []) := by
  rcases hl.ends with h | ⟨steals, hsteals, h⟩
  · cases h
  · cases steals with
    | nil =>
      obtain ⟨rfl, rfl⟩ := List.cons.inj h
      exact Or.inr ⟨rfl, rfl⟩
    | cons msg' steals =>
      obtain ⟨rfl, rfl⟩ := List.cons.inj h
      obtain ⟨hmsg, hsteals⟩ := List.forall_mem_cons.mp hsteals
      exact Or.inl ⟨hmsg, List.append_ne_nil_of_right_ne_nil _ nofun, steals, hsteals, rfl⟩

/-- A worker that runs has received the termination. -/
theorem FinalLink.eq_nil (hl : FinalLink last w up down) (hpc : w.pc = .running) : down = [] := by
  by_contra hne
  have := hl.waiting hne
  rw [hpc] at this
  cases this

/-- A worker sends its request. -/
theorem FinalLink.sent (hl : FinalLink last w up down) {count : ℕ} (hpc : w.pc = .send count) :
    FinalLink last { w with pc := .recv } (up ++ [.rangeRequest count]) down := by
  have htokens := hl.tokens
  have hreqs : requests .recv (up ++ [.rangeRequest count]) = requests w.pc up := by
    rw [hpc]
    exact requests_recv_append count up
  rw [hpc] at htokens
  constructor
  case tokens =>
    rw [hreqs, hpc]
    exact htokens
  case requestsOnly =>
    exact List.forall_mem_append.mpr
      ⟨hl.requestsOnly, List.forall_mem_singleton.mpr ⟨count, rfl⟩⟩
  case ends => exact hl.ends
  case waiting => exact fun _ => rfl
  case received => exact hl.received
  case dataNext => rfl
  case clean =>
    intro hclean
    obtain ⟨_, hwork, hfound, hzero⟩ := hl.clean hclean
    rw [hreqs]
    exact ⟨nofun, hwork, hfound, hzero⟩

/-- A worker that waits takes a steal request that precedes the termination. -/
theorem FinalLink.discarded (hl : FinalLink last w up (.stealRequest :: down))
    (hpc : w.pc = .recv) : FinalLink last { w with pc := .send 0 } up down := by
  rcases hl.head with ⟨_, hne, hends⟩ | ⟨h, _⟩
  · have htokens := hl.tokens
    have hreqs : requests (.send 0) up = requests w.pc up ++ [0] :=
      requests_send 0 up (by rw [hpc]; rfl)
    rw [hpc] at htokens
    constructor
    case tokens =>
      rw [hreqs, hpc]
      simp only [List.length_append, List.length_singleton, List.countP_cons,
        ToWorker.isSteal, ToWorker.isTermination, Worker.Pc.waiting, if_true,
        Bool.false_eq_true, if_false] at htokens ⊢
      omega
    case requestsOnly => exact hl.requestsOnly
    case ends => exact Or.inr hends
    case waiting => exact fun _ => rfl
    case received =>
      constructor
      · exact fun h => absurd (hl.received.mp h) (List.cons_ne_nil _ _)
      · exact fun h => absurd h hne
    case dataNext => rfl
    case clean =>
      intro hclean
      obtain ⟨_, hwork, hfound, hzero⟩ := hl.clean hclean
      rw [hreqs]
      refine ⟨(fun h => by cases h), hwork, hfound, List.forall_mem_append.mpr ⟨hzero, ?_⟩⟩
      exact List.forall_mem_singleton.mpr rfl
  · cases h

/-- A worker that waits takes the termination, which is the last message to it. -/
theorem FinalLink.ended (hl : FinalLink last w up (.termination :: down)) (hpc : w.pc = .recv)
    (garbage : ℕ × ℕ) :
    FinalLink last ({ w with terminated := true }.moreWork c garbage .nothing []) up down := by
  rcases hl.head with ⟨h, _⟩ | ⟨_, rfl⟩
  · cases h
  · have htokens := hl.tokens
    set w₀ : Worker Node := { w with terminated := true } with hw₀
    have hmore := moreWork_nothing (c := c) garbage [] w₀
    set w' := w₀.moreWork c garbage .nothing [] with hw'
    have hwaiting : w'.pc.waiting = 0 ∧ w'.pc.dataNext = false := by
      rcases hmore with ⟨h, _⟩ | ⟨h, _⟩ <;> rw [h] <;> exact ⟨rfl, rfl⟩
    have hreqs : requests w'.pc up = requests w.pc up := by
      rw [requests, requests, toSend_of_waiting hwaiting.1, hpc]
      rfl
    rw [hpc] at htokens
    constructor
    case tokens =>
      rw [hreqs, hwaiting.1, hpc]
      simp only [List.countP_cons, List.countP_nil, ToWorker.isSteal, ToWorker.isTermination,
        Worker.Pc.waiting, if_true, Bool.false_eq_true, if_false] at htokens ⊢
      omega
    case requestsOnly => exact hl.requestsOnly
    case ends => exact Or.inl rfl
    case waiting => exact fun h => absurd rfl h
    case received => exact ⟨fun _ => rfl, fun _ => moreWork_terminated _ _ _ _⟩
    case dataNext => exact hwaiting.2
    case clean =>
      intro hclean
      rcases hmore with ⟨hpc', hfirst, heq⟩ | ⟨_, hfirst⟩
      · have hclean₀ : w.StartedWithRange := by
          intro info hinfo
          apply hclean
          rw [heq]
          exact hinfo
        obtain ⟨_, hwork, hfound, hzero⟩ := hl.clean hclean₀
        rw [hreqs, heq]
        exact ⟨(fun h => by cases h), hwork, hfound, hzero⟩
      · exact absurd (hclean _ hfirst) (by decide)

/-- A worker that runs on its garbage range goes on. -/
theorem FinalLink.worked (hl : FinalLink last w up down) (hpc : w.pc = .running)
    (hpc' : w'.pc = w.pc) (hterminated : w'.terminated = w.terminated)
    (hfirst : w'.firstInfo = w.firstInfo) : FinalLink last w' up down := by
  constructor
  case tokens =>
    rw [hpc']
    exact hl.tokens
  case requestsOnly => exact hl.requestsOnly
  case ends => exact hl.ends
  case waiting => exact fun h => absurd (hl.eq_nil hpc) h
  case received =>
    rw [hterminated]
    exact hl.received
  case dataNext =>
    rw [hpc']
    exact hl.dataNext
  case clean =>
    intro hclean
    have hclean₀ : w.StartedWithRange := by
      intro info hinfo
      apply hclean
      rw [hfirst]
      exact hinfo
    exact absurd hpc (hl.clean hclean₀).1

/-- A worker that has no work left is about to send a request. -/
theorem FinalLink.asked (hl : FinalLink last w up down) (hpc : w.pc = .running) :
    FinalLink last { w with pc := .send w.solutionsFound, solutionsFound := 0 } up down := by
  have htokens := hl.tokens
  have hreqs : requests (.send w.solutionsFound) up = requests w.pc up ++ [w.solutionsFound] :=
    requests_send _ up (by rw [hpc]; rfl)
  rw [hpc] at htokens
  constructor
  case tokens =>
    rw [hreqs, hpc]
    simp only [List.length_append, List.length_singleton, Worker.Pc.waiting] at htokens ⊢
    omega
  case requestsOnly => exact hl.requestsOnly
  case ends => exact hl.ends
  case waiting => exact fun _ => rfl
  case received => exact hl.received
  case dataNext => rfl
  case clean =>
    intro hclean
    exact absurd hpc (hl.clean hclean).1

/-- **A step of a worker keeps the final link.** -/
theorem Moves.finalLink {up' : List (ToMaster Node)} {down' : List (ToWorker Node)}
    (h : Moves c isSolution w up down w' up' down') (hl : FinalLink last w up down) :
    FinalLink last w' up' down' := by
  cases h with
  | send count _ _ hpc => exact hl.sent hpc
  | discard _ down' hpc => exact hl.discarded hpc
  | gotLen | gotRange | gotData => rcases hl.head with ⟨h, _⟩ | ⟨h, _⟩ <;> cases h
  | gotTermination garbage _ down' hpc => exact hl.ended hpc garbage
  | expand item kept _ _ hpc hwork =>
    exact hl.worked hpc (expand_pc item kept w) (expand_terminated item kept w)
      (expand_firstInfo item kept w)
  | split areRoots items kept _ down' hpc hwork => exact absurd (hl.eq_nil hpc) nofun
  | request _ _ hpc hwork => exact hl.asked hpc

end Steps

end ParallelEnum.DistributedMpi
