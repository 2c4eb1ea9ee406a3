import Mathlib.Algebra.BigOperators.Group.Multiset.Basic
import Mathlib.Data.Multiset.AddSub
import ParallelEnum.Theory.Tickets
import ParallelEnum.Util.ConcurrentQueue

/-!
# No element is lost and none is taken twice

A step of `dequeue` is a move of a party with a ticket (`Dequeue.Moved`), so the tickets tell that a
call which passes both comparisons finds an element.  `Producer.Inv` adds where the objects are;
it speaks of the calls of any threads, so that it can be used for the queue of any producer.

* `Inv`: in every interleaving the elements that have been taken and those that are left are those
  that were put in, each once, and each consumer gets its elements in their order.
* `exists_run_of_quiet`: a call during which no other call runs takes the oldest element, and fails
  only if there is none.
-/

namespace ParallelEnum.ConcurrentQueue

open Tickets Transition

variable {T : Type}

/-! ### Tickets -/

/-- The counters as those of a ticket queue. -/
def Producer.counters (p : Producer T) : Counters where
  tail := p.tailIndex
  head := p.headIndex
  optimistic := p.dequeueOptimisticCount
  overcommit := p.dequeueOvercommit

/-- Where a call stands. -/
def Dequeue.place : Dequeue → Place
  | .gotOvercommit _ overcommit => .looking overcommit
  | .draw overcommit => .looking overcommit
  | .drawn overcommit myDequeueCount => .holding overcommit myDequeueCount
  | .take => .admitted
  | .giveBack => .refused
  | _ => .outside

/-- Where a thread stands that may be in a call. -/
def callPlace (call : Option Dequeue) : Place := call.elim .outside Dequeue.place

/-- A step changes the counters, takes a place, or moves an element out of its place. -/
inductive Dequeue.Moved (p : Producer T) : Dequeue → Producer T → Dequeue ⊕ Option T → Prop
  | count {d : Dequeue} {optimistic overcommit : ℕ} (d' : Option Dequeue)
      (h : Move p.counters d.place ⟨p.tailIndex, p.headIndex, optimistic, overcommit⟩
        (callPlace d'))
      (hd : ∀ j, d ≠ .moveOut j) (hd' : ∀ j, d' ≠ some (.moveOut j)) :
      Moved p d
        { p with dequeueOptimisticCount := optimistic, dequeueOvercommit := overcommit }
        (d'.elim (.inr none) .inl)
  | take : Moved p .take { p with headIndex := p.headIndex + 1 } (.inl (.moveOut p.headIndex))
  | moveOut {index : ℕ} {element : T} (h : p.elements index = some element) :
      Moved p (.moveOut index)
        { p with elements := Function.update p.elements index none } (.inr (some element))

theorem Dequeue.moved_of_step {p p' : Producer T} {d : Dequeue} {r : Dequeue ⊕ Option T}
    (h : d.step p = some (p', r)) : Dequeue.Moved p d p' r := by
  cases d with
  | start =>
    obtain ⟨rfl, rfl⟩ := Prod.mk.inj (Option.some.inj h)
    exact .count (some (.gotTail _)) (.stay _) (fun _ hd => by cases hd) fun _ hd => by cases hd
  | gotTail tail =>
    obtain ⟨rfl, rfl⟩ := Prod.mk.inj (Option.some.inj h)
    exact .count (some (.gotOvercommit _ _)) .look (fun _ hd => by cases hd) fun _ hd => by cases hd
  | gotOvercommit tail overcommit =>
    rw [step] at h
    split_ifs at h
    · obtain ⟨rfl, rfl⟩ := Prod.mk.inj (Option.some.inj h)
      exact .count (some (.draw _)) (.stay _) (fun _ hd => by cases hd) fun _ hd => by cases hd
    · obtain ⟨rfl, rfl⟩ := Prod.mk.inj (Option.some.inj h)
      exact .count none (.turnAway _) (fun _ hd => by cases hd) fun _ hd => by cases hd
  | draw overcommit =>
    simp only [step] at h
    split_ifs at h
    obtain ⟨rfl, rfl⟩ := Prod.mk.inj (Option.some.inj h)
    exact .count (some (.drawn _ _)) (.draw _) (fun _ hd => by cases hd) fun _ hd => by cases hd
  | drawn overcommit myDequeueCount =>
    obtain ⟨rfl, rfl⟩ := Prod.mk.inj (Option.some.inj h)
    split_ifs with hlt
    · exact .count (some .take) (.letIn hlt) (fun _ hd => by cases hd) fun _ hd => by cases hd
    · exact .count (some .giveBack) (.refuse hlt) (fun _ hd => by cases hd) fun _ hd => by cases hd
  | take =>
    obtain ⟨rfl, rfl⟩ := Prod.mk.inj (Option.some.inj h)
    exact .take
  | moveOut index =>
    obtain ⟨element, helement, h⟩ := Option.map_eq_some_iff.mp h
    obtain ⟨rfl, rfl⟩ := Prod.mk.inj h
    exact .moveOut helement
  | giveBack =>
    obtain ⟨rfl, rfl⟩ := Prod.mk.inj (Option.some.inj h)
    exact .count none .giveBack (fun _ hd => by cases hd) fun _ hd => by cases hd

/-! ### Where the objects are -/

/-- The elements that have been published and not been moved out. -/
def Producer.stored (p : Producer T) : Multiset T :=
  ∑ j ∈ Finset.range p.tailIndex, (p.elements j).elim 0 fun x => {x}

section Producer

variable {ι : Type} [Fintype ι]

/-- What holds of the queue of one producer while threads are in calls of `dequeue`. -/
structure Producer.Inv (p : Producer T) (calls : ι → Option Dequeue) : Prop where
  tickets : Tickets.Inv p.counters fun i => callPlace (calls i)
  stored : ∀ j, p.headIndex ≤ j → j < p.tailIndex → (p.elements j).isSome
  moving : ∀ i j, calls i = some (.moveOut j) → j < p.headIndex ∧ (p.elements j).isSome
  /-- No two calls move one element. -/
  distinct : ∀ i i' j, calls i = some (.moveOut j) → calls i' = some (.moveOut j) → i = i'
  gone : ∀ j < p.headIndex, (∀ i, calls i ≠ some (.moveOut j)) → p.elements j = none

theorem Producer.inv_init : ({} : Producer T).Inv fun _ : ι => none where
  tickets := Tickets.Inv.init
  stored _ _ h := absurd h (Nat.not_lt_zero _)
  moving _ _ h := by cases h
  distinct _ _ _ h := by cases h
  gone _ h := absurd h (Nat.not_lt_zero _)

namespace Producer.Inv

variable {p p' : Producer T} {calls : ι → Option Dequeue}

theorem head_le (h : p.Inv calls) : p.headIndex ≤ p.tailIndex := by
  have hle := h.tickets.head_le
  exact (Nat.le_add_right _ _).trans hle

/-- **A call never reads what is not there**, and the assertion in it holds. -/
theorem step_isSome (h : p.Inv calls) {i : ι} {d : Dequeue} (hi : calls i = some d) :
    (d.step p).isSome := by
  have hplace : callPlace (calls i) = d.place := by rw [hi]; rfl
  cases d with
  | gotOvercommit tail overcommit =>
    rw [Dequeue.step]
    split_ifs <;> rfl
  | draw overcommit =>
    have hle : overcommit ≤ p.dequeueOptimisticCount :=
      h.tickets.overcommit_le_optimistic (i := i) hplace
    simp only [Dequeue.step, if_pos hle, Option.isSome_some]
  | moveOut index =>
    rw [Dequeue.step, Option.isSome_map]
    exact (h.moving i index hi).2
  | _ => rfl

section Update

variable [DecidableEq ι] {i : ι} {c : Option Dequeue}

omit [Fintype ι] in
theorem callPlace_update (calls : ι → Option Dequeue) (i : ι) (c : Option Dequeue) :
    (fun j => callPlace (Function.update calls i c j))
      = Function.update (fun j => callPlace (calls j)) i (callPlace c) := by
  funext j
  rcases eq_or_ne j i with rfl | hne
  · rw [Function.update_self, Function.update_self]
  · rw [Function.update_of_ne hne, Function.update_of_ne hne]

/-- A step that moves no element. -/
theorem keep (h : p.Inv calls)
    (hmove : Move p.counters (callPlace (calls i)) p'.counters (callPlace c))
    (htail : p'.tailIndex = p.tailIndex) (hhead : p'.headIndex = p.headIndex)
    (helements : p'.elements = p.elements) (hi : ∀ j, calls i ≠ some (.moveOut j))
    (hc : ∀ j, c ≠ some (.moveOut j)) : p'.Inv (Function.update calls i c) where
  tickets := by
    rw [callPlace_update]
    exact h.tickets.move hmove
  stored j := by
    rw [htail, hhead, helements]
    exact h.stored j
  moving k j hk := by
    rw [hhead, helements]
    rcases eq_or_of_update hk with ⟨-, hk⟩ | ⟨-, hk⟩
    · exact absurd hk (hc j)
    · exact h.moving k j hk
  distinct k k' j hk hk' := by
    rcases eq_or_of_update hk with ⟨-, hk⟩ | ⟨-, hk⟩
    · exact absurd hk (hc j)
    · rcases eq_or_of_update hk' with ⟨-, hk'⟩ | ⟨-, hk'⟩
      · exact absurd hk' (hc j)
      · exact h.distinct k k' j hk hk'
  gone j hj hnone := by
    rw [helements]
    rw [hhead] at hj
    apply h.gone j hj
    intro k hk
    rcases eq_or_ne k i with rfl | hne
    · exact hi j hk
    · exact hnone k (by rw [Function.update_of_ne hne]; exact hk)

/-- A thread begins a call. -/
theorem begin (h : p.Inv calls) (hi : calls i = none) :
    p.Inv (Function.update calls i (some .start)) := by
  refine h.keep ?_ rfl rfl rfl ?_ ?_
  · rw [hi]
    exact .stay _
  · intro j hj
    rw [hi] at hj
    cases hj
  · intro j hj
    cases hj

/-- A thread takes a place. -/
theorem take (h : p.Inv calls) (hi : calls i = some .take) :
    { p with headIndex := p.headIndex + 1 }.Inv
      (Function.update calls i (some (.moveOut p.headIndex))) where
  tickets := by
    rw [callPlace_update]
    apply h.tickets.move
    show Move p.counters (callPlace (calls i)) _ _
    rw [hi]
    exact .enter
  stored j hj := h.stored j (Nat.le_of_succ_le hj)
  moving k j hk := by
    rcases eq_or_of_update hk with ⟨-, hk⟩ | ⟨-, hk⟩
    · cases hk
      have hlt : p.headIndex < p.tailIndex := by
        apply h.tickets.head_lt (i := i)
        rw [hi]
        rfl
      exact ⟨Nat.lt_succ_self _, h.stored _ le_rfl hlt⟩
    · obtain ⟨hlt, hsome⟩ := h.moving k j hk
      exact ⟨Nat.lt_succ_of_lt hlt, hsome⟩
  distinct k k' j hk hk' := by
    -- the place that is taken is a new one
    rcases eq_or_of_update hk with ⟨hki, hk⟩ | ⟨-, hk⟩
    · rcases eq_or_of_update hk' with ⟨hki', -⟩ | ⟨-, hk'⟩
      · exact hki.trans hki'.symm
      · cases hk
        exact absurd (h.moving k' _ hk').1 (lt_irrefl _)
    · rcases eq_or_of_update hk' with ⟨-, hk'⟩ | ⟨-, hk'⟩
      · cases hk'
        exact absurd (h.moving k _ hk).1 (lt_irrefl _)
      · exact h.distinct k k' j hk hk'
  gone j hj hnone := by
    rcases Nat.lt_succ_iff_lt_or_eq.mp hj with hj | rfl
    · apply h.gone j hj
      intro k hk
      rcases eq_or_ne k i with rfl | hne
      · rw [hi] at hk
        cases hk
      · exact hnone k (by rw [Function.update_of_ne hne]; exact hk)
    · exact absurd (Function.update_self i _ calls) (hnone i)

/-- A thread moves its element out. -/
theorem moveOut (h : p.Inv calls) {index : ℕ} (hi : calls i = some (.moveOut index)) :
    { p with elements := Function.update p.elements index none }.Inv
      (Function.update calls i none) where
  tickets := by
    rw [callPlace_update]
    apply h.tickets.move
    show Move p.counters (callPlace (calls i)) _ _
    rw [hi]
    exact .stay _
  stored j hhead htail := by
    have hlt := (h.moving i index hi).1
    show (Function.update p.elements index none j).isSome
    rw [Function.update_of_ne (hlt.trans_le hhead).ne']
    exact h.stored j hhead htail
  moving k j hk := by
    rcases eq_or_of_update hk with ⟨-, hk⟩ | ⟨hne, hk⟩
    · cases hk
    · obtain ⟨hlt, hsome⟩ := h.moving k j hk
      refine ⟨hlt, ?_⟩
      show (Function.update p.elements index none j).isSome
      rw [Function.update_of_ne]
      · exact hsome
      · rintro rfl
        exact hne (h.distinct k i _ hk hi)
  distinct k k' j hk hk' := by
    rcases eq_or_of_update hk with ⟨-, hk⟩ | ⟨-, hk⟩
    · cases hk
    · rcases eq_or_of_update hk' with ⟨-, hk'⟩ | ⟨-, hk'⟩
      · cases hk'
      · exact h.distinct k k' j hk hk'
  gone j hj hnone := by
    show Function.update p.elements index none j = none
    rcases eq_or_ne j index with rfl | hne
    · exact Function.update_self _ _ _
    · rw [Function.update_of_ne hne]
      apply h.gone j hj
      intro k hk
      rcases eq_or_ne k i with rfl | hki
      · rw [hi] at hk
        cases hk
        exact hne rfl
      · exact hnone k (by rw [Function.update_of_ne hki]; exact hk)

/-- **A step of a call of `dequeue`** keeps what holds of the queue. -/
theorem step (h : p.Inv calls) {d : Dequeue} {r : Dequeue ⊕ Option T} (hi : calls i = some d)
    (hstep : d.step p = some (p', r)) :
    p'.Inv (Function.update calls i r.getLeft?) := by
  cases Dequeue.moved_of_step hstep with
  | count d' hmove hd hd' =>
    have hleft : (Option.elim d' (.inr none) .inl : Dequeue ⊕ Option T).getLeft? = d' := by
      cases d' <;> rfl
    rw [hleft]
    refine h.keep ?_ rfl rfl rfl ?_ hd'
    · rw [hi]
      exact hmove
    · intro j hj
      rw [hi] at hj
      exact hd j (Option.some.inj hj)
  | take => exact h.take hi
  | moveOut _ => exact h.moveOut hi

end Update

/-- The producer constructs an element. -/
theorem construct (h : p.Inv calls) (x : T) :
    { p with elements := Function.update p.elements p.tailIndex (some x) }.Inv calls := by
  have hle := h.head_le
  have hne : ∀ j < p.tailIndex, Function.update p.elements p.tailIndex (some x) j = p.elements j :=
    fun j hj => Function.update_of_ne hj.ne _ _
  constructor
  case tickets => exact h.tickets
  case distinct => exact h.distinct
  case stored =>
    intro j hhead htail
    show (Function.update p.elements p.tailIndex (some x) j).isSome
    rw [hne j htail]
    exact h.stored j hhead htail
  case moving =>
    intro i j hi
    obtain ⟨hlt, hsome⟩ := h.moving i j hi
    refine ⟨hlt, ?_⟩
    show (Function.update p.elements p.tailIndex (some x) j).isSome
    rw [hne j (hlt.trans_le hle)]
    exact hsome
  case gone =>
    intro j hj hnone
    show Function.update p.elements p.tailIndex (some x) j = none
    rw [hne j (hj.trans_le hle)]
    exact h.gone j hj hnone

/-- The producer publishes the element that it has constructed. -/
theorem publish (h : p.Inv calls) (hx : (p.elements p.tailIndex).isSome) :
    { p with tailIndex := p.tailIndex + 1 }.Inv calls := by
  constructor
  case tickets => exact h.tickets.put
  case moving => exact h.moving
  case distinct => exact h.distinct
  case gone => exact h.gone
  case stored =>
    intro j hhead htail
    rcases Nat.lt_succ_iff_lt_or_eq.mp htail with htail | rfl
    · exact h.stored j hhead htail
    · exact hx

end Producer.Inv

end Producer

/-! ### What is in the queue -/

namespace Producer

variable {p : Producer T}

theorem stored_construct (p : Producer T) (x : T) :
    { p with elements := Function.update p.elements p.tailIndex (some x) }.stored = p.stored := by
  apply Finset.sum_congr rfl
  intro j hj
  show (Function.update p.elements p.tailIndex (some x) j).elim 0 _ = _
  rw [Function.update_of_ne (Finset.mem_range.mp hj).ne]

theorem stored_publish {x : T} (hx : p.elements p.tailIndex = some x) :
    { p with tailIndex := p.tailIndex + 1 }.stored = p.stored + {x} := by
  show ∑ j ∈ Finset.range (p.tailIndex + 1), _ = _
  rw [Finset.sum_range_succ, hx]
  rfl

theorem stored_moveOut {x : T} {index : ℕ} (hlt : index < p.tailIndex)
    (hx : p.elements index = some x) :
    p.stored = {x} + { p with elements := Function.update p.elements index none }.stored := by
  have hmem : index ∈ Finset.range p.tailIndex := Finset.mem_range.mpr hlt
  have hrest : ∑ j ∈ (Finset.range p.tailIndex).erase index,
        (Function.update p.elements index none j).elim 0 (fun x => ({x} : Multiset T))
      = ∑ j ∈ (Finset.range p.tailIndex).erase index, (p.elements j).elim 0 fun x => {x} := by
    apply Finset.sum_congr rfl
    intro j hj
    rw [Function.update_of_ne (Finset.ne_of_mem_erase hj)]
  show ∑ j ∈ Finset.range p.tailIndex, _ = {x} + ∑ j ∈ Finset.range p.tailIndex,
    (Function.update p.elements index none j).elim 0 (fun x => ({x} : Multiset T))
  rw [← Finset.add_sum_erase _ _ hmem, ← Finset.add_sum_erase _ _ hmem, hrest,
    Function.update_self, hx]
  exact congrArg _ (zero_add _).symm

end Producer

/-- What a step of a call returns. -/
def returned : Dequeue ⊕ Option T → List T
  | .inl _ => []
  | .inr element => element.toList

/-- A step of a call returns what it takes out of the queue. -/
theorem Producer.Inv.stored_step {ι : Type} [Fintype ι] {p p' : Producer T}
    {calls : ι → Option Dequeue} (h : p.Inv calls) {i : ι} {d : Dequeue} {r : Dequeue ⊕ Option T}
    (hi : calls i = some d) (hstep : d.step p = some (p', r)) :
    p.stored = ↑(returned r) + p'.stored := by
  cases Dequeue.moved_of_step hstep with
  | count d' _ _ _ => cases d' <;> exact (zero_add _).symm
  | take => exact (zero_add _).symm
  | @moveOut index x hx =>
    have hlt := (h.moving i index hi).1.trans_le h.head_le
    exact Producer.stored_moveOut hlt hx

/-! ### One producer and many consumers -/

section System

variable {n : ℕ}

/-- The elements that a consumer has got stand before this index. -/
def reached (p : Producer T) : Option Dequeue → ℕ
  | some (.moveOut index) => index
  | _ => p.headIndex

/-- The call of `enqueue` in progress works on the last element. -/
def State.LastCall (s : State T n) : Prop :=
  match s.call with
  | none => s.enqueued.length = s.producer.tailIndex
  | some (.start x) => ∃ l, s.enqueued = l ++ [x] ∧ l.length = s.producer.tailIndex
  | some (.store newTailIndex) => newTailIndex = s.producer.tailIndex + 1 ∧
      s.enqueued.length = s.producer.tailIndex + 1 ∧
      (s.producer.elements s.producer.tailIndex).isSome

/-- What holds in every state of a run. -/
structure Inv (s : State T n) : Prop where
  producer : s.producer.Inv fun i => (s.consumers i).call
  lastCall : s.LastCall
  same : ∀ j x, s.producer.elements j = some x → s.enqueued[j]? = some x
  fifo : ∀ i, (s.consumers i).dequeued.Sublist
    (s.enqueued.take (reached s.producer (s.consumers i).call))
  total : ∑ i, ((s.consumers i).dequeued : Multiset T) + s.producer.stored
    = ↑(s.enqueued.take s.producer.tailIndex)

theorem inv_init : Inv ({} : State T n) where
  producer := Producer.inv_init
  lastCall := rfl
  same _ _ h := by cases h
  fifo _ := List.nil_sublist _
  total := by simp [Producer.stored]

theorem State.LastCall.le_length {s : State T n} (h : s.LastCall) :
    s.producer.tailIndex ≤ s.enqueued.length := by
  unfold LastCall at h
  split at h
  · exact h.ge
  · obtain ⟨l, hl, hlen⟩ := h
    rw [hl, List.length_append, hlen]
    exact Nat.le_add_right _ _
  · rw [h.2.1]
    exact Nat.le_succ _

/-- The producer calls `enqueue`. -/
theorem Inv.enqueue {s : State T n} (h : Inv s) (hcall : s.call = none) (x : T) :
    Inv { s with call := some (.start x), enqueued := s.enqueued ++ [x] } where
  producer := h.producer
  lastCall := by
    have hlen := h.lastCall
    rw [State.LastCall, hcall] at hlen
    exact ⟨s.enqueued, rfl, hlen⟩
  same j y hy := by
    have hj := h.same j y hy
    have hlt := (List.getElem?_eq_some_iff.mp hj).1
    show (s.enqueued ++ [x])[j]? = some y
    rw [List.getElem?_append_left hlt]
    exact hj
  fifo i := (h.fifo i).trans ((List.prefix_append s.enqueued [x]).take _).sublist
  total := by
    show _ = ((s.enqueued ++ [x]).take s.producer.tailIndex : Multiset T)
    rw [List.take_append_of_le_length h.lastCall.le_length]
    exact h.total

/-- The producer constructs the element. -/
theorem Inv.construct {s : State T n} (h : Inv s) {x : T} (hcall : s.call = some (.start x)) :
    Inv { s with
      producer := (Enqueue.step s.producer (.start x)).1
      call := (Enqueue.step s.producer (.start x)).2 } := by
  have hlast := h.lastCall
  rw [State.LastCall, hcall] at hlast
  obtain ⟨l, hl, hlen⟩ := hlast
  have hx : s.enqueued[s.producer.tailIndex]? = some x := by
    rw [hl, ← hlen, List.getElem?_concat_length]
  constructor
  case producer => exact h.producer.construct x
  case lastCall =>
    refine ⟨Nat.add_comm _ _, ?_, ?_⟩
    · show s.enqueued.length = s.producer.tailIndex + 1
      rw [hl, List.length_append, hlen]
      rfl
    · exact Option.isSome_iff_exists.mpr ⟨x, Function.update_self _ _ _⟩
  case same =>
    intro j y hy
    rcases eq_or_of_update hy with ⟨rfl, hxy⟩ | ⟨-, hold⟩
    · exact hx.trans hxy
    · exact h.same j y hold
  case fifo => exact h.fifo
  case total =>
    have hstored := s.producer.stored_construct x
    exact (congrArg _ hstored).trans h.total

/-- The producer publishes the element. -/
theorem Inv.publish {s : State T n} (h : Inv s) {newTailIndex : ℕ}
    (hcall : s.call = some (.store newTailIndex)) :
    Inv { s with
      producer := (Enqueue.step s.producer (.store newTailIndex)).1
      call := (Enqueue.step s.producer (.store newTailIndex)).2 } := by
  have hlast := h.lastCall
  rw [State.LastCall, hcall] at hlast
  obtain ⟨rfl, hlen, hsome⟩ := hlast
  obtain ⟨x, hx⟩ := Option.isSome_iff_exists.mp hsome
  constructor
  case producer => exact h.producer.publish hsome
  case lastCall => exact hlen
  case same => exact h.same
  case fifo => exact h.fifo
  case total =>
    show _ + { s.producer with tailIndex := s.producer.tailIndex + 1 }.stored
      = (s.enqueued.take (s.producer.tailIndex + 1) : Multiset T)
    rw [Producer.stored_publish hx, ← add_assoc]
    show ∑ i, ((s.consumers i).dequeued : Multiset T) + s.producer.stored + {x} = _
    rw [h.total, List.take_add_one, h.same _ _ hx]
    rfl

theorem Consumer.call_update (consumers : Fin n → Consumer T) (i : Fin n) (t : Consumer T) :
    (fun j => (Function.update consumers i t j).call)
      = Function.update (fun j => (consumers j).call) i t.call := by
  funext j
  rcases eq_or_ne j i with rfl | hne
  · rw [Function.update_self, Function.update_self]
  · rw [Function.update_of_ne hne, Function.update_of_ne hne]

/-- What a step of a consumer does to it. -/
theorem Consumer.step_cases {p p' : Producer T} {t t' : Consumer T}
    (h : Consumer.step p t = some (p', t')) :
    (t.call = none ∧ p' = p ∧ t' = { t with call := some .start }) ∨
      ∃ d r, t.call = some d ∧ d.step p = some (p', r) ∧
        t' = { call := r.getLeft?, dequeued := t.dequeued ++ returned r } := by
  obtain ⟨call, dequeued⟩ := t
  cases call with
  | none =>
    left
    obtain ⟨rfl, rfl⟩ := Prod.mk.inj (Option.some.inj h)
    exact ⟨rfl, rfl, rfl⟩
  | some d =>
    right
    obtain ⟨⟨q, r⟩, hr, h⟩ := Option.map_eq_some_iff.mp h
    refine ⟨d, r, rfl, ?_, ?_⟩
    · obtain rfl : q = p' := by
        match r with
        | .inl _ => exact (Prod.mk.inj h).1
        | .inr none => exact (Prod.mk.inj h).1
        | .inr (some _) => exact (Prod.mk.inj h).1
      exact hr
    · match r with
      | .inl _ => rw [returned, List.append_nil]; exact (Prod.mk.inj h).2.symm
      | .inr none =>
        rw [returned, Option.toList_none, List.append_nil]
        exact (Prod.mk.inj h).2.symm
      | .inr (some _) => exact (Prod.mk.inj h).2.symm

theorem reached_mono {p p' : Producer T} (h : p.headIndex ≤ p'.headIndex)
    (call : Option Dequeue) : reached p call ≤ reached p' call := by
  unfold reached
  split
  · exact le_rfl
  · exact h

theorem reached_eq (p : Producer T) {call : Option Dequeue}
    (h : ∀ j, call ≠ some (.moveOut j)) : reached p call = p.headIndex := by
  unfold reached
  split
  · rename_i j
    exact absurd rfl (h j)
  · rfl

/-- What a step of one consumer has to keep. -/
theorem Inv.consume {s : State T n} (h : Inv s) {i : Fin n} {p' : Producer T} {t' : Consumer T}
    (hproducer : p'.Inv (Function.update (fun j => (s.consumers j).call) i t'.call))
    (htail : p'.tailIndex = s.producer.tailIndex) (hhead : s.producer.headIndex ≤ p'.headIndex)
    (helements : ∀ j, p'.elements j = s.producer.elements j ∨
      (j < s.producer.headIndex ∧ p'.elements j = none))
    (hfifo : t'.dequeued.Sublist (s.enqueued.take (reached p' t'.call)))
    (htotal : (t'.dequeued : Multiset T) + p'.stored
      = ↑(s.consumers i).dequeued + s.producer.stored) :
    Inv { s with producer := p', consumers := Function.update s.consumers i t' } where
  producer := by
    rw [← Consumer.call_update] at hproducer
    exact hproducer
  lastCall := by
    have hlast := h.lastCall
    have htop : p'.elements s.producer.tailIndex = s.producer.elements s.producer.tailIndex := by
      rcases helements s.producer.tailIndex with heq | ⟨hlt, -⟩
      · exact heq
      · exact absurd h.producer.head_le (Nat.not_le.mpr hlt)
    unfold State.LastCall at hlast ⊢
    dsimp only
    rw [htail, htop]
    exact hlast
  same j x hx := by
    rcases helements j with heq | ⟨-, hnone⟩
    · exact h.same j x (heq.symm.trans hx)
    · exact absurd (hnone.symm.trans hx) (by intro h; cases h)
  fifo j := by
    show (Function.update s.consumers i t' j).dequeued.Sublist
      (s.enqueued.take (reached p' (Function.update s.consumers i t' j).call))
    rcases eq_or_ne j i with rfl | hne
    · rw [Function.update_self]
      exact hfifo
    · rw [Function.update_of_ne hne]
      exact (h.fifo j).trans (List.take_sublist_take_left (reached_mono hhead _))
  total := by
    obtain ⟨rest, hbefore, hafter⟩ := exists_sum_update
      (fun t : Consumer T => (t.dequeued : Multiset T)) s.consumers i
    have hold := h.total
    rw [hbefore] at hold
    show ∑ j, ((Function.update s.consumers i t' j).dequeued : Multiset T) + p'.stored
      = ↑(s.enqueued.take p'.tailIndex)
    rw [hafter, htail, ← hold, add_right_comm, htotal, add_right_comm]

/-- A consumer begins a call. -/
theorem Inv.begin {s : State T n} (h : Inv s) {i : Fin n} (hcall : (s.consumers i).call = none) :
    Inv { s with
      producer := s.producer
      consumers := Function.update s.consumers i { s.consumers i with call := some .start } } := by
  refine h.consume (h.producer.begin hcall) rfl le_rfl (fun _ => Or.inl rfl) ?_ rfl
  have hfifo := h.fifo i
  rw [hcall] at hfifo
  exact hfifo

theorem Dequeue.Moved.tail_eq {p p' : Producer T} {d : Dequeue} {r : Dequeue ⊕ Option T}
    (h : Dequeue.Moved p d p' r) : p'.tailIndex = p.tailIndex := by
  cases h <;> rfl

theorem Dequeue.Moved.head_le {p p' : Producer T} {d : Dequeue} {r : Dequeue ⊕ Option T}
    (h : Dequeue.Moved p d p' r) : p.headIndex ≤ p'.headIndex := by
  cases h with
  | take => exact Nat.le_succ _
  | _ => exact le_rfl

/-- A consumer goes on with its call. -/
theorem Inv.go {s : State T n} (h : Inv s) {i : Fin n} {d : Dequeue} {p' : Producer T}
    {r : Dequeue ⊕ Option T} (hcall : (s.consumers i).call = some d)
    (hstep : d.step s.producer = some (p', r)) :
    Inv { s with
      producer := p'
      consumers := Function.update s.consumers i
        { call := r.getLeft?, dequeued := (s.consumers i).dequeued ++ returned r } } := by
  have hmoved := Dequeue.moved_of_step hstep
  refine h.consume (h.producer.step hcall hstep) hmoved.tail_eq hmoved.head_le ?_ ?_ ?_
  · intro j
    cases hmoved with
    | @moveOut index x _ =>
      rcases eq_or_ne j index with rfl | hne
      · exact Or.inr ⟨(h.producer.moving i _ hcall).1, Function.update_self _ _ _⟩
      · exact Or.inl (Function.update_of_ne hne _ _)
    | _ => exact Or.inl rfl
  · have hfifo := h.fifo i
    rw [hcall] at hfifo
    cases hmoved with
    | count d' _ hd hd' =>
      have hbefore : ∀ j, some d ≠ some (.moveOut j) := fun j hj => hd j (Option.some.inj hj)
      rw [reached_eq _ hbefore] at hfifo
      have hreturned : returned (d'.elim (.inr none) .inl : Dequeue ⊕ Option T) = [] := by
        cases d' <;> rfl
      have hleft : (d'.elim (.inr none) .inl : Dequeue ⊕ Option T).getLeft? = d' := by
        cases d' <;> rfl
      rw [hreturned, hleft, List.append_nil, reached_eq _ hd']
      exact hfifo
    | take =>
      rw [returned, List.append_nil]
      exact hfifo
    | @moveOut index x hx =>
      -- the element stands after all that the consumer has got, and before the head
      have hlt := (h.producer.moving i index hcall).1
      have htake : s.enqueued.take (index + 1) = s.enqueued.take index ++ [x] := by
        rw [List.take_add_one, h.same index x hx]
        rfl
      have hsub : ((s.consumers i).dequeued ++ [x]).Sublist (s.enqueued.take (index + 1)) := by
        rw [htake]
        exact hfifo.append_right [x]
      exact hsub.trans (List.take_sublist_take_left hlt)
  · rw [h.producer.stored_step hcall hstep, ← Multiset.coe_add, add_assoc]

theorem inv_step {s s' : State T n} {a : Action T n} (h : Inv s) (hstep : step s a = some s') :
    Inv s' := by
  cases a with
  | enqueue x =>
    cases hcall : s.call with
    | none =>
      simp only [step, hcall, Option.some.injEq] at hstep
      rw [← hstep]
      exact h.enqueue hcall x
    | some _ =>
      simp only [step, hcall] at hstep
      cases hstep
  | produce =>
    obtain ⟨e, hcall, rfl⟩ := Option.map_eq_some_iff.mp hstep
    cases e with
    | start x => exact h.construct hcall
    | store newTailIndex => exact h.publish hcall
  | consume i =>
    obtain ⟨⟨p', t'⟩, hr, rfl⟩ := Option.map_eq_some_iff.mp hstep
    rcases Consumer.step_cases hr with ⟨hcall, rfl, rfl⟩ | ⟨d, r, hcall, hd, rfl⟩
    · exact h.begin hcall
    · exact h.go hcall hd

theorem reaches_inv {s : State T n} (h : Reaches step Any {} s) : Inv s :=
  h.invariant inv_init fun _ _ _ hs _ hstep => inv_step hs hstep

/-! ### A call on its own -/

/-- The elements that have been published and not been taken, the oldest first. -/
def State.content (s : State T n) : List T :=
  (s.enqueued.take s.producer.tailIndex).drop s.producer.headIndex

/-- Some steps of one consumer. -/
def Consumer.alone : ℕ → Producer T × Consumer T → Option (Producer T × Consumer T)
  | 0, s => some s
  | k + 1, s => (Consumer.step s.1 s.2).bind (alone k)

/-- When one consumer runs, the others stay as they are. -/
theorem run_replicate_consume (k : ℕ) (i : Fin n) (s : State T n) :
    run step Any (List.replicate k (.consume i)) s
      = (Consumer.alone k (s.producer, s.consumers i)).map fun r =>
        { s with producer := r.1, consumers := Function.update s.consumers i r.2 } := by
  induction k generalizing s with
  | zero =>
    show some s = some { s with consumers := Function.update s.consumers i (s.consumers i) }
    rw [Function.update_eq_self]
  | succ k ih =>
    have hany : Any s (Action.consume (T := T) i) := trivial
    rw [List.replicate_succ, run, if_pos hany, step, Consumer.alone]
    cases Consumer.step s.producer (s.consumers i) with
    | none => rfl
    | some r =>
      rw [Option.map_some, Option.bind_some, Option.bind_some, ih]
      simp only [Function.update_self, Function.update_idem]

/-- Without other calls a call of `dequeue` takes the element at the head. -/
theorem Consumer.alone_take {p : Producer T} (t : Consumer T) {x : T} (hcall : t.call = none)
    (hopt : p.dequeueOptimisticCount = p.headIndex + p.dequeueOvercommit)
    (hlt : p.headIndex < p.tailIndex) (hx : p.elements p.headIndex = some x) :
    Consumer.alone 8 (p, t) = some
      ({ p with
          headIndex := p.headIndex + 1
          dequeueOptimisticCount := p.dequeueOptimisticCount + 1
          elements := Function.update p.elements p.headIndex none },
        { call := none, dequeued := t.dequeued ++ [x] }) := by
  have hle : p.dequeueOvercommit ≤ p.dequeueOptimisticCount := by omega
  have hlt' : p.dequeueOptimisticCount - p.dequeueOvercommit < p.tailIndex := by omega
  simp [Consumer.alone, Consumer.step, Dequeue.step, hcall, hle, hlt', hx]

/-- Without other calls a call of `dequeue` on an empty queue fails. -/
theorem Consumer.alone_fail {p : Producer T} (t : Consumer T) (hcall : t.call = none)
    (hopt : p.dequeueOptimisticCount = p.headIndex + p.dequeueOvercommit)
    (hle : p.tailIndex ≤ p.headIndex) : Consumer.alone 4 (p, t) = some (p, t) := by
  have hnot : ¬ p.dequeueOptimisticCount - p.dequeueOvercommit < p.tailIndex := by omega
  obtain ⟨call, dequeued⟩ := t
  obtain rfl : call = none := hcall
  simp [Consumer.alone, Consumer.step, Dequeue.step, hnot]

theorem Inv.drop_eq_cons {s : State T n} (h : Inv s)
    (hlt : s.producer.headIndex < s.producer.tailIndex) {x : T}
    (hx : s.producer.elements s.producer.headIndex = some x) :
    s.content = x :: (s.enqueued.take s.producer.tailIndex).drop (s.producer.headIndex + 1) := by
  have hget := h.same _ _ hx
  obtain ⟨hlen, hx⟩ := List.getElem?_eq_some_iff.mp hget
  have hlen' : s.producer.headIndex < (s.enqueued.take s.producer.tailIndex).length := by
    rw [List.length_take]
    exact lt_min hlt hlen
  rw [State.content, List.drop_eq_getElem_cons hlen', List.getElem_take, hx]

/-- A call during which no other runs returns the oldest element in the queue and takes it out, and
fails only if the queue is empty. -/
theorem exists_run_of_quiet {s : State T n} (h : Reaches step Any {} s)
    (hquiet : ∀ j, (s.consumers j).call = none) (i : Fin n) :
    ∃ k ≤ 8, ∃ s', run step Any (List.replicate k (.consume i)) s = some s' ∧
      s'.consumers = Function.update s.consumers i
        { call := none, dequeued := (s.consumers i).dequeued ++ s.content.head?.toList } ∧
      s'.enqueued = s.enqueued ∧ s'.content = s.content.tail := by
  have hinv := reaches_inv h
  have hopt : s.producer.dequeueOptimisticCount
      = s.producer.headIndex + s.producer.dequeueOvercommit := by
    have hopt := hinv.producer.tickets.optimistic_eq
    have hzero : ∑ j, (callPlace (s.consumers j).call).inside = 0 :=
      Finset.sum_eq_zero fun j _ => by rw [hquiet j]; rfl
    rw [hzero] at hopt
    exact hopt
  rcases Nat.lt_or_ge s.producer.headIndex s.producer.tailIndex with hlt | hge
  · obtain ⟨x, hx⟩ := Option.isSome_iff_exists.mp (hinv.producer.stored _ le_rfl hlt)
    have halone := Consumer.alone_take (s.consumers i) (hquiet i) hopt hlt hx
    have hcontent := hinv.drop_eq_cons hlt hx
    have hrun := run_replicate_consume 8 i s
    rw [halone, Option.map_some] at hrun
    refine ⟨8, le_rfl, _, hrun, ?_, rfl, ?_⟩
    · rw [hcontent]
      rfl
    · rw [hcontent]
      rfl
  · have hempty : s.content = [] := by
      rw [State.content, List.drop_eq_nil_iff, List.length_take]
      exact (min_le_left _ _).trans hge
    refine ⟨4, Nat.le_add_right 4 4, s, ?_, ?_, rfl, ?_⟩
    · rw [run_replicate_consume, Consumer.alone_fail (s.consumers i) (hquiet i) hopt hge,
        Option.map_some, Function.update_eq_self]
    · rw [hempty, List.head?_nil, Option.toList_none, List.append_nil]
      have hself : ({ call := none, dequeued := (s.consumers i).dequeued } : Consumer T)
          = s.consumers i := by rw [← hquiet i]
      rw [hself, Function.update_eq_self]
    · rw [hempty, List.tail_nil]

end System

end ParallelEnum.ConcurrentQueue
