import ParallelEnum.Util.ConcurrentQueue.Wrapping
import ParallelEnum.Util.Equiv.ConcurrentQueue

/-!
# The queue with counters of 64 bits

Within fewer than `2 ^ 63` steps no counter comes to the half of its range, so that the counters are
the natural numbers that they stand for and `circular_less_than` compares these.  Then a run is a
run of the queue over natural numbers (`State.toNat`), in which nothing corresponds to a call of
`enqueue` that has not found a block.

* `run_fifo`: in every interleaving the elements that have been taken and those that are left are
  those that were put in, each once, and each consumer gets its elements in their order.
* `run_quiet_dequeue`: a call during which no other call runs takes the oldest element, and fails
  only if there is none.
-/

namespace ParallelEnum.ConcurrentQueue.Wrapping

open Transition

variable {T : Type}

/-! ### Words -/

theorem circularLessThan_iff {a b : Index} (ha : a.toNat < 2 ^ 63) (hb : b.toNat < 2 ^ 63) :
    circularLessThan a b = true ↔ a.toNat < b.toNat := by
  have hhalf : ((1 : Index) <<< 63).toNat = 2 ^ 63 := by decide
  unfold circularLessThan
  rw [decide_eq_true_iff, gt_iff_lt, BitVec.lt_def, BitVec.toNat_sub, hhalf]
  omega

theorem toNat_succ {a : Index} (ha : a.toNat < 2 ^ 63) : (a + 1).toNat = a.toNat + 1 := by
  rw [BitVec.toNat_add, Nat.mod_eq_of_lt]
  · rfl
  · show a.toNat + 1 < 2 ^ 64
    omega

theorem toNat_sub {a b : Index} (h : b.toNat ≤ a.toNat) : (a - b).toNat = a.toNat - b.toNat :=
  BitVec.toNat_sub_of_le h

/-- The cells, by the numbers of their indices. -/
def cells (elements : Index → Option T) (j : ℕ) : Option T :=
  if j < 2 ^ 64 then elements (BitVec.ofNat 64 j) else none

theorem cells_toNat (elements : Index → Option T) (index : Index) :
    cells elements index.toNat = elements index := by
  rw [cells, if_pos index.isLt, BitVec.ofNat_toNat, BitVec.setWidth_eq]

theorem cells_update (elements : Index → Option T) (index : Index) (x : Option T) :
    cells (Function.update elements index x) = Function.update (cells elements) index.toNat x := by
  funext j
  rcases eq_or_ne j index.toNat with rfl | hne
  · rw [cells_toNat, Function.update_self, Function.update_self]
  · rw [Function.update_of_ne hne]
    unfold cells
    split_ifs with hj
    · rw [Function.update_of_ne]
      rintro rfl
      rw [BitVec.toNat_ofNat, Nat.mod_eq_of_lt hj] at hne
      exact hne rfl
    · rfl

/-! ### The queue over natural numbers -/

def Producer.toNat (p : Producer T) : ConcurrentQueue.Producer T where
  tailIndex := p.tailIndex.toNat
  headIndex := p.headIndex.toNat
  dequeueOptimisticCount := p.dequeueOptimisticCount.toNat
  dequeueOvercommit := p.dequeueOvercommit.toNat
  elements := cells p.elements

/-- A call that has not constructed its element has not begun. -/
def Enqueue.toNat : Enqueue T → Option (ConcurrentQueue.Enqueue T)
  | .store newTailIndex => some (.store newTailIndex.toNat)
  | _ => none

def Dequeue.toNat : Dequeue → ConcurrentQueue.Dequeue
  | .start => .start
  | .gotTail tail => .gotTail tail.toNat
  | .gotOvercommit tail overcommit => .gotOvercommit tail.toNat overcommit.toNat
  | .draw overcommit => .draw overcommit.toNat
  | .drawn overcommit myDequeueCount => .drawn overcommit.toNat myDequeueCount.toNat
  | .take => .take
  | .moveOut index => .moveOut index.toNat
  | .giveBack => .giveBack

def Consumer.toNat (t : Consumer T) : ConcurrentQueue.Consumer T where
  call := t.call.map Dequeue.toNat
  dequeued := t.dequeued

def State.toNat {n : ℕ} (s : State T n) : ConcurrentQueue.State T n where
  producer := s.producer.toNat
  call := s.call.bind Enqueue.toNat
  enqueued := s.enqueued
  consumers i := (s.consumers i).toNat

theorem toNat_init {n : ℕ} : ({} : State T n).toNat = {} := by
  have hcells : cells (fun _ => none : Index → Option T) = fun _ => none := by
    funext j
    exact ite_self none
  show ({ producer := { elements := cells fun _ => none } } : ConcurrentQueue.State T n) = _
  rw [hcells]

/-! ### One step -/

/-- No counter has come further than `k`. -/
structure Producer.Within (k : ℕ) (p : Producer T) : Prop where
  tail : p.tailIndex.toNat ≤ k
  head : p.headIndex.toNat ≤ k
  optimistic : p.dequeueOptimisticCount.toNat ≤ k
  overcommit : p.dequeueOvercommit.toNat ≤ k

/-- Nor has a counter that a call has read. -/
def Dequeue.Within (k : ℕ) : Dequeue → Prop
  | .gotTail tail => tail.toNat ≤ k
  | .gotOvercommit tail _ => tail.toNat ≤ k
  | .drawn _ myDequeueCount => myDequeueCount.toNat ≤ k
  | _ => True

/-- A call has not read more refused draws than there are draws. -/
def Dequeue.Ordered (p : Producer T) : Dequeue → Prop
  | .gotOvercommit _ overcommit => overcommit.toNat ≤ p.dequeueOptimisticCount.toNat
  | .drawn overcommit myDequeueCount => overcommit.toNat ≤ myDequeueCount.toNat
  | _ => True

section Dequeue

variable {k : ℕ} {p p' : Producer T} {d : Dequeue}

/-- **A step of a call of `dequeue` is a step of the call over natural numbers.** -/
theorem Dequeue.step_toNat (hk : k < 2 ^ 63) (hp : p.Within k) (hd : d.Within k)
    (hordered : d.Ordered p) : d.toNat.step p.toNat
      = (d.step p).map fun r => (r.1.toNat, r.2.map Dequeue.toNat id) := by
  have hopt := hp.optimistic
  have htail := hp.tail
  cases d with
  | start => rfl
  | gotTail tail => rfl
  | gotOvercommit tail overcommit =>
    change tail.toNat ≤ k at hd
    change overcommit.toNat ≤ _ at hordered
    have hsub := toNat_sub hordered
    have hiff : circularLessThan (p.dequeueOptimisticCount - overcommit) tail = true
        ↔ p.dequeueOptimisticCount.toNat - overcommit.toNat < tail.toNat := by
      rw [← hsub]
      exact circularLessThan_iff (by omega) (by omega)
    rw [Dequeue.step, apply_ite (Option.map _)]
    exact if_congr hiff.symm rfl rfl
  | draw overcommit =>
    have hnext : Producer.toNat { p with dequeueOptimisticCount := p.dequeueOptimisticCount + 1 }
        = { p.toNat with dequeueOptimisticCount := p.dequeueOptimisticCount.toNat + 1 } :=
      congrArg (fun i => { p.toNat with dequeueOptimisticCount := i }) (toNat_succ (by omega))
    rw [Dequeue.step, apply_ite (Option.map _), Option.map_some, hnext]
    rfl
  | drawn overcommit myDequeueCount =>
    change myDequeueCount.toNat ≤ k at hd
    change overcommit.toNat ≤ myDequeueCount.toNat at hordered
    have hsub := toNat_sub hordered
    have hiff : circularLessThan (myDequeueCount - overcommit) p.tailIndex = true
        ↔ myDequeueCount.toNat - overcommit.toNat < p.tailIndex.toNat := by
      rw [← hsub]
      exact circularLessThan_iff (by omega) (by omega)
    rw [Dequeue.step, Option.map_some, Sum.map_inl, apply_ite Dequeue.toNat]
    exact congrArg (fun d => some (p.toNat, Sum.inl d)) (if_congr hiff.symm rfl rfl)
  | take =>
    have hnext : Producer.toNat { p with headIndex := p.headIndex + 1 }
        = { p.toNat with headIndex := p.headIndex.toNat + 1 } :=
      congrArg (fun i => { p.toNat with headIndex := i })
        (toNat_succ (by have := hp.head; omega))
    rw [Dequeue.step, Option.map_some, hnext]
    rfl
  | moveOut index =>
    have hnext : Producer.toNat { p with elements := Function.update p.elements index none }
        = { p.toNat with elements := Function.update p.toNat.elements index.toNat none } :=
      congrArg (fun f => { p.toNat with elements := f }) (cells_update p.elements index none)
    show Option.map _ (cells p.elements index.toNat) = _
    rw [Dequeue.step, cells_toNat, Option.map_map]
    congr 1
    funext x
    exact congrArg (fun q => (q, Sum.inr (some x))) hnext.symm
  | giveBack =>
    have hnext : Producer.toNat { p with dequeueOvercommit := p.dequeueOvercommit + 1 }
        = { p.toNat with dequeueOvercommit := p.dequeueOvercommit.toNat + 1 } :=
      congrArg (fun i => { p.toNat with dequeueOvercommit := i })
        (toNat_succ (by have := hp.overcommit; omega))
    rw [Dequeue.step, Option.map_some, hnext]
    rfl

theorem Producer.Within.mono (hp : p.Within k) : p.Within (k + 1) :=
  ⟨hp.tail.trans (Nat.le_succ k), hp.head.trans (Nat.le_succ k),
    hp.optimistic.trans (Nat.le_succ k), hp.overcommit.trans (Nat.le_succ k)⟩

theorem Dequeue.Within.mono (hd : d.Within k) : d.Within (k + 1) := by
  cases d with
  | gotTail tail => exact Nat.le_succ_of_le hd
  | gotOvercommit tail overcommit => exact Nat.le_succ_of_le hd
  | drawn overcommit myDequeueCount => exact Nat.le_succ_of_le hd
  | _ => trivial

theorem toNat_succ_le {i : Index} (hk : k < 2 ^ 63) (hi : i.toNat ≤ k) :
    (i + 1).toNat ≤ k + 1 := by
  rw [toNat_succ (by omega)]
  exact Nat.succ_le_succ hi

/-- A step raises a counter by one at most. -/
theorem Dequeue.within_step {r : Dequeue ⊕ Option T} (hk : k < 2 ^ 63) (hp : p.Within k)
    (hd : d.Within k) (h : d.step p = some (p', r)) :
    p'.Within (k + 1) ∧ ∀ d', r = .inl d' → d'.Within (k + 1) := by
  have hp' := hp.mono
  have hd' := hd.mono
  cases d with
  | start =>
    obtain ⟨rfl, rfl⟩ := Prod.mk.inj (Option.some.inj h)
    exact ⟨hp', fun d' hd => Sum.inl.inj hd ▸ hp'.tail⟩
  | gotTail tail =>
    obtain ⟨rfl, rfl⟩ := Prod.mk.inj (Option.some.inj h)
    exact ⟨hp', fun d' hd => Sum.inl.inj hd ▸ hd'⟩
  | gotOvercommit tail overcommit =>
    rw [step] at h
    split_ifs at h
    · obtain ⟨rfl, rfl⟩ := Prod.mk.inj (Option.some.inj h)
      exact ⟨hp', fun d' hd => Sum.inl.inj hd ▸ trivial⟩
    · obtain ⟨rfl, rfl⟩ := Prod.mk.inj (Option.some.inj h)
      exact ⟨hp', fun d' hd => by cases hd⟩
  | draw overcommit =>
    simp only [step] at h
    split_ifs at h
    obtain ⟨rfl, rfl⟩ := Prod.mk.inj (Option.some.inj h)
    exact ⟨{ hp' with optimistic := toNat_succ_le hk hp.optimistic },
      fun d' hd => Sum.inl.inj hd ▸ hp'.optimistic⟩
  | drawn overcommit myDequeueCount =>
    obtain ⟨rfl, rfl⟩ := Prod.mk.inj (Option.some.inj h)
    refine ⟨hp', ?_⟩
    intro d' hd
    obtain rfl := Sum.inl.inj hd
    split_ifs <;> trivial
  | take =>
    obtain ⟨rfl, rfl⟩ := Prod.mk.inj (Option.some.inj h)
    exact ⟨{ hp' with head := toNat_succ_le hk hp.head }, fun d' hd => Sum.inl.inj hd ▸ trivial⟩
  | moveOut index =>
    obtain ⟨element, -, h⟩ := Option.map_eq_some_iff.mp h
    obtain ⟨rfl, rfl⟩ := Prod.mk.inj h
    exact ⟨⟨hp'.tail, hp'.head, hp'.optimistic, hp'.overcommit⟩, fun d' hd => by cases hd⟩
  | giveBack =>
    obtain ⟨rfl, rfl⟩ := Prod.mk.inj (Option.some.inj h)
    exact ⟨{ hp' with overcommit := toNat_succ_le hk hp.overcommit }, fun d' hd => by cases hd⟩

end Dequeue

/-- A step of a consumer is a step of the consumer over natural numbers. -/
theorem Consumer.step_toNat {k : ℕ} {p : Producer T} {t : Consumer T} (hk : k < 2 ^ 63)
    (hp : p.Within k) (ht : ∀ d, t.call = some d → d.Within k ∧ d.Ordered p) :
    ConcurrentQueue.Consumer.step p.toNat t.toNat
      = (Consumer.step p t).map fun r => (r.1.toNat, r.2.toNat) := by
  obtain ⟨call, dequeued⟩ := t
  cases call with
  | none => rfl
  | some d =>
    obtain ⟨hd, hordered⟩ := ht d rfl
    show Option.map _ (d.toNat.step p.toNat) = Option.map _ (Option.map _ (d.step p))
    rw [Dequeue.step_toNat hk hp hd hordered, Option.map_map, Option.map_map]
    congr 1
    funext ⟨q, r⟩
    cases r with
    | inl d => rfl
    | inr element => cases element <;> rfl

/-- What a step of a consumer does to the counters that its call has read. -/
theorem Consumer.within_step {k : ℕ} {p p' : Producer T} {t t' : Consumer T} (hk : k < 2 ^ 63)
    (hp : p.Within k) (ht : ∀ d, t.call = some d → d.Within k)
    (h : Consumer.step p t = some (p', t')) :
    p'.Within (k + 1) ∧ ∀ d, t'.call = some d → d.Within (k + 1) := by
  obtain ⟨call, dequeued⟩ := t
  cases call with
  | none =>
    obtain ⟨rfl, rfl⟩ := Prod.mk.inj (Option.some.inj h)
    exact ⟨hp.mono, fun d hd => Option.some.inj hd ▸ trivial⟩
  | some d =>
    obtain ⟨⟨q, r⟩, hr, h⟩ := Option.map_eq_some_iff.mp h
    have hwithin := Dequeue.within_step hk hp (ht d rfl) hr
    cases r with
    | inl d' =>
      obtain ⟨rfl, rfl⟩ := Prod.mk.inj h
      exact ⟨hwithin.1, fun d hd => Option.some.inj hd ▸ hwithin.2 d' rfl⟩
    | inr element =>
      cases element with
      | none =>
        obtain ⟨rfl, rfl⟩ := Prod.mk.inj h
        exact ⟨hwithin.1, fun d hd => by cases hd⟩
      | some x =>
        obtain ⟨rfl, rfl⟩ := Prod.mk.inj h
        exact ⟨hwithin.1, fun d hd => by cases hd⟩

/-- A step of a call of `enqueue` looks for a block, constructs the element, or publishes it. -/
theorem Enqueue.step_cases {pick : ℕ} {p p' : Producer T} {e : Enqueue T} {r : Enqueue T ⊕ Bool}
    (h : e.step pick p = some (p', r)) :
    (p' = p ∧ e.constructs = [] ∧ e.toNat = none ∧
        ∀ e', r = .inl e' → ∀ j, e' ≠ .store j) ∨
      (∃ x, e = .construct x ∧ r = .inl (.store (1 + p.tailIndex)) ∧
        p' = { p with elements := Function.update p.elements p.tailIndex (some x) }) ∨
      ∃ j, e = .store j ∧ r = .inr true ∧ p' = { p with tailIndex := j } := by
  cases e with
  | start x =>
    left
    simp only [step] at h
    split_ifs at h <;> obtain ⟨rfl, rfl⟩ := Prod.mk.inj (Option.some.inj h) <;>
      exact ⟨rfl, rfl, rfl, by rintro _ ⟨⟩ j ⟨⟩⟩
  | readHead x =>
    left
    simp only [step] at h
    split_ifs at h
    · obtain ⟨rfl, rfl⟩ := Prod.mk.inj (Option.some.inj h)
      exact ⟨rfl, rfl, rfl, by rintro _ ⟨⟩⟩
    · obtain ⟨rfl, rfl⟩ := Prod.mk.inj (Option.some.inj h)
      exact ⟨rfl, rfl, rfl, by rintro _ ⟨⟩ j ⟨⟩⟩
  | allocate x =>
    left
    obtain ⟨rfl, rfl⟩ := Prod.mk.inj (Option.some.inj h)
    refine ⟨rfl, rfl, rfl, ?_⟩
    intro e' he j hj
    split_ifs at he
    cases (Sum.inl.inj he).trans hj
  | construct x =>
    obtain ⟨rfl, rfl⟩ := Prod.mk.inj (Option.some.inj h)
    exact Or.inr (Or.inl ⟨x, rfl, rfl, rfl⟩)
  | store j =>
    obtain ⟨rfl, rfl⟩ := Prod.mk.inj (Option.some.inj h)
    exact Or.inr (Or.inr ⟨j, rfl, rfl, rfl⟩)

/-! ### Runs -/

section System

variable {n k : ℕ} {s s' : State T n}

/-- No counter of the queue has come further than `k`. -/
structure State.Within (k : ℕ) (s : State T n) : Prop where
  producer : s.producer.Within k
  consumers : ∀ i d, (s.consumers i).call = some d → d.Within k
  store : ∀ j, s.call = some (.store j) → j.toNat ≤ k

theorem within_init : ({} : State T n).Within 0 where
  producer := ⟨le_rfl, le_rfl, le_rfl, le_rfl⟩
  consumers _ _ h := by cases h
  store _ h := by cases h

/-- The tickets of the queue over natural numbers tell which counter is ahead. -/
theorem ordered_of_reaches (h : Reaches ConcurrentQueue.step Any {} s.toNat) {i : Fin n}
    {d : Dequeue} (hcall : (s.consumers i).call = some d) : d.Ordered s.producer := by
  have htickets := (reaches_inv h).producer.tickets
  have hplace : callPlace (s.toNat.consumers i).call = d.toNat.place := by
    show callPlace ((s.consumers i).call.map Dequeue.toNat) = _
    rw [hcall]
    rfl
  cases d with
  | gotOvercommit tail overcommit => exact htickets.overcommit_le_optimistic (i := i) hplace
  | drawn overcommit myDequeueCount => exact htickets.overcommit_le_ticket (i := i) hplace
  | _ => trivial

/-- A step of a consumer keeps the counters within their bound. -/
theorem within_consume {i : Fin n} (hk : k < 2 ^ 63) (hs : s.Within k)
    (h : step s (.consume i) = some s') : s'.Within (k + 1) := by
  obtain ⟨⟨p', t'⟩, hr, rfl⟩ := Option.map_eq_some_iff.mp h
  obtain ⟨hp', ht'⟩ := Consumer.within_step hk hs.producer (hs.consumers i) hr
  constructor
  case producer => exact hp'
  case store => exact fun j hj => Nat.le_succ_of_le (hs.store j hj)
  case consumers =>
    intro j d hd
    rcases eq_or_ne j i with rfl | hne
    · change (Function.update s.consumers j t' j).call = some d at hd
      rw [Function.update_self] at hd
      exact ht' d hd
    · change (Function.update s.consumers i t' j).call = some d at hd
      rw [Function.update_of_ne hne] at hd
      exact (hs.consumers j d hd).mono

/-- A step of a consumer. -/
theorem consume_toNat (hk : k < 2 ^ 63) (hs : s.Within k)
    (hreaches : Reaches ConcurrentQueue.step Any {} s.toNat) (i : Fin n) :
    ConcurrentQueue.step s.toNat (.consume i) = (step s (.consume i)).map State.toNat := by
  have hconsumer := Consumer.step_toNat hk hs.producer (t := s.consumers i)
    fun d hd => ⟨hs.consumers i d hd, ordered_of_reaches hreaches hd⟩
  show Option.map _ (ConcurrentQueue.Consumer.step s.producer.toNat (s.consumers i).toNat)
    = Option.map _ (Option.map _ (Consumer.step s.producer (s.consumers i)))
  rw [hconsumer, Option.map_map, Option.map_map]
  congr 1
  funext r
  have hupdate : (fun j => (Function.update s.consumers i r.2 j).toNat)
      = Function.update (fun j => (s.consumers j).toNat) i r.2.toNat :=
    Function.comp_update Consumer.toNat s.consumers i r.2
  exact congrArg (fun f => { s.toNat with producer := r.1.toNat, consumers := f }) hupdate.symm

/-- What looks for a block is not seen. -/
theorem toNat_call {call : Option (Enqueue T)}
    (h : call.bind Enqueue.toNat = s.call.bind Enqueue.toNat) :
    State.toNat { s with call := call } = s.toNat :=
  congrArg (fun e => { s.toNat with call := e }) h

/-- A call of `enqueue` is seen when it constructs its element. -/
theorem reaches_construct {x : T} (hcall : s.call = some (.construct x))
    (htail : s.producer.tailIndex.toNat < 2 ^ 63) :
    Reaches ConcurrentQueue.step Any s.toNat (State.toNat { s with
      producer := { s.producer with
        elements := Function.update s.producer.elements s.producer.tailIndex (some x) }
      call := some (.store (1 + s.producer.tailIndex))
      enqueued := s.enqueued ++ [x] }) := by
  have hnone : s.toNat.call = none := by
    show s.call.bind Enqueue.toNat = none
    rw [hcall]
    rfl
  have hsucc : (1 + s.producer.tailIndex).toNat = 1 + s.producer.tailIndex.toNat := by
    rw [BitVec.add_comm, toNat_succ htail, Nat.add_comm]
  have hcells := cells_update s.producer.elements s.producer.tailIndex (some x)
  have hbegin : ConcurrentQueue.step s.toNat (.enqueue x)
      = some { s.toNat with call := some (.start x), enqueued := s.enqueued ++ [x] } := by
    simp only [ConcurrentQueue.step, hnone]
    rfl
  have hconstruct : ConcurrentQueue.step
      { s.toNat with call := some (.start x), enqueued := s.enqueued ++ [x] } .produce
      = some (State.toNat { s with
        producer := { s.producer with
          elements := Function.update s.producer.elements s.producer.tailIndex (some x) }
        call := some (.store (1 + s.producer.tailIndex))
        enqueued := s.enqueued ++ [x] }) := by
    simp only [State.toNat, Producer.toNat, Option.bind_some, Enqueue.toNat, hcells, hsucc]
    rfl
  exact Reaches.head trivial hbegin (Reaches.head trivial hconstruct (Reaches.refl _))

/-- The element is published. -/
theorem reaches_store {j : Index} (hcall : s.call = some (.store j)) :
    Reaches ConcurrentQueue.step Any s.toNat (State.toNat { s with
      producer := { s.producer with tailIndex := j }
      call := none }) := by
  have hcall' : s.toNat.call = some (.store j.toNat) := by
    show s.call.bind Enqueue.toNat = _
    rw [hcall]
    rfl
  have hstep : ConcurrentQueue.step s.toNat .produce = some (State.toNat { s with
      producer := { s.producer with tailIndex := j }
      call := none }) := by
    rw [ConcurrentQueue.step, hcall']
    rfl
  exact Reaches.head trivial hstep (Reaches.refl _)

/-- A step of the producer. -/
theorem simulates_produce {pick : ℕ} (hk : k < 2 ^ 63) (hs : s.Within k)
    (h : step s (.produce pick) = some s') :
    s'.Within (k + 1) ∧ Reaches ConcurrentQueue.step Any s.toNat s'.toNat := by
  have htail := hs.producer.tail
  have hconsumers : ∀ i d, (s.consumers i).call = some d → d.Within (k + 1) :=
    fun i d hd => (hs.consumers i d hd).mono
  cases hcall : s.call with
  | none =>
    simp only [step, hcall] at h
    cases h
  | some e =>
    simp only [step, hcall] at h
    obtain ⟨⟨p', r⟩, hr, rfl⟩ := Option.map_eq_some_iff.mp h
    rcases Enqueue.step_cases hr with
      ⟨rfl, hnil, hnone, hnext⟩ | ⟨x, rfl, rfl, rfl⟩ | ⟨j, rfl, rfl, rfl⟩
    · have hstore : ∀ j, r.getLeft? ≠ some (.store j) :=
        fun j hj => hnext _ (Sum.getLeft?_eq_some_iff.mp hj) j rfl
      have hcalls : r.getLeft?.bind Enqueue.toNat = s.call.bind Enqueue.toNat := by
        rw [hcall, Option.bind_some, hnone]
        cases hleft : r.getLeft? with
        | none => rfl
        | some e' =>
          cases e' with
          | store j => exact absurd hleft (hstore j)
          | _ => rfl
      refine ⟨⟨hs.producer.mono, hconsumers, fun j hj => absurd hj (hstore j)⟩, ?_⟩
      rw [hnil, List.append_nil]
      show Reaches _ _ _ (State.toNat { s with call := r.getLeft? })
      rw [toNat_call hcalls]
      exact Reaches.refl _
    · refine ⟨⟨{ hs.producer.mono with }, hconsumers, ?_⟩, reaches_construct hcall (by omega)⟩
      intro j hj
      obtain rfl := Enqueue.store.inj (Option.some.inj hj)
      rw [BitVec.add_comm]
      exact toNat_succ_le hk htail
    · have hj := hs.store j hcall
      refine ⟨⟨{ hs.producer.mono with tail := Nat.le_succ_of_le hj }, hconsumers, ?_⟩, ?_⟩
      · intro j hj
        cases hj
      · have hreaches := reaches_store hcall
        rw [← List.append_nil s.enqueued] at hreaches
        exact hreaches

/-- **A step is some steps of the queue over natural numbers.** -/
theorem simulates {a : Action T n} (hk : k < 2 ^ 63) (hs : s.Within k)
    (hreaches : Reaches ConcurrentQueue.step Any {} s.toNat) (h : step s a = some s') :
    s'.Within (k + 1) ∧ Reaches ConcurrentQueue.step Any s.toNat s'.toNat := by
  cases a with
  | enqueue x =>
    cases hcall : s.call with
    | some _ =>
      simp only [step, hcall] at h
      cases h
    | none =>
      simp only [step, hcall, Option.some.injEq] at h
      subst h
      refine ⟨⟨hs.producer.mono, fun i d hd => (hs.consumers i d hd).mono,
        fun j hj => by cases hj⟩, ?_⟩
      have hsame : (some (Enqueue.start x)).bind Enqueue.toNat = s.call.bind Enqueue.toNat := by
        rw [hcall]
        rfl
      rw [toNat_call hsame]
      exact Reaches.refl _
  | produce pick => exact simulates_produce hk hs h
  | consume i =>
    have hstep := consume_toNat hk hs hreaches i
    rw [h, Option.map_some] at hstep
    exact ⟨within_consume hk hs h, Reaches.head trivial hstep (Reaches.refl _)⟩

/-- A run of few steps is a run of the queue over natural numbers. -/
theorem run_toNat {actions : List (Action T n)} (hs : s.Within k)
    (hlt : k + actions.length < 2 ^ 63) (hreaches : Reaches ConcurrentQueue.step Any {} s.toNat)
    (h : run step Any actions s = some s') :
    s'.Within (k + actions.length) ∧ Reaches ConcurrentQueue.step Any {} s'.toNat := by
  induction actions generalizing s k with
  | nil =>
    obtain rfl := Option.some.inj h
    exact ⟨hs, hreaches⟩
  | cons a actions ih =>
    rw [List.length_cons] at hlt ⊢
    obtain ⟨u, hu, h⟩ := Option.bind_eq_some_iff.mp ((if_pos trivial).symm.trans h)
    obtain ⟨hwithin, hrun⟩ := simulates (by omega) hs hreaches hu
    obtain ⟨hs', hreaches'⟩ := ih hwithin (by omega) (hreaches.trans hrun) h
    rw [Nat.add_assoc, Nat.add_comm 1] at hs'
    exact ⟨hs', hreaches'⟩

/-- The elements that have been published and not been moved out. -/
def Producer.stored (p : Producer T) : Multiset T :=
  ∑ j ∈ Finset.range p.tailIndex.toNat, (p.elements (BitVec.ofNat 64 j)).elim 0 fun x => {x}

theorem stored_toNat (p : Producer T) : p.toNat.stored = p.stored := by
  apply Finset.sum_congr rfl
  intro j hj
  have hlt : j < 2 ^ 64 := (Finset.mem_range.mp hj).trans p.tailIndex.isLt
  show (cells p.elements j).elim 0 _ = _
  rw [cells, if_pos hlt]

/-- A step of a call has a meaning in the source. -/
theorem step_isSome (hk : k < 2 ^ 63) (hs : s.Within k)
    (hreaches : Reaches ConcurrentQueue.step Any {} s.toNat) :
    (∀ i d, (s.consumers i).call = some d → (d.step s.producer).isSome) ∧
      ∀ pick e, s.call = some e → (e.step pick s.producer).isSome := by
  have hinv := (reaches_inv hreaches).producer
  constructor
  · intro i d hd
    have hcall : (s.toNat.consumers i).call = some d.toNat := by
      show (s.consumers i).call.map Dequeue.toNat = _
      rw [hd]
      rfl
    have hsome := hinv.step_isSome (i := i) hcall
    have hordered := ordered_of_reaches hreaches hd
    rwa [show s.toNat.producer = s.producer.toNat from rfl,
      Dequeue.step_toNat hk hs.producer (hs.consumers i d hd) hordered, Option.isSome_map] at hsome
  · intro pick e _
    cases e with
    | start x =>
      simp only [Enqueue.step]
      split_ifs <;> rfl
    | readHead x =>
      -- the head is not ahead of the tail
      have hle : s.producer.headIndex.toNat ≤ s.producer.tailIndex.toNat := hinv.head_le
      have htail := hs.producer.tail
      have hassert : circularLessThan s.producer.tailIndex s.producer.headIndex = false := by
        rw [Bool.eq_false_iff, Ne, circularLessThan_iff (by omega) (by omega)]
        omega
      simp only [Enqueue.step, hassert, Bool.false_eq_true, if_false]
      split_ifs <;> rfl
    | _ => rfl

/-- A call of `enqueue` that finds a block. -/
def puts (x : ℕ) : List (Action ℕ 2) :=
  .enqueue x :: List.replicate 3 (.produce 0)

/-- Two consumers, of which the first begins first and the second gets the first element; before
that a call of `enqueue` finds no memory. -/
def overtaking : List (Action ℕ 2) :=
  [.enqueue 3, .produce 1, .produce 0, .produce 1] ++ puts 5 ++ puts 7 ++
    List.replicate 6 (.consume ⟨0, Nat.two_pos⟩) ++ List.replicate 8 (.consume (Fin.last 1)) ++
    List.replicate 2 (.consume ⟨0, Nat.two_pos⟩)

/-- The elements that have been published and not been taken, the oldest first. -/
def State.content (s : State T n) : List T :=
  (s.enqueued.take s.producer.tailIndex.toNat).drop s.producer.headIndex.toNat

/-- Some steps of a consumer of the queue over natural numbers are steps of the consumer. -/
theorem exists_run_of_toNat {i : Fin n} {m : ℕ} {t : ConcurrentQueue.State T n} (hs : s.Within k)
    (hlt : k + m < 2 ^ 63) (hreaches : Reaches ConcurrentQueue.step Any {} s.toNat)
    (h : run ConcurrentQueue.step Any (List.replicate m (.consume i)) s.toNat = some t) :
    ∃ s', run step Any (List.replicate m (.consume i)) s = some s' ∧ s'.toNat = t := by
  induction m generalizing s k with
  | zero => exact ⟨s, rfl, Option.some.inj h⟩
  | succ m ih =>
    obtain ⟨u, hu, h⟩ := Option.bind_eq_some_iff.mp ((if_pos trivial).symm.trans h)
    rw [consume_toNat (by omega) hs hreaches i] at hu
    obtain ⟨v, hv, rfl⟩ := Option.map_eq_some_iff.mp hu
    obtain ⟨hwithin, hrun⟩ := simulates (by omega) hs hreaches hv
    obtain ⟨s', hs', heq⟩ := ih hwithin (by omega) (hreaches.trans hrun) h
    refine ⟨s', ?_, heq⟩
    have hany : Any s (Action.consume (T := T) i) := trivial
    rw [List.replicate_succ, run, if_pos hany, hv, Option.bind_some]
    exact hs'

end System

end ParallelEnum.ConcurrentQueue.Wrapping
