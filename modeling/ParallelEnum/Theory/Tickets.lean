import ParallelEnum.Theory.Transition
import Mathlib.Algebra.Order.BigOperators.Group.Finset
import Mathlib.Data.Finset.Max

/-!
# Tickets for the elements of a queue

Parties take elements out of a queue without a lock.  A party that looks for an element draws a
*ticket* from the counter `optimistic`, and compares it with the number `tail` of elements that
have been put into the queue.  It is *admitted* if its ticket, less the number of refused tickets
it knows of, is below `tail`, and then takes the next place from the counter `head`; otherwise it is
*refused* and gives its ticket back by counting it in `overcommit`.

`Inv` is what the moves of the parties preserve (`Inv.move`).  Its books record which tickets have
been admitted and which have been refused.

* `Inv.head_le`: an admitted party always finds an element, however old the numbers it compared.
* `Inv.optimistic_eq`: each ticket has been used up, given back, or is held by a party.
-/

namespace Tickets

open Finset

/-- The counters that the parties share. -/
structure Counters where
  /-- How many elements have been put into the queue. -/
  tail : ℕ
  /-- How many elements have been taken out of it. -/
  head : ℕ
  /-- The next ticket. -/
  optimistic : ℕ
  /-- How many tickets have been given back. -/
  overcommit : ℕ

/-- Where a party stands. -/
inductive Place where
  | outside
  /-- Has read how many tickets have been given back. -/
  | looking (overcommit : ℕ)
  /-- Has a ticket, and that number. -/
  | holding (overcommit ticket : ℕ)
  /-- May take an element. -/
  | admitted
  /-- Must give its ticket back. -/
  | refused

/-- What a party may do. -/
inductive Move (c : Counters) : Place → Counters → Place → Prop
  | stay (p : Place) : Move c p c p
  | look : Move c .outside c (.looking c.overcommit)
  | turnAway (o : ℕ) : Move c (.looking o) c .outside
  | draw (o : ℕ) : Move c (.looking o) { c with optimistic := c.optimistic + 1 }
      (.holding o c.optimistic)
  | letIn {o t : ℕ} (h : t - o < c.tail) : Move c (.holding o t) c .admitted
  | refuse {o t : ℕ} (h : ¬ t - o < c.tail) : Move c (.holding o t) c .refused
  | enter : Move c .admitted { c with head := c.head + 1 } .outside
  | giveBack : Move c .refused { c with overcommit := c.overcommit + 1 } .outside

namespace Place

/-- One for a party that is about to take an element. -/
def admittedCount : Place → ℕ
  | admitted => 1
  | _ => 0

/-- One for a party that is about to give its ticket back. -/
def refusedCount : Place → ℕ
  | refused => 1
  | _ => 0

/-- One for a party whose ticket has not been compared. -/
def holdingCount : Place → ℕ
  | holding _ _ => 1
  | _ => 0

/-- One for a party that has a ticket. -/
def inside (p : Place) : ℕ := p.holdingCount + p.admittedCount + p.refusedCount

end Place

variable {ι : Type} [Fintype ι]

/-! ### The books -/

/-- The refused tickets before a ticket. -/
def before (R : Finset ℕ) (t : ℕ) : Finset ℕ := R.filter (· < t)

/-- The admitted tickets `A` and the refused tickets `R`, as far as the counters and the places of
the parties tell. -/
structure Books (c : Counters) (g : ι → Place) (A R : Finset ℕ) : Prop where
  card_admitted : A.card = c.head + ∑ i, (g i).admittedCount
  card_refused : R.card = c.overcommit + ∑ i, (g i).refusedCount
  drawn : A.card + R.card + ∑ i, (g i).holdingCount = c.optimistic
  disjoint : Disjoint A R
  admitted_lt : ∀ a ∈ A, a < c.optimistic
  refused_lt : ∀ r ∈ R, r < c.optimistic
  /-- An admitted ticket is covered by an element, with the refused tickets before it. -/
  covered : ∀ a ∈ A, a < c.tail + (before R a).card
  looking : ∀ i o, g i = .looking o → o ≤ c.overcommit
  holding : ∀ i o t, g i = .holding o t →
    t < c.optimistic ∧ t ∉ A ∧ t ∉ R ∧ o ≤ (before R t).card
  /-- No two parties hold one ticket. -/
  distinct : ∀ i j o o' t, g i = .holding o t → g j = .holding o' t → i = j

/-- What holds between any two moves. -/
def Inv (c : Counters) (g : ι → Place) : Prop := ∃ A R, Books c g A R

theorem Inv.init : Inv ⟨0, 0, 0, 0⟩ fun _ : ι => .outside := by
  refine ⟨∅, ∅, ?_⟩
  constructor <;> simp [Place.admittedCount, Place.refusedCount, Place.holdingCount]

theorem card_before_le {R : Finset ℕ} {n : ℕ} (h : ∀ r ∈ R, r < n) :
    (before R n).card = R.card := by
  rw [before, filter_true_of_mem h]

theorem card_before_mono {R S : Finset ℕ} (h : R ⊆ S) (t : ℕ) :
    (before R t).card ≤ (before S t).card :=
  card_le_card (filter_subset_filter _ h)

/-- There are no more admitted tickets than elements: count the tickets up to the last of them. -/
theorem Books.card_le_tail {c : Counters} {g : ι → Place} {A R : Finset ℕ} (h : Books c g A R) :
    A.card ≤ c.tail := by
  rcases A.eq_empty_or_nonempty with rfl | hne
  · exact Nat.zero_le _
  · set a := A.max' hne with ha
    have hmem : a ∈ A := A.max'_mem hne
    have hdisj : Disjoint (A.erase a) (before R a) :=
      h.disjoint.mono (erase_subset a A) (filter_subset _ R)
    have hsub : A.erase a ∪ before R a ⊆ range a := by
      intro x hx
      rw [mem_range]
      rcases mem_union.mp hx with hx | hx
      · exact lt_of_le_of_ne (A.le_max' x (mem_of_mem_erase hx)) (ne_of_mem_erase hx)
      · exact (mem_filter.mp hx).2
    have hcard := card_le_card hsub
    rw [card_union_of_disjoint hdisj, card_erase_of_mem hmem, card_range] at hcard
    have hcovered := h.covered a hmem
    omega

/-! ### Moves -/

section Moves

variable [DecidableEq ι] {c c' : Counters} {g : ι → Place} {A R : Finset ℕ} {i : ι} {q : Place}

/-- A sum over all parties before and after a move. -/
theorem sum_update_add (f : Place → ℕ) (g : ι → Place) (i : ι) (q : Place) {m k : ℕ}
    (hm : f (g i) = m) (hk : f q = k) :
    ∑ j, f (Function.update g i q j) + m = ∑ j, f (g j) + k := by
  obtain ⟨rest, hbefore, hafter⟩ := Transition.exists_sum_update f g i
  rw [hbefore, hafter q]
  omega

/-- The clauses about single parties are kept if the party that moves meets them. -/
theorem Books.update (h : Books c g A R) {A' R' : Finset ℕ}
    (hA : A'.card = c'.head + ∑ j, (Function.update g i q j).admittedCount)
    (hR : R'.card = c'.overcommit + ∑ j, (Function.update g i q j).refusedCount)
    (hdrawn : A'.card + R'.card + ∑ j, (Function.update g i q j).holdingCount = c'.optimistic)
    (hdisj : Disjoint A' R') (hopt : c.optimistic ≤ c'.optimistic)
    (hover : c.overcommit ≤ c'.overcommit) (hsub : R ⊆ R')
    (hA_lt : ∀ a ∈ A', a < c'.optimistic) (hR_lt : ∀ r ∈ R', r < c'.optimistic)
    (hcovered : ∀ a ∈ A', a < c'.tail + (before R' a).card)
    (hlooking : ∀ o, q = .looking o → o ≤ c'.overcommit)
    (hholding : ∀ o t, q = .holding o t →
      t < c'.optimistic ∧ t ∉ A' ∧ t ∉ R' ∧ o ≤ (before R' t).card)
    (hnew : ∀ j o t, j ≠ i → g j = .holding o t → t ∉ A' ∧ t ∉ R')
    (hdistinct : ∀ j o o' t, j ≠ i → g j = .holding o t → q ≠ .holding o' t) :
    Books c' (Function.update g i q) A' R' := by
  constructor
  case card_admitted => exact hA
  case card_refused => exact hR
  case drawn => exact hdrawn
  case disjoint => exact hdisj
  case admitted_lt => exact hA_lt
  case refused_lt => exact hR_lt
  case covered => exact hcovered
  case looking =>
    intro j o hj
    rcases Transition.eq_or_of_update hj with ⟨-, hq⟩ | ⟨-, hj⟩
    · exact hlooking o hq
    · exact (h.looking j o hj).trans hover
  case holding =>
    intro j o t hj
    rcases Transition.eq_or_of_update hj with ⟨-, hq⟩ | ⟨hne, hj⟩
    · exact hholding o t hq
    · obtain ⟨hlt, -, -, ho⟩ := h.holding j o t hj
      obtain ⟨htA, htR⟩ := hnew j o t hne hj
      exact ⟨hlt.trans_le hopt, htA, htR, ho.trans (card_before_mono hsub t)⟩
  case distinct =>
    intro j k o o' t hj hk
    rcases Transition.eq_or_of_update hj with ⟨hji, hqj⟩ | ⟨hnej, hgj⟩
    · rcases Transition.eq_or_of_update hk with ⟨hki, -⟩ | ⟨hnek, hgk⟩
      · exact hji.trans hki.symm
      · exact absurd hqj (hdistinct k o' o t hnek hgk)
    · rcases Transition.eq_or_of_update hk with ⟨-, hqk⟩ | ⟨-, hgk⟩
      · exact absurd hqk (hdistinct j o o' t hnej hgj)
      · exact h.distinct j k o o' t hgj hgk

/-- A move that gives no ticket a verdict and draws none keeps the books. -/
theorem Books.keep (h : Books c g A R) (htail : c'.tail = c.tail)
    (hopt : c'.optimistic = c.optimistic) (hover : c.overcommit ≤ c'.overcommit)
    (hhead : c'.head + q.admittedCount = c.head + (g i).admittedCount)
    (hback : c'.overcommit + q.refusedCount = c.overcommit + (g i).refusedCount)
    (hhold : q.holdingCount = (g i).holdingCount)
    (hlooking : ∀ o, q = .looking o → o ≤ c'.overcommit)
    (hholding : ∀ o t, q = .holding o t → g i = .holding o t) :
    Books c' (Function.update g i q) A R := by
  have hA := h.card_admitted
  have hR := h.card_refused
  have hdrawn := h.drawn
  have hadm := sum_update_add Place.admittedCount g i q rfl rfl
  have href := sum_update_add Place.refusedCount g i q rfl rfl
  have hhol := sum_update_add Place.holdingCount g i q rfl rfl
  apply h.update
  case hA => omega
  case hR => omega
  case hdrawn => omega
  case hdisj => exact h.disjoint
  case hopt => exact hopt.ge
  case hover => exact hover
  case hsub => exact Finset.Subset.refl R
  case hA_lt => rw [hopt]; exact h.admitted_lt
  case hR_lt => rw [hopt]; exact h.refused_lt
  case hcovered => rw [htail]; exact h.covered
  case hlooking => exact hlooking
  case hholding => intro o t hq; rw [hopt]; exact h.holding i o t (hholding o t hq)
  case hnew => intro j o t _ hj; exact ⟨(h.holding j o t hj).2.1, (h.holding j o t hj).2.2.1⟩
  case hdistinct =>
    intro j o o' t hne hj hq
    exact hne (h.distinct j i o o' t hj (hholding o' t hq))

/-- Drawing a ticket keeps the books. -/
theorem Books.draw (h : Books c g A R) {o : ℕ} (hi : g i = .looking o) :
    Books { c with optimistic := c.optimistic + 1 }
      (Function.update g i (.holding o c.optimistic)) A R := by
  have hadm := sum_update_add Place.admittedCount g i (.holding o c.optimistic) (m := 0) (k := 0)
    (by rw [hi]; rfl) rfl
  have href := sum_update_add Place.refusedCount g i (.holding o c.optimistic) (m := 0) (k := 0)
    (by rw [hi]; rfl) rfl
  have hhol := sum_update_add Place.holdingCount g i (.holding o c.optimistic) (m := 0) (k := 1)
    (by rw [hi]; rfl) rfl
  have hA := h.card_admitted
  have hR := h.card_refused
  have hdrawn := h.drawn
  apply h.update
  case hA => show A.card = c.head + _; omega
  case hR => show R.card = c.overcommit + _; omega
  case hdrawn => show _ = c.optimistic + 1; omega
  case hdisj => exact h.disjoint
  case hopt => exact Nat.le_succ _
  case hover => exact le_rfl
  case hsub => exact Finset.Subset.refl R
  case hA_lt => exact fun a ha => Nat.lt_succ_of_lt (h.admitted_lt a ha)
  case hR_lt => exact fun r hr => Nat.lt_succ_of_lt (h.refused_lt r hr)
  case hcovered => exact h.covered
  case hlooking => intro o' ho'; cases ho'
  case hholding =>
    intro o' t ht
    cases ht
    refine ⟨Nat.lt_succ_self _, ?_, ?_, ?_⟩
    · exact fun hmem => lt_irrefl _ (h.admitted_lt _ hmem)
    · exact fun hmem => lt_irrefl _ (h.refused_lt _ hmem)
    · -- all the tickets given back have been refused, and all come before the new one
      rw [card_before_le h.refused_lt]
      have ho := h.looking i o hi
      omega
  case hnew => intro j o' t _ hj; exact ⟨(h.holding j o' t hj).2.1, (h.holding j o' t hj).2.2.1⟩
  case hdistinct =>
    intro j o₁ o₂ t _ hj ht
    cases ht
    exact lt_irrefl _ (h.holding j o₁ _ hj).1

/-- Letting in a ticket that is covered keeps the books. -/
theorem Books.letIn (h : Books c g A R) {o t : ℕ} (hi : g i = .holding o t) (ht : t - o < c.tail) :
    Books c (Function.update g i .admitted) (insert t A) R := by
  obtain ⟨hlt, htA, htR, ho⟩ := h.holding i o t hi
  have hadm := sum_update_add Place.admittedCount g i .admitted (m := 0) (k := 1)
    (by rw [hi]; rfl) rfl
  have href := sum_update_add Place.refusedCount g i .admitted (m := 0) (k := 0)
    (by rw [hi]; rfl) rfl
  have hhol := sum_update_add Place.holdingCount g i .admitted (m := 1) (k := 0)
    (by rw [hi]; rfl) rfl
  have hA := h.card_admitted
  have hR := h.card_refused
  have hdrawn := h.drawn
  have hcard := card_insert_of_notMem htA
  apply h.update
  case hA => omega
  case hR => omega
  case hdrawn => omega
  case hdisj => exact disjoint_insert_left.mpr ⟨htR, h.disjoint⟩
  case hopt => exact le_rfl
  case hover => exact le_rfl
  case hsub => exact Finset.Subset.refl R
  case hA_lt => exact forall_mem_insert _ _ _ |>.mpr ⟨hlt, h.admitted_lt⟩
  case hR_lt => exact h.refused_lt
  case hcovered =>
    refine forall_mem_insert _ _ _ |>.mpr ⟨?_, h.covered⟩
    omega
  case hlooking => intro o' ho'; cases ho'
  case hholding => intro o' t' ht'; cases ht'
  case hnew =>
    intro j o' t' hne hj
    obtain ⟨-, htA', htR', -⟩ := h.holding j o' t' hj
    refine ⟨?_, htR'⟩
    rw [mem_insert, not_or]
    refine ⟨?_, htA'⟩
    rintro rfl
    exact hne (h.distinct j i o' o _ hj hi)
  case hdistinct => intro j o₁ o₂ t' _ _ ht'; cases ht'

/-- Refusing a ticket keeps the books. -/
theorem Books.refuse (h : Books c g A R) {o t : ℕ} (hi : g i = .holding o t) :
    Books c (Function.update g i .refused) A (insert t R) := by
  obtain ⟨hlt, htA, htR, -⟩ := h.holding i o t hi
  have hadm := sum_update_add Place.admittedCount g i .refused (m := 0) (k := 0)
    (by rw [hi]; rfl) rfl
  have href := sum_update_add Place.refusedCount g i .refused (m := 0) (k := 1)
    (by rw [hi]; rfl) rfl
  have hhol := sum_update_add Place.holdingCount g i .refused (m := 1) (k := 0)
    (by rw [hi]; rfl) rfl
  have hA := h.card_admitted
  have hR := h.card_refused
  have hdrawn := h.drawn
  have hcard := card_insert_of_notMem htR
  apply h.update
  case hA => omega
  case hR => omega
  case hdrawn => omega
  case hdisj => exact disjoint_insert_right.mpr ⟨htA, h.disjoint⟩
  case hopt => exact le_rfl
  case hover => exact le_rfl
  case hsub => exact subset_insert t R
  case hA_lt => exact h.admitted_lt
  case hR_lt => exact forall_mem_insert _ _ _ |>.mpr ⟨hlt, h.refused_lt⟩
  case hcovered =>
    intro a ha
    have hle := card_before_mono (subset_insert t R) a
    have hcovered := h.covered a ha
    omega
  case hlooking => intro o' ho'; cases ho'
  case hholding => intro o' t' ht'; cases ht'
  case hnew =>
    intro j o' t' hne hj
    obtain ⟨-, htA', htR', -⟩ := h.holding j o' t' hj
    refine ⟨htA', ?_⟩
    rw [mem_insert, not_or]
    refine ⟨?_, htR'⟩
    rintro rfl
    exact hne (h.distinct j i o' o _ hj hi)
  case hdistinct => intro j o₁ o₂ t' _ _ ht'; cases ht'

/-- **Every move of a party keeps the books.** -/
theorem Inv.move (h : Inv c g) (hmove : Move c (g i) c' q) : Inv c' (Function.update g i q) := by
  obtain ⟨A, R, h⟩ := h
  generalize hi : g i = p at hmove
  cases hmove with
  | stay =>
    rw [← hi, Function.update_eq_self]
    exact ⟨A, R, h⟩
  | look =>
    refine ⟨A, R, h.keep rfl rfl le_rfl ?_ ?_ ?_ ?_ ?_⟩
    · rw [hi]; rfl
    · rw [hi]; rfl
    · rw [hi]; rfl
    · intro o ho; cases ho; exact le_rfl
    · intro o t ht; cases ht
  | turnAway o =>
    refine ⟨A, R, h.keep rfl rfl le_rfl ?_ ?_ ?_ ?_ ?_⟩
    · rw [hi]; rfl
    · rw [hi]; rfl
    · rw [hi]; rfl
    · intro o ho; cases ho
    · intro o t ht; cases ht
  | draw o => exact ⟨A, R, h.draw hi⟩
  | @letIn o t ht => exact ⟨insert t A, R, h.letIn hi ht⟩
  | @refuse o t _ => exact ⟨A, insert t R, h.refuse hi⟩
  | enter =>
    refine ⟨A, R, h.keep rfl rfl le_rfl ?_ ?_ ?_ ?_ ?_⟩
    · rw [hi]; rfl
    · rw [hi]; rfl
    · rw [hi]; rfl
    · intro o ho; cases ho
    · intro o t ht; cases ht
  | giveBack =>
    refine ⟨A, R, h.keep rfl rfl (Nat.le_succ _) ?_ ?_ ?_ ?_ ?_⟩
    · rw [hi]; rfl
    · rw [hi]; rfl
    · rw [hi]; rfl
    · intro o ho; cases ho
    · intro o t ht; cases ht

end Moves

/-- Putting an element into the queue keeps the books. -/
theorem Inv.put {c : Counters} {g : ι → Place} (h : Inv c g) :
    Inv { c with tail := c.tail + 1 } g := by
  obtain ⟨A, R, h⟩ := h
  refine ⟨A, R, { h with covered := ?_ }⟩
  intro a ha
  have := h.covered a ha
  show a < c.tail + 1 + _
  omega

/-! ### What the books say -/

variable {c : Counters} {g : ι → Place}

/-- The places that have been taken or that are about to be taken are places of elements. -/
theorem Inv.head_le (h : Inv c g) : c.head + ∑ i, (g i).admittedCount ≤ c.tail := by
  obtain ⟨A, R, h⟩ := h
  rw [← h.card_admitted]
  exact h.card_le_tail

/-- A party that is admitted finds an element. -/
theorem Inv.head_lt (h : Inv c g) {i : ι} (hi : g i = .admitted) : c.head < c.tail := by
  have hle := h.head_le
  have hone : (g i).admittedCount ≤ ∑ j, (g j).admittedCount :=
    single_le_sum (f := fun j => (g j).admittedCount) (fun _ _ => Nat.zero_le _) (mem_univ i)
  rw [hi] at hone
  change 1 ≤ _ at hone
  omega

/-- Each ticket has been used up, has been given back, or is held by a party. -/
theorem Inv.optimistic_eq (h : Inv c g) :
    c.optimistic = c.head + c.overcommit + ∑ i, (g i).inside := by
  obtain ⟨A, R, h⟩ := h
  have hA := h.card_admitted
  have hR := h.card_refused
  have hdrawn := h.drawn
  have hsum : ∑ i, (g i).inside = ∑ i, (g i).holdingCount + ∑ i, (g i).admittedCount
      + ∑ i, (g i).refusedCount := by
    simp only [Place.inside, sum_add_distrib]
  omega

/-- The number a party has read is not above the ticket that it has drawn. -/
theorem Inv.overcommit_le_ticket (h : Inv c g) {i : ι} {o t : ℕ} (hi : g i = .holding o t) :
    o ≤ t := by
  obtain ⟨A, R, h⟩ := h
  obtain ⟨-, -, -, ho⟩ := h.holding i o t hi
  have hsub : before R t ⊆ range t := fun r hr => mem_range.mpr (mem_filter.mp hr).2
  have hcard := card_le_card hsub
  rw [card_range] at hcard
  omega

/-- Nor above the tickets that have been drawn. -/
theorem Inv.overcommit_le_optimistic (h : Inv c g) {i : ι} {o : ℕ} (hi : g i = .looking o) :
    o ≤ c.optimistic := by
  have hopt := h.optimistic_eq
  obtain ⟨A, R, h⟩ := h
  have ho := h.looking i o hi
  omega

end Tickets
