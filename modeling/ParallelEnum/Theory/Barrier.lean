import ParallelEnum.Theory.Transition
import Mathlib.Algebra.Order.BigOperators.Group.Finset
import Mathlib.Data.Fintype.BigOperators

/-!
# A barrier that counts generations

The last party to arrive at the barrier resets the count and starts a new generation; the others
spin until they see it.  A party waits again and again, so its *phase* changes each time that it
leaves the barrier.

`Inv` is what the moves of the parties preserve (`Inv.move`).  Its last clause is what a barrier is
for: all parties are past the same number of barriers, up to parity, when a party that spins but
has been released counts as past this one.  `Inv.passed_move` says the same of the number itself.
-/

namespace Barrier

/-- The variables of a barrier. -/
structure Bar where
  /-- The number of parties. -/
  count : ℕ
  /-- How many parties have not arrived. -/
  spaces : ℕ
  generation : BitVec 32

/-- How far a call of `wait` has come. -/
inductive Wait where
  | start
  /-- The generation has been read. -/
  | read (generation : BitVec 32)
  /-- The last one to arrive, before it resets `spaces`. -/
  | reset
  /-- The last one to arrive, before it starts a new generation. -/
  | release
  /-- In the loop that waits for another generation than this one. -/
  | spin (generation : BitVec 32)
deriving DecidableEq

/-- One step of a call of `wait`; `none` when the call returns. -/
def Wait.step (b : Bar) : Wait → Bar × Option Wait
  | .start => (b, some (.read b.generation))
  | .read generation =>
    ({ b with spaces := b.spaces - 1 },
      some (if b.spaces - 1 = 0 then .reset else .spin generation))
  | .reset => ({ b with spaces := b.count }, some .release)
  | .release => ({ b with generation := b.generation + 1 }, none)
  | .spin generation => (b, if b.generation = generation then some (.spin generation) else none)

/-- A party: whether it has left the barrier an odd number of times, and its call of `wait`. -/
structure Party where
  phase : Bool
  wait : Option Wait

/-- What a party may do. -/
inductive Move (b : Bar) : Party → Bar → Party → Prop
  | stay (p : Party) : Move b p b p
  | enter (phase : Bool) : Move b ⟨phase, none⟩ b ⟨phase, some .start⟩
  | go {phase : Bool} {w w' : Wait} {b' : Bar} (h : w.step b = (b', some w')) :
      Move b ⟨phase, some w⟩ b' ⟨phase, some w'⟩
  | leave {phase : Bool} {w : Wait} {b' : Bar} (h : w.step b = (b', none)) :
      Move b ⟨phase, some w⟩ b' ⟨!phase, none⟩

/-- The moves one by one; a party that spins on has not moved. -/
inductive Moved (b : Bar) : Party → Bar → Party → Prop
  | stay (p : Party) : Moved b p b p
  | enter (phase : Bool) : Moved b ⟨phase, none⟩ b ⟨phase, some .start⟩
  | read (phase : Bool) : Moved b ⟨phase, some .start⟩ b ⟨phase, some (.read b.generation)⟩
  | arrive (phase : Bool) (g : BitVec 32) : Moved b ⟨phase, some (.read g)⟩
      { b with spaces := b.spaces - 1 }
      ⟨phase, some (if b.spaces - 1 = 0 then .reset else .spin g)⟩
  | reset (phase : Bool) : Moved b ⟨phase, some .reset⟩ { b with spaces := b.count }
      ⟨phase, some .release⟩
  | release (phase : Bool) : Moved b ⟨phase, some .release⟩
      { b with generation := b.generation + 1 } ⟨!phase, none⟩
  | leave (phase : Bool) {g : BitVec 32} (hg : g ≠ b.generation) :
      Moved b ⟨phase, some (.spin g)⟩ b ⟨!phase, none⟩

theorem Move.moved {b b' : Bar} {p q : Party} (h : Move b p b' q) : Moved b p b' q := by
  cases h with
  | stay => exact .stay p
  | enter phase => exact .enter phase
  | @go phase w w' _ hstep =>
    cases w with
    | start =>
      obtain ⟨rfl, hw⟩ := Prod.mk.inj hstep
      obtain rfl := Option.some.inj hw
      exact .read phase
    | read g =>
      obtain ⟨rfl, hw⟩ := Prod.mk.inj hstep
      obtain rfl := Option.some.inj hw
      exact .arrive phase g
    | reset =>
      obtain ⟨rfl, hw⟩ := Prod.mk.inj hstep
      obtain rfl := Option.some.inj hw
      exact .reset phase
    | release => cases hstep
    | spin g =>
      obtain ⟨rfl, hw⟩ := Prod.mk.inj hstep
      split_ifs at hw
      obtain rfl := Option.some.inj hw
      exact .stay _
  | @leave phase w _ hstep =>
    cases w with
    | start => cases hstep
    | read g => cases hstep
    | reset => cases hstep
    | release =>
      obtain ⟨rfl, -⟩ := Prod.mk.inj hstep
      exact .release phase
    | spin g =>
      obtain ⟨rfl, hw⟩ := Prod.mk.inj hstep
      split_ifs at hw with hg
      exact .leave phase (Ne.symm hg)

/-- A party that spins although a new generation has started. -/
def released (b : Bar) : Option Wait → Bool
  | some (.spin generation) => generation ≠ b.generation
  | _ => false

/-- The phase of a party, as if a released one had left. -/
def past (b : Bar) (p : Party) : Bool := p.phase ^^ released b p.wait

/-- A party that has been released leaves at its next step. -/
theorem released_of_go {b b' : Bar} {w w' : Wait} (h : w.step b = (b', some w')) :
    released b (some w) = false := by
  cases w with
  | spin g =>
    obtain ⟨-, hw⟩ := Prod.mk.inj h
    split_ifs at hw with hg
    simp [released, hg]
  | _ => rfl

/-- One for a party that has arrived and has not been released. -/
def arrived (b : Bar) (p : Party) : ℕ :=
  match p.wait with
  | some .reset => 1
  | some .release => 1
  | some (.spin generation) => if generation = b.generation then 1 else 0
  | _ => 0

variable {ι : Type} [Fintype ι] [DecidableEq ι]

/-- The last one to arrive. -/
def Closes (p : Party) : Prop := p.wait = some .reset ∨ p.wait = some .release

/-- What holds between any two steps. -/
structure Inv (b : Bar) (p : ι → Party) : Prop where
  count_eq : b.count = Fintype.card ι
  read_eq : ∀ i g, (p i).wait = some (.read g) → g = b.generation
  spaces_eq : (∀ i, (p i).wait ≠ some .release) →
    b.spaces + ∑ i, arrived b (p i) = Fintype.card ι
  spaces_release : ∀ i, (p i).wait = some .release → b.spaces = Fintype.card ι
  last : ∀ i, Closes (p i) → ∀ j, j ≠ i → (p j).wait = some (.spin b.generation)
  past_eq : ∃ m, ∀ i, past b (p i) = m

theorem Inv.init (n : ℕ) (hn : Fintype.card ι = n) (g : BitVec 32) :
    Inv { count := n, spaces := n, generation := g } fun _ : ι => ⟨false, none⟩ where
  count_eq := hn.symm
  read_eq := by simp
  spaces_eq := by simp [arrived, hn]
  spaces_release := by simp
  last := by simp [Closes]
  past_eq := ⟨false, fun _ => rfl⟩

theorem arrived_le_one (b : Bar) (p : Party) : arrived b p ≤ 1 := by
  unfold arrived
  split
  · exact le_rfl
  · exact le_rfl
  · split_ifs
    · exact le_rfl
    · exact Nat.zero_le 1
  · exact Nat.zero_le 1

theorem spin_of_arrived {b : Bar} {p : Party} (h : arrived b p = 1) (hp : ¬ Closes p) :
    p.wait = some (.spin b.generation) := by
  unfold arrived at h
  split at h
  · rename_i hreset
    exact absurd (Or.inl hreset) hp
  · rename_i hrelease
    exact absurd (Or.inr hrelease) hp
  · rename_i g hspin
    split_ifs at h with hg
    rw [hspin, hg]
  · cases h

omit [DecidableEq ι] in
theorem sum_arrived_le (b : Bar) (p : ι → Party) : ∑ i, arrived b (p i) ≤ Fintype.card ι := by
  have hle := Finset.sum_le_card_nsmul Finset.univ (fun i => arrived b (p i)) 1
    fun i _ => arrived_le_one b (p i)
  simpa using hle

omit [DecidableEq ι] in
theorem arrived_of_sum {b : Bar} {p : ι → Party} (h : ∑ i, arrived b (p i) = Fintype.card ι)
    (i : ι) : arrived b (p i) = 1 := by
  have hcard : ∑ i, arrived b (p i) = ∑ _i : ι, 1 := by simpa using h
  have hall := (Finset.sum_eq_sum_iff_of_le fun i _ => arrived_le_one b (p i)).mp hcard
  exact hall i (Finset.mem_univ i)

section Move

variable {b : Bar} {p : ι → Party} {i : ι}

theorem Inv.spaces_update (h : Inv b p) (hrelease : ∀ j, (p j).wait ≠ some .release) (q : Party) :
    b.spaces + arrived b (p i) + ∑ j, arrived b (Function.update p i q j)
      = Fintype.card ι + arrived b q := by
  obtain ⟨rest, hsum, hupdate⟩ := Transition.exists_sum_update (arrived b) p i
  have hspaces := h.spaces_eq hrelease
  rw [hupdate q]
  omega

omit [Fintype ι] in
/-- Where a party waits after a step: the one that moves, or another one. -/
theorem wait_update {q : Party} {j : ι} {w : Option Wait}
    (h : (Function.update p i q j).wait = w) : (j = i ∧ q.wait = w) ∨ (j ≠ i ∧ (p j).wait = w) := by
  by_cases hji : j = i
  · subst hji
    rw [Function.update_self] at h
    exact Or.inl ⟨rfl, h⟩
  · rw [Function.update_of_ne hji] at h
    exact Or.inr ⟨hji, h⟩

omit [Fintype ι] in
theorem closes_update {q : Party} {j : ι} (h : Closes (Function.update p i q j)) :
    (j = i ∧ Closes q) ∨ (j ≠ i ∧ Closes (p j)) := by
  rcases h with h | h
  · exact (wait_update h).imp (And.imp_right Or.inl) (And.imp_right Or.inl)
  · exact (wait_update h).imp (And.imp_right Or.inr) (And.imp_right Or.inr)

/-- A step of a party other than the last one to arrive. -/
theorem Inv.update (h : Inv b p) {q : Party} (hp : ¬ Closes (p i)) (hq : ¬ Closes q)
    (hpast : past b q = past b (p i)) (harrived : arrived b q = arrived b (p i))
    (hread : ∀ g, q.wait = some (.read g) → g = b.generation)
    (hspin : (p i).wait = some (.spin b.generation) → q.wait = some (.spin b.generation)) :
    Inv b (Function.update p i q) := by
  have hne : ∀ j, Closes (Function.update p i q j) → Closes (p j) := by
    intro j hj
    rcases closes_update hj with ⟨-, hj⟩ | ⟨-, hj⟩
    · exact absurd hj hq
    · exact hj
  constructor
  case count_eq => exact h.count_eq
  case read_eq =>
    intro j g hj
    rcases wait_update hj with ⟨-, hj⟩ | ⟨-, hj⟩
    · exact hread g hj
    · exact h.read_eq j g hj
  case spaces_eq =>
    intro hnone
    have hrelease : ∀ j, (p j).wait ≠ some .release := by
      intro j hj
      by_cases hji : j = i
      · subst hji
        exact hp (Or.inr hj)
      · have hnone' := hnone j
        rw [Function.update_of_ne hji] at hnone'
        exact hnone' hj
    have hspaces := h.spaces_update (i := i) hrelease q
    omega
  case spaces_release =>
    intro j hj
    rcases wait_update hj with ⟨-, hj⟩ | ⟨-, hj⟩
    · exact absurd (Or.inr hj) hq
    · exact h.spaces_release j hj
  case last =>
    intro j hj l hl
    by_cases hli : l = i
    · rw [hli, Function.update_self]
      exact hspin (h.last j (hne j hj) i (hli ▸ hl))
    · rw [Function.update_of_ne hli]
      exact h.last j (hne j hj) l hl
  case past_eq =>
    obtain ⟨m, hm⟩ := h.past_eq
    refine ⟨m, (Function.forall_update_iff p fun _ q => past b q = m).mpr ⟨?_, fun j _ => hm j⟩⟩
    rw [hpast]
    exact hm i

/-- While a party is about to arrive, no one is the last one to arrive. -/
theorem Inv.not_closes (h : Inv b p) {g : BitVec 32} (hi : (p i).wait = some (.read g)) (j : ι) :
    ¬ Closes (p j) := by
  intro hj
  by_cases hji : j = i
  · subst hji
    rcases hj with hj | hj
    · simp [hi] at hj
    · simp [hi] at hj
  · have hspin := h.last j hj i (Ne.symm hji)
    simp [hi] at hspin

/-- A party arrives. -/
theorem Inv.arrive (h : Inv b p) {phase : Bool} {g : BitVec 32}
    (hi : p i = ⟨phase, some (.read g)⟩) :
    Inv { b with spaces := b.spaces - 1 }
      (Function.update p i ⟨phase, some (if b.spaces - 1 = 0 then .reset else .spin g)⟩) := by
  set q : Party := ⟨phase, some (if b.spaces - 1 = 0 then .reset else .spin g)⟩ with hq
  obtain rfl : g = b.generation := h.read_eq i g (by rw [hi])
  have hopen : ∀ j, ¬ Closes (p j) := h.not_closes (by rw [hi])
  have hwait : q.wait ≠ some .release ∧ ∀ g, q.wait ≠ some (.read g) := by
    rw [hq]
    dsimp only
    split_ifs <;> exact ⟨nofun, nofun⟩
  have harrived : arrived b q = 1 := by
    rw [hq]
    unfold arrived
    split_ifs
    · rfl
    · exact if_pos rfl
  have hspaces := h.spaces_update (i := i) (fun j hj => hopen j (Or.inr hj)) q
  have hi0 : arrived b (p i) = 0 := by rw [hi]; rfl
  have hle := sum_arrived_le b (Function.update p i q)
  have hsum : b.spaces - 1 + ∑ j, arrived b (Function.update p i q j) = Fintype.card ι := by omega
  constructor
  case count_eq => exact h.count_eq
  case read_eq =>
    intro j g hj
    rcases wait_update hj with ⟨-, hj⟩ | ⟨-, hj⟩
    · exact absurd hj (hwait.2 g)
    · exact h.read_eq j g hj
  case spaces_eq =>
    intro _
    exact hsum
  case spaces_release =>
    intro j hj
    rcases wait_update hj with ⟨-, hj⟩ | ⟨-, hj⟩
    · exact absurd hj hwait.1
    · exact absurd (Or.inr hj) (hopen j)
  case last =>
    intro j hj l hl
    -- only this party can be the last one, and then all others have arrived
    rcases closes_update hj with ⟨rfl, hj⟩ | ⟨-, hj⟩
    swap
    · exact absurd hj (hopen j)
    have hzero : b.spaces - 1 = 0 := by
      by_contra hpos
      unfold Closes at hj
      rw [hq] at hj
      simp [hpos] at hj
    rw [hzero, Nat.zero_add] at hsum
    have hl1 := arrived_of_sum hsum l
    rw [Function.update_of_ne hl] at hl1 ⊢
    exact spin_of_arrived hl1 (hopen l)
  case past_eq =>
    obtain ⟨m, hm⟩ := h.past_eq
    refine ⟨m, (Function.forall_update_iff p fun _ q => past _ q = m).mpr ⟨?_, fun j _ => hm j⟩⟩
    have hmi := hm i
    rw [hi] at hmi
    rw [hq, ← hmi]
    unfold past released
    split_ifs
    · rfl
    · simp

/-- The last one to arrive resets the barrier. -/
theorem Inv.reset (h : Inv b p) {phase : Bool} (hi : p i = ⟨phase, some .reset⟩) :
    Inv { b with spaces := b.count } (Function.update p i ⟨phase, some .release⟩) := by
  have hlast := h.last i (Or.inl (by rw [hi]))
  have hnot : ∀ j, j ≠ i → ¬ Closes (p j) := by
    intro j hji hj
    rcases hj with hj | hj
    · rw [hlast j hji] at hj
      cases hj
    · rw [hlast j hji] at hj
      cases hj
  constructor
  case count_eq => exact h.count_eq
  case read_eq =>
    intro j g hj
    rcases wait_update hj with ⟨-, hj⟩ | ⟨-, hj⟩
    · cases hj
    · exact h.read_eq j g hj
  case spaces_eq =>
    intro hnone
    have := hnone i
    rw [Function.update_self] at this
    exact absurd rfl this
  case spaces_release =>
    intro _ _
    exact h.count_eq
  case last =>
    intro j hj l hl
    rcases closes_update hj with ⟨rfl, -⟩ | ⟨hji, hj⟩
    · rw [Function.update_of_ne hl]
      exact hlast l hl
    · exact absurd hj (hnot j hji)
  case past_eq =>
    obtain ⟨m, hm⟩ := h.past_eq
    refine ⟨m, (Function.forall_update_iff p fun _ q => past _ q = m).mpr ⟨?_, fun j _ => hm j⟩⟩
    have hmi := hm i
    rw [hi] at hmi
    exact hmi

/-- A new generation starts, and all parties are past the barrier. -/
theorem Inv.release (h : Inv b p) {phase : Bool} (hi : p i = ⟨phase, some .release⟩) :
    Inv { b with generation := b.generation + 1 } (Function.update p i ⟨!phase, none⟩) := by
  have hlast := h.last i (Or.inr (by rw [hi]))
  set p' := Function.update p i ⟨!phase, none⟩ with hp'
  -- nobody is at the new barrier yet
  have hwait : ∀ j, (p' j).wait = none ∨ (p' j).wait = some (.spin b.generation) := by
    intro j
    rcases wait_update (rfl : (p' j).wait = _) with ⟨-, hj⟩ | ⟨hji, hj⟩
    · exact Or.inl hj.symm
    · exact Or.inr (hj.symm.trans (hlast j hji))
  constructor
  case count_eq => exact h.count_eq
  case read_eq =>
    intro j g hj
    rcases hwait j with hj' | hj'
    · simp [hj'] at hj
    · simp [hj'] at hj
  case spaces_eq =>
    intro _
    have hzero : ∀ j, arrived { b with generation := b.generation + 1 } (p' j) = 0 := by
      intro j
      unfold arrived
      rcases hwait j with hj | hj
      · simp [hj]
      · simp [hj]
    simp only [hzero, Finset.sum_const_zero, Nat.add_zero]
    exact h.spaces_release i (by rw [hi])
  case spaces_release =>
    intro j hj
    rcases hwait j with hj' | hj'
    · simp [hj'] at hj
    · simp [hj'] at hj
  case last =>
    intro j hj
    rcases hwait j with hj' | hj'
    · simp [Closes, hj'] at hj
    · simp [Closes, hj'] at hj
  case past_eq =>
    obtain ⟨m, hm⟩ := h.past_eq
    refine ⟨!m, (Function.forall_update_iff p fun _ q => past _ q = !m).mpr ⟨?_, ?_⟩⟩
    · have hmi := hm i
      rw [hi] at hmi
      rw [← hmi]
      simp [past, released]
    · intro j hji
      rw [← hm j]
      simp [past, released, hlast j hji]

/-- **Every move of a party preserves the invariant.** -/
theorem Inv.move (h : Inv b p) {b' : Bar} {q : Party} (hmove : Move b (p i) b' q) :
    Inv b' (Function.update p i q) := by
  have hmoved := hmove.moved
  generalize hpi : p i = pi at hmoved
  cases hmoved with
  | stay =>
    rw [← hpi, Function.update_eq_self]
    exact h
  | enter phase =>
    apply h.update
    all_goals simp [hpi, Closes, past, released, arrived]
  | read phase =>
    apply h.update
    all_goals simp [hpi, Closes, past, released, arrived]
  | arrive phase g => exact h.arrive hpi
  | reset phase => exact h.reset hpi
  | release phase => exact h.release hpi
  | leave phase hg =>
    apply h.update
    all_goals simp [hpi, Closes, past, released, arrived, hg]

omit [DecidableEq ι] in
/-- A party that has been released stays so until it moves. -/
theorem Inv.released_stays (h : Inv b p) {b' : Bar} {q : Party} (hmove : Move b (p i) b' q) {j : ι}
    (hj : j ≠ i) (hreleased : released b (p j).wait = true) : released b' (p j).wait = true := by
  have hmoved := hmove.moved
  generalize hpi : p i = pi at hmoved
  cases hmoved with
  | release phase =>
    have hlast := h.last i (Or.inr (by rw [hpi])) j hj
    simp [released, hlast] at hreleased
  | stay | enter phase | read phase | arrive phase g | reset phase | leave phase hg =>
    exact hreleased

/-! ### How many barriers a party is past -/

/-- A move that returns from a call of `wait`. -/
def leaves (p q : Party) : Bool := p.wait.isSome && q.wait.isNone

/-- How many barriers a party is past that has left `left` of them: one more if it spins but has
been released. -/
def passed (b : Bar) (left : ℕ) (p : Party) : ℕ := left + (released b p.wait).toNat

omit [DecidableEq ι] in
/-- **Either no party gets past a barrier in a move, or all parties do.** -/
theorem Inv.passed_move (h : Inv b p) {b' : Bar} {q : Party} (hmove : Move b (p i) b' q) :
    ∃ d, (∀ left, passed b' (left + (leaves (p i) q).toNat) q = passed b left (p i) + d) ∧
      ∀ left, ∀ j, j ≠ i → passed b' left (p j) = passed b left (p j) + d := by
  have hmoved := hmove.moved
  generalize hpi : p i = pi at hmoved
  cases hmoved with
  | stay =>
    have hstay : leaves q q = false := by
      unfold leaves
      cases q.wait <;> rfl
    exact ⟨0, fun left => by rw [hstay]; rfl, fun left j _ => rfl⟩
  | enter phase => exact ⟨0, fun left => rfl, fun left j _ => rfl⟩
  | read phase => exact ⟨0, fun left => rfl, fun left j _ => rfl⟩
  | arrive phase g =>
    refine ⟨0, fun left => ?_, fun left j _ => rfl⟩
    unfold passed
    split_ifs
    · rfl
    · simp [released, leaves, h.read_eq i g (by rw [hpi])]
  | reset phase => exact ⟨0, fun left => rfl, fun left j _ => rfl⟩
  | release phase =>
    -- the others spin, and are released by this step
    have hlast := h.last i (Or.inr (by rw [hpi]))
    refine ⟨1, fun left => rfl, fun left j hji => ?_⟩
    unfold passed
    rw [hlast j hji]
    simp [released]
  | @leave phase g hg =>
    refine ⟨0, fun left => ?_, fun left j _ => rfl⟩
    have hreleased : released b (some (.spin g)) = true := decide_eq_true hg
    unfold passed
    rw [hreleased]
    rfl

/-- A party that is about to arrive finds a space. -/
theorem Inv.spaces_pos (h : Inv b p) {g : BitVec 32} (hi : (p i).wait = some (.read g)) :
    0 < b.spaces := by
  have hrelease : ∀ j, (p j).wait ≠ some .release := fun j hj =>
    h.not_closes hi j (Or.inr hj)
  have hspaces := h.spaces_eq hrelease
  have hzero : arrived b (p i) = 0 := by
    unfold arrived
    rw [hi]
  by_contra hpos
  have hsum : ∑ j, arrived b (p j) = Fintype.card ι := by omega
  have hone := arrived_of_sum hsum i
  omega

end Move

end Barrier
