import ParallelEnum.Enumerator.ParallelPthreadsSteal.Barrier

/-!
# The barrier of the refill phase

A step of `bar_t::wait` is a step of the abstract barrier, as long as `spaces` is not decremented
when it is zero (`BarT.wait_eq`); the invariant of the abstract barrier rules that out.

* `Callers.wait_spec`: no thread gets ahead of the others, and `spaces` never underflows.
-/

namespace ParallelEnum.ParallelPthreadsSteal

open Barrier Transition

/-! ### The abstract barrier -/

/-- The variables as numbers. -/
def BarT.toBar (b : BarT) : Bar where
  count := b.count.toNat
  spaces := b.spaces.toNat
  generation := b.generation

/-- A thread as a party: its phase is the parity of the calls that have returned. -/
def Caller.toParty (t : Caller) : Party where
  phase := decide (t.returned % 2 = 1)
  wait := t.wait

theorem BarT.wait_eq (b : BarT) {w : Wait} (h : ∀ g, w = .read g → b.spaces ≠ 0) :
    w.step b.toBar = ((b.wait w).1.toBar, (b.wait w).2) := by
  cases w with
  | read g =>
    have hne : b.spaces ≠ 0 := h g rfl
    have hsub : (b.spaces - 1).toNat = b.spaces.toNat - 1 := by bv_omega
    have hzero : b.spaces.toNat - 1 = 0 ↔ b.spaces - 1 = 0 := by bv_omega
    unfold Wait.step wait toBar
    dsimp only
    rw [hsub, if_congr hzero rfl rfl]
  | _ => rfl

/-- A step of a thread is a move of its party, and returns from a call if the party leaves. -/
theorem Caller.move_step {b : BarT} (t : Caller) (h : ∀ g, t.wait = some (.read g) → b.spaces ≠ 0) :
    Move b.toBar t.toParty (t.step b).1.toBar (t.step b).2.toParty ∧
      (t.step b).2.returned = t.returned + (leaves t.toParty (t.step b).2.toParty).toNat := by
  obtain ⟨entered, returned, wait⟩ := t
  cases wait with
  | none => exact ⟨Move.enter _, rfl⟩
  | some w =>
    have hstep := b.wait_eq (w := w) fun g hw => h g (congrArg some hw)
    unfold step
    dsimp only
    generalize b.wait w = r at hstep
    obtain ⟨b', w'⟩ := r
    cases w' with
    | some w' => exact ⟨Move.go hstep, rfl⟩
    | none =>
      refine ⟨?_, rfl⟩
      have hflip : decide ((returned + 1) % 2 = 1) = !decide (returned % 2 = 1) := by
        rw [← decide_not]
        exact decide_eq_decide.mpr (by omega)
      unfold toParty
      dsimp only
      rw [hflip]
      exact Move.leave hstep

/-- A thread has begun one call more than have returned while it is in a call. -/
theorem Caller.entered_step (b : BarT) (t : Caller)
    (h : t.entered = t.returned + t.wait.isSome.toNat) :
    (t.step b).2.entered = (t.step b).2.returned + (t.step b).2.wait.isSome.toNat := by
  obtain ⟨entered, returned, wait⟩ := t
  cases wait with
  | none =>
    obtain rfl : entered = returned + 0 := h
    rfl
  | some w =>
    obtain rfl : entered = returned + 1 := h
    unfold Caller.step
    dsimp only
    generalize b.wait w = r
    obtain ⟨b', w'⟩ := r
    cases w' <;> rfl

namespace Callers

variable {n : ℕ}

/-! ### The invariant -/

/-- What holds between any two steps. -/
structure Inv (s : Callers n) : Prop where
  inv : Barrier.Inv s.bar.toBar fun i => (s.threads i).toParty
  entered_eq : ∀ i, (s.threads i).entered
    = (s.threads i).returned + (s.threads i).wait.isSome.toNat
  passed_eq : ∃ m, ∀ i,
    passed s.bar.toBar (s.threads i).returned (s.threads i).toParty = m

theorem inv_init (count : BitVec 32) : Inv (init count) where
  inv := Barrier.Inv.init count.toNat (Fintype.card_fin _) 0
  entered_eq _ := rfl
  passed_eq := ⟨0, fun _ => rfl⟩

/-- Nobody is about to decrement `spaces` when it is zero. -/
theorem Inv.spaces_ne {s : Callers n} (h : Inv s) (i : Fin n) (g : BitVec 32)
    (hi : (s.threads i).wait = some (.read g)) : s.bar.spaces ≠ 0 := by
  intro hzero
  have hpos : 0 < s.bar.spaces.toNat := h.inv.spaces_pos (i := i) hi
  rw [hzero] at hpos
  cases hpos

theorem Inv.step {s s' : Callers n} (h : Inv s) {i : Fin n} (hstep : s.step i = some s') :
    Inv s' := by
  obtain rfl := Option.some.inj hstep
  obtain ⟨hmove, hreturned⟩ := (s.threads i).move_step (h.spaces_ne i)
  have hparty : (fun j => (Function.update s.threads i ((s.threads i).step s.bar).2 j).toParty)
      = Function.update (fun j => (s.threads j).toParty) i
        ((s.threads i).step s.bar).2.toParty := by
    funext j
    by_cases hji : j = i
    · subst hji
      rw [Function.update_self, Function.update_self]
    · rw [Function.update_of_ne hji, Function.update_of_ne hji]
  constructor
  case inv =>
    dsimp only
    rw [hparty]
    exact h.inv.move hmove
  case entered_eq =>
    refine (Function.forall_update_iff s.threads
      fun _ t => t.entered = t.returned + t.wait.isSome.toNat).mpr ⟨?_, fun j _ => h.entered_eq j⟩
    exact Caller.entered_step s.bar _ (h.entered_eq i)
  case passed_eq =>
    obtain ⟨m, hm⟩ := h.passed_eq
    obtain ⟨d, hself, hother⟩ := h.inv.passed_move hmove
    refine ⟨m + d, (Function.forall_update_iff s.threads
      fun _ t => passed _ t.returned t.toParty = m + d).mpr ⟨?_, fun j hji => ?_⟩⟩
    · rw [hreturned, hself, hm i]
    · rw [hother _ j hji, hm j]

theorem inv_of_reaches {count : BitVec 32} {s : Callers count.toNat}
    (h : Reaches step Any (init count) s) : Inv s :=
  h.invariant (inv_init count) fun _ _ _ hI _ hstep => hI.step hstep

/-- A thread has entered a call for every barrier that any thread is past. -/
theorem Inv.returned_le {s : Callers n} (h : Inv s) (i j : Fin n) :
    (s.threads i).returned ≤ (s.threads j).entered := by
  obtain ⟨m, hm⟩ := h.passed_eq
  have hi : (s.threads i).returned ≤ m := by
    rw [← hm i]
    exact Nat.le_add_right _ _
  have hj : m ≤ (s.threads j).returned + (s.threads j).wait.isSome.toNat := by
    rw [← hm j]
    unfold passed released Caller.toParty
    cases (s.threads j).wait with
    | none => exact le_rfl
    | some w => exact Nat.add_le_add_left (Bool.toNat_le _) _
  rw [h.entered_eq j]
  exact hi.trans hj

/-- **The barrier.** No thread has returned from its `g`-th call before all threads have entered
theirs, and no thread decrements `spaces` when it is zero. -/
theorem wait_spec (count : BitVec 32) (s : Callers count.toNat)
    (h : Reaches step Any (init count) s) :
    (∀ i j g, g ≤ (s.threads i).returned → g ≤ (s.threads j).entered) ∧
      ∀ i g, (s.threads i).wait = some (.read g) → s.bar.spaces ≠ 0 := by
  have hinv := inv_of_reaches h
  exact ⟨fun i j g hg => hg.trans (hinv.returned_le i j), hinv.spaces_ne⟩

/-- Two threads: the second one has begun its second call while the first one still spins. -/
def overlap : Callers 2 where
  bar := { count := 2, spaces := 2, generation := 1 }
  threads i :=
    if i = 0 then { entered := 1, wait := some (.spin 0) }
    else { entered := 2, returned := 1, wait := some .start }

theorem reaches_overlap : Reaches step Any (init 2) overlap := by
  have hrun : ∃ s, run step Any (show List (Fin 2) from [0, 0, 0, 1, 1, 1, 1, 1, 1]) (init 2)
      = some s ∧ s.bar = overlap.bar ∧ ∀ i : Fin 2, s.threads i = overlap.threads i :=
    ⟨_, rfl, rfl, by decide⟩
  obtain ⟨s, hrun, hbar, hthreads⟩ := hrun
  have heq : s = overlap := by
    obtain ⟨bar, threads⟩ := s
    obtain rfl : bar = overlap.bar := hbar
    obtain rfl : threads = overlap.threads := funext hthreads
    rfl
  exact heq ▸ reaches_of_run hrun

/-- The barrier while a fast thread has begun the next round. -/
theorem wait_spec_overlap :
    (∀ i j g, g ≤ (overlap.threads i).returned → g ≤ (overlap.threads j).entered) ∧
      ∀ i g, (overlap.threads i).wait = some (.read g) → overlap.bar.spaces ≠ 0 :=
  wait_spec 2 overlap reaches_overlap

end Callers

end ParallelEnum.ParallelPthreadsSteal
