import Mathlib.Algebra.Order.BigOperators.Group.Finset
import Mathlib.Order.WellFounded
import ParallelEnum.Theory.Transition

/-!
# Runs that treat their parties fairly

Where the parties of a system wait for each other by polling, a run need not end: a party can poll
for ever while the one it waits for is never scheduled.  A `FairRank` shows that nothing else can
keep a run from ending.  In each state some parties are *helpful*: their steps make the rank
smaller.  A step of another party may leave the rank as it is, but then it leaves those that are
helpful so.

* `FairRank.exists_starved`: a run that does not end gives no more turns to a party that stays
  helpful.
* `FairRank.exists_reaches_final`: the helpful parties alone can end a run.
-/

namespace Transition

universe u v w x

variable {S : Type u} {A : Type v} {ι : Type w} {W : Type x} [Preorder W]

/-- A rank that helpful parties make smaller, in the states that satisfy `I`. -/
structure FairRank (step : S → A → Option S) (party : A → ι) (I Final : S → Prop) (W : Type x)
    [Preorder W] where
  rank : S → W
  helpful : S → ι → Prop
  exists_helpful : ∀ s, I s → ¬ Final s → ∃ t, helpful s t
  rank_step : ∀ s a s', I s → step s a = some s' → rank s' < rank s ∨
    (rank s' = rank s ∧ ¬ helpful s (party a) ∧ ∀ t, helpful s t → helpful s' t)

namespace FairRank

variable {step : S → A → Option S} {party : A → ι} {I Final : S → Prop}
  (F : FairRank step party I Final W)

theorem rank_lt_of_helpful {s s' : S} {a : A} (hI : I s) (ha : F.helpful s (party a))
    (hstep : step s a = some s') : F.rank s' < F.rank s := by
  rcases F.rank_step s a s' hI hstep with hlt | ⟨_, hnot, _⟩
  · exact hlt
  · exact absurd ha hnot

section Endless

variable {state : ℕ → S} {action : ℕ → A}

/-- From a state with the least rank on, the rank stays, and so do the helpful parties. -/
theorem helpful_of_least (hI : ∀ i, I (state i))
    (hrun : ∀ i, step (state i) (action i) = some (state (i + 1))) {i : ℕ}
    (hleast : ∀ j, ¬ F.rank (state j) < F.rank (state i)) {t : ι}
    (ht : F.helpful (state i) t) : ∀ j ≥ i, F.helpful (state j) t ∧ party (action j) ≠ t := by
  have hkeep : ∀ j ≥ i, F.rank (state j) = F.rank (state i) ∧ F.helpful (state j) t := by
    intro j hj
    induction j, hj using Nat.le_induction with
    | base => exact ⟨rfl, ht⟩
    | succ j hj ih =>
      rcases F.rank_step _ _ _ (hI j) (hrun j) with hlt | ⟨heq, _, hstay⟩
      · rw [ih.1] at hlt
        exact absurd hlt (hleast (j + 1))
      · exact ⟨heq.trans ih.1, hstay t ih.2⟩
  intro j hj
  obtain ⟨heq, hhelpful⟩ := hkeep j hj
  refine ⟨hhelpful, ?_⟩
  rintro rfl
  have hlt := F.rank_lt_of_helpful (hI j) hhelpful (hrun j)
  rw [heq] at hlt
  exact hleast (j + 1) hlt

/-- A run that does not end starves a party that stays helpful. -/
theorem exists_starved [WellFoundedLT W] (hI : ∀ i, I (state i))
    (hrun : ∀ i, step (state i) (action i) = some (state (i + 1)))
    (hfinal : ∀ i, ¬ Final (state i)) :
    ∃ t i, ∀ j ≥ i, F.helpful (state j) t ∧ party (action j) ≠ t := by
  let rankAt : ℕ → W := fun i => F.rank (state i)
  let i := Function.argmin rankAt
  obtain ⟨t, ht⟩ := F.exists_helpful (state i) (hI i) (hfinal i)
  have hleast : ∀ j, ¬ F.rank (state j) < F.rank (state i) := Function.not_lt_argmin rankAt
  exact ⟨t, i, F.helpful_of_least hI hrun hleast ht⟩

end Endless

/-- If helpful parties can always take a step, some run ends. -/
theorem exists_reaches_final [WellFoundedLT W]
    (hkeep : ∀ s a s', I s → step s a = some s' → I s')
    (henabled : ∀ s t, I s → F.helpful s t → ∃ a s', party a = t ∧ step s a = some s') {s : S}
    (hs : I s) : ∃ s', Reaches step Any s s' ∧ Final s' := by
  induction hrank : F.rank s using WellFoundedLT.induction generalizing s with
  | ind w ih =>
    by_cases hfinal : Final s
    · exact ⟨s, Reaches.refl s, hfinal⟩
    · obtain ⟨t, ht⟩ := F.exists_helpful s hs hfinal
      obtain ⟨a, s', rfl, hstep⟩ := henabled s t hs ht
      have hlt := F.rank_lt_of_helpful hs ht hstep
      rw [hrank] at hlt
      obtain ⟨u, hu, hfinal⟩ := ih _ hlt (hkeep s a s' hs hstep) rfl
      exact ⟨u, Reaches.head trivial hstep hu, hfinal⟩

end FairRank

/-- What all parties have left after a step of one party, where the step may also take away from
what the others have left. -/
theorem sum_update_add_le {L : Type v} [Fintype ι] [DecidableEq ι] {f f' : L → ℕ} (g : ι → L)
    (i : ι) (l : L) (h : ∀ l, f' l ≤ f l) :
    ∑ j, f' (Function.update g i l j) + f (g i) ≤ f' l + ∑ j, f (g j) := by
  have hrest : ∑ j ∈ Finset.univ.erase i, f' (Function.update g i l j)
      ≤ ∑ j ∈ Finset.univ.erase i, f (g j) := by
    apply Finset.sum_le_sum
    intro j hj
    rw [Function.update_of_ne (Finset.ne_of_mem_erase hj)]
    exact h (g j)
  rw [← Finset.add_sum_erase _ _ (Finset.mem_univ i), Function.update_self,
    ← Finset.add_sum_erase Finset.univ (fun j => f (g j)) (Finset.mem_univ i)]
  omega

end Transition
