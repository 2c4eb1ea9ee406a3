import Mathlib.Data.Prod.Lex
import Mathlib.Order.WellFounded
import ParallelEnum.Theory.Fairness
import ParallelEnum.Theory.Simulation

/-!
# Simulations of systems with fair runs

A system can take more steps than the one that it implements: some of its steps *stutter*, so that
the other system does not see them.  If only so many of them can follow each other, and each of the
others is a step of the same party of the other system, a `FairRank` of the other system does for
both.

* `FairSimulation.reaches`: a run is matched by a run of the other system.
* `FairSimulation.exists_starved`: a run that does not end gives no more turns to a party that stays
  helpful.
* `FairSimulation.exists_reaches_final`: the helpful parties alone can end a run.
-/

namespace Transition

universe u v w x y z

variable {S : Type u} {A : Type v} {T : Type w} {B : Type x} {ι : Type y} {W : Type z} [Preorder W]
  {step' : T → B → Option T} {party' : B → ι} {I Final : T → Prop}

/-- The steps of a system of parties are steps of the same parties of another system, or stutter. -/
structure FairSimulation (F : FairRank step' party' I Final W) (step : S → A → Option S)
    (party : A → ι) (R : S → T → Prop) where
  /-- How many steps can stutter before one does not. -/
  stutters : S → ℕ
  invariant : ∀ s t, R s t → I t
  simulate : ∀ s a s' t, R s t → step s a = some s' →
    (R s' t ∧ stutters s' < stutters s) ∨
      ∃ b t', R s' t' ∧ party' b = party a ∧ step' t b = some t' ∧
        (stutters s' ≤ stutters s ∨ F.helpful t (party a))

namespace FairSimulation

variable {F : FairRank step' party' I Final W} {step : S → A → Option S} {party : A → ι}
  {R : S → T → Prop} (M : FairSimulation F step party R)
include M

theorem reaches {s s' : S} {t : T} (hR : R s t) (h : Reaches step Any s s') :
    ∃ t', Reaches step' Any t t' ∧ R s' t' := by
  refine h.simulate ?_ hR
  intro s a s' t hR _ hstep
  rcases M.simulate s a s' t hR hstep with ⟨hR', _⟩ | ⟨b, t', hR', _, hstep', _⟩
  · exact ⟨t, Reaches.refl t, hR'⟩
  · exact ⟨t', Reaches.single b trivial hstep', hR'⟩

/-- What is left to do: the rank first, and then the steps that stutter. -/
def rank (s : S) (t : T) : W ×ₗ ℕ := toLex (F.rank t, M.stutters s)

/-- A step makes what is left smaller, or a party that is not helpful has made it. -/
theorem rank_step {s s' : S} {a : A} {t : T} (hR : R s t) (hstep : step s a = some s') :
    ∃ t', R s' t' ∧ (M.rank s' t' < M.rank s t ∨
      (M.rank s' t' = M.rank s t ∧ ¬ F.helpful t (party a) ∧
        ∀ p, F.helpful t p → F.helpful t' p)) := by
  rcases M.simulate s a s' t hR hstep with ⟨hR', hlt⟩ | ⟨b, t', hR', hparty, hstep', hle⟩
  · exact ⟨t, hR', Or.inl (Prod.Lex.toLex_lt_toLex.mpr (Or.inr ⟨rfl, hlt⟩))⟩
  · refine ⟨t', hR', ?_⟩
    rcases F.rank_step t b t' (M.invariant s t hR) hstep' with hlt | ⟨heq, hnot, hstay⟩
    · exact Or.inl (Prod.Lex.toLex_lt_toLex.mpr (Or.inl hlt))
    · rw [hparty] at hnot
      rcases (hle.resolve_right hnot).lt_or_eq with hlt | hsame
      · exact Or.inl (Prod.Lex.toLex_lt_toLex.mpr (Or.inr ⟨heq, hlt⟩))
      · refine Or.inr ⟨?_, hnot, hstay⟩
        rw [rank, rank, heq, hsame]

section Endless

variable [WellFoundedLT W] {state : ℕ → S} {action : ℕ → A}

/-- A run that does not end starves a party that stays helpful. -/
theorem exists_starved {t₀ : T} (hR : R (state 0) t₀)
    (hrun : ∀ i, step (state i) (action i) = some (state (i + 1)))
    (hfinal : ∀ i t, R (state i) t → ¬ Final t) :
    ∃ p i, ∀ j ≥ i, (∃ t, R (state j) t ∧ F.helpful t p) ∧ party (action j) ≠ p := by
  -- the states of the other system, chosen one after the other
  have hnext : ∀ i (t : {t // R (state i) t}), ∃ t' : {t // R (state (i + 1)) t},
      M.rank (state (i + 1)) t' < M.rank (state i) t ∨
        (M.rank (state (i + 1)) t' = M.rank (state i) t ∧ ¬ F.helpful t.val (party (action i)) ∧
          ∀ p, F.helpful t.val p → F.helpful t'.val p) := by
    intro i t
    obtain ⟨t', hR', h⟩ := M.rank_step t.property (hrun i)
    exact ⟨⟨t', hR'⟩, h⟩
  choose next hnext using hnext
  let other : ∀ i, {t // R (state i) t} := fun i => i.rec ⟨t₀, hR⟩ next
  have hother : ∀ i, other (i + 1) = next i (other i) := fun _ => rfl
  let rankAt : ℕ → W ×ₗ ℕ := fun i => M.rank (state i) (other i).val
  let i := Function.argmin rankAt
  have hleast : ∀ j, ¬ rankAt j < rankAt i := Function.not_lt_argmin rankAt
  have hi := (other i).property
  obtain ⟨p, hp⟩ := F.exists_helpful (other i).val (M.invariant _ _ hi) (hfinal i _ hi)
  have hkeep : ∀ j ≥ i, rankAt j = rankAt i ∧ F.helpful (other j).val p := by
    intro j hj
    induction j, hj using Nat.le_induction with
    | base => exact ⟨rfl, hp⟩
    | succ j hj ih =>
      have hstep := hnext j (other j)
      rw [← hother] at hstep
      rcases hstep with hlt | ⟨heq, _, hstay⟩
      · exact absurd (hlt.trans_eq ih.1) (hleast (j + 1))
      · exact ⟨heq.trans ih.1, hstay p ih.2⟩
  refine ⟨p, i, ?_⟩
  intro j hj
  obtain ⟨heq, hhelpful⟩ := hkeep j hj
  refine ⟨⟨_, (other j).property, hhelpful⟩, ?_⟩
  rintro rfl
  have hstep := hnext j (other j)
  rw [← hother] at hstep
  rcases hstep with hlt | ⟨_, hnot, _⟩
  · exact hleast (j + 1) (hlt.trans_eq heq)
  · exact hnot hhelpful

/-- If helpful parties can always take a step, some run ends. -/
theorem exists_reaches_final
    (henabled : ∀ s t p, R s t → F.helpful t p → ∃ a s', party a = p ∧ step s a = some s') {s : S}
    {t : T} (hR : R s t) : ∃ s' t', Reaches step Any s s' ∧ R s' t' ∧ Final t' := by
  induction hrank : M.rank s t using WellFoundedLT.induction generalizing s t with
  | ind w ih =>
    by_cases hfinal : Final t
    · exact ⟨s, t, Reaches.refl s, hR, hfinal⟩
    · obtain ⟨p, hp⟩ := F.exists_helpful t (M.invariant s t hR) hfinal
      obtain ⟨a, s₁, rfl, hstep⟩ := henabled s t p hR hp
      obtain ⟨t₁, hR₁, hlt | ⟨_, hnot, _⟩⟩ := M.rank_step hR hstep
      · rw [hrank] at hlt
        obtain ⟨s', t', hs', hR', hfinal'⟩ := ih _ hlt hR₁ rfl
        exact ⟨s', t', Reaches.head trivial hstep hs', hR', hfinal'⟩
      · exact absurd hp hnot

end Endless

end FairSimulation

end Transition
