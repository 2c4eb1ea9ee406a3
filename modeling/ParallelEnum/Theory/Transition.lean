import Mathlib.Algebra.BigOperators.Group.Finset.Piecewise
import Mathlib.Logic.Relation

/-!
# Runs of a system of parties

A *transition system* is a function `step : S → A → Option S`: what an action does to a state,
or `none` where the action cannot happen.  `Reaches step C s t` says that some run goes from `s`
to `t` by actions that all meet a condition `C` on the action and the state it happens in.

* `Reaches.invariant` is the induction over a run, `Reaches.invariant_of` the induction that
  may use an invariant already known.
* `reaches_of_run` computes a run from a list of actions.
* `exists_sum_update` accounts for the one party that a step changes.
-/

namespace Transition

universe u v w

variable {S : Type u} {A : Type v} {step : S → A → Option S} {C : S → A → Prop}

/-! ### Runs -/

/-- No condition on the actions of a run. -/
def Any : S → A → Prop := fun _ _ => True

instance (s : S) (a : A) : Decidable (Any s a) := inferInstanceAs (Decidable True)

/-- An action that meets the condition takes the first state to the second. -/
def Step (step : S → A → Option S) (C : S → A → Prop) (s t : S) : Prop :=
  ∃ a, C s a ∧ step s a = some t

/-- Some run whose actions all meet the condition takes the first state to the second. -/
def Reaches (step : S → A → Option S) (C : S → A → Prop) : S → S → Prop :=
  Relation.ReflTransGen (Step step C)

namespace Reaches

theorem refl (s : S) : Reaches step C s s := Relation.ReflTransGen.refl

theorem head {s t u : S} {a : A} (hC : C s a) (hstep : step s a = some t)
    (h : Reaches step C t u) : Reaches step C s u :=
  Relation.ReflTransGen.head ⟨a, hC, hstep⟩ h

/-- A run whose actions meet a condition meets every weaker one. -/
theorem mono {C' : S → A → Prop} {s t : S} (hC : ∀ s a, C s a → C' s a)
    (h : Reaches step C s t) : Reaches step C' s t :=
  Relation.ReflTransGen.mono (fun _ _ ⟨a, ha, hstep⟩ => ⟨a, hC _ a ha, hstep⟩) s t h

/-- A run meets every condition that holds in the states it goes through. -/
theorem strengthen {C' : S → A → Prop} {s t : S} (h : Reaches step C s t)
    (hC : ∀ u a, Reaches step C s u → C u a → C' u a) : Reaches step C' s t := by
  induction h with
  | refl => exact refl s
  | tail hrun hlast ih =>
    obtain ⟨a, ha, hstep⟩ := hlast
    exact Relation.ReflTransGen.tail ih ⟨a, hC _ a hrun ha, hstep⟩

/-- What every step preserves holds at the end of a run if it holds at its start. -/
theorem invariant {I : S → Prop} {s t : S} (h : Reaches step C s t) (hs : I s)
    (hstep : ∀ s a t, I s → C s a → step s a = some t → I t) : I t := by
  induction h with
  | refl => exact hs
  | tail _ hlast ih =>
    obtain ⟨a, hC, ha⟩ := hlast
    exact hstep _ a _ ih hC ha

/-- The induction over a run, with an invariant `J` that is known to hold all along it. -/
theorem invariant_of {I J : S → Prop} {s t : S} (h : Reaches step C s t)
    (hJ : ∀ u, Reaches step C s u → J u) (hs : I s)
    (hstep : ∀ s a t, J s → I s → C s a → step s a = some t → I t) : I t := by
  induction h with
  | refl => exact hs
  | tail hrun hlast ih =>
    obtain ⟨a, hC, ha⟩ := hlast
    exact hstep _ a _ (hJ _ hrun) ih hC ha

end Reaches

/-- The actions of a list, one after the other, as long as each meets the condition. -/
def run (step : S → A → Option S) (C : S → A → Prop) [∀ s a, Decidable (C s a)] :
    List A → S → Option S
  | [], s => some s
  | a :: as, s => if C s a then (step s a).bind (run step C as) else none

/-- A run that can be computed is a run. -/
theorem reaches_of_run [∀ s a, Decidable (C s a)] {as : List A} {s t : S}
    (h : run step C as s = some t) : Reaches step C s t := by
  induction as generalizing s with
  | nil =>
    obtain rfl := Option.some.inj h
    exact Reaches.refl s
  | cons a as ih =>
    rw [run] at h
    split_ifs at h with hC
    obtain ⟨u, hu, h⟩ := Option.bind_eq_some_iff.mp h
    exact Reaches.head hC hu (ih h)

/-- If every step of a run makes a number smaller, the run is no longer than that number. -/
theorem length_le_of_run [∀ s a, Decidable (C s a)] (μ : S → ℕ) {as : List A} {s t : S}
    (hμ : ∀ u a v, Reaches step C s u → C u a → step u a = some v → μ v < μ u)
    (h : run step C as s = some t) : as.length + μ t ≤ μ s := by
  induction as generalizing s with
  | nil =>
    obtain rfl := Option.some.inj h
    exact (Nat.zero_add _).le
  | cons a as ih =>
    rw [run] at h
    split_ifs at h with hC
    obtain ⟨u, hu, h⟩ := Option.bind_eq_some_iff.mp h
    have hlt := hμ s a u (Reaches.refl s) hC hu
    have hle := ih (fun v b w hv => hμ v b w (Reaches.head hC hu hv)) h
    rw [List.length_cons]
    omega

/-! ### Parties -/

section Parties

variable {ι : Type u} {L : Type v} {M : Type w} [Fintype ι] [DecidableEq ι] [AddCommMonoid M]

omit [Fintype ι] [AddCommMonoid M] in
/-- After a step of one party, a party is that one in its new state or another one in its old
state. -/
theorem eq_or_of_update {g : ι → L} {i j : ι} {l l' : L} (h : Function.update g i l j = l') :
    (j = i ∧ l = l') ∨ (j ≠ i ∧ g j = l') := by
  rcases eq_or_ne j i with rfl | hne
  · rw [Function.update_self] at h
    exact Or.inl ⟨rfl, h⟩
  · rw [Function.update_of_ne hne] at h
    exact Or.inr ⟨hne, h⟩

/-- A sum over all parties is the part of the party that moves and a part that stays. -/
theorem exists_sum_update (f : L → M) (g : ι → L) (i : ι) :
    ∃ rest, ∑ j, f (g j) = f (g i) + rest ∧
      ∀ l, ∑ j, f (Function.update g i l j) = f l + rest := by
  refine ⟨∑ j ∈ Finset.univ.erase i, f (g j), ?_, ?_⟩
  · exact (Finset.add_sum_erase Finset.univ (fun j => f (g j)) (Finset.mem_univ i)).symm
  · intro l
    have hrest : ∑ j ∈ Finset.univ.erase i, f (Function.update g i l j)
        = ∑ j ∈ Finset.univ.erase i, f (g j) := by
      apply Finset.sum_congr rfl
      intro j hj
      rw [Function.update_of_ne (Finset.ne_of_mem_erase hj)]
    rw [← Finset.add_sum_erase _ _ (Finset.mem_univ i), Function.update_self, hrest]

end Parties

end Transition
