import ParallelEnum.Theory.Transition

/-!
# Forward simulations

A relation between the states of two transition systems is a *forward simulation* when every step
of the first system is matched by a run of the second one that leads to related states again.  The
run may be empty: a step that the second system does not see.

* `Reaches.simulate`: a run of the first system is matched by a run of the second one.
* `related_update`: in systems of parties, what one party does is matched by one party.
-/

namespace Transition

universe u v w x

variable {S : Type u} {A : Type v} {T : Type w} {B : Type x} {step : S → A → Option S}
  {C : S → A → Prop} {step' : T → B → Option T} {C' : T → B → Prop} {R : S → T → Prop}

/-- Every step of the first system is matched by a run of the second one. -/
def ForwardSimulation (step : S → A → Option S) (C : S → A → Prop) (step' : T → B → Option T)
    (C' : T → B → Prop) (R : S → T → Prop) : Prop :=
  ∀ s a s' t, R s t → C s a → step s a = some s' → ∃ t', Reaches step' C' t t' ∧ R s' t'

theorem Reaches.single {t t' : T} (b : B) (hC : C' t b) (hstep : step' t b = some t') :
    Reaches step' C' t t' :=
  Relation.ReflTransGen.single ⟨b, hC, hstep⟩

/-- **Runs are simulated.** -/
theorem Reaches.simulate {s s' : S} {t : T} (hsim : ForwardSimulation step C step' C' R)
    (h : Reaches step C s s') (hR : R s t) : ∃ t', Reaches step' C' t t' ∧ R s' t' := by
  induction h with
  | refl => exact ⟨t, Reaches.refl t, hR⟩
  | tail _ hlast ih =>
    obtain ⟨t', hrun, hR'⟩ := ih
    obtain ⟨a, hC, hstep⟩ := hlast
    obtain ⟨t'', hrun', hR''⟩ := hsim _ a _ t' hR' hC hstep
    exact ⟨t'', hrun.trans hrun', hR''⟩

section Parties

variable {ι : Type u} {P : Type v} {Q : Type w} [DecidableEq ι] {r : P → Q → Prop}

/-- Where one party of each system has moved, the parties are still related one by one. -/
theorem related_update {g : ι → P} {k : ι → Q} (h : ∀ j, r (g j) (k j)) (i : ι) {p : P} {q : Q}
    (hi : r p q) : ∀ j, r (Function.update g i p j) (Function.update k i q j) := by
  intro j
  rcases eq_or_ne j i with rfl | hne
  · rw [Function.update_self, Function.update_self]
    exact hi
  · rw [Function.update_of_ne hne, Function.update_of_ne hne]
    exact h j

end Parties

end Transition
