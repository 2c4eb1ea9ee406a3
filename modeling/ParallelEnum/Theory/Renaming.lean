import Mathlib.Data.Finset.Powerset
import Mathlib.Order.Minimal

/-!
# Maximal sets under a renaming

A function that is injective on `V` renames the subsets of `V`, and keeps the inclusions between
them.  So it takes the maximal sets with a property to the maximal sets with the property that
corresponds to it (`maximal_image_iff`).
-/

namespace Renaming

variable {α β : Type*} [DecidableEq β] {f : α → β} {V S T : Finset α}

theorem image_subset_image_iff (hf : Set.InjOn f V) (hS : S ⊆ V) (hT : T ⊆ V) :
    S.image f ⊆ T.image f ↔ S ⊆ T := by
  refine ⟨?_, Finset.image_subset_image⟩
  intro h x hx
  obtain ⟨y, hy, heq⟩ := Finset.mem_image.mp (h (Finset.mem_image_of_mem f hx))
  rwa [← hf (hT hy) (hS hx) heq]

theorem maximal_image_iff {P : Finset α → Prop} {Q : Finset β → Prop} (hf : Set.InjOn f V)
    (hP : ∀ S, P S → S ⊆ V) (hQ : ∀ T, Q T → T ⊆ V.image f)
    (hPQ : ∀ S ⊆ V, Q (S.image f) ↔ P S) (hS : S ⊆ V) :
    Maximal Q (S.image f) ↔ Maximal P S := by
  constructor
  · intro h
    refine ⟨(hPQ S hS).mp h.prop, ?_⟩
    intro T hT hle
    have hTV := hP T hT
    have hmax := h.le_of_ge ((hPQ T hTV).mpr hT) (Finset.image_subset_image hle)
    exact (image_subset_image_iff hf hTV hS).mp hmax
  · intro h
    refine ⟨(hPQ S hS).mpr h.prop, ?_⟩
    intro T hT hle
    obtain ⟨T, hTV, rfl⟩ := Finset.subset_image_iff.mp (hQ T hT)
    have hTV := Finset.coe_subset.mp hTV
    have hmax := h.le_of_ge ((hPQ T hTV).mp hT) ((image_subset_image_iff hf hS hTV).mp hle)
    exact Finset.image_subset_image hmax

end Renaming
