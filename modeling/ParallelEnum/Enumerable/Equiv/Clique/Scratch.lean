import ParallelEnum.Enumerable.Equiv.Clique

/-!
# The scratch of a thread between calls of `ListChildren`

`listChildrenInTurn_clear`: whatever nodes a thread has listed the children of, and wherever its
callbacks have stopped the lists, its scratch is as it was after `SetUp`.
-/

namespace ParallelEnum.Clique

open Traversal

variable (g : Graph) {σ τ : Type}

/-- No bit is set and no list has an element. -/
structure Scratch.Clear (scr : Scratch) : Prop where
  candidatesBitset_get : ∀ i, scr.candidatesBitset.get i = false
  badBitset_get : ∀ i, scr.badBitset.get i = false
  candidates_eq : scr.candidates = []
  child_eq : scr.child = []
  bad_eq : scr.bad = []

theorem Scratch.clear_clean : (Scratch.clean g).Clear where
  candidatesBitset_get i := Vec.get_zeros g.N i
  badBitset_get i := Vec.get_zeros g.N i
  candidates_eq := rfl
  child_eq := rfl
  bad_eq := rfl

/-- What a callback that returns does: its answer, which may depend on all it has seen. -/
abbrev Answering (σ : Type) := Node → σ → Bool × σ

/-- A callback that returns.  It has no access to the scratch. -/
def Answering.callback (f : Answering σ) : NodeCallback Scratch Node σ :=
  NodeCallback.lift fun x a => some (f x a)

/-- Calls of `ListChildren` on one thread, one after the other, each with its own callback. -/
def listChildrenInTurn (calls : List (Node × Answering σ)) (s : Scratch × σ) :
    Option (Scratch × σ) :=
  calls.foldlM (fun s call => listChildren g call.1 call.2.callback s) s

/-- A loop whose callback returns comes to its end. -/
theorem exists_forEach {α : Type} (f : α → σ → Bool × σ) (xs : List α) (a : σ) :
    ∃ b, forEach (fun x a => some (f x a)) xs a = some b := by
  induction xs generalizing a with
  | nil => exact ⟨a, rfl⟩
  | cons x xs ih =>
    rw [forEach_cons, Option.bind_some]
    cases (f x a).1 with
    | true => exact ih (f x a).2
    | false => exact ⟨(f x a).2, rfl⟩

/-- One call leaves a clean scratch clean. -/
theorem exists_listChildren (x : Node) (f : Answering σ) (a : σ) :
    ∃ b, listChildren g x f.callback (Scratch.clean g, a) = some (Scratch.clean g, b) := by
  obtain ⟨b, hb⟩ := exists_forEach f (children g x) a
  refine ⟨b, ?_⟩
  unfold Answering.callback
  rw [listChildren_eq, hb, Option.map_some]

theorem exists_listChildrenInTurn (calls : List (Node × Answering σ)) (a : σ) :
    ∃ b, listChildrenInTurn g calls (Scratch.clean g, a) = some (Scratch.clean g, b) := by
  induction calls generalizing a with
  | nil => exact ⟨a, rfl⟩
  | cons call calls ih =>
    obtain ⟨b, hb⟩ := exists_listChildren g call.1 call.2 a
    obtain ⟨c, hc⟩ := ih b
    refine ⟨c, ?_⟩
    unfold listChildrenInTurn at hc ⊢
    rw [List.foldlM_cons, hb]
    exact hc

/-- **The scratch is clear after every call**, so what is listed next depends neither on the nodes
that were expanded before nor on where their lists were stopped. -/
theorem listChildrenInTurn_clear (calls : List (Node × Answering σ)) (a : σ) :
    ∃ scr b, listChildrenInTurn g calls (setUp g {}, a) = some (scr, b) ∧ scr.Clear ∧
      ∀ (τ : Type) (x : Node) (f : Answering τ) (c : τ),
        listChildren g x f.callback (scr, c) = listChildren g x f.callback (setUp g {}, c) := by
  rw [setUp_empty]
  obtain ⟨b, hb⟩ := exists_listChildrenInTurn g calls a
  exact ⟨Scratch.clean g, b, hb, Scratch.clear_clean g, fun _ _ _ _ => rfl⟩

end ParallelEnum.Clique
