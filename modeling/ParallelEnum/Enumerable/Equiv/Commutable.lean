import ParallelEnum.Enumerable.Commutable

/-!
# What `CommutableSystem` passes to its callbacks

`Children` is three nested loops that stop when the callback has answered `false`; the flag
`not_done` carries that answer outwards.  If `Complete` always returns, they are one loop over
`childList`.

* `listChildren_eq`: `ListChildren` passes `childList` on.
* `getRoot_eq`: `GetRoot` passes at most one root on.
-/

namespace ParallelEnum

open Traversal

namespace CommutableSystem

/-! ### Loops with a flag -/

section

variable {α β σ : Type}

/-- `forEach` that also says whether the callback never answered `false`. -/
def forEachFlag (f : α → σ → Option (Bool × σ)) : List α → σ → Option (Bool × σ)
  | [], s => some (true, s)
  | x :: xs, s => (f x s).bind fun r => if r.1 then forEachFlag f xs r.2 else some (false, r.2)

theorem forEachFlag_append (f : α → σ → Option (Bool × σ)) (l₁ l₂ : List α) (s : σ) :
    forEachFlag f (l₁ ++ l₂) s = (forEachFlag f l₁ s).bind fun r =>
      if r.1 then forEachFlag f l₂ r.2 else some (false, r.2) := by
  induction l₁ generalizing s with
  | nil => rfl
  | cons x l₁ ih =>
    rw [List.cons_append, forEachFlag, forEachFlag]
    cases f x s with
    | none => rfl
    | some r =>
      simp only [Option.bind_some]
      cases r.1 with
      | true => exact ih r.2
      | false => rfl

theorem forEachFlag_map_snd (f : α → σ → Option (Bool × σ)) (l : List α) (s : σ) :
    (forEachFlag f l s).map (fun r => r.2) = forEach f l s := by
  induction l generalizing s with
  | nil => rfl
  | cons x l ih =>
    rw [forEach_cons, forEachFlag]
    cases f x s with
    | none => rfl
    | some r =>
      simp only [Option.bind_some]
      cases r.1 with
      | true => exact ih r.2
      | false => rfl

/-- A loop whose body is a loop with a flag. -/
theorem forEach_returnNotDone (f : α → σ → Option (Bool × σ)) (g : β → List α)
    (body : β → Bool × σ → Option (Bool × σ)) (l : List β)
    (hbody : ∀ x ∈ l, ∀ s, body x (true, s) = forEachFlag f (g x) s) (s : σ) :
    forEach (fun x => returnNotDone (body x)) l (true, s) = forEachFlag f (l.flatMap g) s := by
  induction l generalizing s with
  | nil => rfl
  | cons x l ih =>
    rw [forEach_cons, List.flatMap_cons, forEachFlag_append, returnNotDone,
      hbody x List.mem_cons_self]
    cases forEachFlag f (g x) s with
    | none => rfl
    | some r =>
      obtain ⟨flag, s⟩ := r
      simp only [Option.map_some, Option.bind_some]
      cases flag with
      | true => exact ih (fun y hy => hbody y (List.mem_cons_of_mem _ hy)) s
      | false => rfl

end

/-! ### Children and roots -/

variable (sys : CommutableSystem)

/-- What `Children` passes to its callback. -/
def childList (fuel : ℕ) (s level : List ℕ) : List CommutableNode :=
  (sys.restrictedCands s level).flatMap fun cand =>
    (sys.restrictedProblem s cand).flatMap fun sol =>
      (sys.validSeeds sol cand).filterMap fun seed =>
        (sys.childOf fuel s level cand sol seed).join

variable {sys} {fuel : ℕ} {s level : List ℕ} {σ : Type}

/-- The innermost loop of `Children`. -/
theorem forEach_childCb (cb : CommutableNode → σ → Option (Bool × σ)) (cand : ℕ) (sol : List ℕ)
    (seeds : List ℕ)
    (hsome : ∀ seed ∈ seeds, (sys.childOf fuel s level cand sol seed).isSome = true) (a : σ) :
    forEach (sys.childCb fuel s level cb cand sol) seeds (true, a)
      = forEachFlag cb (seeds.filterMap fun seed =>
          (sys.childOf fuel s level cand sol seed).join) a := by
  induction seeds generalizing a with
  | nil => rfl
  | cons seed seeds ih =>
    have ih := ih fun v hv => hsome v (List.mem_cons_of_mem _ hv)
    obtain ⟨o, ho⟩ := Option.isSome_iff_exists.mp (hsome seed List.mem_cons_self)
    rw [forEach_cons, childCb, ho]
    cases o with
    | none =>
      rw [List.filterMap_cons_none (by rw [ho]; rfl)]
      exact ih a
    | some child =>
      rw [List.filterMap_cons_some (b := child) (by rw [ho]; rfl), forEachFlag]
      simp only [Option.bind_some]
      cases cb child a with
      | none => rfl
      | some r =>
        obtain ⟨flag, a⟩ := r
        cases flag with
        | true => exact ih a
        | false => rfl

/-- `Children` passes `childList` on. -/
theorem children_eq (cb : CommutableNode → σ → Option (Bool × σ))
    (hsome : ∀ cand ∈ sys.restrictedCands s level, ∀ sol ∈ sys.restrictedProblem s cand,
      ∀ seed ∈ sys.validSeeds sol cand,
        (sys.childOf fuel s level cand sol seed).isSome = true) (a : σ) :
    sys.children fuel s level cb a = forEachFlag cb (sys.childList fuel s level) a := by
  refine forEach_returnNotDone cb _ _ _ (fun cand hcand a => ?_) a
  refine forEach_returnNotDone cb _ _ _ (fun sol hsol a => ?_) a
  exact forEach_childCb cb cand sol _ (hsome cand hcand sol hsol) a

/-- **`ListChildren` passes `childList` to its callback.** -/
theorem listChildren_eq (f : CommutableNode → σ → Option (Bool × σ)) (node : CommutableNode)
    (hsome : ∀ cand ∈ sys.restrictedCands node.1 node.2,
      ∀ sol ∈ sys.restrictedProblem node.1 cand, ∀ seed ∈ sys.validSeeds sol cand,
        (sys.childOf fuel node.1 node.2 cand sol seed).isSome = true) (t : Unit × σ) :
    sys.listChildren fuel node (NodeCallback.lift f) t
      = (forEach f (sys.childList fuel node.1 node.2) t.2).map fun a => (t.1, a) := by
  unfold listChildren
  rw [children_eq _ hsome, forEachFlag_map_snd]
  exact forEach_keep (fun _ _ _ => rfl) t.2

/-- **`GetRoot` passes a root to its callback**, if `Complete` finds one. -/
theorem getRoot_eq (f : CommutableNode → σ → Option (Bool × σ)) (i : ℕ)
    (hseed : sys.isSeed i none = true)
    (hsome : (sys.complete { failOnSeedChange := true } fuel [i] [0]).isSome = true)
    (t : Unit × σ) :
    sys.getRoot fuel i (NodeCallback.lift f) t
      = (forEach f (sys.complete { failOnSeedChange := true } fuel [i] [0]).join.toList t.2).map
          fun a => (t.1, a) := by
  unfold getRoot
  rw [hseed]
  obtain ⟨o, ho⟩ := Option.isSome_iff_exists.mp hsome
  rw [ho]
  cases o with
  | none => rfl
  | some root =>
    show (NodeCallback.lift f root t).map _ = (forEach f [root] t.2).map _
    rw [forEach_cons, NodeCallback.lift]
    cases f root t.2 with
    | none => rfl
    | some r =>
      obtain ⟨flag, a⟩ := r
      cases flag <;> rfl

end CommutableSystem

end ParallelEnum
