import Mathlib.Control.Basic
import Mathlib.Data.Nat.Notation

/-!
# What a fallible program ends in

`Ensures P E r` says that `P` holds of the value of `r` if it has one, and `E` of its error
otherwise.  The rules follow the way a program is put together: a value, a sequence
(`Ensures.bind`), and a loop over a list, with an invariant that may mention the part of the list
that the loop has been through (`ensures_foldlM`).
-/

namespace Outcome

variable {α β σ ε : Type}

/-- The postcondition of a program that may fail. -/
def Ensures (P : α → Prop) (E : ε → Prop) : Except ε α → Prop
  | .ok a => P a
  | .error e => E e

variable {P P' : α → Prop} {Q : β → Prop} {E E' : ε → Prop} {r : Except ε α}

theorem Ensures.mono (h : Ensures P E r) (hP : ∀ a, P a → P' a) (hE : ∀ e, E e → E' e) :
    Ensures P' E' r := by
  cases r with
  | ok a => exact hP a h
  | error e => exact hE e h

theorem Ensures.bind {f : α → Except ε β} (h : Ensures P E r)
    (hf : ∀ a, P a → Ensures Q E (f a)) : Ensures Q E (r.bind f) := by
  cases r with
  | ok a => exact hf a h
  | error e => exact h

theorem Ensures.map {f : α → β} (h : Ensures P E r) (hf : ∀ a, P a → Q (f a)) :
    Ensures Q E (r.map f) := by
  cases r with
  | ok a => exact hf a h
  | error e => exact h

theorem Ensures.mapError {ε' : Type} {F : ε' → Prop} {f : ε → ε'} (h : Ensures P E r)
    (hf : ∀ e, E e → F (f e)) : Ensures P F (r.mapError f) := by
  cases r with
  | ok a => exact h
  | error e => exact hf e h

/-- A program of which no error is possible has a value. -/
theorem Ensures.exists_ok (h : Ensures P E r) (hE : ∀ e, ¬ E e) : ∃ a, r = .ok a ∧ P a := by
  cases r with
  | ok a => exact ⟨a, rfl, h⟩
  | error e => exact absurd h (hE e)

theorem Ensures.of_ok {a : α} (h : Ensures P E r) (hr : r = .ok a) : P a := by
  subst hr
  exact h

theorem Ensures.of_error {e : ε} (h : Ensures P E r) (hr : r = .error e) : E e := by
  subst hr
  exact h

/-- What comes second need only be known after what comes first. -/
theorem Ensures.bind_congr {f g : α → Except ε β} (h : Ensures P E r)
    (hfg : ∀ a, P a → f a = g a) : r.bind f = r.bind g := by
  cases r with
  | ok a => exact hfg a h
  | error e => rfl

/-- A loop over a list, with an invariant `I` of the part that is done. -/
theorem ensures_foldlM (I : List α → σ → Prop) {f : σ → α → Except ε σ} {l : List α} {s : σ}
    (hinit : I [] s)
    (hstep : ∀ a x b t, l = a ++ x :: b → I a t → Ensures (I (a ++ [x])) E (f t x)) :
    Ensures (I l) E (l.foldlM f s) := by
  induction l generalizing I s with
  | nil => exact hinit
  | cons x l ih =>
    rw [List.foldlM_cons]
    apply (hstep [] x l s rfl hinit).bind
    intro t ht
    exact ih (fun a => I (x :: a)) ht fun a y b u hl hu => hstep (x :: a) y b u (by rw [hl]; rfl) hu

/-- A loop that counts up to `n`, with an invariant of the counter. -/
theorem ensures_foldlM_range (I : ℕ → σ → Prop) {f : σ → ℕ → Except ε σ} {n : ℕ} {s : σ}
    (hinit : I 0 s) (hstep : ∀ i < n, ∀ t, I i t → Ensures (I (i + 1)) E (f t i)) :
    Ensures (I n) E ((List.range n).foldlM f s) := by
  induction n with
  | zero => exact hinit
  | succ n ih =>
    rw [List.range_succ, List.foldlM_append]
    apply (ih fun i hi => hstep i (Nat.lt_succ_of_lt hi)).bind
    intro t ht
    rw [List.foldlM_cons]
    exact (hstep n (Nat.lt_succ_self n) t ht).bind fun u hu => hu

/-- The bodies of two loops need only agree where an invariant holds. -/
theorem foldlM_congr {I : σ → Prop} {f g : σ → α → Except ε σ} {l : List α} {s : σ} (hs : I s)
    (hf : ∀ t x, I t → Ensures I (fun _ => True) (f t x)) (hfg : ∀ t x, I t → f t x = g t x) :
    l.foldlM f s = l.foldlM g s := by
  induction l generalizing s with
  | nil => rfl
  | cons x l ih =>
    rw [List.foldlM_cons, List.foldlM_cons, ← hfg s x hs]
    exact (hf s x hs).bind_congr fun t ht => ih ht

end Outcome
