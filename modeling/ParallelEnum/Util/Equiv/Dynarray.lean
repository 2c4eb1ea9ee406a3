import ParallelEnum.Util.Dynarray
import Mathlib.Data.List.Nodup
import Mathlib.Order.Nat
import Mathlib.Tactic.SplitIfs

/-!
# What a `dynarray` leaves when a construction throws

The loop of `init` counts with a variable of its own, so its cleanup loop does not see how many
elements have been constructed.  `resize` has destroyed the old elements by then, and keeps the
pointer.

* `owns_of_sizedWith`, `owns_of_resizeWith`: an array owns its elements when no call has thrown.
* `cleansUp_iff`: the calls that leave what they should when they throw.
-/

namespace ParallelEnum.Dynarray

/-! ### The loops -/

namespace Memory

theorem setAlive_append (m : Memory) (b : ℕ) (l l' : List ℕ) (x : Bool) :
    (m.setAlive b l x).setAlive b l' x = m.setAlive b (l ++ l') x := by
  unfold setAlive
  congr 1
  funext b' i
  by_cases hb : b' = b <;> by_cases hl : i ∈ l <;> by_cases hl' : i ∈ l' <;> simp [hb, hl, hl']

theorem foldlM_destroy {b : ℕ} {l : List ℕ} (hl : l.Nodup) {m : Memory}
    (halive : ∀ i ∈ l, m.alive b i = true) :
    l.foldlM (destroy b) m = some (m.setAlive b l false) := by
  induction l generalizing m with
  | nil =>
    rw [List.foldlM_nil]
    unfold setAlive
    simp
  | cons i l ih =>
    obtain ⟨hil, hl⟩ := List.nodup_cons.mp hl
    have hi : destroy b m i = some (m.setAlive b [i] false) :=
      if_pos (halive i List.mem_cons_self)
    have hrest : ∀ j ∈ l, (m.setAlive b [i] false).alive b j = true := by
      intro j hj
      have hne : ¬(b = b ∧ j ∈ [i]) := fun h => hil (List.mem_singleton.mp h.2 ▸ hj)
      exact (if_neg hne).trans (halive j (List.mem_cons_of_mem _ hj))
    rw [List.foldlM_cons, hi, Option.bind_eq_bind, Option.bind_some, ih hl hrest, setAlive_append]
    rfl

/-- The loop stops at an element that is not there. -/
theorem foldlM_destroy_eq_none {b i : ℕ} {l : List ℕ} (hi : i ∈ l) {m : Memory}
    (hdead : m.alive b i = false) : l.foldlM (destroy b) m = none := by
  induction l generalizing m with
  | nil => exact absurd hi List.not_mem_nil
  | cons j l ih =>
    rw [List.foldlM_cons]
    unfold destroy at ih ⊢
    by_cases hji : j = i
    · subst hji
      rw [hdead]
      rfl
    · have hil : i ∈ l := (List.mem_cons.mp hi).resolve_left (Ne.symm hji)
      split_ifs
      · apply ih hil
        unfold setAlive
        simp [Ne.symm hji, hdead]
      · rfl

end Memory

section Loops

variable {T : Elements} {b : ℕ}

theorem constructAll_of_throws {l l' : List ℕ} {j : ℕ} (hj : T.throws j = true)
    (hl : ∀ i ∈ l, T.throws i = false) (m : Memory) :
    constructAll T b (l ++ j :: l') m = (.thrown, m.setAlive b l true) := by
  induction l generalizing m with
  | nil =>
    show constructAll T b (j :: l') m = _
    unfold constructAll
    rw [if_pos hj]
    unfold Memory.setAlive
    simp
  | cons i l ih =>
    have hi := hl i List.mem_cons_self
    rw [List.cons_append, constructAll, hi, if_neg Bool.false_ne_true,
      ih fun x hx => hl x (List.mem_cons_of_mem _ hx), Memory.setAlive_append]
    rfl

theorem constructAll_of_not_throws {l : List ℕ} (hl : ∀ i ∈ l, T.throws i = false) (m : Memory) :
    constructAll T b l m = (.returned, m.setAlive b l true) := by
  induction l generalizing m with
  | nil =>
    unfold constructAll Memory.setAlive
    simp
  | cons i l ih =>
    have hi := hl i List.mem_cons_self
    rw [constructAll, hi, if_neg Bool.false_ne_true,
      ih fun x hx => hl x (List.mem_cons_of_mem _ hx), Memory.setAlive_append]
    rfl

end Loops

/-! ### Arrays that own their elements -/

/-- There is nothing in the blocks that have not been allocated. -/
def Memory.Fresh (m : Memory) : Prop := ∀ b, m.next ≤ b → ∀ i, m.alive b i = false

/-- An array that has been constructed or resized without an exception, or that is null. -/
structure Owns (a : Members) (m : Memory) : Prop where
  fresh : m.Fresh
  count_eq : a.store = none → a.count = 0
  lt_next : ∀ b, a.store = some b → b < m.next
  allocated : ∀ b, a.store = some b → m.allocated b = true
  alive_iff : ∀ b, a.store = some b → ∀ i, m.alive b i = true ↔ i < a.count

variable {T : Elements}

/-- The destructor takes away the elements and the memory of the array. -/
theorem Owns.destructor {a : Members} {m : Memory} (h : Owns a m) :
    ∃ m', Dynarray.destructor a m = some m' ∧ m'.next = m.next ∧ m'.Fresh ∧
      (∀ b, a.store ≠ some b → m'.alive b = m.alive b) ∧
      ∀ b, a.store = some b → m'.allocated b = false := by
  unfold Dynarray.destructor
  cases hstore : a.store with
  | none => exact ⟨m, rfl, rfl, h.fresh, fun _ _ => rfl, nofun⟩
  | some b =>
    have hall := Memory.foldlM_destroy (List.nodup_range (n := a.count)) (b := b) (m := m)
      fun i hi => (h.alive_iff b hstore i).mpr (List.mem_range.mp hi)
    have hfree : (m.setAlive b (List.range a.count) false).free b = some
        { m.setAlive b (List.range a.count) false with
          allocated := fun b' => if b' = b then false else m.allocated b' } :=
      if_pos (h.allocated b hstore)
    dsimp only
    rw [hall, Option.bind_some, hfree]
    refine ⟨_, rfl, rfl, ?_, ?_, ?_⟩
    · intro b' hb' i
      show (if b' = b ∧ i ∈ List.range a.count then false else m.alive b' i) = false
      rw [h.fresh b' hb', ite_self]
    · intro b' hb'
      funext i
      exact if_neg fun hi => hb' (congrArg some hi.1.symm)
    · intro b' hb'
      exact if_pos (Option.some.inj hb').symm

/-- The elements of a new block, if no construction throws. -/
theorem initFrom_of_not_throws {n : ℕ} (hthrows : ∀ i < n, T.throws i = false) (i b : ℕ)
    (m : Memory) :
    initFrom T i b n m = some (.returned, m.setAlive b (List.range n) true) := by
  unfold initFrom
  rw [constructAll_of_not_throws fun j hj => hthrows j (List.mem_range.mp hj)]

theorem owns_malloc {m : Memory} (h : m.Fresh) (n : ℕ) :
    Owns { store := some m.malloc.1, count := n }
      (m.malloc.2.setAlive m.malloc.1 (List.range n) true) := by
  constructor
  case fresh =>
    intro b hb i
    have hlt : m.next < b := hb
    exact (if_neg fun hi => hlt.ne' hi.1).trans (h b hlt.le i)
  case count_eq => nofun
  case lt_next =>
    rintro b hb
    obtain rfl := Option.some.inj hb
    exact Nat.lt_succ_self m.next
  case allocated =>
    rintro b hb
    obtain rfl := Option.some.inj hb
    exact if_pos rfl
  case alive_iff =>
    rintro b hb i
    obtain rfl := Option.some.inj hb
    show (if m.next = m.next ∧ i ∈ List.range n then true else m.alive m.next i) = true ↔ _
    rw [h m.next le_rfl]
    simp

/-- A constructor that does not throw makes an array that owns its elements. -/
theorem owns_of_sizedWith {n : ℕ} (hrejects : rejects T n = false)
    (hthrows : ∀ i < n, T.throws i = false) (i : ℕ) {m : Memory} (h : m.Fresh) :
    ∃ a m', sizedWith T (initFrom T i) n m = some (some a, m') ∧ Owns a m' := by
  unfold sizedWith
  rw [hrejects, if_neg Bool.false_ne_true]
  dsimp only
  rw [initFrom_of_not_throws hthrows]
  exact ⟨_, _, rfl, owns_malloc h n⟩

/-- So does `resize`. -/
theorem owns_of_resizeWith {n : ℕ} (hrejects : rejects T n = false)
    (hthrows : ∀ i < n, T.throws i = false) (i : ℕ) {a : Members} {m : Memory} (h : Owns a m) :
    ∃ a' m', resizeWith T (initFrom T i) a n m = some (.returned, a', m') ∧ Owns a' m' := by
  obtain ⟨m₁, hdestructor, -, hfresh, -, -⟩ := h.destructor
  unfold resizeWith
  rw [hdestructor, Option.bind_some, hrejects, if_neg Bool.false_ne_true]
  dsimp only
  rw [initFrom_of_not_throws hthrows]
  exact ⟨_, _, rfl, owns_malloc hfresh n⟩

/-! ### Exceptions -/

/-- The reason for which a call throws. -/
inductive Cause where
  /-- `alloc` rejects the size. -/
  | alloc
  /-- The construction of the element at an index throws. -/
  | element (j : ℕ)

/-- A call for `n` elements throws for this reason. -/
def Cause.Holds (T : Elements) (n : ℕ) : Cause → Prop
  | alloc => rejects T n = true
  | element j => rejects T n = false ∧ j < n ∧ T.throws j = true ∧ ∀ i < j, T.throws i = false

theorem exists_range_eq {j n : ℕ} (h : j < n) : ∃ l, List.range n = List.range j ++ j :: l := by
  obtain ⟨k, rfl⟩ := Nat.exists_eq_add_of_lt h
  refine ⟨((List.range k).map Nat.succ).map (j + ·), ?_⟩
  rw [Nat.add_assoc, List.range_add, List.range_succ_eq_map]
  rfl

/-- The cleanup loop destroys what has been constructed, if it starts from the right number. -/
theorem initFrom_of_throws {n j : ℕ} (hjn : j < n) (hj : T.throws j = true)
    (hbefore : ∀ i < j, T.throws i = false) (i b : ℕ) {m : Memory}
    (hb : ∀ x, m.alive b x = false) :
    (∃ m', initFrom T i b n m = some (.thrown, m') ∧ m'.alive = m.alive) ↔ i = j := by
  obtain ⟨l, hsplit⟩ := exists_range_eq hjn
  unfold initFrom
  rw [hsplit, constructAll_of_throws hj fun x hx => hbefore x (List.mem_range.mp hx)]
  dsimp only
  have halive : ∀ x, (m.setAlive b (List.range j) true).alive b x = decide (x < j) := by
    intro x
    show (if b = b ∧ x ∈ List.range j then true else m.alive b x) = _
    rw [hb]
    simp
  rcases lt_or_ge j i with hji | hij
  · -- an element is destroyed that has not been constructed
    have hdead : (m.setAlive b (List.range j) true).alive b j = false := by
      rw [halive]
      exact decide_eq_false (lt_irrefl j)
    rw [Memory.foldlM_destroy_eq_none (List.mem_reverse.mpr (List.mem_range.mpr hji)) hdead]
    refine iff_of_false ?_ hji.ne'
    rintro ⟨m', h, -⟩
    cases h
  · have hall := Memory.foldlM_destroy (List.nodup_reverse.mpr (List.nodup_range (n := i)))
      (b := b) (m := m.setAlive b (List.range j) true) fun x hx => by
        rw [halive]
        exact decide_eq_true ((List.mem_range.mp (List.mem_reverse.mp hx)).trans_le hij)
    rw [hall]
    constructor
    · -- the element `i` is left, if it has been constructed
      rintro ⟨m', h, heq⟩
      obtain rfl := (Prod.mk.inj (Option.some.inj h)).2
      by_contra hne
      have hleft : ((m.setAlive b (List.range j) true).setAlive b (List.range i).reverse
          false).alive b i = true := by
        refine (if_neg fun hi => ?_).trans ((halive i).trans (decide_eq_true (hij.lt_of_ne hne)))
        exact lt_irrefl i (List.mem_range.mp (List.mem_reverse.mp hi.2))
      rw [heq, hb] at hleft
      cases hleft
    · rintro rfl
      refine ⟨_, rfl, ?_⟩
      funext b' x
      show (if b' = b ∧ x ∈ (List.range i).reverse then false
        else if b' = b ∧ x ∈ List.range i then true else m.alive b' x) = m.alive b' x
      by_cases hx : b' = b ∧ x ∈ List.range i
      · rw [if_pos ⟨hx.1, List.mem_reverse.mpr hx.2⟩, hx.1, hb]
      · rw [if_neg fun h => hx ⟨h.1, List.mem_reverse.mp h.2⟩, if_neg hx]

/-- A call that may throw, with the number that the counter of `init` holds. -/
inductive Call where
  | sized (n : ℕ)
  | sizedValue (i n : ℕ)
  | resize (a : Members) (n : ℕ)
  | resizeValue (i : ℕ) (a : Members) (n : ℕ)

namespace Call

/-- The number of elements. -/
def size : Call → ℕ
  | sized n => n
  | sizedValue _ n => n
  | resize _ n => n
  | resizeValue _ _ n => n

/-- An array that is resized owns its elements. -/
def Legal (m : Memory) : Call → Prop
  | sized _ => m.Fresh
  | sizedValue _ _ => m.Fresh
  | resize a _ => Owns a m
  | resizeValue _ a _ => Owns a m

/-- What a throwing `resize` is to leave of the array `a`. -/
structure Leaves (a : Members) (m : Memory) (a' : Members) (m' : Memory) : Prop where
  /-- Every new element has been destroyed, and nothing else. -/
  alive_eq : ∀ b, a.store ≠ some b → m'.alive b = m.alive b
  /-- The array owns its old storage, or none. -/
  owns : a'.store = none ∨ a'.store = a.store ∧ Owns a' m'
  destructor : ∃ m'', Dynarray.destructor a' m' = some m''

/-- A call throws, and has destroyed exactly the elements it has constructed. -/
def CleansUp (T : Elements) (m : Memory) : Call → Prop
  | sized n => ∃ m', Dynarray.sized T n m = some (none, m') ∧ m'.alive = m.alive
  | sizedValue i n => ∃ m', Dynarray.sizedValue T i n m = some (none, m') ∧ m'.alive = m.alive
  | resize a n => ∃ a' m', Dynarray.resize T a n m = some (.thrown, a', m') ∧ Leaves a m a' m'
  | resizeValue i a n =>
    ∃ a' m', Dynarray.resizeValue T i a n m = some (.thrown, a', m') ∧ Leaves a m a' m'

/-- When it does: a constructor if the counter happens to hold the number of the elements that have
been constructed, and `resize` only if it has neither old elements nor new ones. -/
def HoldsWhen (cause : Cause) : Call → Prop
  | sized _ => cause = .alloc ∨ cause = .element 0
  | sizedValue i _ => cause = .alloc ∨ cause = .element i
  | resize a _ => cause = .alloc ∧ a.store = none
  | resizeValue _ a _ => cause = .alloc ∧ a.store = none

end Call

theorem sizedWith_iff {n : ℕ} {cause : Cause} (hcause : cause.Holds T n) (i : ℕ) {m : Memory}
    (h : m.Fresh) : (∃ m', sizedWith T (initFrom T i) n m = some (none, m') ∧ m'.alive = m.alive) ↔
      cause = .alloc ∨ cause = .element i := by
  unfold sizedWith
  cases cause with
  | alloc =>
    have hrejects : rejects T n = true := hcause
    rw [if_pos hrejects]
    exact iff_of_true ⟨m, rfl, rfl⟩ (Or.inl rfl)
  | element j =>
    obtain ⟨hrejects, hjn, hj, hbefore⟩ := hcause
    rw [hrejects, if_neg Bool.false_ne_true]
    have hinit := initFrom_of_throws hjn hj hbefore i m.malloc.1 (m := m.malloc.2)
      (h m.next le_rfl)
    have hindex : (Cause.element j = .alloc ∨ Cause.element j = .element i) ↔ i = j := by
      constructor
      · rintro (h | h)
        · cases h
        · exact (Cause.element.inj h).symm
      · rintro rfl
        exact Or.inr rfl
    rw [hindex, ← hinit]
    constructor
    · rintro ⟨m', hrun, halive⟩
      obtain ⟨⟨e, m''⟩, hs, heq⟩ := Option.map_eq_some_iff.mp hrun
      obtain ⟨hexit, rfl⟩ := Prod.mk.inj heq
      refine ⟨m'', ?_, halive⟩
      cases e with
      | returned => cases hexit
      | thrown => exact hs
    · rintro ⟨m', hs, halive⟩
      refine ⟨m', ?_, halive⟩
      dsimp only
      rw [hs]
      rfl

theorem resizeWith_iff {n : ℕ} {cause : Cause} (hcause : cause.Holds T n)
    (init : ℕ → ℕ → Memory → Option (Exit × Memory)) {a : Members} {m : Memory} (h : Owns a m) :
    (∃ a' m', resizeWith T init a n m = some (.thrown, a', m') ∧ Call.Leaves a m a' m') ↔
      cause = .alloc ∧ a.store = none := by
  obtain ⟨m₁, hdestructor, hnext, -, halive, hfreed⟩ := h.destructor
  unfold resizeWith
  rw [hdestructor, Option.bind_some]
  cases cause with
  | alloc =>
    have hrejects : rejects T n = true := hcause
    rw [if_pos hrejects]
    constructor
    · -- the array keeps a pointer to memory that has been freed
      rintro ⟨a', m', hrun, hleaves⟩
      obtain ⟨-, hmembers⟩ := Prod.mk.inj (Option.some.inj hrun)
      obtain ⟨rfl, rfl⟩ := Prod.mk.inj hmembers
      refine ⟨rfl, ?_⟩
      rcases hleaves.owns with hnone | ⟨-, howns⟩
      · exact hnone
      cases hstore : a.store with
      | none => rfl
      | some b =>
        have hfree := hfreed b hstore
        rw [howns.allocated b hstore] at hfree
        cases hfree
    · rintro ⟨-, hnone⟩
      refine ⟨a, m₁, rfl, halive, Or.inl hnone, m₁, ?_⟩
      unfold destructor
      rw [hnone]
  | element j =>
    -- the array points to the new storage
    refine iff_of_false ?_ fun hfalse => by cases hfalse.1
    rintro ⟨a', m', hrun, hleaves⟩
    rw [hcause.1, if_neg Bool.false_ne_true] at hrun
    obtain ⟨s, -, heq⟩ := Option.map_eq_some_iff.mp hrun
    have hstore : a'.store = some m₁.next := by
      rw [← (Prod.mk.inj (Prod.mk.inj heq).2).1]
      rfl
    rcases hleaves.owns with hnone | ⟨hsame, -⟩
    · rw [hnone] at hstore
      cases hstore
    · have hlt := h.lt_next m₁.next (hsame ▸ hstore)
      omega

/-- **Exceptions.** A call that throws leaves what it should exactly if `alloc` throws and there is
no old storage, or, for a constructor, if the cleanup loop starts from the number of the element
whose construction throws. -/
theorem cleansUp_iff (T : Elements) (m : Memory) (call : Call) (cause : Cause)
    (hlegal : call.Legal m) (hcause : cause.Holds T call.size) :
    call.CleansUp T m ↔ call.HoldsWhen cause := by
  cases call with
  | sized n => exact sizedWith_iff hcause 0 hlegal
  | sizedValue i n => exact sizedWith_iff hcause i hlegal
  | resize a n => exact resizeWith_iff hcause _ hlegal
  | resizeValue i a n => exact resizeWith_iff hcause _ hlegal

/-- Memory of which nothing has been allocated. -/
def noMemory : Memory where
  next := 0
  allocated _ := false
  alive _ _ := false

/-- Three elements of eight bytes, of which the first can be constructed. -/
theorem cleansUp_sized_three_iff :
    (Call.sized 3).CleansUp { size := 8, throws := fun i => i = 1 } noMemory ↔
      (Call.sized 3).HoldsWhen (.element 1) :=
  cleansUp_iff { size := 8, throws := fun i => i = 1 } noMemory (.sized 3) (.element 1)
    (fun _ _ _ => rfl) ⟨by decide, by decide, by decide, by decide⟩

/-- When the construction of the second element throws, the first one is not destroyed. -/
theorem not_cleansUp_sized_three :
    (Cause.element 1).Holds { size := 8, throws := fun i => i = 1 } 3 ∧
      ¬(Call.sized 3).CleansUp { size := 8, throws := fun i => i = 1 } noMemory := by
  refine ⟨⟨by decide, by decide, by decide, by decide⟩, ?_⟩
  rintro ⟨m', hrun, halive⟩
  have hleft : m'.alive 0 0 = true := by
    rw [← (Prod.mk.inj (Option.some.inj hrun)).2]
    decide
  rw [halive] at hleft
  cases hleft

end ParallelEnum.Dynarray
