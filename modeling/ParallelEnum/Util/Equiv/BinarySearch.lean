import ParallelEnum.Util.BinarySearch
import Mathlib.Algebra.Order.Floor.Div
import Mathlib.GroupTheory.GroupAction.Ring
import Mathlib.Tactic.Push

/-!
# What `count` finds

The window of the search is `support[cur .. cur + n)`.  A step to the left moves it to
`support[half .. n)` instead of `support[cur .. cur + half)`.  So the window stays within the array,
but the search does not stay with the value: of the values in an array of size `n > 1`, `count`
finds those at the indices `⌈n / 2 ^ i⌉` for positive `i`, and no others (`count_eq_iff`).
-/

namespace ParallelEnum.BinarySearch

/-! ### The sizes of the window -/

/-- The sizes of a window of size `n` after some steps: each step rounds up. -/
def IsWindow (n p : ℕ) : Prop := ∃ i, n ⌈/⌉ 2 ^ i = p

theorem ceilDiv_two_pow_zero (n : ℕ) : n ⌈/⌉ 2 ^ 0 = n := by
  rw [Nat.ceilDiv_eq_add_pred_div, pow_zero, Nat.add_sub_cancel, Nat.div_one]

theorem ceilDiv_two_pow_succ (n i : ℕ) : n ⌈/⌉ 2 ^ (i + 1) = (n - n / 2) ⌈/⌉ 2 ^ i := by
  apply eq_of_forall_ge_iff
  intro c
  have hpow : 2 ^ (i + 1) * c = 2 * (2 ^ i * c) := by
    rw [pow_succ, Nat.mul_comm (2 ^ i) 2, Nat.mul_assoc]
  rw [ceilDiv_le_iff_le_mul (Nat.two_pow_pos _), ceilDiv_le_iff_le_mul (Nat.two_pow_pos _), hpow]
  omega

theorem isWindow_one {p : ℕ} : IsWindow 1 p ↔ p = 1 := by
  have hone : ∀ i, 1 ⌈/⌉ 2 ^ i = 1 := by
    intro i
    induction i with
    | zero => rfl
    | succ i ih => rw [ceilDiv_two_pow_succ, ih]
  constructor
  · rintro ⟨i, rfl⟩
    exact hone i
  · rintro rfl
    exact ⟨0, hone 0⟩

theorem isWindow_iff {n p : ℕ} : IsWindow n p ↔ p = n ∨ IsWindow (n - n / 2) p := by
  constructor
  · rintro ⟨i, rfl⟩
    cases i with
    | zero => exact Or.inl (ceilDiv_two_pow_zero n)
    | succ i => exact Or.inr ⟨i, (ceilDiv_two_pow_succ n i).symm⟩
  · rintro (rfl | ⟨i, rfl⟩)
    · exact ⟨0, ceilDiv_two_pow_zero p⟩
    · exact ⟨i + 1, ceilDiv_two_pow_succ n i⟩

/-! ### `init` -/

section Init

variable {α : Type} [Inhabited α] {v : Vec α}

/-- The loop of `init` copies the array. -/
theorem initLoop_eq {left cnt : ℕ} {support : Vec α} (hsize : support.size = v.size)
    (hcnt : cnt ≤ v.size) (hlt : v.size < 2 ^ 32) (hleft : v.size < cnt + left)
    (hsame : ∀ i < cnt, support.get i = v.get i) : initLoop v left cnt support = some v := by
  induction left generalizing cnt support with
  | zero => omega
  | succ left ih =>
    rw [initLoop]
    -- the loop tests `cnt != v.size()`, so it ends at the size and nowhere else
    by_cases hend : cnt = v.size
    · rw [if_neg (not_not.mpr hend)]
      exact congrArg some (Vec.ext_get hsize fun i hi => hsame i (by omega))
    · rw [if_pos hend, Vec.read_bind (by omega), Vec.write_bind (by omega),
        Nat.mod_eq_of_lt (by omega)]
      apply ih
      · rw [Vec.size_set, hsize]
      · omega
      · omega
      · intro i hi
        by_cases hicnt : i = cnt
        · rw [hicnt]
          exact Vec.get_set_self (by omega) _
        · rw [Vec.get_set_of_ne _ (Ne.symm hicnt)]
          exact hsame i (by omega)

/-- The counter never gets to a size of `2 ^ 32` or more. -/
theorem initLoop_eq_none {left cnt : ℕ} {support : Vec α} (hlt : cnt < 2 ^ 32)
    (hv : 2 ^ 32 ≤ v.size) : initLoop v left cnt support = none := by
  induction left generalizing cnt support with
  | zero => rfl
  | succ left ih =>
    have hmod : (cnt + 1) % 2 ^ 32 < 2 ^ 32 := Nat.mod_lt _ (Nat.two_pow_pos _)
    rw [initLoop, if_pos (by omega), Vec.read_bind (by omega)]
    by_cases hwrite : cnt < support.size
    · rw [Vec.write_bind hwrite]
      exact ih hmod
    · unfold Vec.write
      rw [if_neg hwrite]
      rfl

/-- `init` stores the array if its size is an `unsigned`. -/
theorem init_eq (v : Vec α) : init v = if v.size < 2 ^ 32 then some ⟨v⟩ else none := by
  unfold init
  split_ifs with hv
  · rw [initLoop_eq (Vec.size_zeros _) (Nat.zero_le _) hv (by omega)
      fun i hi => absurd hi (Nat.not_lt_zero i)]
    rfl
  · rw [initLoop_eq_none (Nat.two_pow_pos _) (not_lt.mp hv)]
    rfl

end Init

/-! ### `count` -/

variable {α : Type} [Inhabited α] [LinearOrder α] {s : BinarySearch α} {v : α} {p : ℕ}

/-- The place of a value in the array: the entries before it are the smaller ones. -/
def IsPlace (s : BinarySearch α) (v : α) (p : ℕ) : Prop :=
  p ≤ s.support.size ∧ ∀ i < s.support.size, s.support.get i < v ↔ i < p

/-- Where the loop ends, compared with the place of the value. -/
theorem narrow_spec (hp : s.IsPlace v p) {cur n : ℕ} (hn : 1 ≤ n)
    (hcur : cur + n ≤ s.support.size) :
    ∃ q < s.support.size, s.narrow v cur n = some q ∧ (n = 1 → q = cur) ∧
      (2 ≤ n → n - n / 2 ≤ cur →
        (q = p ∨ q + 1 = p ↔ p = cur + n ∨ IsWindow n p)) := by
  induction n using Nat.strong_induction_on generalizing cur with
  | _ n ih =>
  rw [narrow]
  by_cases hone : n = 1
  · rw [if_neg (by omega)]
    exact ⟨cur, by omega, rfl, fun _ => rfl, fun h => by omega⟩
  · have hplace := hp.2 (cur + n / 2) (by omega)
    rw [if_pos (by omega)]
    dsimp only
    rw [Vec.read_bind (by omega)]
    by_cases hright : cur + n / 2 < p
    · rw [if_pos (hplace.mpr hright)]
      -- to the right the window goes on to end at `cur + n`
      obtain ⟨q, hlt, hrun, hend, hfound⟩ := ih (n - n / 2) (by omega) (by omega)
        (show cur + n / 2 + (n - n / 2) ≤ s.support.size by omega)
      refine ⟨q, hlt, hrun, fun h => absurd h hone, fun hn2 hle => ?_⟩
      have hne : p ≠ n := by omega
      rw [isWindow_iff, or_iff_right hne]
      by_cases htwo : n = 2
      · subst htwo
        rw [hend rfl, isWindow_one]
        omega
      · rw [hfound (by omega) (by omega)]
        have hsum : cur + n / 2 + (n - n / 2) = cur + n := by omega
        rw [hsum]
    · rw [if_neg fun h => hright (hplace.mp h)]
      -- to the left it starts at `half` and so ends at `n`: the value is met only if it lies there
      -- or at the end of a later window
      obtain ⟨q, hlt, hrun, hend, hfound⟩ := ih (n - n / 2) (by omega) (by omega)
        (show n / 2 + (n - n / 2) ≤ s.support.size by omega)
      refine ⟨q, hlt, hrun, fun h => absurd h hone, fun hn2 hle => ?_⟩
      have hne : p ≠ cur + n := by omega
      rw [or_iff_right hne, isWindow_iff]
      by_cases htwo : n = 2
      · subst htwo
        rw [hend rfl, isWindow_one]
        omega
      · rw [hfound (by omega) (by omega)]
        have hsum : n / 2 + (n - n / 2) = n := by omega
        rw [hsum]

/-- Where the loop of `count` ends, compared with the place of a value that is not above all. -/
theorem narrow_zero_spec (hp : s.IsPlace v p) (hsize : s.support.size ≠ 0) :
    ∃ q < s.support.size, s.narrow v 0 s.support.size = some q ∧
      (p < s.support.size → (q = p ∨ q + 1 = p ↔
        s.support.size = 1 ∨ IsWindow (s.support.size - s.support.size / 2) p)) := by
  set n := s.support.size with hn
  rw [narrow]
  by_cases hone : n = 1
  · rw [if_neg (by omega)]
    exact ⟨0, by omega, rfl, by omega⟩
  · -- both branches of the first step go to the right half
    have hstart : (if s.support.get (0 + n / 2) < v then 0 + n / 2 else n / 2) = n / 2 := by
      rw [Nat.zero_add, ite_self]
    rw [if_pos (by omega)]
    dsimp only
    rw [Vec.read_bind (by omega), hstart, or_iff_right hone]
    obtain ⟨q, hq, hrun, hend, hfound⟩ := narrow_spec hp
      (show 1 ≤ n - n / 2 by omega) (show n / 2 + (n - n / 2) ≤ s.support.size by omega)
    refine ⟨q, hq, hrun, fun hlt => ?_⟩
    by_cases htwo : n = 2
    · rw [htwo] at hend hlt ⊢
      rw [hend rfl, isWindow_one]
      omega
    · have hne : p ≠ n / 2 + (n - n / 2) := by omega
      rw [hfound (by omega) (by omega), or_iff_right hne]

/-- A strictly ascending array. -/
def Ascending (v : Vec α) : Prop := ∀ i j, i < j → j < v.size → v.get i < v.get j

theorem ascending_of_pairwise {v : Vec α} (h : v.toList.Pairwise (· < ·)) : Ascending v := by
  intro i j hij hj
  rw [Vec.get_eq_getElem hj, Vec.get_eq_getElem (hij.trans hj)]
  exact List.pairwise_iff_getElem.mp h i j (hij.trans hj) hj hij

theorem exists_isPlace (hs : Ascending s.support) (v : α) : ∃ p, s.IsPlace v p := by
  have hex : ∃ p, ∀ i < s.support.size, p ≤ i → v ≤ s.support.get i :=
    ⟨s.support.size, fun i hi hle => absurd hi (not_lt.mpr hle)⟩
  classical
  refine ⟨Nat.find hex, Nat.find_min' hex fun i hi hle => absurd hi (not_lt.mpr hle), ?_⟩
  intro i hi
  constructor
  · intro hlt
    by_contra hle
    exact absurd hlt (not_lt.mpr (Nat.find_spec hex i hi (not_lt.mp hle)))
  · intro hlt
    have hmin := Nat.find_min hex hlt
    push Not at hmin
    obtain ⟨j, hj, hij, hless⟩ := hmin
    rcases hij.eq_or_lt with rfl | hij
    · exact hless
    · exact (hs i j hij hj).trans hless

/-- A value can only lie at its place. -/
theorem IsPlace.get_eq_iff (hp : s.IsPlace v p) (hs : Ascending s.support) {i : ℕ}
    (hi : i < s.support.size) : s.support.get i = v ↔ i = p ∧ s.support.get p = v := by
  constructor
  · intro heq
    have hle : p ≤ i := by
      by_contra hlt
      exact absurd heq ((hp.2 i hi).mpr (not_le.mp hlt)).ne
    rcases hle.eq_or_lt with rfl | hlt
    · exact ⟨rfl, heq⟩
    · have hless := hs p i hlt hi
      rw [heq] at hless
      exact absurd ((hp.2 p (hlt.trans hi)).mp hless) (lt_irrefl p)
  · rintro ⟨rfl, heq⟩
    exact heq

theorem IsPlace.mem_iff (hp : s.IsPlace v p) (hs : Ascending s.support) :
    v ∈ s.support ↔ p < s.support.size ∧ s.support.get p = v := by
  rw [Array.mem_iff_getElem]
  constructor
  · rintro ⟨i, hi, heq⟩
    rw [← Vec.get_eq_getElem hi, hp.get_eq_iff hs hi] at heq
    exact ⟨heq.1 ▸ hi, heq.2⟩
  · rintro ⟨hlt, heq⟩
    exact ⟨p, hlt, (Vec.get_eq_getElem hlt).symm.trans heq⟩

/-- `count`, in terms of the end of its loop. -/
theorem count_eq (hp : s.IsPlace v p) (hs : Ascending s.support) {q : ℕ}
    (hq : q < s.support.size) (hrun : s.narrow v 0 s.support.size = some q) :
    s.count v = some (decide (v ∈ s.support ∧ (q = p ∨ q + 1 = p))) := by
  unfold count
  rw [hrun, Option.bind_eq_bind, Option.bind_some, Vec.read_bind hq]
  dsimp only
  set cur := if s.support.get q < v then q + 1 else q with hcur
  -- the last comparison moves `cur` by one at most
  have hplace : cur = p ↔ q = p ∨ q + 1 = p := by
    have hless := hp.2 q hq
    by_cases hqp : q < p
    · rw [hcur, if_pos (hless.mpr hqp)]
      omega
    · rw [hcur, if_neg fun h => hqp (hless.mp h)]
      omega
  have hfound : v ∈ s.support ∧ (q = p ∨ q + 1 = p) ↔
      (p < s.support.size ∧ s.support.get p = v) ∧ cur = p := by
    rw [hp.mem_iff hs, hplace]
  by_cases hlt : cur < s.support.size
  · rw [if_pos hlt, Vec.read_bind hlt]
    refine congrArg some (decide_eq_decide.mpr ?_)
    rw [hfound, hp.get_eq_iff hs hlt]
    constructor
    · rintro ⟨heq, hv⟩
      exact ⟨⟨heq ▸ hlt, hv⟩, heq⟩
    · rintro ⟨⟨-, hv⟩, heq⟩
      exact ⟨heq, hv⟩
  · rw [if_neg hlt]
    -- `cur` is the end of the array, where no value lies
    refine congrArg some (decide_eq_false ?_).symm
    rw [hfound]
    rintro ⟨⟨hp', -⟩, heq⟩
    exact hlt (heq ▸ hp')

/-- The values that `count` is right about. -/
def Findable (v : Vec α) (x : α) : Prop :=
  v.size ≠ 0 ∧ (x ∉ v ∨ v.size = 1 ∨ ∃ i > 0, v[v.size ⌈/⌉ 2 ^ i]? = some x)

/-- `count` reads inside the array and tells whether the value is there. -/
def CountExact (s : BinarySearch α) (x : α) : Prop := s.count x = some (decide (x ∈ s.support))

omit [Inhabited α] in
/-- There is no entry to compare with in an empty array. -/
theorem count_empty (hs : s.support.size = 0) (x : α) : s.count x = none := by
  unfold count
  rw [hs, narrow, if_neg (by omega)]
  have hread : s.support.read 0 = none := Array.getElem?_eq_none hs.le
  rw [Option.bind_eq_bind, Option.bind_some, hread]
  rfl

theorem countExact_iff (hs : Ascending s.support) (x : α) :
    CountExact s x ↔ Findable s.support x := by
  unfold CountExact Findable
  by_cases hsize : s.support.size = 0
  · rw [count_empty hsize]
    exact iff_of_false (fun h => by cases h) fun h => h.1 hsize
  obtain ⟨p, hp⟩ := exists_isPlace hs x
  obtain ⟨q, hq, hrun, hfound⟩ := narrow_zero_spec hp hsize
  rw [count_eq hp hs hq hrun, and_iff_right hsize, Option.some_inj, decide_eq_decide]
  by_cases hmem : x ∈ s.support
  · obtain ⟨hlt, hget⟩ := (hp.mem_iff hs).mp hmem
    have hwindow : IsWindow (s.support.size - s.support.size / 2) p ↔
        ∃ i > 0, s.support[s.support.size ⌈/⌉ 2 ^ i]? = some x := by
      constructor
      · rintro ⟨i, hi⟩
        refine ⟨i + 1, Nat.succ_pos i, ?_⟩
        rw [ceilDiv_two_pow_succ, hi, Array.getElem?_eq_getElem hlt, ← Vec.get_eq_getElem hlt, hget]
      · rintro ⟨i, hi, heq⟩
        obtain ⟨j, rfl⟩ := Nat.exists_eq_succ_of_ne_zero hi.ne'
        obtain ⟨hj, hx⟩ := Array.getElem?_eq_some_iff.mp heq
        rw [← Vec.get_eq_getElem hj, hp.get_eq_iff hs hj] at hx
        exact ⟨j, (ceilDiv_two_pow_succ _ j).symm.trans hx.1⟩
    rw [and_iff_right hmem, iff_true_right hmem, hfound hlt, hwindow,
      or_iff_right (not_not.mpr hmem)]
  · simp only [hmem, false_and, not_false_eq_true, true_or]

end ParallelEnum.BinarySearch
