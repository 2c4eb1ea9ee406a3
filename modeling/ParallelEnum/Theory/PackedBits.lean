import Mathlib.Data.List.Sort
import Mathlib.Data.Nat.Notation

/-!
# Sets of indices, packed into words

`indices p a n` lists the indices from `a` on and below `n` at which `p` holds, in ascending order.
A scan for the first or the last of them takes it apart (`indices_eq_cons`, `indices_eq_concat`).

The words `words i` of `w` bits each stand for the predicate `bit words`: the index `k` is bit
`k % w` of the word `k / w`.  `indices_word_append` goes from word to word, and within a word the
indices are those of its set bits, which `BitVec.ctz` and `BitVec.clz` find and `BitVec.cpop`
counts.
-/

namespace PackedBits

/-! ### The indices of a predicate -/

/-- The indices from `a` on and below `n` at which `p` holds. -/
def indices (p : ℕ → Bool) (a n : ℕ) : List ℕ := (List.range' a (n - a)).filter p

variable {p q : ℕ → Bool} {a b i n : ℕ}

theorem mem_indices : i ∈ indices p a n ↔ (a ≤ i ∧ i < n) ∧ p i = true := by
  unfold indices
  rw [List.mem_filter, List.mem_range'_1]
  have : (a ≤ i ∧ i < a + (n - a)) ↔ (a ≤ i ∧ i < n) := by omega
  rw [this]

theorem sortedLT_indices : (indices p a n).SortedLT :=
  (List.Pairwise.filter p (List.pairwise_lt_range' 1 Nat.one_pos)).sortedLT

theorem indices_of_le (h : n ≤ a) : indices p a n = [] := by
  unfold indices
  rw [Nat.sub_eq_zero_of_le h]
  rfl

theorem length_indices_le : (indices p a n).length ≤ n - a := by
  unfold indices
  apply (List.length_filter_le _ _).trans
  rw [List.length_range']

theorem indices_append (hab : a ≤ b) (hbn : b ≤ n) :
    indices p a b ++ indices p b n = indices p a n := by
  unfold indices
  rw [← List.filter_append]
  have hn : n - a = (b - a) + (n - b) := by omega
  have hb : b = a + 1 * (b - a) := by omega
  rw [hn, ← List.range'_append, ← hb]

theorem indices_congr (h : ∀ i, a ≤ i → i < n → p i = q i) : indices p a n = indices q a n := by
  apply List.filter_congr
  intro i hi
  rw [List.mem_range'_1] at hi
  exact h i hi.1 (by omega)

theorem indices_eq_nil_iff : indices p a n = [] ↔ ∀ i, a ≤ i → i < n → p i = false := by
  simp only [List.eq_nil_iff_forall_not_mem, mem_indices, not_and, Bool.not_eq_true, and_imp]

/-- The first index comes first. -/
theorem indices_eq_cons (hai : a ≤ i) (hin : i < n) (hi : p i = true)
    (h : ∀ j, a ≤ j → j < i → p j = false) : indices p a n = i :: indices p (i + 1) n := by
  rw [← indices_append hai hin.le, indices_eq_nil_iff.mpr h]
  unfold indices
  have hn : n - i = n - (i + 1) + 1 := by omega
  rw [hn, List.range'_succ, List.filter_cons_of_pos hi]
  rfl

theorem indices_succ_self : indices p a (a + 1) = if p a = true then [a] else [] := by
  unfold indices
  rw [Nat.add_sub_cancel_left, List.range'_one, List.filter_singleton, Bool.cond_eq_ite]

/-- The last index comes last. -/
theorem indices_eq_concat (hai : a ≤ i) (hin : i < n) (hi : p i = true)
    (h : ∀ j, i < j → j < n → p j = false) : indices p a n = indices p a i ++ [i] := by
  have hnil : indices p (i + 1) n = [] := indices_eq_nil_iff.mpr h
  rw [← indices_append hai hin.le, indices_eq_cons (Nat.le_refl i) hin hi fun j hj hj' => by omega,
    hnil]

/-- What comes after an index starts after it. -/
theorem eq_indices_of_cons {l : List ℕ} (h : indices p a n = i :: l) :
    (a ≤ i ∧ i < n) ∧ p i = true ∧ l = indices p (i + 1) n := by
  have hi : i ∈ indices p a n := by rw [h]; exact List.mem_cons_self
  have hsorted : (i :: l).SortedLT := h ▸ sortedLT_indices
  rw [mem_indices] at hi
  have hfirst : ∀ j, a ≤ j → j < i → p j = false := by
    intro j haj hji
    by_contra hj
    have hmem : j ∈ i :: l := by
      rw [← h, mem_indices]
      exact ⟨⟨haj, hji.trans hi.1.2⟩, by simpa using hj⟩
    rcases List.mem_cons.mp hmem with rfl | hmem
    · exact lt_irrefl _ hji
    · exact lt_asymm hji (List.rel_of_pairwise_cons hsorted.pairwise hmem)
  refine ⟨hi.1, hi.2, ?_⟩
  have := indices_eq_cons hi.1.1 hi.1.2 hi.2 hfirst
  exact (List.cons.inj (h.symm.trans this)).2

theorem map_add_indices (c : ℕ) :
    (indices (fun j => p (c + j)) a n).map (c + ·) = indices p (c + a) (c + n) := by
  unfold indices
  rw [Nat.add_sub_add_left, ← List.map_add_range', List.filter_map]
  rfl

/-! ### The bits of a word -/

variable {w : ℕ} {x : BitVec w}

theorem bits_eq_nil_iff : indices x.getLsbD 0 w = [] ↔ x = 0#w := by
  rw [indices_eq_nil_iff]
  constructor
  · intro h
    apply BitVec.eq_of_getLsbD_eq
    intro i hi
    rw [h i (Nat.zero_le i) hi, BitVec.getLsbD_zero]
  · rintro rfl i - -
    exact BitVec.getLsbD_zero

theorem ctz_lt (hx : x ≠ 0#w) : x.ctz.toNat < w :=
  BitVec.lt_of_getLsbD (BitVec.getLsbD_true_ctz_of_ne_zero hx)

/-- The bits of the word in which only bit `k` is set. -/
theorem getLsbD_one_shiftLeft (k i : ℕ) :
    (1#w <<< k).getLsbD i = (decide (i < w) && decide (i = k)) := by
  rw [BitVec.getLsbD_shiftLeft, BitVec.getLsbD_one, Bool.eq_iff_iff]
  simp only [Bool.and_eq_true, Bool.not_eq_true', decide_eq_true_eq, decide_eq_false_iff_not]
  omega

/-- The bits of the word in which bit `k` is cleared. -/
theorem getLsbD_clear (k i : ℕ) :
    (x &&& ~~~(1#w <<< k)).getLsbD i = (x.getLsbD i && decide (i ≠ k)) := by
  rw [BitVec.getLsbD_and, BitVec.getLsbD_not, getLsbD_one_shiftLeft]
  by_cases hi : i < w
  · simp [hi]
  · rw [BitVec.getLsbD_of_ge x i (Nat.le_of_not_lt hi), Bool.false_and, Bool.false_and]

/-- A test of bit `k`. -/
theorem and_one_shiftLeft_ne_zero {k : ℕ} (hk : k < w) :
    x &&& 1#w <<< k ≠ 0#w ↔ x.getLsbD k = true := by
  rw [← not_iff_not, not_not, ← bits_eq_nil_iff, indices_eq_nil_iff]
  simp only [BitVec.getLsbD_and, getLsbD_one_shiftLeft]
  constructor
  · intro h
    simpa [hk] using h k (Nat.zero_le k) hk
  · intro h i _ _
    by_cases hi : i = k
    · simp [hi, h]
    · simp [hi]

/-- `ctz` finds the first bit, and the others are left when it is cleared. -/
theorem bits_eq_cons (hx : x ≠ 0#w) :
    indices x.getLsbD 0 w =
      x.ctz.toNat :: indices (x &&& ~~~(1#w <<< x.ctz.toNat)).getLsbD 0 w := by
  have hfirst : ∀ j, 0 ≤ j → j < x.ctz.toNat → x.getLsbD j = false := fun j _ hj =>
    BitVec.getLsbD_false_of_lt_ctz hj
  rw [indices_eq_cons (Nat.zero_le _) (ctz_lt hx) (BitVec.getLsbD_true_ctz_of_ne_zero hx) hfirst,
    ← indices_append (Nat.zero_le (x.ctz.toNat + 1)) (ctz_lt hx)]
  have hnil : indices (x &&& ~~~(1#w <<< x.ctz.toNat)).getLsbD 0 (x.ctz.toNat + 1) = [] := by
    rw [indices_eq_nil_iff]
    intro j _ hj
    rw [getLsbD_clear]
    rcases Nat.lt_succ_iff_lt_or_eq.mp hj with hj | rfl
    · rw [hfirst j (Nat.zero_le j) hj, Bool.false_and]
    · simp
  rw [hnil, List.nil_append]
  congr 1
  apply indices_congr
  intro i hi _
  have : i ≠ x.ctz.toNat := by omega
  rw [getLsbD_clear, decide_eq_true this, Bool.and_true]

theorem toNat_clear_ctz_lt (hx : x ≠ 0#w) :
    (x &&& ~~~(1#w <<< x.ctz.toNat)).toNat < x.toNat := by
  apply lt_of_le_of_ne
  · rw [BitVec.toNat_and]
    exact Nat.and_le_left
  · intro h
    have hbit := getLsbD_clear (x := x) x.ctz.toNat x.ctz.toNat
    rw [BitVec.eq_of_toNat_eq h, BitVec.getLsbD_true_ctz_of_ne_zero hx] at hbit
    simp at hbit

/-- `clz` finds the last bit. -/
theorem bits_eq_concat (hx : x ≠ 0#w) :
    indices x.getLsbD 0 w =
      indices x.getLsbD 0 (w - 1 - x.clz.toNat) ++ [w - 1 - x.clz.toNat] := by
  have hw : 0 < w := (Nat.zero_le _).trans_lt (ctz_lt hx)
  have hlast := BitVec.getLsbD_true_clz_of_ne_zero hw hx
  apply indices_eq_concat (Nat.zero_le _) (BitVec.lt_of_getLsbD hlast) hlast
  intro j hj _
  have hle : 2 ^ (w - x.clz.toNat) ≤ 2 ^ j := Nat.pow_le_pow_right Nat.two_pos (by omega)
  exact Nat.testBit_lt_two_pow (BitVec.toNat_lt_two_pow_sub_clz.trans_le hle)

/-- `cpop` counts the bits. -/
theorem toNat_cpop_eq_length : x.cpop.toNat = (indices x.getLsbD 0 w).length := by
  have h : ∀ k, x.cpopNatRec k 0 = (indices x.getLsbD 0 k).length := by
    intro k
    induction k with
    | zero => rfl
    | succ k ih =>
      rw [BitVec.cpopNatRec_succ, BitVec.cpopNatRec_eq, ih,
        ← indices_append (Nat.zero_le k) (Nat.le_succ k), List.length_append, indices_succ_self]
      cases x.getLsbD k <;> rfl
  rw [BitVec.toNat_cpop, h]

/-- Shifting out the bits below `k` leaves those from `k` on. -/
theorem map_bits_shift {k : ℕ} (hk : k ≤ w) :
    (indices (x >>> k).getLsbD 0 w).map (k + ·) = indices x.getLsbD k w := by
  have h : (x >>> k).getLsbD = fun j => x.getLsbD (k + j) := by
    funext j
    exact BitVec.getLsbD_ushiftRight x k j
  have hnil : indices x.getLsbD w (k + w) = [] := by
    rw [indices_eq_nil_iff]
    intro i hi _
    exact BitVec.getLsbD_of_ge x i hi
  rw [h, map_add_indices, Nat.add_zero, ← indices_append hk (Nat.le_add_left w k), hnil,
    List.append_nil]

/-! ### From word to word -/

/-- The index `k` is a bit of the word `k / w`. -/
def bit (words : ℕ → BitVec w) (k : ℕ) : Bool := (words (k / w)).getLsbD (k % w)

variable {words : ℕ → BitVec w} {N k : ℕ}

theorem bit_mul_add (i : ℕ) (hk : k < w) : bit words (i * w + k) = (words i).getLsbD k := by
  have hdiv : (i * w + k) / w = i := by
    rw [Nat.mul_comm, Nat.mul_add_div (by omega), Nat.div_eq_of_lt hk, Nat.add_zero]
  have hmod : (i * w + k) % w = k := by
    rw [Nat.mul_comm, Nat.mul_add_mod, Nat.mod_eq_of_lt hk]
  unfold bit
  rw [hdiv, hmod]

/-- The indices from the bit `k` of the word `i` on are in this word or come after it. -/
theorem indices_word_append (hk : k ≤ w) (hi : i < N) :
    indices (bit words) (i * w + k) (N * w) =
      (indices (words i).getLsbD k w).map (i * w + ·) ++
        indices (bit words) ((i + 1) * w) (N * w) := by
  have hword : (i + 1) * w = i * w + w := Nat.succ_mul i w
  have hle : (i + 1) * w ≤ N * w := Nat.mul_le_mul_right w hi
  have hbits : indices (words i).getLsbD k w = indices (fun j => bit words (i * w + j)) k w :=
    indices_congr fun j _ hj => (bit_mul_add i hj).symm
  rw [hword] at hle ⊢
  rw [hbits, map_add_indices, indices_append (Nat.add_le_add_left hk _) hle]

/-- The indices up to the word `i` are those before it and those in it. -/
theorem indices_append_word (i : ℕ) :
    indices (bit words) 0 ((i + 1) * w) =
      indices (bit words) 0 (i * w) ++ (indices (words i).getLsbD 0 w).map (i * w + ·) := by
  have hle : i * w ≤ (i + 1) * w := Nat.mul_le_mul_right w (Nat.le_succ i)
  have h : indices (bit words) (i * w + 0) ((i + 1) * w) = _ :=
    indices_word_append (Nat.zero_le w) (Nat.lt_succ_self i)
  rw [Nat.add_zero, indices_of_le (Nat.le_refl _), List.append_nil] at h
  rw [← indices_append (Nat.zero_le (i * w)) hle, h]

end PackedBits
