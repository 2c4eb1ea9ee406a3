import ParallelEnum.Util.Bitset
import Mathlib.Data.Finset.Sort

/-!
# The traversals of `bitset`

`isSet` takes the words for one predicate of indices, and `rest s i` lists the indices from `i` on
at which it holds.  The loops of `operator++` and `front` find the first of these, and those of
`list`, `count` and `empty` take them word by word; `back` takes the words from the other end.  The
arithmetic of `size_t` is exact on a content whose indices are below `max()` (`Fits`), and `clear`,
`set`, `reset` and the operators lead to no other.

`Reaches` follows a content on its way from `clear()` together with the set of its indices, and
`shows_of_reaches` says that all the traversals agree on this set.
-/

namespace ParallelEnum.Bitset

open PackedBits

variable {SZ : ℕ} {s s' t : Bitset SZ} {i j : ℕ}

/-! ### The indices that are set -/

/-- `data_[i]`, or no bit where there is no such word. -/
def word (s : Bitset SZ) (i : ℕ) : BitVec 64 := s.data[i]?.getD 0

/-- The index `i` is set. -/
def isSet (s : Bitset SZ) (i : ℕ) : Bool := bit s.word i

theorem word_of_lt (h : i < SZ) : s.word i = s.data[i] := by
  unfold word
  rw [Vector.getElem?_eq_getElem h]
  rfl

theorem word_of_le (h : SZ ≤ i) : s.word i = 0 := by
  unfold word
  rw [Vector.getElem?_eq_none h]
  rfl

theorem isSet_of_le (h : SZ * 64 ≤ i) : s.isSet i = false := by
  unfold isSet bit
  rw [word_of_le (by omega)]
  exact BitVec.getLsbD_zero

theorem isSet_word {k : ℕ} (hi : i < SZ) (hk : k < 64) :
    s.isSet (i * 64 + k) = s.data[i].getLsbD k := by
  rw [← word_of_lt hi]
  exact bit_mul_add i hk

theorem get_eq (h : i < SZ * 64) : s.get i = .ok (s.isSet i) := by
  have hi : i / 64 < SZ := by omega
  unfold get
  rw [dif_pos hi, ← word_of_lt hi]
  congr 1
  rw [Bool.eq_iff_iff, decide_eq_true_iff]
  exact and_one_shiftLeft_ne_zero (Nat.mod_lt i (by decide))

theorem max_le : max SZ ≤ SZ * 64 := Nat.mod_le _ _

/-! ### The operations -/

section Operations

variable {f : BitVec 64 → BitVec 64} {g : Bool → Bool → Bool}

theorem modify_eq (hi : i < SZ) : s.modify i f = .ok ⟨s.data.set i (f s.data[i])⟩ := dif_pos hi

theorem word_modify (h : s.modify i f = .ok s') (j : ℕ) :
    s'.word j = if j = i then f (s.word j) else s.word j := by
  unfold modify at h
  split_ifs at h with hi
  obtain rfl := Except.ok.inj h
  by_cases hj : j = i
  · subst hj
    rw [if_pos rfl, word_of_lt hi, word_of_lt hi, Vector.getElem_set_self]
  · rw [if_neg hj]
    unfold word
    rw [Vector.getElem?_set_ne hi (Ne.symm hj)]

/-- `g` tells what `f` does with the bit of the index `i` and with the others. -/
theorem isSet_modify (h : s.modify (i / 64) f = .ok s')
    (hf : ∀ (x : BitVec 64), ∀ k < 64, (f x).getLsbD k = g (x.getLsbD k) (decide (k = i % 64)))
    (hg : ∀ b, g b false = b) (j : ℕ) : s'.isSet j = g (s.isSet j) (decide (j = i)) := by
  unfold isSet bit
  rw [word_modify h]
  by_cases hj : j / 64 = i / 64
  · have hij : j % 64 = i % 64 ↔ j = i := by omega
    rw [if_pos hj, hf _ _ (Nat.mod_lt j (by decide)), decide_eq_decide.mpr hij]
  · have hij : j ≠ i := fun hij => hj (by rw [hij])
    rw [if_neg hj, decide_eq_false hij, hg]

theorem isSet_set (h : s.set i = .ok s') (j : ℕ) :
    s'.isSet j = (s.isSet j || decide (j = i)) := by
  apply isSet_modify h
  · intro x k hk
    rw [BitVec.getLsbD_or, getLsbD_one_shiftLeft, decide_eq_true hk, Bool.true_and]
  · exact Bool.or_false

theorem isSet_reset (h : s.reset i = .ok s') (j : ℕ) :
    s'.isSet j = (s.isSet j && !decide (j = i)) := by
  apply isSet_modify (g := fun b e => b && !e) h
  · intro x k _
    rw [getLsbD_clear, decide_not]
  · intro b
    rw [Bool.not_false, Bool.and_true]

/-- The words of two sets, joined by `f`, are the indices of both, joined by `g`. -/
theorem isSet_zipWith {f : BitVec 64 → BitVec 64 → BitVec 64}
    (hf : ∀ (x y : BitVec 64), ∀ k < 64, (f x y).getLsbD k = g (x.getLsbD k) (y.getLsbD k))
    (hg : g false false = false) (j : ℕ) :
    (⟨s.data.zipWith f t.data⟩ : Bitset SZ).isSet j = g (s.isSet j) (t.isSet j) := by
  by_cases hj : j < SZ * 64
  · have hword : j / 64 < SZ := by omega
    unfold isSet bit
    rw [word_of_lt hword, word_of_lt hword, word_of_lt hword, Vector.getElem_zipWith,
      hf _ _ _ (Nat.mod_lt j (by decide))]
  · have hj := Nat.le_of_not_lt hj
    rw [isSet_of_le hj, isSet_of_le hj, isSet_of_le hj, hg]

theorem isSet_orAssign (j : ℕ) : (s.orAssign t).isSet j = (s.isSet j || t.isSet j) :=
  isSet_zipWith (fun _ _ _ _ => BitVec.getLsbD_or) rfl j

theorem isSet_andAssign (j : ℕ) : (s.andAssign t).isSet j = (s.isSet j && t.isSet j) :=
  isSet_zipWith (fun _ _ _ _ => BitVec.getLsbD_and) rfl j

theorem isSet_subAssign (j : ℕ) : (s.subAssign t).isSet j = (s.isSet j && !t.isSet j) := by
  apply isSet_zipWith (g := fun b c => b && !c) _ rfl
  intro x y k hk
  rw [BitVec.getLsbD_and, BitVec.getLsbD_not, decide_eq_true hk, Bool.true_and]

theorem isSet_clear (j : ℕ) : s.clear.isSet j = false := by
  by_cases hj : j < SZ * 64
  · unfold isSet bit
    rw [word_of_lt (by omega)]
    unfold clear
    rw [Vector.getElem_map]
    exact BitVec.getLsbD_zero
  · exact isSet_of_le (Nat.le_of_not_lt hj)

theorem div_lt_of_lt_max (hi : i < max SZ) : i / bitsPerItem < SZ := by
  have := max_le.trans_lt' hi
  show i / 64 < SZ
  omega

/-- `set` does not fail below `max()`. -/
theorem exists_set (hi : i < max SZ) : ∃ s', s.set i = .ok s' :=
  ⟨_, modify_eq (div_lt_of_lt_max hi)⟩

end Operations

/-! ### The contents that are reached -/

/-- The contents reached from `clear()`, each with the set that it stands for. -/
inductive Reaches : Bitset SZ → Finset ℕ → Prop
  | clear (s : Bitset SZ) : Reaches s.clear ∅
  | set {s s' : Bitset SZ} {A : Finset ℕ} {i : ℕ} : Reaches s A → i < max SZ →
      s.set i = .ok s' → Reaches s' (insert i A)
  | reset {s s' : Bitset SZ} {A : Finset ℕ} {i : ℕ} : Reaches s A → i < max SZ →
      s.reset i = .ok s' → Reaches s' (A.erase i)
  | orAssign {s t : Bitset SZ} {A B : Finset ℕ} : Reaches s A → Reaches t B →
      Reaches (s.orAssign t) (A ∪ B)
  | andAssign {s t : Bitset SZ} {A B : Finset ℕ} : Reaches s A → Reaches t B →
      Reaches (s.andAssign t) (A ∩ B)
  | subAssign {s t : Bitset SZ} {A B : Finset ℕ} : Reaches s A → Reaches t B →
      Reaches (s.subAssign t) (A \ B)

variable {A : Finset ℕ}

theorem Reaches.isSet_iff (h : Reaches s A) (j : ℕ) : s.isSet j = true ↔ j ∈ A := by
  induction h with
  | clear s => simp [isSet_clear]
  | set h hi hs ih => simp [isSet_set hs, ih, or_comm]
  | reset h hi hs ih => simp [isSet_reset hs, ih, and_comm]
  | orAssign hs ht ihs iht => simp [isSet_orAssign, ihs, iht]
  | andAssign hs ht ihs iht => simp [isSet_andAssign, ihs, iht]
  | subAssign hs ht ihs iht => simp [isSet_subAssign, ihs, ← iht]

/-- No index from `max()` on is ever set. -/
theorem Reaches.lt_max (h : Reaches s A) (hj : j ∈ A) : j < max SZ := by
  induction h with
  | clear s => exact absurd hj (Finset.notMem_empty j)
  | set h hi hs ih =>
    rcases Finset.mem_insert.mp hj with rfl | hj
    · exact hi
    · exact ih hj
  | reset h hi hs ih => exact ih (Finset.mem_of_mem_erase hj)
  | orAssign hs ht ihs iht => exact (Finset.mem_union.mp hj).elim ihs iht
  | andAssign hs ht ihs iht => exact ihs (Finset.mem_of_mem_inter_left hj)
  | subAssign hs ht ihs iht => exact ihs (Finset.mem_sdiff.mp hj).1

/-! ### The iterator -/

/-- The indices from `i` on that are set. -/
def rest (s : Bitset SZ) (i : ℕ) : List ℕ := indices s.isSet i (SZ * 64)

/-- Every index that is set is below `max()`. -/
def Fits (s : Bitset SZ) : Prop := ∀ i, s.isSet i = true → i < max SZ

/-- The indices from the bit `k` of the word `i` on. -/
theorem rest_word {k : ℕ} (hk : k ≤ 64) (hi : i < SZ) :
    s.rest (i * 64 + k) =
      (indices s.data[i].getLsbD k 64).map (i * 64 + ·) ++ s.rest ((i + 1) * 64) := by
  rw [← word_of_lt hi]
  exact indices_word_append hk hi

theorem rest_of_le (hi : SZ ≤ i) (k : ℕ) : s.rest (i * 64 + k) = [] := by
  apply indices_of_le
  omega

theorem rest_mul (hi : i < SZ) :
    s.rest (i * 64) =
      (indices s.data[i].getLsbD 0 64).map (i * 64 + ·) ++ s.rest ((i + 1) * 64) :=
  rest_word (Nat.zero_le 64) hi

theorem rest_mul_of_not_lt (hi : ¬i < SZ) : s.rest (i * 64) = [] :=
  rest_of_le (Nat.le_of_not_lt hi) 0

theorem Fits.lt_max (hs : s.Fits) (h : j ∈ s.rest i) : j < max SZ := hs j (mem_indices.mp h).2

theorem max_lt : max SZ < 2 ^ 64 := Nat.mod_lt _ (by decide)

/-- No index that is set is too large for a `size_t`. -/
theorem Fits.mod_eq (hs : s.Fits) (h : s.isSet j = true) : j % 2 ^ 64 = j :=
  Nat.mod_eq_of_lt ((hs j h).trans max_lt)

/-- The loop of `operator++` finds the first index from the bit `k` of the word `i` on. -/
theorem seek_eq (hs : s.Fits) {k : ℕ} (hk : k ≤ 64) :
    s.seek i k = (s.rest (i * 64 + k)).headD (max SZ) := by
  induction i, k using seek.induct s with
  | case1 i k hi d hd =>
    have hrest := rest_word (s := s) hk hi
    rw [← map_bits_shift hk, bits_eq_cons hd] at hrest
    have hmem : i * 64 + (k + d.ctz.toNat) ∈ s.rest (i * 64 + k) := by
      rw [hrest]
      exact List.mem_cons_self
    rw [hrest, seek, dif_pos hi]
    rw [if_pos hd]
    show (i * 64 + d.ctz.toNat + k) % 2 ^ 64 = i * 64 + (k + d.ctz.toNat)
    rw [Nat.add_assoc, Nat.add_comm _ k, hs.mod_eq (mem_indices.mp hmem).2]
  | case2 i k hi d hd ih =>
    have hrest := rest_word (s := s) hk hi
    rw [← map_bits_shift hk, bits_eq_nil_iff.mpr (not_not.mp hd)] at hrest
    rw [hrest, seek, dif_pos hi]
    rw [if_neg hd, ih (Nat.zero_le 64)]
    rfl
  | case3 i k hi => rw [seek, dif_neg hi, rest_of_le (Nat.le_of_not_lt hi), List.headD_nil]

/-- `operator++` goes to the first index after `curr`. -/
theorem next_eq (hs : s.Fits) {curr : ℕ} (hcurr : curr ≤ max SZ) :
    s.next curr = (s.rest (curr + 1)).headD (max SZ) := by
  have hmax : max SZ % 64 = 0 := by
    unfold max
    show SZ * 64 % 2 ^ 64 % 64 = 0
    omega
  have hlt : curr + 1 < 2 ^ 64 := by
    have : max SZ < 2 ^ 64 := max_lt
    omega
  unfold next
  rw [seek_eq hs (Nat.mod_lt _ (by decide)).le]
  rw [Nat.mod_eq_of_lt hlt, Nat.div_add_mod']

theorem rest_eq_cons {l : List ℕ} (h : s.rest i = j :: l) : l = s.rest (j + 1) :=
  (eq_indices_of_cons h).2.2

/-- From an index of the set on, `operator++` goes through the rest of the set. -/
theorem next_of_rest_eq_cons (hs : s.Fits) {l : List ℕ} (h : s.rest i = j :: l) :
    s.next j = l.headD (max SZ) := by
  have hj : j ∈ s.rest i := h ▸ List.mem_cons_self
  rw [rest_eq_cons h]
  exact next_eq hs (hs.lt_max hj).le

/-- `begin()` is the first index of all. -/
theorem beginIt_eq (hSZ : 1 ≤ SZ) (hs : s.Fits) : s.beginIt = .ok ((s.rest 0).headD (max SZ)) := by
  have hget : s.get 0 = .ok (s.isSet 0) := get_eq (by omega)
  have hrest : s.rest 0 = (if s.isSet 0 = true then [0] else []) ++ s.rest 1 := by
    rw [← indices_succ_self]
    exact (indices_append (Nat.zero_le 1) (by omega)).symm
  unfold beginIt
  rw [hget, next_eq hs (Nat.zero_le _), hrest]
  cases s.isSet 0 with
  | true => rfl
  | false => rfl

/-- The loop over an iterator ends, and has visited what was left of the set. -/
theorem visit_eq (hs : s.Fits) {tests : ℕ} (h : (s.rest i).length < tests) :
    s.visit tests ((s.rest i).headD (max SZ)) = some (s.rest i) := by
  induction tests generalizing i with
  | zero => exact absurd h (Nat.not_lt_zero _)
  | succ tests ih =>
    unfold visit
    cases hrest : s.rest i with
    | nil => exact if_neg fun h => h rfl
    | cons j l =>
      have hj : j ∈ s.rest i := hrest ▸ List.mem_cons_self
      have hl := rest_eq_cons hrest
      have hlen : (s.rest (j + 1)).length < tests := by
        rw [hrest, List.length_cons, hl] at h
        exact Nat.lt_of_succ_lt_succ h
      have hne : j ≠ s.endIt := (hs.lt_max hj).ne
      rw [List.headD_cons, if_pos hne, next_of_rest_eq_cons hs hrest, hl, ih hlen]
      rfl

/-- The whole set is below `max()`. -/
theorem rest_zero (hs : s.Fits) : s.rest 0 = indices s.isSet 0 (max SZ) := by
  have hnil : indices s.isSet (max SZ) (SZ * 64) = [] := by
    rw [indices_eq_nil_iff]
    intro i hi _
    exact Bool.eq_false_of_not_eq_true fun h => (hs i h).not_ge hi
  unfold rest
  rw [← indices_append (Nat.zero_le (max SZ)) max_le, hnil, List.append_nil]

/-- No number of indices is too large for a `size_t`. -/
theorem length_rest_lt (hs : s.Fits) : (s.rest 0).length < 2 ^ 64 := by
  rw [rest_zero hs]
  exact length_indices_le.trans_lt max_lt

/-! ### `list` -/

section List

variable {limit : ℕ} {l : Listing} {js ks : List ℕ}

/-- What the loops of `list` do with the indices that they come to. -/
def appendAll (s : Bitset SZ) (limit : ℕ) : List ℕ → Listing → Listing
  | [], l => l
  | j :: js, l =>
    let l := s.append limit j l
    if l.returned then l else s.appendAll limit js l

theorem appendAll_cons : s.appendAll limit (j :: js) l =
    if (s.append limit j l).returned then s.append limit j l
    else s.appendAll limit js (s.append limit j l) := rfl

theorem appendAll_append (hl : l.returned = false) :
    s.appendAll limit (js ++ ks) l =
      if (s.appendAll limit js l).returned then s.appendAll limit js l
      else s.appendAll limit ks (s.appendAll limit js l) := by
  induction js generalizing l with
  | nil =>
    show s.appendAll limit ks l = if l.returned then l else s.appendAll limit ks l
    rw [hl]
    rfl
  | cons j js ih =>
    rw [List.cons_append, appendAll_cons, appendAll_cons]
    by_cases hj : (s.append limit j l).returned = true
    · rw [if_pos hj, if_pos hj, if_pos hj]
    · rw [if_neg hj, if_neg hj]
      exact ih (Bool.eq_false_of_not_eq_true hj)

/-- The inner loop goes through the bits of `curr`. -/
theorem listWord_eq {curr : BitVec 64}
    (h : ∀ k, curr.getLsbD k = true → (i * 64 + k) % 2 ^ 64 = i * 64 + k) :
    s.listWord limit i curr l =
      s.appendAll limit ((indices curr.getLsbD 0 64).map (i * 64 + ·)) l := by
  induction curr, l using listWord.induct s limit i with
  | case1 curr l hcurr off l' hret =>
    have hoff := h off (BitVec.getLsbD_true_ctz_of_ne_zero hcurr)
    rw [bits_eq_cons hcurr, List.map_cons, appendAll_cons, ← hoff, if_pos hret, listWord,
      if_pos hcurr]
    exact if_pos hret
  | case2 curr l hcurr off l' hret ih =>
    have hoff := h off (BitVec.getLsbD_true_ctz_of_ne_zero hcurr)
    have hclear : ∀ k, (curr &&& ~~~(1#64 <<< off)).getLsbD k = true →
        (i * 64 + k) % 2 ^ 64 = i * 64 + k := by
      intro k hk
      rw [getLsbD_clear, Bool.and_eq_true] at hk
      exact h k hk.1
    rw [bits_eq_cons hcurr, List.map_cons, appendAll_cons, ← hoff, if_neg hret, listWord,
      if_pos hcurr]
    exact (if_neg hret).trans (ih hclear)
  | case3 curr l hcurr =>
    rw [bits_eq_nil_iff.mpr (not_not.mp hcurr), listWord, if_neg hcurr]
    rfl

/-- On a word of the set, `size_t` is large enough for the indices. -/
theorem listWord_data (hs : s.Fits) (hi : i < SZ) :
    s.listWord limit i s.data[i] l =
      s.appendAll limit ((indices s.data[i].getLsbD 0 64).map (i * 64 + ·)) l := by
  apply listWord_eq
  intro k hk
  apply hs.mod_eq
  rw [isSet_word hi (BitVec.lt_of_getLsbD hk), hk]

/-- The outer loop goes through the rest of the set. -/
theorem listFrom_eq (hs : s.Fits) (hl : l.returned = false) :
    s.listFrom limit i l = s.appendAll limit (s.rest (i * 64)) l := by
  induction i, l using listFrom.induct s limit with
  | case1 i l hi l' hret =>
    have hl' : l' = _ := listWord_data hs hi
    rw [rest_mul hi, appendAll_append hl, ← hl', if_pos hret, listFrom, dif_pos hi]
    exact if_pos hret
  | case2 i l hi l' hret ih =>
    have hl' : l' = _ := listWord_data hs hi
    rw [rest_mul hi, appendAll_append hl, ← hl', if_neg hret, listFrom, dif_pos hi]
    exact (if_neg hret).trans (ih (Bool.eq_false_of_not_eq_true hret))
  | case3 i l hi =>
    rw [rest_mul_of_not_lt hi, listFrom, dif_neg hi]
    rfl

theorem append_eq (h : l.cnt + 1 < 2 ^ 64) : s.append limit j l =
    { out := l.out ++ [j], cnt := l.cnt + 1, it := s.next l.it,
      returned := decide (l.cnt + 1 = limit) } := by
  unfold append
  rw [Nat.mod_eq_of_lt h]

/-- The `return` is reached once there are `limit` indices. -/
theorem appendAll_of_le (hlt : l.cnt < limit) (hle : limit ≤ l.cnt + js.length)
    (hcnt : l.cnt + js.length < 2 ^ 64) :
    (s.appendAll limit js l).returned = true ∧
      (s.appendAll limit js l).out = l.out ++ js.take (limit - l.cnt) := by
  induction js generalizing l with
  | nil => exact absurd (hlt.trans_le hle) (lt_irrefl _)
  | cons j js ih =>
    rw [List.length_cons] at hle hcnt
    rw [appendAll_cons, append_eq (by omega)]
    by_cases hj : l.cnt + 1 = limit
    · have hone : limit - l.cnt = 1 := by omega
      rw [decide_eq_true hj, if_pos rfl, hone]
      exact ⟨rfl, rfl⟩
    · have htake : limit - l.cnt = limit - (l.cnt + 1) + 1 := by omega
      rw [decide_eq_false hj, if_neg Bool.false_ne_true, htake, List.take_succ_cons,
        List.append_cons l.out j (js.take _)]
      apply ih
      · show l.cnt + 1 < limit
        omega
      · show limit ≤ l.cnt + 1 + js.length
        omega
      · show l.cnt + 1 + js.length < 2 ^ 64
        omega

/-- Otherwise the loops go through the whole set, and the iterator is at its end. -/
theorem appendAll_rest (hs : s.Fits) (hl : l.returned = false)
    (hit : l.it = (s.rest i).headD (max SZ)) (hcnt : l.cnt + (s.rest i).length < 2 ^ 64)
    (hlimit : limit ≤ l.cnt ∨ l.cnt + (s.rest i).length < limit) :
    s.appendAll limit (s.rest i) l =
      { out := l.out ++ s.rest i, cnt := l.cnt + (s.rest i).length, it := max SZ,
        returned := false } := by
  generalize hjs : s.rest i = js at hit hcnt hlimit ⊢
  induction js generalizing i l with
  | nil =>
    exact Listing.ext (List.append_nil _).symm rfl hit hl
  | cons j js ih =>
    rw [List.length_cons] at hcnt hlimit
    rw [appendAll_cons, append_eq (by omega)]
    have hj : l.cnt + 1 ≠ limit := by omega
    have hnext : s.next l.it = js.headD (max SZ) := by
      rw [hit]
      exact next_of_rest_eq_cons hs hjs
    have hlen : l.cnt + (js.length + 1) = l.cnt + 1 + js.length := by omega
    rw [decide_eq_false hj, if_neg Bool.false_ne_true, List.length_cons, hlen,
      List.append_cons l.out j js]
    rw [hlen] at hcnt hlimit
    apply ih (i := j + 1) rfl (rest_eq_cons hjs).symm hnext hcnt
    show limit ≤ l.cnt + 1 ∨ l.cnt + 1 + js.length < limit
    omega

/-- The iterator never differs from the end when the loops are through. -/
theorem list_eq (hSZ : 1 ≤ SZ) (hs : s.Fits) (out : List ℕ) (limit : ℕ) :
    s.list out limit =
      .ok (out ++ if limit = 0 then s.rest 0 else (s.rest 0).take limit) := by
  have hcnt : 0 + (s.rest 0).length < 2 ^ 64 := by
    rw [Nat.zero_add]
    exact length_rest_lt hs
  unfold list
  rw [beginIt_eq hSZ hs]
  show (if (s.listFrom limit 0 _).returned = true then _ else _) = _
  rw [listFrom_eq hs rfl, Nat.zero_mul]
  by_cases hlimit : 0 < limit ∧ limit ≤ 0 + (s.rest 0).length
  · have h := appendAll_of_le (s := s)
      (l := { out := out, cnt := 0, it := (s.rest 0).headD (max SZ), returned := false })
      hlimit.1 hlimit.2 hcnt
    rw [if_pos h.1, h.2, if_neg hlimit.1.ne']
    rfl
  · have hlimit : limit ≤ 0 ∨ 0 + (s.rest 0).length < limit := by omega
    rw [appendAll_rest hs rfl rfl hcnt hlimit, if_neg Bool.false_ne_true]
    refine (if_neg fun h => h rfl).trans ?_
    split_ifs with hzero
    · rfl
    · rw [List.take_of_length_le (by omega)]

end List

/-! ### `count`, `empty`, `front` and `back` -/

theorem countFrom_eq {sum : ℕ} (h : sum + (s.rest (i * 64)).length < 2 ^ 64) :
    s.countFrom i sum = sum + (s.rest (i * 64)).length := by
  induction i, sum using countFrom.induct s with
  | case1 i sum hi ih =>
    rw [rest_mul hi, List.length_append, List.length_map, ← toNat_cpop_eq_length] at h ⊢
    rw [countFrom, dif_pos hi]
    rw [Nat.mod_eq_of_lt (by omega)] at ih ⊢
    rw [ih (by omega)]
    omega
  | case2 i sum hi =>
    rw [rest_mul_of_not_lt hi, countFrom, dif_neg hi]
    rfl

theorem emptyFrom_eq_zero_iff {d : BitVec 64} :
    s.emptyFrom i d = 0 ↔ d = 0 ∧ s.rest (i * 64) = [] := by
  induction i, d using emptyFrom.induct s with
  | case1 i d hi ih =>
    rw [emptyFrom, dif_pos hi, ih, rest_mul hi, List.append_eq_nil_iff, List.map_eq_nil_iff,
      bits_eq_nil_iff, ← and_assoc]
    exact and_congr_left' BitVec.or_eq_zero_iff
  | case2 i d hi =>
    rw [rest_mul_of_not_lt hi, emptyFrom, dif_neg hi]
    simp

/-- The loop of `front` is that of `operator++`. -/
theorem frontFrom_eq_seek : s.frontFrom i = s.seek i 0 := by
  induction i using frontFrom.induct s with
  | case1 i hi curr hcurr =>
    rw [frontFrom, dif_pos hi, seek, dif_pos hi]
    simp only [BitVec.ushiftRight_zero]
    rw [if_pos hcurr]
    rw [if_pos hcurr, Nat.add_zero]
  | case2 i hi curr hcurr ih =>
    rw [frontFrom, dif_pos hi, seek, dif_pos hi]
    simp only [BitVec.ushiftRight_zero]
    rw [if_neg hcurr, if_neg hcurr, ih]
  | case3 i hi => rw [frontFrom, dif_neg hi, seek, dif_neg hi]

/-- The loop of `back` has only the words below `i` left. -/
theorem backFrom_eq (hs : s.Fits) (hi : i ≤ SZ) :
    s.backFrom i hi = (indices s.isSet 0 (i * 64)).getLastD (max SZ) := by
  induction i with
  | zero => 
    rw [Nat.zero_mul, indices_of_le (Nat.le_refl 0)]
    rfl
  | succ i ih =>
    have hword : indices s.isSet 0 ((i + 1) * 64) = _ := indices_append_word i
    rw [word_of_lt hi] at hword
    unfold backFrom
    by_cases hcurr : s.data[i] ≠ 0
    · rw [bits_eq_concat hcurr, List.map_append, ← List.append_assoc] at hword
      have hclz := BitVec.getLsbD_true_clz_of_ne_zero (by decide) hcurr
      have hlast := hs.mod_eq ((isSet_word hi (BitVec.lt_of_getLsbD hclz)).trans hclz)
      rw [if_pos hcurr, hword, List.map_singleton, List.getLastD_concat]
      exact hlast
    · rw [if_neg hcurr, hword, bits_eq_nil_iff.mpr (not_not.mp hcurr), List.map_nil,
        List.append_nil]
      exact ih _

theorem count_eq (hs : s.Fits) : s.count = (s.rest 0).length := by
  have h : 0 + (s.rest (0 * 64)).length < 2 ^ 64 := by
    rw [Nat.zero_mul, Nat.zero_add]
    exact length_rest_lt hs
  unfold count
  rw [countFrom_eq h, Nat.zero_mul, Nat.zero_add]

theorem empty_eq : s.empty = (s.rest 0).isEmpty := by
  unfold empty
  rw [Bool.eq_iff_iff, decide_eq_true_iff, emptyFrom_eq_zero_iff, Nat.zero_mul,
    List.isEmpty_iff]
  exact and_iff_right rfl

theorem front_eq (hs : s.Fits) : s.front = (s.rest 0).headD (max SZ) := by
  unfold front
  rw [frontFrom_eq_seek, seek_eq hs (Nat.zero_le 64), Nat.zero_mul]

theorem back_eq (hs : s.Fits) : s.back = (s.rest 0).getLastD (max SZ) :=
  backFrom_eq hs (Nat.le_refl SZ)

/-! ### All together -/

theorem Reaches.fits (h : Reaches s A) : s.Fits := fun i hi => h.lt_max ((h.isSet_iff i).mp hi)

/-- Every set of indices below `max()` is reached. -/
theorem exists_reaches (hA : ∀ i ∈ A, i < max SZ) : ∃ s : Bitset SZ, Reaches s A := by
  induction A using Finset.induction with
  | empty => exact ⟨_, Reaches.clear ⟨Vector.replicate SZ 0⟩⟩
  | insert i A hi ih =>
    have hlt := hA i (Finset.mem_insert_self i A)
    obtain ⟨s, hs⟩ := ih fun j hj => hA j (Finset.mem_insert_of_mem hj)
    obtain ⟨s', hs'⟩ := exists_set (s := s) hlt
    exact ⟨s', hs.set hlt hs'⟩

theorem Reaches.rest_zero_eq (h : Reaches s A) : s.rest 0 = A.sort := by
  have hA : (s.rest 0).toFinset = A := by
    ext i
    rw [List.mem_toFinset, ← h.isSet_iff i]
    refine mem_indices.trans (and_iff_right_of_imp fun hi => ⟨Nat.zero_le i, ?_⟩)
    exact (h.fits i hi).trans_le max_le
  have hsorted : (s.rest 0).SortedLT := sortedLT_indices
  rw [← hA]
  exact ((List.toFinset_sort _ hsorted.nodup).mpr hsorted.sortedLE.pairwise).symm

/-- All that a caller sees of a bitset is the set `A`. -/
structure Shows (s : Bitset SZ) (A : Finset ℕ) : Prop where
  visit : ∃ it, s.beginIt = .ok it ∧ ∀ tests, A.card < tests → s.visit tests it = some A.sort
  list : ∀ out, s.list out 0 = .ok (out ++ A.sort)
  list_limit : ∀ out limit, 1 ≤ limit →
    s.list out limit = .ok (out ++ A.sort.take (min limit s.count))
  get : ∀ i < max SZ, s.get i = .ok (decide (i ∈ A))
  count : s.count = A.sort.length
  empty : s.empty = A.sort.isEmpty
  front : s.front = A.sort.headD (max SZ)
  back : s.back = A.sort.getLastD (max SZ)

/-- **The traversals agree.** Whatever operations have led to a content from `clear()`, the loop
over an iterator and `list` go through the set that they stand for, in ascending order, and `get`,
`count`, `empty`, `front` and `back` are those of this set. -/
theorem shows_of_reaches (hSZ : 1 ≤ SZ) (h : Reaches s A) : s.Shows A where
  visit := by
    refine ⟨_, beginIt_eq hSZ h.fits, fun tests htests => ?_⟩
    rw [← Finset.length_sort (· ≤ ·), ← h.rest_zero_eq] at htests
    rw [visit_eq h.fits htests, h.rest_zero_eq]
  list out := by
    rw [list_eq hSZ h.fits, if_pos rfl, h.rest_zero_eq]
  list_limit out limit hlimit := by
    have hcount : s.count = A.sort.length := by rw [count_eq h.fits, h.rest_zero_eq]
    rw [list_eq hSZ h.fits, if_neg (Nat.ne_of_gt hlimit), h.rest_zero_eq, hcount, ← List.take_take,
      List.take_length]
  get i hi := by
    have hmem : s.isSet i = decide (i ∈ A) := by
      rw [Bool.eq_iff_iff, h.isSet_iff, decide_eq_true_iff]
    rw [get_eq (hi.trans_le max_le), hmem]
  count := by rw [count_eq h.fits, h.rest_zero_eq]
  empty := by rw [empty_eq, h.rest_zero_eq]
  front := by rw [front_eq h.fits, h.rest_zero_eq]
  back := by rw [back_eq h.fits, h.rest_zero_eq]

/-- The last index of one word and the first of the next one. -/
theorem shows_sixtyThree_sixtyFour :
    (⟨#v[1#64 <<< 63, 1#64]⟩ : Bitset 2).Shows {64, 63} :=
  have hclear := Reaches.clear (⟨#v[5#64, 7#64]⟩ : Bitset 2)
  have hset : Reaches (⟨#v[1#64 <<< 63, 0#64]⟩ : Bitset 2) {63} :=
    hclear.set (i := 63) (by decide) (by decide +kernel)
  shows_of_reaches (by decide) (hset.set (i := 64) (by decide) (by decide +kernel))

end ParallelEnum.Bitset
