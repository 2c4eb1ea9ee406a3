import ParallelEnum.Theory.Outcome
import ParallelEnum.Util.Equiv.Cuckoo.Insert
import Mathlib.Data.Finset.Card
import Mathlib.Data.Nat.Bitwise

/-!
# How a cuckoo table grows

A table of level `j` has `2 ^ j` buckets.  The second bucket of a key is the mirror image of its
first one, so buckets come in pairs that no key leaves, and a table grows when the keys of a pair
do not fit (`Crowded`), however often `rehash` is nested.

* `crowded_of_place_eq_none`, `not_crowded_of_fits`: a table is full for a key exactly when the
  keys crowd a pair.
* `insertIntoIf_spec`: what an insertion leaves, the level it can reach, and what can stop it.
* `Crowded.mul_two_pow_lt`: keys below `N` crowd no more than `N / bucket_size` buckets.
-/

namespace ParallelEnum.Cuckoo

open Outcome

variable {T : KeyType}

/-! ### Pairs of buckets -/

instance (mask : ℕ) (k : Key T) (bucket : ℕ) : Decidable (Sits mask k bucket) :=
  inferInstanceAs (Decidable (_ ∨ _))

theorem hash1_eq_mod (j : ℕ) (k : Key T) : hash1 (2 ^ j - 1) k = k.toNat % 2 ^ j :=
  Nat.and_two_pow_sub_one_eq_mod _ _

theorem hash2_eq_mod (j : ℕ) (k : Key T) : hash2 (2 ^ j - 1) k = (~~~k).toNat % 2 ^ j :=
  Nat.and_two_pow_sub_one_eq_mod _ _

theorem hash1_lt (j : ℕ) (k : Key T) : hash1 (2 ^ j - 1) k < 2 ^ j := by
  rw [hash1_eq_mod]
  exact Nat.mod_lt _ (Nat.two_pow_pos j)

/-- The second bucket of a key is the mirror image of the first one. -/
theorem hash2_eq {j : ℕ} (hj : j ≤ T.width) (k : Key T) :
    hash2 (2 ^ j - 1) k = 2 ^ j - 1 - hash1 (2 ^ j - 1) k := by
  have hlt := hash1_lt j k
  have hsub : 2 ^ j - 1 - hash1 (2 ^ j - 1) k = 2 ^ j - (hash1 (2 ^ j - 1) k + 1) := by omega
  rw [hsub]
  apply Nat.eq_of_testBit_eq
  intro i
  rw [Nat.testBit_two_pow_sub_succ hlt, hash1, hash2, Nat.testBit_and, Nat.testBit_and,
    Nat.testBit_two_pow_sub_one, BitVec.testBit_toNat, BitVec.testBit_toNat, BitVec.getLsbD_not]
  by_cases hi : i < j
  · have hw : i < T.width := by omega
    simp [hi, hw]
  · simp [hi]

/-- A key that lies in a bucket may lie in that bucket and its mirror image. -/
theorem sits_iff {j bucket h : ℕ} (hj : j ≤ T.width) {k : Key T}
    (hsits : Sits (2 ^ j - 1) k bucket) (hh : h < 2 ^ j) :
    Sits (2 ^ j - 1) k h ↔ bucket = h ∨ bucket = 2 ^ j - 1 - h := by
  have hlt := hash1_lt j k
  unfold Sits at hsits ⊢
  rw [hash2_eq hj] at hsits ⊢
  omega

theorem Sits.lt {j bucket : ℕ} {k : Key T} (h : Sits (2 ^ j - 1) k bucket) : bucket < 2 ^ j := by
  have hle := h.le
  have hpos := Nat.two_pow_pos j
  omega

/-- The number of slots in a bucket and its mirror image. -/
def room (T : KeyType) (j : ℕ) : ℕ := if j = 0 then T.bucketSize else 2 * T.bucketSize

/-- The slots of a bucket and its mirror image. -/
def pairSlots (T : KeyType) (j h : ℕ) : Finset ℕ :=
  (Finset.range T.bucketSize).image (slot T h)
    ∪ (Finset.range T.bucketSize).image (slot T (2 ^ j - 1 - h))

theorem mem_pairSlots {j h i : ℕ} :
    i ∈ pairSlots T j h ↔ i / T.bucketSize = h ∨ i / T.bucketSize = 2 ^ j - 1 - h := by
  have hmem : ∀ bucket, i ∈ (Finset.range T.bucketSize).image (slot T bucket) ↔
      i / T.bucketSize = bucket := by
    intro bucket
    rw [Finset.mem_image]
    constructor
    · rintro ⟨pos, hpos, rfl⟩
      exact slot_div (Finset.mem_range.mp hpos)
    · rintro rfl
      obtain ⟨pos, hpos, heq⟩ := exists_slot (T := T) i
      exact ⟨pos, Finset.mem_range.mpr hpos, heq.symm⟩
  unfold pairSlots
  rw [Finset.mem_union, hmem, hmem]

theorem card_pairSlots {j h : ℕ} (hh : h < 2 ^ j) : (pairSlots T j h).card = room T j := by
  have hcard : ∀ bucket, ((Finset.range T.bucketSize).image (slot T bucket)).card
      = T.bucketSize := by
    intro bucket
    rw [Finset.card_image_of_injective, Finset.card_range]
    intro a b hab
    unfold slot at hab
    omega
  unfold pairSlots room
  split_ifs with hj
  · -- there is one bucket, its own mirror image
    subst hj
    have hzero : 2 ^ 0 - 1 - h = h := by omega
    rw [hzero, Finset.union_self, hcard]
  · rw [Finset.card_union_of_disjoint, hcard, hcard]
    · omega
    · obtain ⟨m, rfl⟩ := Nat.exists_eq_succ_of_ne_zero hj
      rw [Finset.disjoint_left]
      intro i hi hi'
      rw [Finset.mem_image] at hi hi'
      obtain ⟨a, ha, rfl⟩ := hi
      obtain ⟨b, hb, heq⟩ := hi'
      have hdiv := congrArg (· / T.bucketSize) heq
      rw [slot_div (Finset.mem_range.mp ha), slot_div (Finset.mem_range.mp hb)] at hdiv
      rw [pow_succ] at hdiv hh
      omega

/-! ### Crowded pairs -/

/-- The members of `S` that may lie in some bucket are more than its pair has slots. -/
def Crowded (S : Finset (Key T)) (j : ℕ) : Prop :=
  ∃ h, room T j < (S.filter fun k => Sits (2 ^ j - 1) k h).card

/-- The keys of a pair are the slots of the pair that are not free. -/
theorem card_filter_sits {j h : ℕ} {slots : Vec (Key T)} (hfits : Fits (2 ^ j - 1) slots)
    (hj : j ≤ T.width) (hh : h < 2 ^ j) :
    ((keys slots).filter fun k => Sits (2 ^ j - 1) k h).card
      = ((pairSlots T j h).filter fun i => slots.get i ≠ missing).card := by
  have hslots : (pairSlots T j h).filter (fun i => slots.get i ≠ missing)
      = (Finset.range slots.size).filter
          (fun i => Sits (2 ^ j - 1) (slots.get i) h ∧ slots.get i ≠ missing) := by
    ext i
    rw [Finset.mem_filter, Finset.mem_filter, Finset.mem_range, mem_pairSlots]
    constructor
    · rintro ⟨hpair, htaken⟩
      have hlt : i < slots.size := by
        obtain ⟨pos, hpos, heq⟩ := exists_slot (T := T) i
        rw [heq]
        exact hfits.slot_lt (by omega) hpos
      exact ⟨hlt, (sits_iff hj (hfits.sits i hlt htaken) hh).mpr hpair, htaken⟩
    · rintro ⟨hlt, hsits, htaken⟩
      exact ⟨(sits_iff hj (hfits.sits i hlt htaken) hh).mp hsits, htaken⟩
  rw [hslots]
  unfold keys
  rw [← map_get_range, ← Multiset.map_coe, Multiset.filter_filter, Multiset.filter_map,
    Multiset.card_map]
  rfl

/-- The keys of a table do not crowd a pair. -/
theorem not_crowded_of_fits {j : ℕ} {slots : Vec (Key T)} {S : Finset (Key T)}
    (hfits : Fits (2 ^ j - 1) slots) (hj : j ≤ T.width) (hkeys : keys slots = S.val) :
    ¬ Crowded S j := by
  rintro ⟨h, hroom⟩
  have hpos : 0 < (S.filter fun k => Sits (2 ^ j - 1) k h).card := by omega
  obtain ⟨k, hk⟩ := Finset.card_pos.mp hpos
  have hh := (Finset.mem_filter.mp hk).2.lt
  have hcard := card_filter_sits hfits hj hh
  rw [hkeys] at hcard
  have hle := Finset.card_filter_le (pairSlots T j h) fun i => slots.get i ≠ missing
  rw [card_pairSlots hh, ← hcard] at hle
  exact absurd hle (not_le.mpr hroom)

/-- Where a key finds no free slot, its pair is full. -/
theorem crowded_of_place_eq_none {j : ℕ} {k : Key T} {t : Table T} {S : Finset (Key T)}
    (hmask : t.mask = 2 ^ j - 1) (hfits : Fits t.mask t.slots) (hj : j ≤ T.width)
    (hS : k ::ₘ keys t.slots ≤ S.val) (hplace : place k t = none) : Crowded S j := by
  rw [hmask] at hfits
  have hh := hash1_lt j k
  have htaken : ∀ i ∈ pairSlots T j (hash1 (2 ^ j - 1) k), t.slots.get i ≠ missing := by
    intro i hi
    rw [mem_pairSlots, ← hash2_eq hj] at hi
    obtain ⟨pos, hpos, heq⟩ := exists_slot (T := T) i
    unfold place at hplace
    rw [hmask] at hplace
    dsimp only at hplace
    split at hplace
    · cases hplace
    · rename_i hfind1
      split at hplace
      · cases hplace
      · rename_i hfind2
        rw [heq]
        rcases hi with hi | hi
        · rw [hi]
          exact find_eq_none hfind1 hpos
        · rw [hi]
          exact find_eq_none hfind2 hpos
  have hcard := card_filter_sits hfits hj hh
  rw [Finset.filter_true_of_mem htaken, card_pairSlots hh] at hcard
  refine ⟨hash1 (2 ^ j - 1) k, ?_⟩
  -- the keys of the table fill the pair, and `k` belongs to it as well
  have hle := Multiset.card_le_card (Multiset.filter_le_filter
    (fun x => Sits (2 ^ j - 1) x (hash1 (2 ^ j - 1) k)) hS)
  have hself : Sits (2 ^ j - 1) k (hash1 (2 ^ j - 1) k) := Or.inl rfl
  rw [Multiset.filter_cons_of_pos (p := fun x => Sits (2 ^ j - 1) x (hash1 (2 ^ j - 1) k)) _ hself,
    Multiset.card_cons, hcard] at hle
  exact hle

theorem Crowded.pred {S : Finset (Key T)} {j : ℕ} (h : Crowded S (j + 1)) : Crowded S j := by
  obtain ⟨h, hroom⟩ := h
  refine ⟨h % 2 ^ j, ?_⟩
  have hdvd : 2 ^ j ∣ 2 ^ (j + 1) := pow_dvd_pow 2 (Nat.le_succ j)
  have hsub : S.filter (fun k => Sits (2 ^ (j + 1) - 1) k h)
      ⊆ S.filter fun k => Sits (2 ^ j - 1) k (h % 2 ^ j) := by
    refine Finset.monotone_filter_right S fun k _ hsits => ?_
    unfold Sits at hsits ⊢
    rw [hash1_eq_mod, hash2_eq_mod] at hsits ⊢
    rcases hsits with rfl | rfl
    · exact Or.inl (Nat.mod_mod_of_dvd _ hdvd)
    · exact Or.inr (Nat.mod_mod_of_dvd _ hdvd)
  have hle : room T j ≤ room T (j + 1) := by
    unfold room
    rw [if_neg (Nat.succ_ne_zero j)]
    split_ifs
    · omega
    · exact le_rfl
  exact (hle.trans_lt hroom).trans_le (Finset.card_le_card hsub)

/-- What crowds the buckets of a level crowds those of the levels below. -/
theorem Crowded.anti {S : Finset (Key T)} {i j : ℕ} (hij : i ≤ j) (h : Crowded S j) :
    Crowded S i := by
  induction j, hij using Nat.le_induction with
  | base => exact h
  | succ j _ ih => exact ih h.pred

theorem Crowded.mono {S S' : Finset (Key T)} {j : ℕ} (hS : S ⊆ S') (h : Crowded S j) :
    Crowded S' j := by
  obtain ⟨h, hroom⟩ := h
  exact ⟨h, hroom.trans_le (Finset.card_le_card (Finset.filter_subset_filter _ hS))⟩

/-- Keys below `N` crowd few buckets. -/
theorem Crowded.mul_two_pow_lt {S : Finset (Key T)} {j N : ℕ} (h : Crowded S j)
    (hj : j ≤ T.width) (hN : ∀ k ∈ S, k.toNat < N) : T.bucketSize * 2 ^ j < N := by
  by_contra hle
  obtain ⟨h, hroom⟩ := h
  set side : ℕ → Finset ℕ := fun r =>
    (Finset.range T.bucketSize).image fun q => r + 2 ^ j * q with hside
  have hcard : ∀ r, (side r).card ≤ T.bucketSize := fun r =>
    Finset.card_image_le.trans_eq (Finset.card_range _)
  -- a key of the pair has one of two remainders, and one of few quotients
  have hsub : (S.filter fun k => Sits (2 ^ j - 1) k h).image BitVec.toNat
      ⊆ side h ∪ side (2 ^ j - 1 - h) := by
    intro n hn
    rw [Finset.mem_image] at hn
    obtain ⟨k, hk, rfl⟩ := hn
    obtain ⟨hkS, hsits⟩ := Finset.mem_filter.mp hk
    have hquot : k.toNat / 2 ^ j < T.bucketSize := by
      rw [Nat.div_lt_iff_lt_mul (Nat.two_pow_pos j)]
      exact (hN k hkS).trans_le (not_lt.mp hle)
    have hmod := Nat.mod_add_div k.toNat (2 ^ j)
    have hpair := (sits_iff hj (Or.inl rfl) hsits.lt).mp hsits
    rw [hash1_eq_mod] at hpair
    rw [Finset.mem_union, hside, Finset.mem_image, Finset.mem_image]
    rcases hpair with hpair | hpair
    · exact Or.inl ⟨_, Finset.mem_range.mpr hquot, by rw [← hpair]; exact hmod⟩
    · exact Or.inr ⟨_, Finset.mem_range.mpr hquot, by rw [← hpair]; exact hmod⟩
  have hcardS := Finset.card_le_card hsub
  rw [Finset.card_image_of_injective _ fun a b hab => BitVec.eq_of_toNat_eq hab] at hcardS
  unfold room at hroom
  split_ifs at hroom with hzero
  · subst hzero
    have hpos : 0 < (S.filter fun k => Sits (2 ^ 0 - 1) k h).card := by omega
    obtain ⟨k, hk⟩ := Finset.card_pos.mp hpos
    have hh := (Finset.mem_filter.mp hk).2.lt
    have hone : 2 ^ 0 - 1 - h = h := by omega
    rw [hone, Finset.union_self] at hcardS
    have := hcard h
    omega
  · have hunion := Finset.card_union_le (side h) (side (2 ^ j - 1 - h))
    have h1 := hcard h
    have h2 := hcard (2 ^ j - 1 - h)
    omega

theorem Crowded.lt_width {S : Finset (Key T)} {j : ℕ} (h : Crowded S j) (hj : j ≤ T.width) :
    j < T.width := by
  have hlt : T.bucketSize * 2 ^ j < 2 ^ T.width := h.mul_two_pow_lt hj fun k _ => k.isLt
  have hpos := bucketSize_pos T
  by_contra hge
  have heq : j = T.width := by omega
  rw [heq] at hlt
  have hle := Nat.le_mul_of_pos_left (2 ^ T.width) hpos
  omega

/-! ### Doubling the table -/

/-- `mask = (mask << 1) | mask` -/
theorem two_pow_sub_one_double (j : ℕ) :
    ((2 ^ (j + 1) - 1) <<< 1) ||| (2 ^ (j + 1) - 1) = 2 ^ (j + 2) - 1 := by
  apply Nat.eq_of_testBit_eq
  intro i
  rw [Nat.testBit_or, Nat.testBit_shiftLeft, Nat.testBit_two_pow_sub_one,
    Nat.testBit_two_pow_sub_one, Nat.testBit_two_pow_sub_one]
  cases i with
  | zero => simp
  | succ i =>
    by_cases hi : i < j + 1
    · simp [hi]
    · have hi' : ¬ i + 1 < j + 1 := by omega
      simp [hi, hi']

/-- The mask of a doubled table. -/
theorem nextMask {mask : ℕ} (h : ∃ j, mask + 1 = 2 ^ j) :
    (if mask = 0 then 1 else (mask <<< 1) ||| mask) = 2 * mask + 1 := by
  obtain ⟨j, hj⟩ := h
  split_ifs with hzero
  · rw [hzero]
  · cases j with
    | zero => omega
    | succ j =>
      obtain rfl : mask = 2 ^ (j + 1) - 1 := by omega
      have hpos := Nat.two_pow_pos (j + 1)
      rw [two_pow_sub_one_double, pow_succ 2 (j + 1)]
      omega

/-- A table of level `j`. -/
structure Table.At (j : ℕ) (t : Table T) : Prop where
  mask_eq : t.mask = 2 ^ j - 1
  le_width : j ≤ T.width
  fits : Fits t.mask t.slots

/-- A table with no other slots than those of its buckets. -/
def Table.Tight (t : Table T) : Prop := t.slots.size = (t.mask + 1) * T.bucketSize

/-- A table without keys. -/
theorem fits_fresh {mask n : ℕ} (h : (mask + 1) * T.bucketSize ≤ n) :
    Fits mask (Array.replicate n (missing : Key T)) := by
  refine ⟨by simpa using h, ?_⟩
  intro i hi hne
  rw [Array.size_replicate] at hi
  refine absurd ?_ hne
  unfold Vec.get
  rw [Array.getD_eq_getD_getElem?, Array.getElem?_replicate, if_pos hi]
  rfl

theorem keys_fresh (n : ℕ) : keys (Array.replicate n (missing : Key T)) = 0 := by
  unfold keys
  rw [Multiset.filter_eq_nil]
  intro k hk
  rw [Multiset.mem_coe, Array.toList_replicate] at hk
  exact not_not.mpr (List.eq_of_mem_replicate hk)

/-- The keys in some of the slots. -/
def keysAt (slots : Vec (Key T)) (l : List ℕ) : Multiset (Key T) :=
  ((l.map slots.get : List (Key T)) : Multiset (Key T)).filter (· ≠ missing)

theorem keysAt_append (slots : Vec (Key T)) (l l' : List ℕ) :
    keysAt slots (l ++ l') = keysAt slots l + keysAt slots l' := by
  unfold keysAt
  rw [List.map_append, ← Multiset.coe_add, Multiset.filter_add]

theorem keysAt_singleton (slots : Vec (Key T)) (i : ℕ) :
    keysAt slots [i] = if slots.get i ≠ missing then {slots.get i} else 0 := by
  unfold keysAt
  rw [List.map_singleton, Multiset.coe_singleton]
  exact Multiset.filter_singleton _

/-- The keys of a table are in the slots of its buckets. -/
theorem Fits.keysAt_buckets {mask : ℕ} {slots : Vec (Key T)} (h : Fits mask slots) :
    keysAt slots (List.range ((mask + 1) * T.bucketSize)) = keys slots := by
  obtain ⟨m, hm⟩ := Nat.exists_eq_add_of_le h.size_le
  have hrest : keysAt slots ((List.range m).map ((mask + 1) * T.bucketSize + ·)) = 0 := by
    unfold keysAt
    rw [Multiset.filter_eq_nil]
    intro k hk hne
    rw [Multiset.mem_coe, List.map_map, List.mem_map] at hk
    obtain ⟨i, hi, rfl⟩ := hk
    rw [List.mem_range] at hi
    -- the bucket of such a slot would be beyond the last one
    have hsits := (h.sits ((mask + 1) * T.bucketSize + i) (by omega) hne).le
    rw [Nat.add_comm _ i, Nat.add_mul_div_right _ _ (bucketSize_pos T)] at hsits
    have hquot := Nat.zero_le (i / T.bucketSize)
    omega
  have hall : keysAt slots (List.range slots.size) = keys slots := by
    unfold keysAt keys
    rw [map_get_range]
  rw [hm, List.range_add, keysAt_append, hrest, Multiset.add_zero] at hall
  exact hall

/-- The keys `S` can make a table of level `j` grow to level `j'`. -/
def Grown (allowed : ℕ → Bool) (S : Finset (Key T)) (j j' : ℕ) : Prop :=
  j' = j ∨ ∃ i, j ≤ i ∧ i ≤ 32 ∧ j' = i + 1 ∧ Crowded S i ∧ allowed (2 ^ j' - 1) = true

/-- What the insertions of keys of `S` leave of a table of level `j`: a table with the keys `ks`. -/
structure Inserted (allowed : ℕ → Bool) (S : Finset (Key T)) (j : ℕ) (ks : Multiset (Key T))
    (tight : Prop) (t : Table T) : Prop where
  level : ∃ j', Grown allowed S j j' ∧ t.At j'
  keys_eq : keys t.slots = ks
  tight : tight → t.Tight

/-- What can stop the insertions of keys of `S` into a table of level `j`: a mask that is not
allowed, too little fuel, or a mask that the counter of the loop does not reach. -/
def Stuck (allowed : ℕ → Bool) (S : Finset (Key T)) (j fuel : ℕ) : Failure → Prop
  | .maskTooLarge => ∃ i, j ≤ i ∧ Crowded S i ∧ allowed (2 ^ (i + 1) - 1) = false
  | .outOfFuel => ∃ i, Grown allowed S j i ∧ (j + fuel ≤ i ∨ 32 < i ∧ Crowded S i)

section Insert

variable {allowed : ℕ → Bool} {S : Finset (Key T)} {j j' j'' fuel : ℕ}

theorem Grown.le (h : Grown allowed S j j') : j ≤ j' := by
  rcases h with rfl | ⟨i, hi, -, rfl, -, -⟩
  · exact le_rfl
  · omega

theorem Grown.trans (h : Grown allowed S j j') (h' : Grown allowed S j' j'') :
    Grown allowed S j j'' := by
  rcases h' with rfl | ⟨i, hi, hi32, rfl, hcrowded, hallowed⟩
  · exact h
  · exact Or.inr ⟨i, h.le.trans hi, hi32, rfl, hcrowded, hallowed⟩

theorem Stuck.of_grown {e : Failure} (hgrown : Grown allowed S j j')
    (h : Stuck allowed S j' fuel e) : Stuck allowed S j fuel e := by
  cases e with
  | maskTooLarge =>
    obtain ⟨i, hi, hcrowded, hallowed⟩ := h
    exact ⟨i, hgrown.le.trans hi, hcrowded, hallowed⟩
  | outOfFuel =>
    obtain ⟨i, hi, hend⟩ := h
    refine ⟨i, hgrown.trans hi, hend.imp_left fun hle => ?_⟩
    have := hgrown.le
    omega

/-- A level of the recursion is worth a doubling. -/
theorem Stuck.succ {e : Failure} (hgrown : Grown allowed S j (j + 1))
    (h : Stuck allowed S (j + 1) fuel e) : Stuck allowed S j (fuel + 1) e := by
  cases e with
  | maskTooLarge =>
    obtain ⟨i, hi, hcrowded, hallowed⟩ := h
    exact ⟨i, by omega, hcrowded, hallowed⟩
  | outOfFuel =>
    obtain ⟨i, hi, hend⟩ := h
    exact ⟨i, hgrown.trans hi, hend.imp_left fun hle => by omega⟩

theorem Grown.mono {S' : Finset (Key T)} (hS : S ⊆ S') (h : Grown allowed S j j') :
    Grown allowed S' j j' := by
  refine h.imp_right ?_
  rintro ⟨i, hi, hi32, heq, hcrowded, hallowed⟩
  exact ⟨i, hi, hi32, heq, hcrowded.mono hS, hallowed⟩

theorem Stuck.mono {S' : Finset (Key T)} {e : Failure} (hS : S ⊆ S')
    (h : Stuck allowed S j fuel e) : Stuck allowed S' j fuel e := by
  cases e with
  | maskTooLarge =>
    obtain ⟨i, hi, hcrowded, hallowed⟩ := h
    exact ⟨i, hi, hcrowded.mono hS, hallowed⟩
  | outOfFuel =>
    obtain ⟨i, hgrown, hend⟩ := h
    exact ⟨i, hgrown.mono hS, hend.imp_right fun hlarge => ⟨hlarge.1, hlarge.2.mono hS⟩⟩

/-- What `rehash` relies on when it calls `insert`. -/
def Inserts (allowed : ℕ → Bool) (S : Finset (Key T)) (j fuel : ℕ)
    (insert : Key T → Table T → Except Failure (Table T)) : Prop :=
  ∀ j', j ≤ j' → ∀ (k : Key T) (t : Table T), k ≠ missing → t.At j' →
    k ::ₘ keys t.slots ≤ S.val →
      Ensures (Inserted allowed S j' (k ::ₘ keys t.slots) t.Tight) (Stuck allowed S j' fuel)
        (insert k t)

/-- The mask that `rehash` gives to a table at a level. -/
theorem Table.At.nextMask {t : Table T} (h : t.At j) :
    (if t.mask = 0 then 1 else (t.mask <<< 1) ||| t.mask) = 2 ^ (j + 1) - 1 := by
  have hpos := Nat.two_pow_pos j
  rw [Cuckoo.nextMask ⟨j, by rw [h.mask_eq]; omega⟩, h.mask_eq, pow_succ]
  omega

/-- `rehash`: nested calls of `rehash` may double the new table on the way. -/
theorem rehashIf_spec (fuel : ℕ) {insert : Key T → Table T → Except Failure (Table T)} {t : Table T}
    (h : t.At j) (hlt : j < T.width) (hS : keys t.slots ≤ S.val)
    (hallowed : allowed (2 ^ (j + 1) - 1) = true)
    (hinsert : Inserts allowed S (j + 1) fuel insert) :
    Ensures (Inserted allowed S (j + 1) (keys t.slots) True) (Stuck allowed S (j + 1) fuel)
      (rehashIf allowed insert t) := by
  unfold rehashIf
  rw [h.nextMask]
  dsimp only
  rw [if_pos hallowed]
  rw [← h.fits.keysAt_buckets]
  -- the keys of the slots that the loop has been through are in the new table
  refine ensures_foldlM
    (fun a newt => Inserted allowed S (j + 1) (keysAt t.slots a) True newt) ?_ ?_
  · refine ⟨⟨j + 1, Or.inl rfl, rfl, hlt, fits_fresh le_rfl⟩, keys_fresh _, fun _ => ?_⟩
    exact Array.size_replicate
  · rintro a i b newt hl ⟨⟨j', hgrown, hat⟩, hkeys, htight⟩
    rw [keysAt_append, keysAt_singleton]
    split_ifs with htaken
    · have hle : t.slots.get i ::ₘ keys newt.slots ≤ S.val := by
        rw [hkeys, ← Multiset.singleton_add]
        have hprefix : keysAt t.slots (a ++ [i]) ≤ keys t.slots := by
          rw [← h.fits.keysAt_buckets, hl]
          have hsplit : a ++ i :: b = (a ++ [i]) ++ b := by simp
          rw [hsplit, keysAt_append _ (a ++ [i])]
          exact Multiset.le_add_right _ _
        rw [keysAt_append, keysAt_singleton, if_pos htaken, Multiset.add_comm] at hprefix
        exact hprefix.trans hS
      refine (hinsert j' hgrown.le _ newt htaken hat hle).mono ?_ fun e he => he.of_grown hgrown
      rintro t' ⟨⟨j'', hgrown', hat'⟩, hkeys', htight'⟩
      refine ⟨⟨j'', hgrown.trans hgrown', hat'⟩, ?_, fun _ => htight' (htight trivial)⟩
      rw [hkeys', hkeys, Multiset.add_comm, Multiset.singleton_add]
    · rw [Multiset.add_zero]
      exact ⟨⟨j', hgrown, hat⟩, hkeys, htight⟩

/-- The guard of the rehashing on the mask is a bound on the level. -/
theorem Table.At.mask_lt_iff {t : Table T} (h : t.At j) : t.mask < 2 ^ 32 ↔ j ≤ 32 := by
  rw [h.mask_eq]
  have hpos := Nat.two_pow_pos j
  constructor
  · intro hmask
    by_contra hj
    have hle : 2 ^ 33 ≤ 2 ^ j := Nat.pow_le_pow_right (by omega) (by omega)
    omega
  · intro hj
    have hle : 2 ^ j ≤ 2 ^ 32 := Nat.pow_le_pow_right (by omega) hj
    omega

/-- Where the next mask is not allowed, the rehashing gives up before it moves a key. -/
theorem rehashIf_eq_error {t : Table T} (h : t.At j) (slots : Vec (Key T))
    (insert : Key T → Table T → Except Failure (Table T))
    (hallowed : allowed (2 ^ (j + 1) - 1) ≠ true) :
    rehashIf allowed insert ⟨slots, t.mask⟩ = .error .maskTooLarge := by
  unfold rehashIf
  rw [h.nextMask]
  dsimp only
  rw [if_neg hallowed]

variable (allowed fuel) in
/-- **An insertion adds the key to the keys of the table, at a level that the keys need.** -/
theorem insertIntoIf_spec {k : Key T} {t : Table T} (h : t.At j) (hk : k ≠ missing)
    (hS : k ::ₘ keys t.slots ≤ S.val) :
    Ensures (Inserted allowed S j (k ::ₘ keys t.slots) t.Tight) (Stuck allowed S j fuel)
      (insertIntoIf allowed fuel k t) := by
  induction fuel generalizing j k t with
  | zero => exact ⟨j, Or.inl rfl, Or.inl le_rfl⟩
  | succ fuel ih =>
    rw [insertIntoIf]
    split
    · rename_i t' hplace
      obtain ⟨hmask, hfits, hkeys, hsize⟩ := place_spec h.fits hk hplace
      refine ⟨⟨j, Or.inl rfl, hmask.trans h.mask_eq, h.le_width, hmask ▸ hfits⟩, hkeys, ?_⟩
      intro htight
      unfold Table.Tight at htight ⊢
      rw [hsize, hmask, htight]
    · rename_i hplace
      have hcrowded := crowded_of_place_eq_none h.mask_eq h.fits h.le_width hS hplace
      have hlt := hcrowded.lt_width h.le_width
      obtain ⟨hfits, hkeys, hheld, hsize⟩ :=
        kick_spec (if t.mask < 2 ^ 32 then t.mask else fuel) true h.fits hk
      split
      · rename_i slots hkick
        rw [hkick] at hfits hkeys hsize
        rw [Option.toList_none, Multiset.coe_nil, Multiset.zero_add] at hkeys
        exact ⟨⟨j, Or.inl rfl, h.mask_eq, h.le_width, hfits⟩, hkeys, fun htight =>
          hsize.trans htight⟩
      · rename_i held slots hkick
        rw [hkick] at hfits hkeys hheld
        rw [Option.toList_some, Multiset.coe_singleton, Multiset.singleton_add] at hkeys
        have hne : held ≠ missing := fun heq => hheld (congrArg some heq)
        by_cases hj : j ≤ 32
        · rw [if_pos (h.mask_lt_iff.mpr hj)]
          by_cases hallowed : allowed (2 ^ (j + 1) - 1) = true
          · have hgrown : Grown allowed S j (j + 1) :=
              Or.inr ⟨j, le_rfl, hj, rfl, hcrowded, hallowed⟩
            have hle : keys slots ≤ S.val := by
              rw [← hkeys] at hS
              exact (Multiset.le_cons_self _ held).trans hS
            have hrehash := rehashIf_spec fuel (t := ⟨slots, t.mask⟩)
              ⟨h.mask_eq, h.le_width, hfits⟩ hlt hle hallowed fun j' _ k' t' hk' ht' hS' =>
                ih ht' hk' hS'
            -- the key in hand goes in last, into the doubled table
            refine (hrehash.mono (fun _ ht' => ht') fun e he => he.succ hgrown).bind ?_
            rintro t' ⟨⟨j', hgrown', hat⟩, hkeys', htight⟩
            have hlast := ih hat hne (by rw [hkeys', hkeys]; exact hS)
            rw [hkeys', hkeys] at hlast
            refine hlast.mono ?_ fun e he => (he.of_grown hgrown').succ hgrown
            rintro t'' ⟨⟨j'', hgrown'', hat''⟩, hkeys'', htight''⟩
            exact ⟨⟨j'', (hgrown.trans hgrown').trans hgrown'', hat''⟩, hkeys'', fun _ =>
              htight'' (htight trivial)⟩
          · rw [rehashIf_eq_error h slots _ hallowed]
            exact ⟨j, le_rfl, hcrowded, Bool.not_eq_true _ ▸ hallowed⟩
        · rw [if_neg fun hmask => hj (h.mask_lt_iff.mp hmask)]
          exact ⟨j, Or.inl rfl, Or.inr ⟨by omega, hcrowded⟩⟩

end Insert

/-! ### Indices that are `int`s -/

/-- The highest level of a table in which every index is an `int`. -/
def topLevel : KeyType → ℕ
  | .uint32 => 29
  | .uint64 => 30

theorem topLevel_lt (T : KeyType) : topLevel T < 32 ∧ 32 ≤ T.width := by cases T <;> decide

theorem fitsInt_iff {j : ℕ} : fitsInt T (2 ^ j - 1) = true ↔ j ≤ topLevel T := by
  have hpos := Nat.two_pow_pos j
  have hsplit : 2 ^ 31 = 2 ^ topLevel T * T.bucketSize := by cases T <;> rfl
  unfold fitsInt
  rw [decide_eq_true_iff, Nat.sub_add_cancel hpos, hsplit,
    Nat.mul_le_mul_right_iff (bucketSize_pos T), Nat.pow_le_pow_iff_right (by omega)]

section FitsInt

variable {S : Finset (Key T)} {j j' fuel : ℕ}

theorem Grown.le_topLevel (h : Grown (fitsInt T) S j j') (hj : j ≤ topLevel T) :
    j' ≤ topLevel T := by
  rcases h with rfl | ⟨i, -, -, -, -, hallowed⟩
  · exact hj
  · exact fitsInt_iff.mp hallowed

/-- Only keys that crowd the buckets of the highest level can stop an insertion. -/
theorem Stuck.crowded {e : Failure} (h : Stuck (fitsInt T) S j fuel e) (hj : j ≤ topLevel T)
    (hfuel : T.width < fuel) : Crowded S (topLevel T) := by
  obtain ⟨htop, hwidth⟩ := topLevel_lt T
  cases e with
  | maskTooLarge =>
    obtain ⟨i, -, hcrowded, hallowed⟩ := h
    have hi : ¬ i + 1 ≤ topLevel T := fun hle => by
      rw [fitsInt_iff.mpr hle] at hallowed
      cases hallowed
    exact hcrowded.anti (by omega)
  | outOfFuel =>
    obtain ⟨i, hgrown, hend⟩ := h
    have := hgrown.le_topLevel hj
    omega

end FitsInt

end ParallelEnum.Cuckoo
