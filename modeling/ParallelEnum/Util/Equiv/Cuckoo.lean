import ParallelEnum.Util.Equiv.Cuckoo.Growth

/-!
# `cuckoo_hash_set` is a set

A run of calls leaves a table whose keys are the ones inserted and not erased since
(`Represents`), so `count`, `size` and the iterators say what they should (`run_isSet`).
-/

namespace ParallelEnum.Cuckoo

open Outcome

variable {T : KeyType}

/-! ### `count` -/

theorem or_eq_slot {bucket pos : ℕ} (h : pos < T.bucketSize) :
    (T.bucketSize * bucket) ||| pos = slot T bucket pos := by
  obtain ⟨e, he⟩ : ∃ e, T.bucketSize = 2 ^ e := by
    cases T
    · exact ⟨2, rfl⟩
    · exact ⟨1, rfl⟩
  unfold slot
  rw [he] at h ⊢
  rw [← Nat.two_pow_add_eq_or_of_lt h, Nat.mul_comm]

/-- A loop that only ever sets a flag. -/
theorem foldl_or {α : Type} (p : α → Bool) (l : List α) (flag : Bool) :
    l.foldl (fun flag a => flag || p a) flag = (flag || l.any p) := by
  induction l generalizing flag with
  | nil => simp
  | cons a l ih => rw [List.foldl_cons, ih, List.any_cons, Bool.or_assoc]

namespace CuckooHashSet

theorem countLoop_iff (s : CuckooHashSet T) (k : Key T) :
    s.countLoop k = true ↔ ∃ pos < T.bucketSize,
      s.ht.get (slot T (hash1 s.mask k) pos) = k ∨ s.ht.get (slot T (hash2 s.mask k) pos) = k := by
  unfold countLoop
  dsimp only
  rw [foldl_or, Bool.false_or, List.any_eq_true]
  constructor
  · rintro ⟨pos, hmem, hfound⟩
    have hpos := List.mem_range.mp hmem
    rw [or_eq_slot hpos, or_eq_slot hpos] at hfound
    exact ⟨pos, hpos, by simpa using hfound⟩
  · rintro ⟨pos, hpos, hfound⟩
    refine ⟨pos, List.mem_range.mpr hpos, ?_⟩
    rw [or_eq_slot hpos, or_eq_slot hpos]
    simpa using hfound

end CuckooHashSet

theorem ite_or_ite (p q : Prop) [Decidable p] [Decidable q] :
    ((if p then (-1 : Key T) else 0) ||| (if q then (-1 : Key T) else 0)) =
      if p ∨ q then -1 else 0 := by
  by_cases hp : p
  · by_cases hq : q
    · simp [hp, hq]
    · simp [hp, hq]
  · simp [hp]

/-- The highest bits of the bytes of a lane of ones or of zeros. -/
theorem any_lane (p : Prop) [Decidable p] :
    ((List.range (T.width / 8)).map fun byte =>
      (if p then (-1 : Key T) else 0).getLsbD (8 * byte + 7)).any id = true ↔ p := by
  split_ifs with h
  · refine iff_of_true ?_ h
    cases T <;> decide
  · refine iff_of_false ?_ h
    simp

/-- The lanes that a comparison has filled with ones are seen. -/
theorem movemask_any (p : ℕ → Prop) [DecidablePred p] (l : List ℕ) :
    (movemask (l.map fun lane => if p lane then (-1 : Key T) else 0)).any id = true ↔
      ∃ lane ∈ l, p lane := by
  unfold movemask
  rw [List.any_flatMap, List.any_map, List.any_eq_true]
  apply exists_congr
  intro lane
  exact and_congr_right fun _ => any_lane (p lane)

namespace CuckooHashSet

/-- The four-lane comparison and the loop of `count` agree. -/
theorem countLanes_eq_countLoop (s : CuckooHashSet T) (h : T.bucketSize = 4) (k : Key T) :
    s.countLanes k = s.countLoop k := by
  have hflag : List.zipWith (· ||| ·) (cmpeq (List.replicate 4 k) (s.load (hash1 s.mask k)))
      (cmpeq (List.replicate 4 k) (s.load (hash2 s.mask k))) =
        (List.range 4).map fun lane =>
          if k = s.ht.get (slot T (hash1 s.mask k) lane) ∨
            k = s.ht.get (slot T (hash2 s.mask k) lane) then (-1 : Key T) else 0 := by
    unfold slot
    rw [Nat.mul_comm, Nat.mul_comm (hash2 s.mask k)]
    show (List.range 4).map (fun lane =>
      (if k = s.ht.get (T.bucketSize * hash1 s.mask k + lane) then (-1 : Key T) else 0) |||
        (if k = s.ht.get (T.bucketSize * hash2 s.mask k + lane) then (-1 : Key T) else 0)) = _
    simp only [ite_or_ite]
  rw [Bool.eq_iff_iff, countLoop_iff]
  unfold countLanes
  dsimp only
  rw [hflag, movemask_any, h]
  simp only [List.mem_range, eq_comm (a := k)]

/-! ### The keys of a set -/

/-- The keys in the table, of level `j`, are the members of `S`. -/
structure Holds (s : CuckooHashSet T) (j : ℕ) (S : Finset (Key T)) : Prop where
  at_level : Table.At j ⟨s.ht, s.mask⟩
  keys_eq : keys s.ht = S.val
  sz_eq : s.sz = S.card

section Holds

variable {s : CuckooHashSet T} {j : ℕ} {S : Finset (Key T)}

theorem holds_empty : Holds (empty : CuckooHashSet T) 0 ∅ where
  at_level := by
    have hsize : (0 + 1) * T.bucketSize ≤ T.bucketSize := by omega
    exact ⟨rfl, Nat.zero_le _, fits_fresh hsize⟩
  keys_eq := keys_fresh _
  sz_eq := rfl

theorem Holds.mem_iff (h : Holds s j S) {k : Key T} (hk : k ≠ missing) : k ∈ S ↔
    ∃ pos < T.bucketSize,
      s.ht.get (slot T (hash1 s.mask k) pos) = k ∨ s.ht.get (slot T (hash2 s.mask k) pos) = k := by
  rw [← Finset.mem_val, ← h.keys_eq, mem_keys hk]
  constructor
  · rintro ⟨i, hi, rfl⟩
    obtain ⟨pos, hpos, heq⟩ := exists_slot (T := T) i
    refine ⟨pos, hpos, ?_⟩
    rcases h.at_level.fits.sits i hi hk with hbucket | hbucket
    · left
      rw [← hbucket, ← heq]
    · right
      rw [← hbucket, ← heq]
  · rintro ⟨pos, hpos, hfound | hfound⟩
    · exact ⟨_, h.at_level.fits.slot_lt Nat.and_le_right hpos, hfound⟩
    · exact ⟨_, h.at_level.fits.slot_lt Nat.and_le_right hpos, hfound⟩

theorem Holds.count_iff (h : Holds s j S) {k : Key T} (hk : k ≠ missing) :
    s.count k = true ↔ k ∈ S := by
  rw [h.mem_iff hk, ← countLoop_iff]
  unfold count
  split_ifs with hlanes
  · rw [countLanes_eq_countLoop s hlanes.1]
  · rfl

/-! ### `insert` and `erase` -/

theorem Holds.insertIf (h : Holds s j S) {k : Key T} (hk : k ≠ missing) (allowed : ℕ → Bool)
    (fuel : ℕ) :
    Ensures
      (fun s' => (∃ j', Grown allowed (Insert.insert k S) j j' ∧ Holds s' j' (Insert.insert k S)) ∧
        (s.ht.size = s.capacity → s'.ht.size = s'.capacity))
      (Stuck allowed (Insert.insert k S) j fuel) (s.insertIf allowed fuel k) := by
  unfold CuckooHashSet.insertIf
  split_ifs with hcount
  · rw [Finset.insert_eq_of_mem ((h.count_iff hk).mp hcount)]
    exact ⟨⟨j, Or.inl rfl, h⟩, id⟩
  · have hnotMem : k ∉ S := fun hmem => hcount ((h.count_iff hk).mpr hmem)
    have hval : k ::ₘ keys s.ht = (Insert.insert k S).val := by
      rw [Finset.insert_val_of_notMem hnotMem, h.keys_eq]
    have hspec := insertIntoIf_spec allowed fuel h.at_level hk hval.le
    refine hspec.map ?_
    rintro t ⟨⟨j', hgrown, hat⟩, hkeys, htight⟩
    refine ⟨⟨j', hgrown, hat, hkeys.trans hval, ?_⟩, htight⟩
    rw [Finset.card_insert_of_notMem hnotMem, ← h.sz_eq]

/-- A key that is found is taken out of its slot. -/
theorem Holds.eraseAt (h : Holds s j S) {k : Key T} (hk : k ≠ missing) {bucket pos : ℕ}
    (hbucket : bucket ≤ s.mask) (hfind : find s.ht bucket k = some pos) :
    Holds { s with ht := s.ht.set (slot T bucket pos) missing, sz := s.sz - 1 } j
      (S.erase k) := by
  obtain ⟨hpos, hfound⟩ := find_eq_some hfind
  have hlt := h.at_level.fits.slot_lt hbucket hpos
  have hmem : k ∈ S := by
    rw [← Finset.mem_val, ← h.keys_eq, mem_keys hk]
    exact ⟨_, hlt, hfound⟩
  have hkeys := keys_set hlt missing
  rw [hfound, if_pos hk, if_neg (not_not.mpr rfl), Multiset.zero_add,
    Multiset.singleton_add] at hkeys
  constructor
  case at_level =>
    exact ⟨h.at_level.mask_eq, h.at_level.le_width,
      h.at_level.fits.set fun hne => absurd rfl hne⟩
  case keys_eq => rw [Finset.erase_val, ← h.keys_eq, ← hkeys, Multiset.erase_cons_head]
  case sz_eq => rw [Finset.card_erase_of_mem hmem, ← h.sz_eq]

theorem Holds.erase (h : Holds s j S) {k : Key T} (hk : k ≠ missing) :
    Holds (s.erase k) j (S.erase k) := by
  unfold CuckooHashSet.erase
  dsimp only
  split
  · rename_i pos hfind
    exact h.eraseAt hk Nat.and_le_right hfind
  · rename_i hfind1
    split
    · rename_i pos hfind
      exact h.eraseAt hk Nat.and_le_right hfind
    · rename_i hfind2
      rw [Finset.erase_eq_of_notMem]
      · exact h
      · rw [h.mem_iff hk]
        rintro ⟨pos, hpos, hfound | hfound⟩
        · exact find_eq_none hfind1 hpos hfound
        · exact find_eq_none hfind2 hpos hfound

theorem erase_frame (s : CuckooHashSet T) (k : Key T) :
    (s.erase k).ht.size = s.ht.size ∧ (s.erase k).mask = s.mask := by
  unfold CuckooHashSet.erase
  dsimp only
  split
  · exact ⟨Vec.size_set _ _ _, rfl⟩
  · split
    · exact ⟨Vec.size_set _ _ _, rfl⟩
    · exact ⟨rfl, rfl⟩

end Holds

/-! ### The iterator -/

/-- The keys in the slots from `offset` on. -/
def keysFrom (s : CuckooHashSet T) (offset : ℕ) : List (Key T) :=
  ((List.range' offset (s.capacity - offset)).map s.ht.get).filter (· ≠ missing)

theorem keysFrom_capacity (s : CuckooHashSet T) : s.keysFrom s.capacity = [] := by
  simp [keysFrom]

theorem keysFrom_of_lt {s : CuckooHashSet T} {offset : ℕ} (h : offset < s.capacity) :
    s.keysFrom offset = if s.ht.get offset = missing then s.keysFrom (offset + 1)
      else s.ht.get offset :: s.keysFrom (offset + 1) := by
  unfold keysFrom
  have hleft : s.capacity - offset = s.capacity - (offset + 1) + 1 := by omega
  rw [hleft, List.range'_succ, List.map_cons, List.filter_cons]
  split_ifs with hmissing hfree hfree
  · simp [hfree] at hmissing
  · rfl
  · rfl
  · simp [hfree] at hmissing

/-- An offset at which an iterator can stand. -/
def Stands (s : CuckooHashSet T) (it : ℕ) : Prop :=
  it = s.capacity ∨ it < s.capacity ∧ s.ht.get it ≠ missing

/-- Free slots are skipped, and nothing else. -/
theorem skip_spec (s : CuckooHashSet T) (left offset : ℕ) (h : offset + left = s.capacity) :
    s.Stands (s.skip left offset) ∧ offset ≤ s.skip left offset ∧
      s.keysFrom (s.skip left offset) = s.keysFrom offset := by
  induction left generalizing offset with
  | zero => exact ⟨Or.inl h, le_rfl, rfl⟩
  | succ left ih =>
    have hlt : offset < s.capacity := by omega
    rw [skip]
    split_ifs with hfree
    · obtain ⟨hstands, hle, hkeys⟩ := ih (offset + 1) (by omega)
      refine ⟨hstands, by omega, ?_⟩
      rw [hkeys, keysFrom_of_lt hlt, if_pos hfree.2]
    · have htaken : s.ht.get offset ≠ missing := fun hmissing => hfree ⟨hlt.ne, hmissing⟩
      exact ⟨Or.inr ⟨hlt, htaken⟩, le_rfl, rfl⟩

theorem endIterator_eq (s : CuckooHashSet T) : s.endIterator = s.capacity := by
  unfold endIterator iteratorAt
  rw [Nat.sub_self]
  rfl

/-- The loop over the iterator reads the keys in the order of the slots. -/
theorem walk_eq {s : CuckooHashSet T} {fuel it : ℕ} (h : s.Stands it)
    (hfuel : s.capacity < it + fuel) : s.walk fuel it = some (s.keysFrom it) := by
  induction fuel generalizing it with
  | zero =>
    rcases h with h | h
    · omega
    · omega
  | succ fuel ih =>
    rw [walk, endIterator_eq]
    rcases h with rfl | ⟨hlt, htaken⟩
    · rw [if_neg (not_not.mpr rfl), keysFrom_capacity]
    · obtain ⟨hstands, hle, hkeys⟩ := s.skip_spec (s.capacity - (it + 1)) (it + 1) (by omega)
      change s.Stands (s.next it) at hstands
      change it + 1 ≤ s.next it at hle
      change s.keysFrom (s.next it) = _ at hkeys
      have hnext := ih hstands (by omega)
      rw [if_pos hlt.ne, hnext, Option.map_some, keysFrom_of_lt hlt, if_neg htaken, hkeys]

theorem Holds.keysFrom_zero {s : CuckooHashSet T} {j : ℕ} {S : Finset (Key T)}
    (h : Holds s j S) : (s.keysFrom 0 : Multiset (Key T)) = S.val := by
  unfold keysFrom
  rw [Nat.sub_zero, ← List.range_eq_range', ← Multiset.filter_coe, ← h.keys_eq]
  exact h.at_level.fits.keysAt_buckets

/-- The loop over the iterator reads every key once. -/
theorem Holds.walk_eq {s : CuckooHashSet T} {j : ℕ} {S : Finset (Key T)} (h : Holds s j S) :
    ∃ l, s.walk (s.capacity + 1) s.beginIterator = some l ∧ l.Nodup ∧ ∀ k, k ∈ l ↔ k ∈ S := by
  obtain ⟨hstands, -, hkeys⟩ := s.skip_spec (s.capacity - 0) 0 (by omega)
  have hval := h.keysFrom_zero
  refine ⟨s.keysFrom 0, ?_, ?_, ?_⟩
  · rw [← hkeys]
    exact CuckooHashSet.walk_eq hstands (by omega)
  · rw [← Multiset.coe_nodup, hval]
    exact S.nodup
  · intro k
    rw [← Multiset.mem_coe, hval, Finset.mem_val]

end CuckooHashSet

/-! ### Masks below `2 ^ 29` -/

theorem place_mask {k : Key T} {t t' : Table T} (h : place k t = some t') : t'.mask = t.mask := by
  unfold place at h
  dsimp only at h
  split at h
  · rw [← Option.some.inj h]
  · split at h
    · rw [← Option.some.inj h]
    · cases h

/-- The bound on the masks of `insertInto`. -/
def below (mask : ℕ) : Bool := decide (mask < 2 ^ 29)

theorem below_eq_true {mask : ℕ} : below mask = true ↔ mask < 2 ^ 29 := decide_eq_true_iff

/-- `rehash` keeps the bound if `insert` does. -/
theorem rehashIf_below {insert : Key T → Table T → Except Failure (Table T)} {t : Table T}
    (hinsert : ∀ (k : Key T) (t : Table T), t.mask < 2 ^ 29 →
      Ensures (fun t' => t'.mask < 2 ^ 29) (fun _ => True) (insert k t)) :
    Ensures (fun t' => t'.mask < 2 ^ 29) (fun _ => True) (rehashIf below insert t) := by
  unfold rehashIf
  dsimp only
  set mask := if t.mask = 0 then 1 else (t.mask <<< 1) ||| t.mask with hmask
  by_cases hlt : below mask = true
  · rw [if_pos hlt]
    refine ensures_foldlM (fun _ (newt : Table T) => newt.mask < 2 ^ 29)
      (below_eq_true.mp hlt) ?_
    rintro a i b newt - hnewt
    split_ifs
    · exact hinsert _ _ hnewt
    · exact hnewt
  · rw [if_neg hlt]
    exact trivial

theorem insertIntoIf_below {fuel : ℕ} {k : Key T} {t : Table T} (h : t.mask < 2 ^ 29) :
    Ensures (fun t' => t'.mask < 2 ^ 29) (fun _ => True) (insertIntoIf below fuel k t) := by
  induction fuel generalizing k t with
  | zero => exact trivial
  | succ fuel ih =>
    rw [insertIntoIf]
    split
    · rename_i t' hplace
      have hmask := place_mask hplace
      exact hmask.trans_lt h
    · split
      · exact h
      · split_ifs
        · exact (rehashIf_below fun k t => ih).bind fun t' ht' => ih ht'
        · exact trivial

/-- `insertInto` is `insertIntoIf` with its bound. -/
theorem insertInto_eq {fuel : ℕ} {k : Key T} {t : Table T} (h : t.mask < 2 ^ 29) :
    insertInto fuel k t = insertIntoIf below fuel k t := by
  induction fuel generalizing k t with
  | zero => rfl
  | succ fuel ih =>
    have hpow : t.mask < 2 ^ 32 := by omega
    have hrehash : ∀ slots, rehash (insertInto fuel) ⟨slots, t.mask⟩
        = rehashIf below (insertIntoIf (T := T) below fuel) ⟨slots, t.mask⟩ := by
      intro slots
      unfold rehash rehashIf
      dsimp only
      set mask := if t.mask = 0 then 1 else (t.mask <<< 1) ||| t.mask with hmask
      by_cases hlt : mask < 2 ^ 29
      · rw [if_neg (not_le.mpr hlt), if_pos (below_eq_true.mpr hlt)]
        refine foldlM_congr (I := fun newt : Table T => newt.mask < 2 ^ 29) hlt ?_ ?_
        · intro newt i hnewt
          split_ifs
          · rw [ih hnewt]
            exact insertIntoIf_below hnewt
          · exact hnewt
        · intro newt i hnewt
          rw [ih hnewt]
      · rw [if_pos (not_lt.mp hlt), if_neg fun hbelow => hlt (below_eq_true.mp hbelow)]
    rw [insertInto, insertIntoIf]
    simp only [if_pos hpow]
    cases hplace : place k t with
    | some t' => rfl
    | none =>
      dsimp only
      obtain ⟨held, slots⟩ := kick t.mask t.mask true k t.slots
      cases held with
      | none => rfl
      | some held =>
        dsimp only
        rw [hrehash]
        exact (rehashIf_below fun k t => insertIntoIf_below).bind_congr fun t' ht' => ih ht'

/-- The keys inserted and not erased since. -/
def contents (calls : List (Call T)) : Finset (Key T) :=
  calls.foldl (fun S call =>
    match call with
    | .insert k => insert k S
    | .erase k => S.erase k) ∅

/-- What a set with the members `S` answers, and how it lies in its table. -/
structure IsSet (s : CuckooHashSet T) (S : Finset (Key T)) : Prop where
  count : ∀ k, k ≠ missing → (s.count k = true ↔ k ∈ S)
  size : s.size = S.card
  walk : ∃ l, s.walk (s.capacity + 1) s.beginIterator = some l ∧ l.Nodup ∧ ∀ k, k ∈ l ↔ k ∈ S
  capacity : s.ht.size = s.capacity
  mask : ∃ j, s.mask + 1 = 2 ^ j
  sits : ∀ i < s.ht.size, s.ht.get i ≠ missing →
    i / T.bucketSize = hash1 s.mask (s.ht.get i) ∨ i / T.bucketSize = hash2 s.mask (s.ht.get i)
  lanes : T.bucketSize = 4 ∧ T.width / 8 = 4 → ∀ k, s.countLanes k = s.countLoop k

/-- The condition on a table and its mask. -/
structure Table.Ok (t : Table T) : Prop where
  fits : Fits t.mask t.slots
  size_eq : t.slots.size = (t.mask + 1) * T.bucketSize
  pow_two : ∃ j, t.mask + 1 = 2 ^ j
  mask_lt : t.mask < 2 ^ 29

namespace CuckooHashSet

/-- The keys in the table are the members of `S`. -/
structure Represents (s : CuckooHashSet T) (S : Finset (Key T)) : Prop where
  ok : Table.Ok ⟨s.ht, s.mask⟩
  keys_eq : keys s.ht = S.val
  sz_eq : s.sz = S.card

theorem level_le_of_mask_lt {j : ℕ} (h : 2 ^ j - 1 < 2 ^ 29) : j ≤ 29 := by
  by_contra hj
  have hle : 2 ^ 30 ≤ 2 ^ j := Nat.pow_le_pow_right (by omega) (by omega)
  omega

theorem Represents.holds {s : CuckooHashSet T} {S : Finset (Key T)} (h : Represents s S) :
    ∃ j, Holds s j S := by
  obtain ⟨j, hj⟩ := h.ok.pow_two
  have hmask : s.mask = 2 ^ j - 1 := Nat.eq_sub_of_add_eq hj
  have hj29 : j ≤ 29 := level_le_of_mask_lt (hmask ▸ h.ok.mask_lt)
  have hwidth : 29 ≤ T.width := by cases T <;> decide
  exact ⟨j, ⟨hmask, hj29.trans hwidth, h.ok.fits⟩, h.keys_eq, h.sz_eq⟩

theorem Holds.represents {s : CuckooHashSet T} {j : ℕ} {S : Finset (Key T)} (h : Holds s j S)
    (hsize : s.ht.size = s.capacity) (hlt : s.mask < 2 ^ 29) : Represents s S := by
  have hpos := Nat.two_pow_pos j
  have hpow : s.mask + 1 = 2 ^ j := by
    have hmask : s.mask = 2 ^ j - 1 := h.at_level.mask_eq
    omega
  exact ⟨⟨h.at_level.fits, hsize, ⟨j, hpow⟩, hlt⟩, h.keys_eq, h.sz_eq⟩

theorem represents_empty : Represents (empty : CuckooHashSet T) ∅ :=
  holds_empty.represents (by simp [empty, capacity]) (show 0 < 2 ^ 29 by decide)

theorem Represents.insert {s : CuckooHashSet T} {S : Finset (Key T)} (h : Represents s S)
    {k : Key T} (hk : k ≠ missing) : s.insert k ≠ .error .outOfFuel ∧
      ∀ s', s.insert k = .ok s' → Represents s' (Insert.insert k S) := by
  obtain ⟨j, hholds⟩ := h.holds
  have hmask := hholds.at_level.mask_eq
  have hj : j ≤ 29 := level_le_of_mask_lt (hmask ▸ h.ok.mask_lt)
  have hrun : s.insert k = s.insertIf below 30 k := by
    unfold CuckooHashSet.insert CuckooHashSet.insertIf
    rw [insertInto_eq h.ok.mask_lt]
  have hspec := hholds.insertIf hk below 30
  -- no level above 29 has a mask below the bound
  have hlevel : ∀ i, Grown below (Insert.insert k S) j i → i ≤ 29 := by
    rintro i (rfl | ⟨m, -, -, -, -, hbelow⟩)
    · exact hj
    · exact level_le_of_mask_lt (below_eq_true.mp hbelow)
  rw [hrun]
  constructor
  · intro herror
    obtain ⟨i, hgrown, hle | ⟨hgt, -⟩⟩ := hspec.of_error herror
    · have := hlevel i hgrown
      omega
    · have := hlevel i hgrown
      omega
  · intro s' hs'
    obtain ⟨⟨j', hgrown, hholds'⟩, hsize⟩ := hspec.of_ok hs'
    refine hholds'.represents (hsize h.ok.size_eq) ?_
    have hmask' : s'.mask = 2 ^ j' - 1 := hholds'.at_level.mask_eq
    have hle : 2 ^ j' ≤ 2 ^ 29 := Nat.pow_le_pow_right (by omega) (hlevel j' hgrown)
    have hpos := Nat.two_pow_pos j'
    omega

theorem Represents.erase {s : CuckooHashSet T} {S : Finset (Key T)} (h : Represents s S)
    {k : Key T} (hk : k ≠ missing) : Represents (s.erase k) (S.erase k) := by
  obtain ⟨j, hholds⟩ := h.holds
  obtain ⟨hsize, hmask⟩ := s.erase_frame k
  refine (hholds.erase hk).represents ?_ (hmask.trans_lt h.ok.mask_lt)
  rw [hsize, h.ok.size_eq]
  unfold capacity
  rw [hmask]

theorem Represents.isSet {s : CuckooHashSet T} {S : Finset (Key T)} (h : Represents s S) :
    IsSet s S where
  count := by
    obtain ⟨j, hholds⟩ := h.holds
    exact fun _ hk => hholds.count_iff hk
  size := h.sz_eq
  walk := by
    obtain ⟨j, hholds⟩ := h.holds
    exact hholds.walk_eq
  capacity := h.ok.size_eq
  mask := h.ok.pow_two
  sits := h.ok.fits.sits
  lanes := fun hT => s.countLanes_eq_countLoop hT.1

theorem Represents.step {s : CuckooHashSet T} {calls : List (Call T)} {call : Call T}
    (h : Represents s (contents calls)) (hkey : call.key ≠ missing) :
    s.step call ≠ .error .outOfFuel ∧
      ∀ s', s.step call = .ok s' → Represents s' (contents (calls ++ [call])) := by
  unfold contents
  rw [List.foldl_append]
  cases call with
  | insert k => exact h.insert hkey
  | erase k =>
    refine ⟨fun herror => (by cases herror), ?_⟩
    intro s' hs'
    obtain rfl := Except.ok.inj hs'
    exact h.erase hkey

theorem run_represents (calls : List (Call T)) (h : ∀ call ∈ calls, call.key ≠ missing) :
    run calls ≠ .error .outOfFuel ∧ ∀ s, run calls = .ok s → Represents s (contents calls) := by
  induction calls using List.reverseRecOn with
  | nil =>
    refine ⟨fun herror => (by cases herror), ?_⟩
    intro s hs
    obtain rfl := Except.ok.inj hs
    exact represents_empty
  | append_singleton calls call ih =>
    obtain ⟨herror, hok⟩ := ih fun c hc => h c (List.mem_append_left _ hc)
    have hrun : run (calls ++ [call]) = (run calls).bind (·.step call) := by
      unfold run
      rw [List.foldlM_append]
      refine congrArg (Except.bind _) (funext fun s => ?_)
      rw [List.foldlM_cons]
      exact bind_pure _
    rw [hrun]
    cases hs : run calls with
    | error e =>
      rw [hs] at herror
      refine ⟨fun herror' => herror (congrArg Except.error (Except.error.inj herror')), ?_⟩
      intro s' hs'
      cases hs'
    | ok s =>
      exact (hok s hs).step (h call (List.mem_append_right _ (List.mem_singleton_self call)))

/-- **A hash set is a set**: after any calls that keep the mask in range, `count`, `size` and the
iterator tell the keys inserted and not erased since, and each of them sits in one of its two
buckets. -/
theorem run_isSet (calls : List (Call T)) (h : ∀ call ∈ calls, call.key ≠ missing) :
    run calls ≠ .error .outOfFuel ∧ ∀ s, run calls = .ok s → IsSet s (contents calls) := by
  obtain ⟨herror, hok⟩ := run_represents calls h
  exact ⟨herror, fun s hs => (hok s hs).isSet⟩

/-- Five keys do not fit in the first table. -/
theorem run_isSet_five : IsSet (T := .uint32)
    { ht := #[2, missing, missing, missing, missing, 5, 7, 11], mask := 1, sz := 4 }
    {11, 7, 5, 2} :=
  (run_isSet (T := .uint32)
    [.insert 2, .insert 3, .insert 5, .insert 7, .insert 11, .erase 3] (by decide)).2 _ (by rfl)

end CuckooHashSet

end ParallelEnum.Cuckoo
