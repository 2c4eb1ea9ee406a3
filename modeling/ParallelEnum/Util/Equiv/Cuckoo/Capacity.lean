import ParallelEnum.Util.Equiv.Cuckoo

/-!
# The end and the cost of a run of insertions

With bucket numbers of any size, insertions of keys below `N` end and keep `capacity()` within
`max(bucket_size, 2 N)`, as long as the counter of the loop in `insert` reaches `mask`.  The counter
is an `unsigned`, so it does not from a mask of `2 ^ 33 - 1` on, and five keys of type `uint64_t`
are enough to get there (`staysSmall_iff`, `not_ends`).
-/

namespace ParallelEnum.Cuckoo

open Outcome

variable {T : KeyType}

namespace CuckooHashSet

/-- A default-constructed set after some insertions. -/
theorem insertAllIf_spec {allowed : ℕ → Bool} {fuel : ℕ} {ks : List (Key T)}
    (hks : ∀ k ∈ ks, k ≠ missing) :
    Ensures
      (fun s => ∃ j, Grown allowed ks.toFinset 0 j ∧ Holds s j ks.toFinset ∧
        s.ht.size = s.capacity)
      (Stuck allowed ks.toFinset 0 fuel)
      ((empty : CuckooHashSet T).insertAllIf allowed fuel ks) := by
  unfold insertAllIf
  refine ensures_foldlM (fun a s => ∃ j, Grown allowed ks.toFinset 0 j ∧ Holds s j a.toFinset ∧
    s.ht.size = s.capacity) ⟨0, Or.inl rfl, holds_empty, by simp [empty, capacity]⟩ ?_
  rintro a k b s hsplit ⟨j, hgrown, hholds, hsize⟩
  have hinsert : (a ++ [k]).toFinset = Insert.insert k a.toFinset := by
    ext x
    simp
  have hsub : Insert.insert k a.toFinset ⊆ ks.toFinset := by
    rw [← hinsert, hsplit]
    intro x hx
    rw [List.mem_toFinset] at hx ⊢
    rcases List.mem_append.mp hx with hx | hx
    · exact List.mem_append_left _ hx
    · rw [List.mem_singleton.mp hx]
      exact List.mem_append_right _ List.mem_cons_self
  have hk : k ≠ missing := hks k (by rw [hsplit]; simp)
  rw [hinsert]
  refine (hholds.insertIf hk allowed fuel).mono ?_ fun e he => (he.mono hsub).of_grown hgrown
  rintro s' ⟨⟨j', hgrown', hholds'⟩, hsize'⟩
  exact ⟨j', hgrown.trans (hgrown'.mono hsub), hholds', hsize' hsize⟩

end CuckooHashSet

/-- Some insertions into a default-constructed set, with exact bucket numbers. -/
def insertAll (fuel : ℕ) (ks : List (Key T)) : Except Failure (CuckooHashSet T) :=
  CuckooHashSet.empty.insertAllIf (fun _ => true) fuel ks

/-- All insertions of keys below `N` end, and the capacity stays within `max(bucket_size, 2 N)`. -/
def StaysSmall (T : KeyType) (N : ℕ) : Prop :=
  ∀ ks : List (Key T), (∀ k ∈ ks, k ≠ missing ∧ k.toNat < N) →
    ∃ bound, ∀ fuel > bound, ∃ s, insertAll fuel ks = .ok s ∧
      s.capacity ≤ max T.bucketSize (2 * N)

/-- Five keys that crowd a pair of buckets at every level up to 33. -/
def crowd : List (Key .uint64) :=
  [0, 2 ^ 33 - 1, 2 ^ 33, 2 ^ 34 - 1, 2 ^ 34].map (BitVec.ofNat 64)

theorem mem_crowd {k : Key .uint64} (hk : k ∈ crowd) : k ≠ missing ∧ k.toNat < 2 ^ 34 + 1 := by
  have hall : (crowd.all fun k => decide (k ≠ missing ∧ k.toNat < 2 ^ 34 + 1)) = true := by decide
  exact of_decide_eq_true (List.all_eq_true.mp hall k hk)

theorem crowded_crowd : Crowded crowd.toFinset 33 := ⟨0, by decide⟩

/-- The last insertion does not end. -/
theorem crowd_not_ends (fuel : ℕ) (s : CuckooHashSet .uint64) : insertAll fuel crowd ≠ .ok s := by
  intro hok
  obtain ⟨j, hgrown, hholds, -⟩ :=
    (CuckooHashSet.insertAllIf_spec fun k hk => (mem_crowd hk).1).of_ok hok
  have hj : j ≤ 33 := by
    rcases hgrown with rfl | ⟨i, -, hi, rfl, -, -⟩
    · exact Nat.zero_le _
    · omega
  have hmask : s.mask = 2 ^ j - 1 := hholds.at_level.mask_eq
  have hfits : Fits s.mask s.ht := hholds.at_level.fits
  rw [hmask] at hfits
  exact not_crowded_of_fits hfits hholds.at_level.le_width hholds.keys_eq (crowded_crowd.anti hj)

/-- The levels that keys below `N` can need. -/
theorem Grown.lt {S : Finset (Key T)} {allowed : ℕ → Bool} {j N : ℕ}
    (h : Grown allowed S 0 j) (hN : ∀ k ∈ S, k.toNat < N) :
    j ≤ T.width ∧ (j = 0 ∨ T.bucketSize * 2 ^ j < 2 * N) := by
  rcases h with rfl | ⟨i, -, hi, rfl, hcrowded, -⟩
  · exact ⟨Nat.zero_le _, Or.inl rfl⟩
  · have hwidth : 32 ≤ T.width := by cases T <;> decide
    have hlt := hcrowded.mul_two_pow_lt (hi.trans hwidth) hN
    have hi' := hcrowded.lt_width (hi.trans hwidth)
    refine ⟨hi', Or.inr ?_⟩
    calc T.bucketSize * 2 ^ (i + 1) = 2 * (T.bucketSize * 2 ^ i) := by ring
      _ < 2 * N := by omega

/-- **Insertions end, in a table of at most twice the range of the keys, for all 32-bit keys and
for 64-bit keys up to `2 ^ 34`.** -/
theorem staysSmall_iff (T : KeyType) (N : ℕ) : StaysSmall T N ↔ T = .uint32 ∨ N ≤ 2 ^ 34 := by
  constructor
  · intro hsmall
    by_contra hnot
    push Not at hnot
    obtain ⟨hT, hN⟩ := hnot
    cases T with
    | uint32 => exact hT rfl
    | uint64 =>
      have hcrowd : ∀ k ∈ crowd, k ≠ missing ∧ k.toNat < N := by
        intro k hk
        obtain ⟨hne, hlt⟩ := mem_crowd hk
        exact ⟨hne, by omega⟩
      obtain ⟨bound, hends⟩ := hsmall crowd hcrowd
      obtain ⟨s, hok, -⟩ := hends (bound + 1) (Nat.lt_succ_self bound)
      exact crowd_not_ends _ s hok
  · intro hcond ks hks
    have hN : ∀ k ∈ ks.toFinset, k.toNat < N := fun k hk => (hks k (List.mem_toFinset.mp hk)).2
    refine ⟨T.width, fun fuel hfuel => ?_⟩
    -- nothing stops the insertions
    have hends : ∀ e, ¬ Stuck (fun _ => true) ks.toFinset 0 fuel e := by
      rintro (_ | _) hstuck
      · obtain ⟨i, hgrown, hle | ⟨hlarge, hcrowded⟩⟩ := hstuck
        · have := (hgrown.lt hN).1
          omega
        · have hi := (hgrown.lt hN).1
          have hlt := hcrowded.mul_two_pow_lt hi hN
          cases T with
          | uint32 => exact absurd hi (not_le.mpr hlarge)
          | uint64 =>
            have hpow : 2 ^ 33 ≤ 2 ^ i := Nat.pow_le_pow_right (by omega) hlarge
            have hbucket : KeyType.uint64.bucketSize = 2 := rfl
            rw [hbucket] at hlt
            rcases hcond with hcond | hcond
            · cases hcond
            · omega
      · obtain ⟨i, -, -, hallowed⟩ := hstuck
        cases hallowed
    obtain ⟨s, hok, j, hgrown, hholds, -⟩ :=
      (CuckooHashSet.insertAllIf_spec fun k hk => (hks k hk).1).exists_ok hends
    refine ⟨s, hok, ?_⟩
    have hmask : s.mask = 2 ^ j - 1 := hholds.at_level.mask_eq
    have hcapacity : s.capacity = T.bucketSize * 2 ^ j := by
      have hpos := Nat.two_pow_pos j
      unfold CuckooHashSet.capacity
      rw [hmask, Nat.sub_add_cancel hpos, Nat.mul_comm]
    rw [hcapacity]
    rcases (hgrown.lt hN).2 with rfl | hlt
    · exact (Nat.mul_one _).trans_le (le_max_left _ _)
    · exact hlt.le.trans (le_max_right _ _)

/-- With the keys below `2 ^ 34 + 1` there is an insertion that does not end. -/
theorem not_staysSmall_uint64 : ¬ StaysSmall .uint64 (2 ^ 34 + 1) ∧
    (∀ k ∈ crowd, k ≠ missing ∧ k.toNat < 2 ^ 34 + 1) ∧
      ∀ fuel s, insertAll fuel crowd ≠ .ok s := by
  refine ⟨?_, fun k hk => mem_crowd hk, crowd_not_ends⟩
  rw [staysSmall_iff]
  decide

end ParallelEnum.Cuckoo
