import ParallelEnum.Util.Cuckoo.Bulk
import ParallelEnum.Util.Equiv.Cuckoo
import Mathlib.Data.FinEnum

/-!
# Runs with bulk operations

`clear` leaves `sz` as it is, `reserve` drops the keys when it allocates a new table, and a set that
is assigned to itself reads the memory that has just been allocated.  In runs in which no call does
this to a set that has keys (`Meets`), every set counts its keys, and the calls do what they are for
(`orderly_sound`).
-/

namespace ParallelEnum.Cuckoo

open Outcome

variable {T : KeyType}

namespace CuckooHashSet

/-- The keys for which `count` is true. -/
def members (s : CuckooHashSet T) : Finset (Key T) :=
  Finset.univ.filter fun k => k ≠ missing ∧ s.count k = true

section Holds

variable {s : CuckooHashSet T} {j : ℕ} {S : Finset (Key T)}

theorem Holds.ne_missing (h : Holds s j S) {k : Key T} (hk : k ∈ S) : k ≠ missing := by
  rw [← Finset.mem_val, ← h.keys_eq] at hk
  exact (Multiset.mem_filter.mp hk).2

theorem Holds.members_eq (h : Holds s j S) : s.members = S := by
  ext k
  unfold members
  rw [Finset.mem_filter, and_iff_right (Finset.mem_univ k)]
  constructor
  · rintro ⟨hk, hcount⟩
    exact (h.count_iff hk).mp hcount
  · intro hk
    exact ⟨h.ne_missing hk, (h.count_iff (h.ne_missing hk)).mpr hk⟩

theorem Holds.isEmpty_iff (h : Holds s j S) : s.isEmpty = true ↔ S = ∅ := by
  unfold isEmpty
  rw [decide_eq_true_iff, h.sz_eq, Finset.card_eq_zero]

/-- Sets with the same members answer `count` alike. -/
theorem Holds.count_eq {s' : CuckooHashSet T} {j' : ℕ} (h : Holds s j S) (h' : Holds s' j' S)
    {k : Key T} (hk : k ≠ missing) : s'.count k = s.count k := by
  rw [Bool.eq_iff_iff, h.count_iff hk, h'.count_iff hk]

/-- A table whose buckets are free has no keys. -/
theorem keys_eq_zero {mask : ℕ} {slots : Vec (Key T)} (hfits : Fits mask slots)
    (hfree : ∀ i < (mask + 1) * T.bucketSize, slots.get i = missing) : keys slots = 0 := by
  rw [← hfits.keysAt_buckets]
  unfold keysAt
  rw [Multiset.filter_eq_nil]
  intro k hk
  rw [Multiset.mem_coe, List.mem_map] at hk
  obtain ⟨i, hi, rfl⟩ := hk
  exact not_not.mpr (hfree i (List.mem_range.mp hi))

theorem Holds.clear (h : Holds s j ∅) : Holds s.clear j ∅ := by
  have hsize : s.clear.ht.size = s.ht.size := Vec.size_setAll _ _ _
  have hget : ∀ i, s.clear.ht.get i
      = if i ∈ List.range s.capacity ∧ i < s.ht.size then missing else s.ht.get i := fun i =>
    Vec.get_setAll _ _ _ _
  have hfits : Fits s.mask s.clear.ht := by
    refine ⟨hsize ▸ h.at_level.fits.size_le, fun i hi hne => ?_⟩
    rw [hget] at hne ⊢
    split_ifs at hne ⊢ with hin
    · exact absurd rfl hne
    · exact h.at_level.fits.sits i (hsize ▸ hi) hne
  refine ⟨⟨h.at_level.mask_eq, h.at_level.le_width, hfits⟩, ?_, h.sz_eq⟩
  refine keys_eq_zero hfits fun i hi => ?_
  rw [hget, if_pos ⟨List.mem_range.mpr hi, hi.trans_le h.at_level.fits.size_le⟩]

/-- The loop of `reserve` finds a power of two, the first one beyond its bound. -/
theorem doubleWhile_spec (bound j : ℕ) : ∃ m, doubleWhile bound (2 ^ j) = 2 ^ m ∧
    ∀ top, j ≤ top → bound < 2 ^ top → m ≤ top := by
  induction h : bound + 1 - 2 ^ j using Nat.strong_induction_on generalizing j with
  | _ left ih =>
  have hpos := Nat.two_pow_pos j
  rw [doubleWhile]
  split_ifs with hle
  · have hdouble : 2 ^ j <<< 1 = 2 ^ (j + 1) := by rw [Nat.shiftLeft_eq, pow_one, pow_succ]
    rw [hdouble]
    have hlt : bound + 1 - 2 ^ (j + 1) < left := by
      rw [pow_succ]
      omega
    obtain ⟨m, hm, htop⟩ := ih _ hlt (j + 1) rfl
    refine ⟨m, hm, fun top hjtop hbound => htop top ?_ hbound⟩
    by_contra hnot
    -- the mask has passed the bound, so it does not double beyond `top`
    have heq : j = top := by omega
    subst heq
    omega
  · exact ⟨j, rfl, fun top hjtop _ => hjtop⟩

theorem Holds.reserve (h : Holds s j ∅) {n : ℕ} (hj : j ≤ topLevel T) (hn : n < 2 ^ 31) :
    ∃ j' ≤ topLevel T, Holds (s.reserve n) j' ∅ := by
  unfold CuckooHashSet.reserve
  split_ifs with hle
  · exact ⟨j, hj, h⟩
  · have hpow : s.mask + 1 = 2 ^ j := by
      have hmask : s.mask = 2 ^ j - 1 := h.at_level.mask_eq
      have hpos := Nat.two_pow_pos j
      omega
    obtain ⟨m, hm, htop⟩ := doubleWhile_spec (n / T.bucketSize) j
    have hbound : n / T.bucketSize < 2 ^ topLevel T := by
      rw [Nat.div_lt_iff_lt_mul (bucketSize_pos T)]
      have hsplit : 2 ^ topLevel T * T.bucketSize = 2 ^ 31 := by cases T <;> rfl
      omega
    have hmtop := htop (topLevel T) hj hbound
    obtain ⟨htop32, hwidth⟩ := topLevel_lt T
    have hfits : Fits (2 ^ m - 1)
        (Array.replicate ((2 ^ m + 1) * T.bucketSize) (missing : Key T)) :=
      fits_fresh (Nat.mul_le_mul_right _ (by omega))
    dsimp only
    rw [hpow, hm]
    exact ⟨m, hmtop, ⟨rfl, by omega, hfits⟩, keys_fresh _, h.sz_eq⟩

/-- A copy has the keys of the original. -/
theorem Holds.assign (h : Holds s j S) : Holds s.assign j S := by
  -- the slots are copied up to the capacity, where all the keys are
  have hget : ∀ i < s.capacity, s.assign.ht.get i = s.ht.get i := by
    intro i hi
    show (s.ht.resize s.capacity).get i = _
    rw [Vec.get_resize, if_pos hi]
  have hsize : s.assign.ht.size = s.capacity := Vec.size_resize _ _
  have hfits : Fits s.mask s.assign.ht := by
    refine ⟨hsize.ge, fun i hi hne => ?_⟩
    rw [hsize] at hi
    rw [hget i hi] at hne ⊢
    exact h.at_level.fits.sits i (hi.trans_le h.at_level.fits.size_le) hne
  refine ⟨⟨h.at_level.mask_eq, h.at_level.le_width, hfits⟩, ?_, h.sz_eq⟩
  have hsame : keysAt s.assign.ht (List.range s.capacity)
      = keysAt s.ht (List.range s.capacity) := by
    unfold keysAt
    rw [List.map_congr_left fun i hi => hget i (List.mem_range.mp hi)]
  exact (hfits.keysAt_buckets.symm.trans hsame).trans
    (h.at_level.fits.keysAt_buckets.trans h.keys_eq)

/-- `operator==` finds every key of a set with the same keys. -/
theorem Holds.equals {s' : CuckooHashSet T} {j' : ℕ} (h : Holds s j S) (h' : Holds s' j' S) :
    s.equals s' = some true := by
  obtain ⟨l, hwalk, -, hmem⟩ := h'.walk_eq
  unfold CuckooHashSet.equals
  have hsize : s'.size = s.size := h'.sz_eq.trans h.sz_eq.symm
  rw [if_neg (not_not.mpr hsize), hwalk, Option.map_some, Option.some_inj, List.all_eq_true]
  intro k hk
  have hkS := (hmem k).mp hk
  exact (h.count_iff (h.ne_missing hkS)).mpr hkS

/-- A set that has the key that is found does not count 0 keys. -/
theorem Holds.eraseAny (h : Holds s j S) {k : Key T} (hk : k ≠ missing) :
    Holds (s.eraseAny k) j (S.erase k) := by
  unfold CuckooHashSet.eraseAny
  rw [if_neg]
  · exact h.erase hk
  · rintro ⟨hzero, hfound⟩
    have hempty : S = ∅ := Finset.card_eq_zero.mp (h.sz_eq.symm.trans hzero)
    -- a key that is found is one of the keys
    have hnot : ∀ bucket, Sits s.mask k bucket → (find s.ht bucket k).isSome = false := by
      intro bucket hsits
      rw [Option.isSome_eq_false_iff, Option.isNone_iff_eq_none]
      cases hfind : find s.ht bucket k with
      | none => rfl
      | some pos =>
        obtain ⟨hpos, hget⟩ := find_eq_some hfind
        have hmem : k ∈ S := by
          rw [← Finset.mem_val, ← h.keys_eq, mem_keys hk]
          exact ⟨_, h.at_level.fits.slot_lt hsits.le hpos, hget⟩
        rw [hempty] at hmem
        exact absurd hmem (Finset.notMem_empty k)
    rw [hnot _ (Or.inl rfl), hnot _ (Or.inr rfl)] at hfound
    simp at hfound

end Holds

end CuckooHashSet

/-! ### Runs -/

/-- The condition on a call: the keys are not `missing` and do not crowd the largest table, only a
set without keys is cleared or given a new table by `reserve`, and no set is assigned to itself. -/
def Meets (st : Sets T) : BulkCall T → Prop
  | .insert i k => k ≠ missing ∧ ¬ Crowded (insert k (st i).members) (topLevel T)
  | .erase _ k => k ≠ missing
  | .clear i => (st i).isEmpty = true
  | .reserve i n => n ≤ (st i).capacity ∨ (st i).isEmpty = true ∧ n < 2 ^ 31
  | .assign i j _ => i ≠ j
  | .copyConstruct _ _ => True

/-- What a call is to do. -/
def Keeps (st : Sets T) (call : BulkCall T) (st' : Sets T) : Prop :=
  match call with
  | .insert _ _ => True
  | .erase _ _ => True
  | .clear i => (∀ k, k ≠ missing → (st' i).count k = false) ∧ (st' i).size = 0 ∧
      (st' i).isEmpty = true
  | .reserve i _ => ∀ k, k ≠ missing → (st' i).count k = (st i).count k
  | .assign i j _ => (st' i).equals (st j) = some true ∧
      ∀ k, k ≠ missing → (st' i).count k = (st j).count k
  | .copyConstruct i j => (st' i).equals (st j) = some true ∧
      ∀ k, k ≠ missing → (st' i).count k = (st j).count k

/-- The sets that a program reaches by calls that meet the condition. -/
inductive Orderly : Sets T → Prop
  | start : Orderly Sets.start
  | step {st st' : Sets T} {call : BulkCall T} (h : Orderly st) (hmeets : Meets st call)
      (hstep : st.step call = .ok st') : Orderly st'

/-- Every set has a good table. -/
def Tidy (st : Sets T) : Prop :=
  ∀ i, ∃ j S, CuckooHashSet.Holds (st i) j S ∧ j ≤ topLevel T

theorem Tidy.update {st : Sets T} (h : Tidy st) {i j : ℕ} {s : CuckooHashSet T}
    {S : Finset (Key T)} (hs : s.Holds j S) (hj : j ≤ topLevel T) :
    Tidy (Function.update st i s) := by
  intro i'
  by_cases hi : i' = i
  · subst hi
    rw [Function.update_self]
    exact ⟨j, S, hs, hj⟩
  · rw [Function.update_of_ne hi]
    exact h i'

/-- A call that meets the condition. -/
theorem Tidy.step {st : Sets T} {call : BulkCall T} (h : Tidy st) (hmeets : Meets st call) :
    ∃ st', st.step call = .ok st' ∧ Tidy st' ∧ Keeps st call st' := by
  cases call with
  | insert i k =>
    obtain ⟨hk, hroom⟩ := hmeets
    obtain ⟨j, S, hholds, hj⟩ := h i
    rw [hholds.members_eq] at hroom
    have hfuel : T.width < T.width + 1 := by omega
    obtain ⟨s, hs, ⟨j', hgrown, hholds'⟩, -⟩ :=
      (hholds.insertIf hk (fitsInt T) (T.width + 1)).exists_ok fun e he =>
        hroom (he.crowded hj hfuel)
    refine ⟨_, ?_, h.update (i := i) hholds' (hgrown.le_topLevel hj), trivial⟩
    simp only [Sets.step]
    rw [hs]
    rfl
  | erase i k =>
    obtain ⟨j, S, hholds, hj⟩ := h i
    exact ⟨_, rfl, h.update (hholds.eraseAny hmeets) hj, trivial⟩
  | clear i =>
    obtain ⟨j, S, hholds, hj⟩ := h i
    obtain rfl := hholds.isEmpty_iff.mp hmeets
    -- without keys `sz` is 0 already, so it does no harm that `clear` leaves it
    have hclear := hholds.clear
    refine ⟨_, rfl, h.update hclear hj, ?_⟩
    simp only [Keeps]
    rw [Function.update_self]
    refine ⟨fun k hk => ?_, hclear.sz_eq, hclear.isEmpty_iff.mpr rfl⟩
    rw [Bool.eq_false_iff]
    exact fun hcount => Finset.notMem_empty k ((hclear.count_iff hk).mp hcount)
  | reserve i n =>
    obtain ⟨j, S, hholds, hj⟩ := h i
    rcases hmeets with hle | ⟨hempty, hn⟩
    · have hsame : (st i).reserve n = st i := if_pos hle
      refine ⟨_, rfl, h.update (hsame.symm ▸ hholds) hj, fun k _ => ?_⟩
      rw [Function.update_self, hsame]
    · obtain rfl := hholds.isEmpty_iff.mp hempty
      -- the new table is empty, and so was the old one
      obtain ⟨j', hj', hreserve⟩ := hholds.reserve hj hn
      refine ⟨_, rfl, h.update hreserve hj', fun k hk => ?_⟩
      rw [Function.update_self]
      exact hholds.count_eq hreserve hk
  | assign i i' fresh =>
    obtain ⟨j, S, hholds, hj⟩ := h i'
    refine ⟨_, rfl, ?_, ?_⟩
    · rw [if_neg hmeets]
      exact h.update hholds.assign hj
    · simp only [Keeps]
      rw [Function.update_self, if_neg hmeets]
      exact ⟨hholds.assign.equals hholds, fun k hk => hholds.count_eq hholds.assign hk⟩
  | copyConstruct i i' =>
    obtain ⟨j, S, hholds, hj⟩ := h i'
    refine ⟨_, rfl, h.update hholds.assign hj, ?_⟩
    simp only [Keeps]
    rw [Function.update_self]
    exact ⟨hholds.assign.equals hholds, fun k hk => hholds.count_eq hholds.assign hk⟩

theorem Orderly.tidy {st : Sets T} (h : Orderly st) : Tidy st := by
  induction h with
  | start => exact fun _ => ⟨0, ∅, CuckooHashSet.holds_empty, Nat.zero_le _⟩
  | step h hmeets hstep ih =>
    obtain ⟨st', hst', htidy, -⟩ := ih.step hmeets
    rw [hstep] at hst'
    rw [Except.ok.inj hst']
    exact htidy

/-- A set with few keys has room for every other key. -/
theorem Orderly.meets_insert {st : Sets T} (h : Orderly st) {i : ℕ} {k : Key T}
    (hk : k ≠ missing) (hroom : (st i).size < room T (topLevel T)) : Meets st (.insert i k) := by
  obtain ⟨j, S, hholds, -⟩ := h.tidy i
  refine ⟨hk, ?_⟩
  rw [hholds.members_eq]
  rintro ⟨bucket, hcrowded⟩
  have hfilter := Finset.card_filter_le (insert k S) fun k => Sits (2 ^ topLevel T - 1) k bucket
  have hinsert := Finset.card_insert_le k S
  have hsize : (st i).size = S.card := hholds.sz_eq
  omega

/-- **While every call meets the condition, each set counts its keys, and every call that meets the
condition does what it is for.** -/
theorem orderly_sound (st : Sets T) (h : Orderly st) :
    (∀ i, (st i).size = (st i).members.card) ∧
      ∀ call, Meets st call → ∃ st', st.step call = .ok st' ∧ Keeps st call st' := by
  constructor
  · intro i
    obtain ⟨j, S, hholds, -⟩ := h.tidy i
    rw [hholds.members_eq]
    exact hholds.sz_eq
  · intro call hmeets
    obtain ⟨st', hst', -, hkeeps⟩ := h.tidy.step hmeets
    exact ⟨st', hst', hkeeps⟩

/-- A program that copies a set in which 2 is left of the keys 1 and 2, and that has cleared a set
without keys. -/
theorem orderly_sound_copied : ∃ st : Sets .uint32,
    Sets.run [.insert 0 1, .insert 0 2, .erase 0 1, .reserve 0 3, .copyConstruct 1 0, .clear 2]
      = .ok st ∧
    (∀ i, (st i).size = (st i).members.card) ∧
      ∀ call, Meets st call → ∃ st', st.step call = .ok st' ∧ Keeps st call st' := by
  have hone := @Orderly.step .uint32 _ _ (.insert 0 1) Orderly.start
    (Orderly.start.meets_insert (by decide) (by decide)) rfl
  have htwo := @Orderly.step .uint32 _ _ (.insert 0 2) hone
    (hone.meets_insert (by decide) (by decide)) rfl
  have herased := @Orderly.step .uint32 _ _ (.erase 0 1) htwo (show 1 ≠ missing by decide) rfl
  have hreserved := @Orderly.step .uint32 _ _ (.reserve 0 3) herased (Or.inl (by decide)) rfl
  have hcopied := @Orderly.step .uint32 _ _ (.copyConstruct 1 0) hreserved trivial rfl
  have hcleared := @Orderly.step .uint32 _ _ (.clear 2) hcopied rfl rfl
  exact ⟨_, rfl, orderly_sound _ hcleared⟩

/-- `count` does not look at `sz`. -/
theorem CuckooHashSet.members_congr {s s' : CuckooHashSet T} (hht : s.ht = s'.ht)
    (hmask : s.mask = s'.mask) : s.members = s'.members := by
  cases s
  cases s'
  subst hht hmask
  rfl

/-- A set with the key 1 that is cleared goes on counting one key, and loses the key when it
reserves five slots and when it is assigned to itself. -/
theorem not_sound_one :
    (∃ st, Sets.run (T := .uint32) [.insert 0 1, .clear 0] = .ok st ∧
      (st 0).size = 1 ∧ (st 0).isEmpty = false ∧ (st 0).members = ∅) ∧
    ∃ st, Sets.run (T := .uint32) [.insert 0 1] = .ok st ∧ (st 0).count 1 = true ∧
      (∃ st', st.step (.reserve 0 5) = .ok st' ∧ (st' 0).count 1 = false) ∧
      ∃ st', st.step (.assign 0 0 #[2, 3, 5, 7]) = .ok st' ∧ (st' 0).count 1 = false ∧
        (st' 0).equals (st 0) = some false := by
  refine ⟨⟨_, rfl, rfl, rfl, ?_⟩, _, rfl, rfl, ⟨_, rfl, ?_⟩, _, rfl, rfl, rfl⟩
  · rw [← CuckooHashSet.holds_empty.members_eq]
    exact CuckooHashSet.members_congr rfl rfl
  · have hmask : CuckooHashSet.doubleWhile (5 / KeyType.uint32.bucketSize) (0 + 1) = 2 := by
      have hbound : 5 / KeyType.uint32.bucketSize = 1 := rfl
      rw [hbound, CuckooHashSet.doubleWhile, if_pos (by decide), CuckooHashSet.doubleWhile,
        if_neg (by decide)]
      rfl
    show (CuckooHashSet.reserve ⟨#[1, missing, missing, missing], 0, 1⟩ 5).count 1 = false
    rw [CuckooHashSet.reserve, if_neg (by decide)]
    dsimp only
    rw [hmask]
    rfl

end ParallelEnum.Cuckoo
