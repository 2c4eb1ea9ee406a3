import Mathlib.Data.Multiset.Filter
import Mathlib.Tactic.Ring
import ParallelEnum.Util.Cuckoo

/-!
# Moving keys around in a cuckoo table

`Fits` says what a table is: it has the buckets of its mask, and every key lies in one of its two
buckets.  Putting a key in a free slot (`place_spec`) and moving keys to their second buckets
(`kick_spec`) keep that, and together with the key in hand the table has the same keys.

Moving a key around conserves the multiset of all slots and the key in hand (`swapIn_spec`).
-/

namespace ParallelEnum.Cuckoo

variable {T : KeyType}

/-! ### Slots -/

/-- Writing to a slot exchanges its value for the new one. -/
theorem cons_coe_set {α : Type} [Inhabited α] {v : Vec α} {i : ℕ} (h : i < v.size) (x : α) :
    v.get i ::ₘ ((v.set i x).toList : Multiset α) = x ::ₘ (v.toList : Multiset α) := by
  have hi : i < v.toList.length := by simpa using h
  have hget : v.get i = v.toList[i] := by
    unfold Vec.get
    rw [Array.getD_eq_getD_getElem?, Array.getElem?_eq_getElem h]
    rfl
  have hset : (v.set i x).toList = v.toList.set i x := Array.toList_setIfInBounds
  rw [hget, hset, Multiset.cons_coe, Multiset.cons_coe, Multiset.coe_eq_coe]
  calc v.toList[i] :: v.toList.set i x
      _ |>.Perm (v.toList[i] :: x :: v.toList.eraseIdx i) :=
        (List.set_perm_cons_eraseIdx hi x).cons _
      _ |>.Perm (x :: v.toList[i] :: v.toList.eraseIdx i) := List.Perm.swap ..
      _ |>.Perm (x :: v.toList) := (List.getElem_cons_eraseIdx_perm hi).cons x

/-- The values of a vector, read by index. -/
theorem map_get_range {α : Type} [Inhabited α] (v : Vec α) :
    (List.range v.size).map v.get = v.toList := by
  apply List.ext_getElem
  · simp
  · intro i h _
    have hi : i < v.size := by simpa using h
    rw [List.getElem_map, List.getElem_range, Array.getElem_toList]
    unfold Vec.get
    rw [Array.getD_eq_getD_getElem?, Array.getElem?_eq_getElem hi]
    rfl

/-- The keys in a table. -/
def keys (slots : Vec (Key T)) : Multiset (Key T) :=
  (slots.toList : Multiset (Key T)).filter (· ≠ missing)

theorem mem_keys {slots : Vec (Key T)} {k : Key T} (hk : k ≠ missing) :
    k ∈ keys slots ↔ ∃ i < slots.size, slots.get i = k := by
  unfold keys
  rw [Multiset.mem_filter, and_iff_left hk, Multiset.mem_coe, ← map_get_range, List.mem_map]
  simp only [List.mem_range]

/-- The keys of a table after a write. -/
theorem keys_set {slots : Vec (Key T)} {i : ℕ} (h : i < slots.size) (x : Key T) :
    (if slots.get i ≠ missing then {slots.get i} else 0) + keys (slots.set i x)
      = (if x ≠ missing then {x} else 0) + keys slots := by
  have hall := congrArg (Multiset.filter (· ≠ missing)) (cons_coe_set h x)
  rw [Multiset.filter_cons, Multiset.filter_cons] at hall
  exact hall

/-! ### Buckets -/

theorem bucketSize_pos (T : KeyType) : 0 < T.bucketSize := by cases T <;> decide

/-- A bucket in which a key may lie. -/
def Sits (mask : ℕ) (k : Key T) (bucket : ℕ) : Prop :=
  bucket = hash1 mask k ∨ bucket = hash2 mask k

theorem Sits.le {mask bucket : ℕ} {k : Key T} (h : Sits mask k bucket) : bucket ≤ mask := by
  rcases h with rfl | rfl
  · exact Nat.and_le_right
  · exact Nat.and_le_right

theorem slot_div {bucket pos : ℕ} (h : pos < T.bucketSize) :
    slot T bucket pos / T.bucketSize = bucket := by
  unfold slot
  rw [Nat.mul_comm, Nat.mul_add_div (bucketSize_pos T), Nat.div_eq_of_lt h, Nat.add_zero]

/-- Every slot is a position in a bucket. -/
theorem exists_slot (i : ℕ) : ∃ pos < T.bucketSize, i = slot T (i / T.bucketSize) pos :=
  ⟨i % T.bucketSize, Nat.mod_lt i (bucketSize_pos T), (Nat.div_add_mod' i T.bucketSize).symm⟩

/-- The slots of a table: at least those of its buckets, and where the keys are. -/
structure Fits (mask : ℕ) (slots : Vec (Key T)) : Prop where
  size_le : (mask + 1) * T.bucketSize ≤ slots.size
  sits : ∀ i < slots.size, slots.get i ≠ missing → Sits mask (slots.get i) (i / T.bucketSize)

theorem Fits.slot_lt {mask bucket pos : ℕ} {slots : Vec (Key T)} (h : Fits mask slots)
    (hbucket : bucket ≤ mask) (hpos : pos < T.bucketSize) : slot T bucket pos < slots.size := by
  calc slot T bucket pos < bucket * T.bucketSize + T.bucketSize := Nat.add_lt_add_left hpos _
    _ = (bucket + 1) * T.bucketSize := (Nat.succ_mul _ _).symm
    _ ≤ (mask + 1) * T.bucketSize := Nat.mul_le_mul_right _ (Nat.succ_le_succ hbucket)
    _ ≤ slots.size := h.size_le

theorem Fits.set {mask i : ℕ} {slots : Vec (Key T)} (h : Fits mask slots) {x : Key T}
    (hx : x ≠ missing → Sits mask x (i / T.bucketSize)) : Fits mask (slots.set i x) := by
  constructor
  · rw [Vec.size_set]
    exact h.size_le
  · intro j hj hne
    rw [Vec.size_set] at hj
    rw [Vec.get_set] at hne ⊢
    split_ifs at hne ⊢ with hij
    · rw [← hij.1]
      exact hx hne
    · exact h.sits j hj hne

theorem find_eq_some {slots : Vec (Key T)} {bucket pos : ℕ} {x : Key T}
    (h : find slots bucket x = some pos) :
    pos < T.bucketSize ∧ slots.get (slot T bucket pos) = x := by
  have hmem := List.mem_of_find?_eq_some h
  have hfound := List.find?_some h
  exact ⟨List.mem_range.mp hmem, of_decide_eq_true hfound⟩

theorem find_eq_none {slots : Vec (Key T)} {bucket : ℕ} {x : Key T}
    (h : find slots bucket x = none) {pos : ℕ} (hpos : pos < T.bucketSize) :
    slots.get (slot T bucket pos) ≠ x := by
  have hnot := List.find?_eq_none.mp h pos (List.mem_range.mpr hpos)
  simpa using hnot

/-! ### Putting a key in a bucket -/

/-- A key that is put in a free slot of a bucket of its own. -/
theorem Fits.fill {mask bucket pos : ℕ} {slots : Vec (Key T)} {k : Key T} (h : Fits mask slots)
    (hk : k ≠ missing) (hsits : Sits mask k bucket) (hfind : find slots bucket missing = some pos) :
    Fits mask (slots.set (slot T bucket pos) k) ∧
      keys (slots.set (slot T bucket pos) k) = k ::ₘ keys slots := by
  obtain ⟨hpos, hfree⟩ := find_eq_some hfind
  constructor
  · apply h.set
    intro _
    rw [slot_div hpos]
    exact hsits
  · have hkeys := keys_set (h.slot_lt hsits.le hpos) k
    rw [hfree, if_neg (not_not.mpr rfl), if_pos hk, Multiset.zero_add,
      Multiset.singleton_add] at hkeys
    exact hkeys

theorem place_spec {k : Key T} {t t' : Table T} (h : Fits t.mask t.slots) (hk : k ≠ missing)
    (hplace : place k t = some t') : t'.mask = t.mask ∧ Fits t.mask t'.slots ∧
      keys t'.slots = k ::ₘ keys t.slots ∧ t'.slots.size = t.slots.size := by
  unfold place at hplace
  dsimp only at hplace
  split at hplace
  · rename_i pos hfind
    obtain rfl := Option.some.inj hplace
    obtain ⟨hfits, hkeys⟩ := h.fill hk (Or.inl rfl) hfind
    exact ⟨rfl, hfits, hkeys, Vec.size_set _ _ _⟩
  · split at hplace
    · rename_i pos hfind
      obtain rfl := Option.some.inj hplace
      obtain ⟨hfits, hkeys⟩ := h.fill hk (Or.inr rfl) hfind
      exact ⟨rfl, hfits, hkeys, Vec.size_set _ _ _⟩
    · cases hplace

/-- Shifting a bucket moves its first slot, as a hole, to its end. -/
theorem shift_aux {mask bucket : ℕ} {slots : Vec (Key T)} (h : Fits mask slots)
    (hbucket : bucket ≤ mask) {n : ℕ} (hn : n < T.bucketSize) :
    let shifted := (List.range' 1 n).foldl
      (fun slots pos => slots.set (slot T bucket pos - 1) (slots.get (slot T bucket pos))) slots
    Fits mask shifted ∧ ∀ x, slots.get (slot T bucket 0) ::ₘ
      ((shifted.set (slot T bucket n) x).toList : Multiset (Key T)) =
        x ::ₘ (slots.toList : Multiset (Key T)) := by
  induction n with
  | zero => exact ⟨h, cons_coe_set (h.slot_lt hbucket hn)⟩
  | succ n ih =>
    obtain ⟨hfits, hall⟩ := ih (Nat.lt_of_succ_lt hn)
    rw [List.range'_1_concat, List.foldl_append, List.foldl_cons, List.foldl_nil]
    dsimp only
    set shifted := (List.range' 1 n).foldl
      (fun slots pos => slots.set (slot T bucket pos - 1) (slots.get (slot T bucket pos))) slots
    have hslot : slot T bucket (1 + n) - 1 = slot T bucket n := by unfold slot; omega
    have hne : slot T bucket n ≠ slot T bucket (n + 1) := by unfold slot; omega
    rw [hslot, Nat.add_comm 1 n]
    set y := shifted.get (slot T bucket (n + 1)) with hy
    constructor
    · apply hfits.set
      intro hmissing
      rw [slot_div (Nat.lt_of_succ_lt hn)]
      have hsits := hfits.sits _ (hfits.slot_lt hbucket hn) hmissing
      rw [slot_div hn] at hsits
      exact hsits
    · intro x
      have hset := cons_coe_set (v := shifted.set (slot T bucket n) y)
        (by rw [Vec.size_set]; exact hfits.slot_lt hbucket hn) x
      rw [Vec.get_set_of_ne _ hne, ← hy] at hset
      apply (Multiset.cons_inj_right y).mp
      rw [Multiset.cons_swap y, hset, Multiset.cons_swap, hall y, Multiset.cons_swap]

/-- A key goes into its bucket, and what comes out is in hand. -/
theorem swapIn_spec {mask bucket : ℕ} {k : Key T} {slots : Vec (Key T)} (h : Fits mask slots)
    (hsits : Sits mask k bucket) :
    Fits mask (swapIn bucket k slots).2 ∧
      (swapIn bucket k slots).1 ::ₘ ((swapIn bucket k slots).2.toList : Multiset (Key T)) =
        k ::ₘ (slots.toList : Multiset (Key T)) := by
  unfold swapIn
  split
  · have hlast : T.bucketSize - 1 < T.bucketSize := Nat.sub_one_lt (bucketSize_pos T).ne'
    obtain ⟨hfits, hall⟩ := shift_aux h hsits.le hlast
    have hslot : slot T bucket T.bucketSize - 1 = slot T bucket (T.bucketSize - 1) := by
      unfold slot; omega
    dsimp only
    rw [hslot]
    constructor
    · apply hfits.set
      intro _
      rw [slot_div hlast]
      exact hsits
    · exact hall k
  · rename_i pos hfind
    obtain ⟨hpos, _⟩ := find_eq_some hfind
    constructor
    · apply h.set
      intro _
      rw [slot_div hpos]
      exact hsits
    · exact cons_coe_set (h.slot_lt hsits.le hpos) k

/-- A round of the loop conserves the keys in the table and the one in hand. -/
theorem keys_swapIn {mask bucket : ℕ} {k : Key T} {slots : Vec (Key T)} (h : Fits mask slots)
    (hk : k ≠ missing) (hsits : Sits mask k bucket) :
    (if (swapIn bucket k slots).1 ≠ missing then {(swapIn bucket k slots).1} else 0) +
      keys (swapIn bucket k slots).2 = k ::ₘ keys slots := by
  have hall := congrArg (Multiset.filter (· ≠ missing)) (swapIn_spec h hsits).2
  rw [Multiset.filter_cons, Multiset.filter_cons, if_pos hk, Multiset.singleton_add] at hall
  exact hall

/-- The loop leaves a key in hand or not; together with the table it conserves the keys. -/
theorem kick_spec {mask : ℕ} (iterations : ℕ) (useHash1 : Bool) {k : Key T} {slots : Vec (Key T)}
    (h : Fits mask slots) (hk : k ≠ missing) :
    Fits mask (kick mask iterations useHash1 k slots).2 ∧
      ((kick mask iterations useHash1 k slots).1.toList : Multiset (Key T)) +
        keys (kick mask iterations useHash1 k slots).2 = k ::ₘ keys slots ∧
      missing ∉ (kick mask iterations useHash1 k slots).1 ∧
      (kick mask iterations useHash1 k slots).2.size = slots.size := by
  induction iterations generalizing useHash1 k slots with
  | zero =>
    refine ⟨h, Multiset.singleton_add _ _, ?_, rfl⟩
    intro hmissing
    exact hk (Option.some.inj hmissing)
  | succ iterations ih =>
    rw [kick]
    set hash := if useHash1 then hash1 mask k else hash2 mask k with hhash
    have hsits : Sits mask k hash := by
      rw [hhash]
      split_ifs
      · exact Or.inl rfl
      · exact Or.inr rfl
    have hkeys := keys_swapIn h hk hsits
    obtain ⟨hfits, hall⟩ := swapIn_spec h hsits
    have hsize : (swapIn hash k slots).2.size = slots.size := by
      simpa using congrArg Multiset.card hall
    split_ifs with hmissing
    · rw [if_neg (not_not.mpr hmissing)] at hkeys
      exact ⟨hfits, hkeys, Option.not_mem_none _, hsize⟩
    · rw [if_pos hmissing, Multiset.singleton_add] at hkeys
      obtain ⟨hfits', hkeys', hheld, hsize'⟩ := ih _ hfits hmissing
      exact ⟨hfits', hkeys'.trans hkeys, hheld, hsize'.trans hsize⟩

end ParallelEnum.Cuckoo
