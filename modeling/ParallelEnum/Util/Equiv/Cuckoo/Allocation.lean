import ParallelEnum.Util.Cuckoo.Allocation
import ParallelEnum.Util.Equiv.Cuckoo

/-!
# A set after a failed allocation

`rehash` changes `mask` before it allocates, and `reserve` and `operator=` free the old table.  So
no call that throws leaves the set as it was.

* `attempt_eq_ok`: a call that does not throw does what it does when no allocation fails.
* `thrown_spec`: what an exception leaves.
* `not_unchanged_of_thrown`: the set is never unchanged.
-/

namespace ParallelEnum.Cuckoo

open Outcome

variable {T : KeyType} {allowed : ℕ → Bool}

/-! ### Calls that return -/

theorem eq_ok_of_mapError {α ε ε' : Type} {f : ε → ε'} {r : Except ε α} {a : α}
    (h : r.mapError f = .ok a) : r = .ok a := by
  cases r with
  | ok b =>
    obtain rfl := Except.ok.inj h
    rfl
  | error e => cases h

theorem exists_ok_of_map {α β ε : Type} {f : α → β} {r : Except ε α} {b : β}
    (h : r.map f = .ok b) : ∃ a, r = .ok a ∧ f a = b := by
  cases r with
  | ok a => exact ⟨a, rfl, Except.ok.inj h⟩
  | error e => cases h

theorem exists_ok_of_bind {α β ε : Type} {f : α → Except ε β} {r : Except ε α} {b : β}
    (h : r.bind f = .ok b) : ∃ a, r = .ok a ∧ f a = .ok b := by
  cases r with
  | ok a => exact ⟨a, rfl, h⟩
  | error e => cases h

section Return

variable {insert : InsertAlloc T} {insert' : Key T → Table T → Except Failure (Table T)}
  (hinsert : ∀ k t left r, insert k t left = .ok r → insert' k t = .ok r.2.1)
include hinsert

/-- The loop of `rehash` writes to the old slots it has read, and not to those it will read. -/
theorem foldlM_moveSlot {slots : Vec (Key T)} {l : List ℕ} (hl : l.Nodup)
    {s s' : Vec (Key T) × Table T × ℕ} (hslots : ∀ i ∈ l, s.1.get i = slots.get i)
    (h : l.foldlM (moveSlot insert) s = .ok s') :
    l.foldlM (fun newt i =>
      if slots.get i ≠ missing then insert' (slots.get i) newt else .ok newt) s.2.1
        = .ok s'.2.1 := by
  induction l generalizing s with
  | nil =>
    obtain rfl := Except.ok.inj h
    rfl
  | cons i l ih =>
    obtain ⟨hil, hl⟩ := List.nodup_cons.mp hl
    rw [List.foldlM_cons] at h ⊢
    obtain ⟨u, hu, hrest⟩ := exists_ok_of_bind h
    have hi := hslots i List.mem_cons_self
    have hstep : (if slots.get i ≠ missing then insert' (slots.get i) s.2.1 else .ok s.2.1)
        = .ok u.2.1 ∧ ∀ j, j ≠ i → u.1.get j = s.1.get j := by
      unfold moveSlot at hu
      rw [← hi]
      split_ifs at hu ⊢ with hmissing
      · obtain ⟨r, hr, rfl⟩ := exists_ok_of_map (eq_ok_of_mapError hu)
        exact ⟨hinsert _ _ _ r hr, fun j hj => Vec.get_set_of_ne _ (Ne.symm hj) _⟩
      · obtain rfl := Except.ok.inj hu
        exact ⟨rfl, fun _ _ => rfl⟩
    rw [hstep.1]
    refine ih hl (fun j hj => ?_) hrest
    rw [hstep.2 j fun hji => hil (hji ▸ hj)]
    exact hslots j (List.mem_cons_of_mem _ hj)

theorem rehashAlloc_eq_ok {t : Table T} {left : ℕ} {r : Table T × ℕ}
    (h : rehashAlloc allowed insert t left = .ok r) : rehashIf allowed insert' t = .ok r.1 := by
  unfold rehashAlloc at h
  unfold rehashIf
  cases left with
  | zero => cases h
  | succ left =>
    dsimp only at h ⊢
    generalize (if t.mask = 0 then 1 else (t.mask <<< 1) ||| t.mask) = mask at h ⊢
    split_ifs at h ⊢
    obtain ⟨s, hs, rfl⟩ := exists_ok_of_map h
    exact foldlM_moveSlot hinsert List.nodup_range (fun _ _ => rfl) hs

end Return

theorem insertIntoAlloc_eq_ok (fuel : ℕ) (k : Key T) (t : Table T) (left : ℕ)
    (r : Key T × Table T × ℕ) (h : insertIntoAlloc allowed fuel k t left = .ok r) :
    insertIntoIf allowed fuel k t = .ok r.2.1 := by
  induction fuel generalizing k t left r with
  | zero => cases h
  | succ fuel ih =>
    unfold insertIntoAlloc at h
    unfold insertIntoIf
    cases hplace : place k t with
    | some t' =>
      rw [hplace] at h
      obtain rfl := Except.ok.inj h
      rfl
    | none =>
      rw [hplace] at h
      dsimp only at h ⊢
      generalize kick t.mask (if t.mask < 2 ^ 32 then t.mask else fuel) true k t.slots = r' at h ⊢
      obtain ⟨hand, slots⟩ := r'
      cases hand with
      | none =>
        obtain rfl := Except.ok.inj h
        rfl
      | some k' =>
        dsimp only at h ⊢
        split_ifs at h ⊢
        obtain ⟨u, hu, hrest⟩ := exists_ok_of_bind h
        rw [rehashAlloc_eq_ok (fun k t left r => ih k t left r) (eq_ok_of_mapError hu)]
        exact ih k' u.1 u.2 r hrest

/-- What a call does when no allocation fails. -/
def CuckooHashSet.effect (allowed : ℕ → Bool) (fuel : ℕ) (s : CuckooHashSet T) :
    AllocCall T → Except Failure (CuckooHashSet T)
  | .insert k => s.insertIf allowed fuel k
  | .reserve n => .ok (s.reserve n)
  | .assign other => .ok other.assign

/-- **A call that returns** has its usual effect. -/
theorem attempt_eq_ok {fuel left : ℕ} {s s' : CuckooHashSet T} {call : AllocCall T}
    (h : s.attempt allowed fuel left call = .ok s') : s.effect allowed fuel call = .ok s' := by
  cases call with
  | insert k =>
    unfold CuckooHashSet.attempt at h
    unfold CuckooHashSet.effect CuckooHashSet.insertIf
    dsimp only at h ⊢
    split_ifs at h ⊢
    · rw [Except.ok.inj h]
    · obtain ⟨r, hr, rfl⟩ := exists_ok_of_map (eq_ok_of_mapError h)
      rw [insertIntoAlloc_eq_ok fuel k _ left r hr]
      rfl
  | reserve n =>
    unfold CuckooHashSet.attempt at h
    dsimp only at h
    split_ifs at h with hle
    · obtain rfl := Except.ok.inj h
      unfold CuckooHashSet.effect CuckooHashSet.reserve
      dsimp only
      rw [if_pos hle]
    · rw [← Except.ok.inj h]
      rfl
  | assign other =>
    unfold CuckooHashSet.attempt at h
    dsimp only at h
    split_ifs at h
    rw [← Except.ok.inj h]
    rfl

/-! ### Exceptions -/

/-- `P` holds of the state an exception leaves. -/
def Stop.Leaves {σ : Type} (P : σ → Prop) : Stop σ → Prop
  | failure _ => True
  | thrown state => P state

theorem Stop.Leaves.map {σ τ : Type} {f : σ → τ} {P : σ → Prop} {Q : τ → Prop} {e : Stop σ}
    (h : e.Leaves P) (hf : ∀ s, P s → Q (f s)) : (e.map f).Leaves Q := by
  cases e with
  | failure _ => trivial
  | thrown s => exact hf s h

theorem Stop.Leaves.mono {σ : Type} {P Q : σ → Prop} {e : Stop σ} (h : e.Leaves P)
    (hPQ : ∀ s, P s → Q s) : e.Leaves Q := by
  cases e with
  | failure _ => trivial
  | thrown s => exact hPQ s h

theorem lt_nextMask (mask : ℕ) : mask < if mask = 0 then 1 else (mask <<< 1) ||| mask := by
  split_ifs with hzero
  · omega
  · have hle : mask <<< 1 ≤ (mask <<< 1) ||| mask := Nat.left_le_or
    have hdouble : mask <<< 1 = 2 * mask := by
      rw [Nat.shiftLeft_eq, Nat.mul_comm]
    omega

/-- The mask never decreases, and is greater when an exception is thrown. -/
def MaskGrows (insert : InsertAlloc T) : Prop :=
  ∀ k t left, Ensures (fun r => t.mask ≤ r.2.1.mask) (Stop.Leaves fun u => t.mask < u.2.mask)
    (insert k t left)

variable (allowed) in
theorem MaskGrows.rehashAlloc {insert : InsertAlloc T} (h : MaskGrows insert) (t : Table T)
    (left : ℕ) : Ensures (fun r => t.mask ≤ r.1.mask) (Stop.Leaves fun u => t.mask < u.mask)
      (rehashAlloc allowed insert t left) := by
  have hlt := lt_nextMask t.mask
  unfold Cuckoo.rehashAlloc
  cases left with
  | zero => exact hlt
  | succ left =>
    dsimp only
    generalize (if t.mask = 0 then 1 else (t.mask <<< 1) ||| t.mask) = mask at hlt ⊢
    split_ifs
    swap
    · trivial
    refine Ensures.map (P := fun s => mask ≤ s.2.1.mask) ?_ fun s hs => hlt.le.trans hs
    refine ensures_foldlM (fun _ (s : Vec (Key T) × Table T × ℕ) => mask ≤ s.2.1.mask)
      (le_refl mask) fun _ i _ s _ hs => ?_
    unfold moveSlot
    split_ifs
    · have hinsert := h (s.1.get i) s.2.1 s.2.2
      refine (hinsert.map (Q := fun s : Vec (Key T) × Table T × ℕ => mask ≤ s.2.1.mask)
        fun r hr => hs.trans hr).mapError ?_
      intro e he
      exact he.map fun u hu => hlt.trans (hs.trans_lt hu)
    · exact hs

variable (allowed) in
theorem maskGrows_insertIntoAlloc (fuel : ℕ) :
    MaskGrows (insertIntoAlloc (T := T) allowed fuel) := by
  induction fuel with
  | zero => exact fun _ _ _ => trivial
  | succ fuel ih =>
    intro k t left
    unfold insertIntoAlloc
    cases hplace : place k t with
    | some t' =>
      exact (place_mask hplace).ge
    | none =>
      dsimp only
      generalize kick t.mask (if t.mask < 2 ^ 32 then t.mask else fuel) true k t.slots = r
      obtain ⟨hand, slots⟩ := r
      cases hand with
      | none => exact le_refl t.mask
      | some k' =>
        dsimp only
        split_ifs
        · have hrehash := ih.rehashAlloc allowed { t with slots := slots } left
          refine (hrehash.mapError fun e he => he.map fun u hu => ?_).bind fun r hr => ?_
          · exact hu
          · exact (ih k' r.1 r.2).mono (fun u hu => hr.trans hu) fun e he => he.mono fun u hu =>
              hr.trans_lt hu
        · trivial

theorem le_doubleWhile (bound mask : ℕ) : mask ≤ CuckooHashSet.doubleWhile bound mask := by
  induction mask using CuckooHashSet.doubleWhile.induct bound with
  | case1 mask hmask ih =>
    rw [CuckooHashSet.doubleWhile, if_pos hmask]
    rw [Nat.shiftLeft_eq] at ih ⊢
    omega
  | case2 mask hmask => rw [CuckooHashSet.doubleWhile, if_neg hmask]

/-- **What an exception leaves**: `size` is right, and either `mask` is too great for the table or
the table has been freed. -/
theorem thrown_spec {fuel left : ℕ} {s : CuckooHashSet T} {call : AllocCall T} {s' : Held T}
    (h : s.attempt allowed fuel left call = .error (.thrown s')) :
    s'.sz = s.sz ∧
      match call with
      | .insert _ => s'.ht.isSome ∧ s.mask < s'.mask
      | .reserve _ => s'.ht = none ∧ s.mask < s'.mask
      | .assign _ => s'.ht = none ∧ s'.mask = s.mask := by
  unfold CuckooHashSet.attempt at h
  cases call with
  | insert k =>
    dsimp only at h ⊢
    split_ifs at h
    have hgrows := maskGrows_insertIntoAlloc allowed fuel k
      { slots := s.ht, mask := s.mask } left
    have hleaves := ((hgrows.map (Q := fun _ => True) fun _ _ => trivial).mapError
      (F := Stop.Leaves fun u : Held T => u.sz = s.sz ∧ u.ht.isSome ∧ s.mask < u.mask)
      fun e he => he.map fun u hu => ⟨rfl, rfl, hu⟩).of_error h
    exact hleaves
  | reserve n =>
    dsimp only at h ⊢
    split_ifs at h
    obtain rfl := Stop.thrown.inj (Except.error.inj h)
    exact ⟨rfl, rfl, le_doubleWhile _ _⟩
  | assign other =>
    dsimp only at h ⊢
    split_ifs at h
    obtain rfl := Stop.thrown.inj (Except.error.inj h)
    exact ⟨rfl, rfl, rfl⟩

/-- What is observed of a set is what was observed before the call. -/
structure Unchanged (s : CuckooHashSet T) (s' : Held T) : Prop where
  mask_eq : s'.mask = s.mask
  /-- The table is the same, and has not been freed. -/
  ht_eq : s'.ht = some s.ht
  count_eq : ∀ k, s'.count k = some (s.count k)
  size_eq : s'.sz = s.size

/-- **No exception leaves the set unchanged.** -/
theorem not_unchanged_of_thrown (allowed : ℕ → Bool) (fuel left : ℕ) (s : CuckooHashSet T)
    (call : AllocCall T) (s' : Held T)
    (h : s.attempt allowed fuel left call = .error (.thrown s')) : ¬Unchanged s s' := by
  intro hsame
  have hspec := (thrown_spec h).2
  cases call with
  | insert k => exact hspec.2.ne hsame.mask_eq.symm
  | reserve n => exact hspec.2.ne hsame.mask_eq.symm
  | assign other =>
    rw [hsame.ht_eq] at hspec
    cases hspec.1

/-- The keys `0` to `3`, which fill the first table. -/
def fullSet : CuckooHashSet .uint32 where
  ht := #[0, 1, 2, 3]
  mask := 0
  sz := 4

/-- What is left of it when another key is inserted and the allocation of `rehash` fails. -/
def fullSetThrown : Held .uint32 where
  ht := some #[0, 1, 2, 3]
  mask := 1
  sz := 4

theorem attempt_fullSet : fullSet.attempt (fitsInt .uint32) 33 0 (.insert 4)
    = .error (.thrown fullSetThrown) := by rfl

/-- The set is changed by the exception. -/
theorem not_unchanged_fullSet : ¬Unchanged fullSet fullSetThrown :=
  not_unchanged_of_thrown (fitsInt .uint32) 33 0 fullSet (.insert 4) fullSetThrown attempt_fullSet

/-- After four keys have been inserted, the insertion of a fifth one throws, and leaves a set that
looks for keys outside its table. -/
theorem exists_thrown_changed :
    CuckooHashSet.empty.insertAllIf (fitsInt .uint32) 33 [0, 1, 2, 3] = .ok fullSet ∧
      fullSet.attempt (fitsInt .uint32) 33 0 (.insert 4) = .error (.thrown fullSetThrown) ∧
      ¬Unchanged fullSet fullSetThrown := by
  refine ⟨by rfl, attempt_fullSet, fun hsame => ?_⟩
  have hcount : fullSetThrown.count 1 = some (fullSet.count 1) := hsame.count_eq 1
  have hnone : fullSetThrown.count 1 = none := by decide
  rw [hnone] at hcount
  cases hcount

end ParallelEnum.Cuckoo
