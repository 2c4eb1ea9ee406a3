import ParallelEnum.Util.Cuckoo.Bulk

/-!
# `cuckoo_hash_set` when memory runs out

`insert`, `reserve` and `operator=` with a call of `posix_memalign` that fails.  They throw then,
and what is left of the set is the state of the exception.  The argument `left` says how many calls
of `posix_memalign` succeed before the one that fails.

The private `insert` takes its key by reference, and leaves there the key that it has in hand.
`rehash` passes it references to the slots of the old table.
-/

namespace ParallelEnum.Cuckoo

variable {T : KeyType}

/-- The reasons for which a call does not return. -/
inductive Stop (σ : Type) where
  | failure (f : Failure)
  /-- `runtime_error("posix_memalign")` has been thrown in this state. -/
  | thrown (state : σ)

/-- The same reason, seen from the function that called. -/
def Stop.map {σ τ : Type} (f : σ → τ) : Stop σ → Stop τ
  | failure e => failure e
  | thrown state => thrown (f state)

/-! ### `insert` -/

/-- The type of the private `insert`: from key, table and `left` to what it leaves in them. -/
abbrev InsertAlloc (T : KeyType) :=
  Key T → Table T → ℕ → Except (Stop (Key T × Table T)) (Key T × Table T × ℕ)

/-- One iteration of the loop of `rehash`, on the old slots, the new table and `left`. -/
def moveSlot (insert : InsertAlloc T) (s : Vec (Key T) × Table T × ℕ) (i : ℕ) :
    Except (Stop (Table T)) (Vec (Key T) × Table T × ℕ) :=
  if s.1.get i ≠ missing then
    ((insert (s.1.get i) s.2.1 s.2.2).map fun r => (s.1.set i r.1, r.2.1, r.2.2)).mapError
      -- `newt` is lost, and `mask` stays as it is
      (Stop.map fun r => { slots := s.1.set i r.1, mask := r.2.mask })
  else .ok s

/-- `rehash`, given the `insert` that it calls. -/
def rehashAlloc (allowed : ℕ → Bool) (insert : InsertAlloc T) (t : Table T) (left : ℕ) :
    Except (Stop (Table T)) (Table T × ℕ) :=
  let mask := if t.mask = 0 then 1 else (t.mask <<< 1) ||| t.mask
  match left with
  | 0 => .error (.thrown { t with mask := mask })
  | left + 1 =>
    if allowed mask then
      ((List.range ((t.mask + 1) * T.bucketSize)).foldlM (moveSlot insert)
        (t.slots, { slots := Array.replicate ((mask + 1) * T.bucketSize) missing, mask := mask },
          left)).map fun s => s.2
    else .error (.failure .maskTooLarge)

/-- The private `insert` -/
def insertIntoAlloc (allowed : ℕ → Bool) : ℕ → InsertAlloc T
  | 0, _, _, _ => .error (.failure .outOfFuel)
  | fuel + 1, k, t, left =>
    match place k t with
    | some t => .ok (k, t, left)
    | none =>
      match kick t.mask (if t.mask < 2 ^ 32 then t.mask else fuel) true k t.slots with
      | (none, slots) => .ok (missing, { t with slots := slots }, left)
      | (some k, slots) =>
        if t.mask < 2 ^ 32 then
          ((rehashAlloc allowed (insertIntoAlloc allowed fuel) { t with slots := slots }
            left).mapError (Stop.map fun t => (k, t))).bind
              fun r => insertIntoAlloc allowed fuel k r.1 r.2
        else .error (.failure .outOfFuel)

/-! ### The public functions -/

/-- A `cuckoo_hash_set<T>` with the memory that `ht` points to. -/
structure Held (T : KeyType) where
  /-- The slots; `none` if the memory has been freed. -/
  ht : Option (Vec (Key T))
  mask : ℕ
  sz : ℕ

/-- `count`; `none` if it reads memory that the set does not own. -/
def Held.count (s : Held T) (k : Key T) : Option Bool :=
  s.ht.bind fun ht =>
    if (hash1 s.mask k + 1) * T.bucketSize ≤ ht.size ∧
        (hash2 s.mask k + 1) * T.bucketSize ≤ ht.size then
      some (CuckooHashSet.count { ht := ht, mask := s.mask, sz := s.sz } k)
    else none

/-- A call that allocates. -/
inductive AllocCall (T : KeyType) where
  | insert (k : Key T)
  | reserve (n : ℕ)
  /-- `operator=`, from another set. -/
  | assign (other : CuckooHashSet T)

/-- A set after a call.  A call of `posix_memalign` that fails leaves `ht` as it is. -/
def CuckooHashSet.attempt (allowed : ℕ → Bool) (fuel : ℕ) (s : CuckooHashSet T) (left : ℕ) :
    AllocCall T → Except (Stop (Held T)) (CuckooHashSet T)
  | .insert k =>
    if s.count k then .ok s
    else
      ((insertIntoAlloc allowed fuel k { slots := s.ht, mask := s.mask } left).map fun r =>
        { ht := r.2.1.slots, mask := r.2.1.mask, sz := s.sz + 1 }).mapError
          (Stop.map fun r => { ht := some r.2.slots, mask := r.2.mask, sz := s.sz })
  | .reserve n =>
    if n ≤ s.capacity then .ok s
    else if left = 0 then
      -- `free(ht)` comes first
      .error (.thrown
        { ht := none, mask := doubleWhile (n / T.bucketSize) (s.mask + 1), sz := s.sz })
    else .ok (s.reserve n)
  | .assign other =>
    if left = 0 then .error (.thrown { ht := none, mask := s.mask, sz := s.sz })
    else .ok other.assign

end ParallelEnum.Cuckoo
