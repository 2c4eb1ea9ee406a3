import ParallelEnum.Util.Vector
import Mathlib.Algebra.Group.Nat.Defs

/-!
# `cuckoo_hash_set`

The hash set of `util/cuckoo.hpp`, for the unsigned types of keys.  A key lies in one of two
buckets of consecutive slots; a free slot holds `missing`.  `insert` moves other keys to their
second bucket to make room, and doubles the table if that does not end soon enough.

Bucket numbers are computed as `int`, so the model stops with `maskTooLarge` before `mask` reaches
`2 ^ 29`.  The mutual recursion of `insert` and `rehash` takes a fuel; thirty levels are enough.
`insertIntoIf` is the same for other bounds on `mask`, or without one.
-/

namespace ParallelEnum.Cuckoo

/-- The types `T` of keys. -/
inductive KeyType where
  | uint32
  | uint64
deriving DecidableEq

namespace KeyType

/-- The number of bits in `T`. -/
def width : KeyType → ℕ
  | uint32 => 32
  | uint64 => 64

/-- `bucket_size`: `16 / sizeof(T)` -/
def bucketSize (T : KeyType) : ℕ := 16 / (T.width / 8)

end KeyType

/-- A value of type `T`. -/
abbrev Key (T : KeyType) := BitVec T.width

variable {T : KeyType}

/-- `missing`: `T(-1)` -/
def missing : Key T := -1

/-- `hash_1` -/
def hash1 (mask : ℕ) (k : Key T) : ℕ := k.toNat &&& mask

/-- `hash_2` -/
def hash2 (mask : ℕ) (k : Key T) : ℕ := (~~~k).toNat &&& mask

/-! ### Inserting a key that is not in the table -/

/-- A table, and the `mask` that goes with it. -/
structure Table (T : KeyType) where
  slots : Vec (Key T)
  mask : ℕ

/-- The reasons for which the model stops. -/
inductive Failure where
  | outOfFuel
  | maskTooLarge
deriving DecidableEq

/-- The index in `*table` of a position in a bucket. -/
def slot (T : KeyType) (bucket pos : ℕ) : ℕ := bucket * T.bucketSize + pos

/-- The loops over `pos` that look for a value in a bucket. -/
def find (slots : Vec (Key T)) (bucket : ℕ) (x : Key T) : Option ℕ :=
  (List.range T.bucketSize).find? fun pos => slots.get (slot T bucket pos) = x

/-- Put the key in the first free slot of its first bucket, or else of its second bucket. -/
def place (k : Key T) (t : Table T) : Option (Table T) :=
  let h1 := hash1 t.mask k
  match find t.slots h1 missing with
  | some pos => some { t with slots := t.slots.set (slot T h1 pos) k }
  | none =>
    let h2 := hash2 t.mask k
    match find t.slots h2 missing with
    | some pos => some { t with slots := t.slots.set (slot T h2 pos) k }
    | none => none

/-- The loop that moves the keys of a bucket one slot to the front. -/
def shift (slots : Vec (Key T)) (bucket : ℕ) : Vec (Key T) :=
  (List.range' 1 (T.bucketSize - 1)).foldl
    (fun slots pos => slots.set (slot T bucket pos - 1) (slots.get (slot T bucket pos))) slots

/-- Put the key in a bucket: the value that was there before, and the table. -/
def swapIn (bucket : ℕ) (k : Key T) (slots : Vec (Key T)) : Key T × Vec (Key T) :=
  match find slots bucket missing with
  | none =>
    (slots.get (slot T bucket 0),
      (shift slots bucket).set (slot T bucket T.bucketSize - 1) k)
  | some pos => (slots.get (slot T bucket pos), slots.set (slot T bucket pos) k)

/-- `for (unsigned i = 0; i < mask; i++)`: the key in hand at the end, if there is one. -/
def kick (mask : ℕ) : ℕ → Bool → Key T → Vec (Key T) → Option (Key T) × Vec (Key T)
  | 0, _, k, slots => (some k, slots)
  | iterations + 1, useHash1, k, slots =>
    let hash := if useHash1 then hash1 mask k else hash2 mask k
    let r := swapIn hash k slots
    if r.1 = missing then (none, r.2)
    else kick mask iterations (hash = hash2 mask r.1) r.1 r.2

/-- `rehash`, given the `insert` that it calls. -/
def rehash (insert : Key T → Table T → Except Failure (Table T)) (t : Table T) :
    Except Failure (Table T) :=
  let mask := if t.mask = 0 then 1 else (t.mask <<< 1) ||| t.mask
  if 2 ^ 29 ≤ mask then .error .maskTooLarge
  else
    (List.range ((t.mask + 1) * T.bucketSize)).foldlM
      (fun newt i =>
        if t.slots.get i ≠ missing then insert (t.slots.get i) newt else .ok newt)
      { slots := Array.replicate ((mask + 1) * T.bucketSize) missing, mask := mask }

/-- The private `insert` -/
def insertInto : ℕ → Key T → Table T → Except Failure (Table T)
  | 0, _, _ => .error .outOfFuel
  | fuel + 1, k, t =>
    match place k t with
    | some t => .ok t
    | none =>
      match kick t.mask t.mask true k t.slots with
      | (none, slots) => .ok { t with slots := slots }
      | (some k, slots) =>
        (rehash (insertInto fuel) { t with slots := slots }).bind (insertInto fuel k)

/-! ### Inserting with another bound on the mask -/

/-- `rehash`, for the masks that are `allowed`. -/
def rehashIf (allowed : ℕ → Bool) (insert : Key T → Table T → Except Failure (Table T))
    (t : Table T) : Except Failure (Table T) :=
  let mask := if t.mask = 0 then 1 else (t.mask <<< 1) ||| t.mask
  if allowed mask then
    (List.range ((t.mask + 1) * T.bucketSize)).foldlM
      (fun newt i =>
        if t.slots.get i ≠ missing then insert (t.slots.get i) newt else .ok newt)
      { slots := Array.replicate ((mask + 1) * T.bucketSize) missing, mask := mask }
  else .error .maskTooLarge

/-- The private `insert`, for the masks that are `allowed`.  The counter `i` of its loop is an
`unsigned`, which never reaches a `mask` of `2 ^ 32` or more: then only a free slot ends the
loop. -/
def insertIntoIf (allowed : ℕ → Bool) : ℕ → Key T → Table T → Except Failure (Table T)
  | 0, _, _ => .error .outOfFuel
  | fuel + 1, k, t =>
    match place k t with
    | some t => .ok t
    | none =>
      match kick t.mask (if t.mask < 2 ^ 32 then t.mask else fuel) true k t.slots with
      | (none, slots) => .ok { t with slots := slots }
      | (some k, slots) =>
        if t.mask < 2 ^ 32 then
          (rehashIf allowed (insertIntoIf allowed fuel) { t with slots := slots }).bind
            (insertIntoIf allowed fuel k)
        else .error .outOfFuel

/-- Every index into the table is an `int`. -/
def fitsInt (T : KeyType) (mask : ℕ) : Bool := decide ((mask + 1) * T.bucketSize ≤ 2 ^ 31)

/-! ### The public functions -/

/-- `cuckoo_hash_set<T>` -/
structure CuckooHashSet (T : KeyType) where
  ht : Vec (Key T)
  mask : ℕ
  sz : ℕ

namespace CuckooHashSet

/-- The default constructor. -/
def empty : CuckooHashSet T where
  ht := Array.replicate T.bucketSize missing
  mask := 0
  sz := 0

variable (s : CuckooHashSet T)

/-- `size` -/
def size : ℕ := s.sz

/-- `capacity` -/
def capacity : ℕ := (s.mask + 1) * T.bucketSize

/-- `_mm_load_si128`: the lanes of a register that holds a bucket. -/
def load (bucket : ℕ) : List (Key T) :=
  (List.range 4).map fun lane => s.ht.get (T.bucketSize * bucket + lane)

end CuckooHashSet

/-- `_mm_cmpeq_epi32`: a lane of ones where the lanes are equal, and else of zeros. -/
def cmpeq (a b : List (Key T)) : List (Key T) :=
  List.zipWith (fun x y => if x = y then -1 else 0) a b

/-- `_mm_movemask_epi8`: the highest bits of all bytes. -/
def movemask (a : List (Key T)) : List Bool :=
  a.flatMap fun lane => (List.range (T.width / 8)).map fun byte => lane.getLsbD (8 * byte + 7)

namespace CuckooHashSet

variable (s : CuckooHashSet T)

/-- The path of `count` that compares four lanes at once. -/
def countLanes (k : Key T) : Bool :=
  let h1 := hash1 s.mask k
  let h2 := hash2 s.mask k
  let cmp := List.replicate 4 k
  let b1 := s.load h1
  let b2 := s.load h2
  let flag := List.zipWith (· ||| ·) (cmpeq cmp b1) (cmpeq cmp b2)
  (movemask flag).any id

/-- The loop of `count`. -/
def countLoop (k : Key T) : Bool :=
  let h1 := hash1 s.mask k
  let h2 := hash2 s.mask k
  (List.range T.bucketSize).foldl
    (fun result i => result || (s.ht.get ((T.bucketSize * h1) ||| i) = k ||
      s.ht.get ((T.bucketSize * h2) ||| i) = k)) false

/-- `count` -/
def count (k : Key T) : Bool :=
  if T.bucketSize = 4 ∧ T.width / 8 = 4 then s.countLanes k else s.countLoop k

/-- `insert` -/
def insert (k : Key T) : Except Failure (CuckooHashSet T) :=
  if s.count k then .ok s
  else
    (insertInto 30 k { slots := s.ht, mask := s.mask }).map fun t =>
      { ht := t.slots, mask := t.mask, sz := s.sz + 1 }

/-- `insert`, for the masks that are `allowed`. -/
def insertIf (allowed : ℕ → Bool) (fuel : ℕ) (k : Key T) : Except Failure (CuckooHashSet T) :=
  if s.count k then .ok s
  else
    (insertIntoIf allowed fuel k { slots := s.ht, mask := s.mask }).map fun t =>
      { ht := t.slots, mask := t.mask, sz := s.sz + 1 }

/-- `for (k : ks) insert(k)`, for the masks that are `allowed`. -/
def insertAllIf (allowed : ℕ → Bool) (fuel : ℕ) (ks : List (Key T)) :
    Except Failure (CuckooHashSet T) :=
  ks.foldlM (fun s k => s.insertIf allowed fuel k) s

/-- `erase` -/
def erase (k : Key T) : CuckooHashSet T :=
  let h1 := hash1 s.mask k
  match find s.ht h1 k with
  | some pos => { s with ht := s.ht.set (slot T h1 pos) missing, sz := s.sz - 1 }
  | none =>
    let h2 := hash2 s.mask k
    match find s.ht h2 k with
    | some pos => { s with ht := s.ht.set (slot T h2 pos) missing, sz := s.sz - 1 }
    | none => s

/-! ### `const_iterator` -/

/-- `while (offset != capacity() && ht[offset] == missing) ++offset`, from `offset` on with this
many slots left. -/
def skip : ℕ → ℕ → ℕ
  | 0, offset => offset
  | left + 1, offset =>
    if offset ≠ s.capacity ∧ s.ht.get offset = missing then skip left (offset + 1) else offset

/-- The constructor of `const_iterator`. -/
def iteratorAt (offset : ℕ) : ℕ := s.skip (s.capacity - offset) offset

/-- `begin` -/
def beginIterator : ℕ := s.iteratorAt 0

/-- `end` -/
def endIterator : ℕ := s.iteratorAt s.capacity

/-- `++it` -/
def next (it : ℕ) : ℕ := s.skip (s.capacity - (it + 1)) (it + 1)

/-- `for (; it != end(); ++it)`: the values of `*it`; `none` if the loop does not end. -/
def walk : ℕ → ℕ → Option (List (Key T))
  | 0, _ => none
  | fuel + 1, it =>
    if it ≠ s.endIterator then (walk fuel (s.next it)).map (s.ht.get it :: ·) else some []

end CuckooHashSet

/-! ### Sequences of calls -/

/-- A call of a public function. -/
inductive Call (T : KeyType) where
  | insert (k : Key T)
  | erase (k : Key T)
deriving DecidableEq

def Call.key : Call T → Key T
  | .insert k => k
  | .erase k => k

/-- A set after a call. -/
def CuckooHashSet.step (s : CuckooHashSet T) : Call T → Except Failure (CuckooHashSet T)
  | .insert k => s.insert k
  | .erase k => .ok (s.erase k)

/-- A default-constructed set after some calls. -/
def CuckooHashSet.run (calls : List (Call T)) : Except Failure (CuckooHashSet T) :=
  calls.foldlM CuckooHashSet.step CuckooHashSet.empty

end ParallelEnum.Cuckoo
