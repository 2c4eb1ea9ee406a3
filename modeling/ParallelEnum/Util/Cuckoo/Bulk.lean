import ParallelEnum.Util.Cuckoo
import Mathlib.Logic.Function.Basic

/-!
# The bulk operations of `cuckoo_hash_set`

`clear`, `reserve`, `operator=`, the copy constructor and `operator==`, and programs that mix them
with `insert` and `erase` on several sets.  Indices into a table are `int`s.
-/

namespace ParallelEnum.Cuckoo

variable {T : KeyType}

namespace CuckooHashSet

variable (s other : CuckooHashSet T)

/-- The method `empty` -/
def isEmpty : Bool := s.sz = 0

/-- `clear` -/
def clear : CuckooHashSet T := { s with ht := s.ht.setAll (List.range s.capacity) missing }

/-- `while (mask <= bound) mask <<= 1` -/
def doubleWhile (bound mask : ℕ) : ℕ :=
  if 0 < mask ∧ mask ≤ bound then doubleWhile bound (mask <<< 1) else mask
termination_by bound + 1 - mask
decreasing_by
  rw [Nat.shiftLeft_eq]
  omega

/-- `reserve` -/
def reserve (n : ℕ) : CuckooHashSet T :=
  if n ≤ s.capacity then s
  else
    let mask := doubleWhile (n / T.bucketSize) (s.mask + 1)
    -- the table is allocated and filled before `mask--`
    { s with ht := Array.replicate ((mask + 1) * T.bucketSize) missing, mask := mask - 1 }

/-- `operator=`, from another set. -/
def assign : CuckooHashSet T where
  ht := other.ht.resize other.capacity
  mask := other.mask
  sz := other.sz

/-- `operator=`, from the set itself: `memcpy` reads the memory that has just been allocated, which
holds `fresh`. -/
def assignSelf (fresh : Vec (Key T)) : CuckooHashSet T :=
  { s with ht := fresh.resize s.capacity }

/-- `operator==`; `none` if its loop does not end. -/
def equals : Option Bool :=
  if other.size ≠ s.size then some false
  else (other.walk (other.capacity + 1) other.beginIterator).map fun l => l.all s.count

/-- `erase`, also of a set whose `sz` is 0: then `sz--` wraps around. -/
def eraseAny (k : Key T) : CuckooHashSet T :=
  if s.sz = 0 ∧ ((find s.ht (hash1 s.mask k) k).isSome ∨ (find s.ht (hash2 s.mask k) k).isSome) then
    { s.erase k with sz := 2 ^ 64 - 1 }
  else s.erase k

end CuckooHashSet

/-- A call on some of the sets that a program uses, which are numbered. -/
inductive BulkCall (T : KeyType) where
  | insert (i : ℕ) (k : Key T)
  | erase (i : ℕ) (k : Key T)
  | clear (i : ℕ)
  | reserve (i n : ℕ)
  /-- Set `i` is assigned set `j`.  New memory holds `fresh`. -/
  | assign (i j : ℕ) (fresh : Vec (Key T))
  /-- Set `i` is constructed as a copy of set `j`. -/
  | copyConstruct (i j : ℕ)

/-- The sets of a program. -/
abbrev Sets (T : KeyType) := ℕ → CuckooHashSet T

/-- The sets after a call. -/
def Sets.step (st : Sets T) : BulkCall T → Except Failure (Sets T)
  | .insert i k =>
    ((st i).insertIf (fitsInt T) (T.width + 1) k).map fun s => Function.update st i s
  | .erase i k => .ok (Function.update st i ((st i).eraseAny k))
  | .clear i => .ok (Function.update st i (st i).clear)
  | .reserve i n => .ok (Function.update st i ((st i).reserve n))
  | .assign i j fresh =>
    .ok (Function.update st i (if i = j then (st i).assignSelf fresh else (st j).assign))
  | .copyConstruct i j => .ok (Function.update st i (st j).assign)

/-- The sets of a program at its start: default-constructed ones. -/
def Sets.start : Sets T := fun _ => CuckooHashSet.empty

/-- The sets after some calls. -/
def Sets.run (calls : List (BulkCall T)) : Except Failure (Sets T) :=
  calls.foldlM Sets.step Sets.start

end ParallelEnum.Cuckoo
