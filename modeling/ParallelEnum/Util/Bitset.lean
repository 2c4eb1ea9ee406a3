import ParallelEnum.Theory.PackedBits
import Mathlib.Algebra.Group.Nat.Defs

/-!
# `bitset`

The class of `util/bitset.hpp`.  Its words are a `std::array`, which is read and written by index:
an access outside it is an error, except in the loops, whose conditions rule it out.  The values of
type `size_t` are computed modulo `2 ^ 64`.
-/

namespace ParallelEnum

/-- `bitset<SZ>` -/
structure Bitset (SZ : ℕ) where
  data : Vector (BitVec 64) SZ
deriving DecidableEq

namespace Bitset

/-- The reasons for which a call does not return. -/
inductive Error where
  /-- There is no such word in `data_`. -/
  | outOfRange
  | runtimeError (what : String)
deriving DecidableEq

abbrev bitsPerItem : ℕ := 64

/-- `max` -/
def max (SZ : ℕ) : ℕ := SZ * bitsPerItem % 2 ^ 64

variable {SZ : ℕ} (s : Bitset SZ)

/-! ### Single indices -/

/-- `clear` -/
def clear : Bitset SZ := ⟨s.data.map fun _ => 0⟩

/-- `data_[i] = f(data_[i])` -/
def modify (i : ℕ) (f : BitVec 64 → BitVec 64) : Except Error (Bitset SZ) :=
  if h : i < SZ then .ok ⟨s.data.set i (f s.data[i])⟩ else .error .outOfRange

/-- `set` -/
def set (i : ℕ) : Except Error (Bitset SZ) :=
  s.modify (i / bitsPerItem) fun word => word ||| 1#64 <<< (i % bitsPerItem)

/-- `reset` -/
def reset (i : ℕ) : Except Error (Bitset SZ) :=
  s.modify (i / bitsPerItem) fun word => word &&& ~~~(1#64 <<< (i % bitsPerItem))

/-- `get` -/
def get (i : ℕ) : Except Error Bool :=
  if h : i / bitsPerItem < SZ then
    .ok (s.data[i / bitsPerItem] &&& 1#64 <<< (i % bitsPerItem) ≠ 0)
  else .error .outOfRange

/-! ### `count` and `empty` -/

/-- The loop of `count`, from the values of `i` and `sum` on. -/
def countFrom (i sum : ℕ) : ℕ :=
  if h : i < SZ then countFrom (i + 1) ((sum + s.data[i].cpop.toNat) % 2 ^ 64) else sum
termination_by SZ - i

/-- `count` -/
def count : ℕ := s.countFrom 0 0

/-- `size` -/
def size : ℕ := s.count

/-- The loop of `empty`, from the values of `i` and `d` on. -/
def emptyFrom (i : ℕ) (d : BitVec 64) : BitVec 64 :=
  if h : i < SZ then emptyFrom (i + 1) (d ||| s.data[i]) else d
termination_by SZ - i

/-- `empty` -/
def empty : Bool := s.emptyFrom 0 0 = 0

/-! ### The iterator

An iterator is the value of its `curr`. -/

/-- The loop of `operator++`, from the values of `i` and `off_start` on. -/
def seek (i offStart : ℕ) : ℕ :=
  if h : i < SZ then
    let d := s.data[i] >>> offStart
    if d ≠ 0 then (i * bitsPerItem + d.ctz.toNat + offStart) % 2 ^ 64 else seek (i + 1) 0
  else max SZ
termination_by SZ - i

/-- `operator++` -/
def next (curr : ℕ) : ℕ :=
  let start := (curr + 1) % 2 ^ 64
  s.seek (start / bitsPerItem) (start % bitsPerItem)

/-- `begin` -/
def beginIt : Except Error ℕ := do
  let first ← s.get 0
  if !first then .ok (s.next 0) else .ok 0

/-- `end` -/
def endIt (_ : Bitset SZ) : ℕ := max SZ

/-- The values of `*it` in a loop `for (; it != end(); ++it)`, if it ends within as many tests of
its condition. -/
def visit : ℕ → ℕ → Option (List ℕ)
  | 0, _ => none
  | tests + 1, it =>
    if it ≠ s.endIt then (visit tests (s.next it)).map (it :: ·) else some []

/-! ### `list` -/

/-- The variables of `list`. -/
@[ext] structure Listing where
  out : List ℕ
  cnt : ℕ
  it : ℕ
  /-- The `return` in the inner loop has been reached. -/
  returned : Bool

/-- The body of the inner loop of `list` for the index `j`, up to the `return`. -/
def append (limit j : ℕ) (l : Listing) : Listing :=
  let cnt := (l.cnt + 1) % 2 ^ 64
  { out := l.out ++ [j], cnt := cnt, it := s.next l.it, returned := cnt = limit }

/-- The inner loop of `list`, from the value of `curr` on. -/
def listWord (limit i : ℕ) (curr : BitVec 64) (l : Listing) : Listing :=
  if curr ≠ 0 then
    let off := curr.ctz.toNat
    let l := s.append limit ((i * bitsPerItem + off) % 2 ^ 64) l
    if l.returned then l else listWord limit i (curr &&& ~~~(1#64 <<< off)) l
  else l
termination_by curr.toNat
decreasing_by exact PackedBits.toNat_clear_ctz_lt ‹_›

/-- The outer loop of `list`, from the value of `i` on. -/
def listFrom (limit i : ℕ) (l : Listing) : Listing :=
  if h : i < SZ then
    let l := s.listWord limit i s.data[i] l
    if l.returned then l else listFrom limit (i + 1) l
  else l
termination_by SZ - i

/-- `list` -/
def list (out : List ℕ) (limit : ℕ) : Except Error (List ℕ) := do
  let it ← s.beginIt
  let l := s.listFrom limit 0 { out := out, cnt := 0, it := it, returned := false }
  if l.returned then .ok l.out
  else if l.it ≠ s.endIt then .error (.runtimeError "IT too long")
  else .ok l.out

/-! ### `front` and `back` -/

/-- The loop of `front`, from the value of `i` on. -/
def frontFrom (i : ℕ) : ℕ :=
  if h : i < SZ then
    let curr := s.data[i]
    if curr ≠ 0 then (i * bitsPerItem + curr.ctz.toNat) % 2 ^ 64 else frontFrom (i + 1)
  else max SZ
termination_by SZ - i

/-- `front` -/
def front : ℕ := s.frontFrom 0

/-- The loop of `back`, from the value of `i` on. -/
def backFrom : (i : ℕ) → i ≤ SZ → ℕ
  | 0, _ => max SZ
  | i + 1, h =>
    let curr := s.data[i]
    if curr ≠ 0 then (i * bitsPerItem + (bitsPerItem - 1 - curr.clz.toNat)) % 2 ^ 64
    else backFrom i (Nat.le_of_succ_le h)

/-- `back` -/
def back : ℕ := s.backFrom SZ (Nat.le_refl SZ)

/-! ### Two sets -/

/-- `operator|=`, and the value of `operator|` -/
def orAssign (other : Bitset SZ) : Bitset SZ := ⟨s.data.zipWith (· ||| ·) other.data⟩

/-- `operator&=`, and the value of `operator&` -/
def andAssign (other : Bitset SZ) : Bitset SZ := ⟨s.data.zipWith (· &&& ·) other.data⟩

/-- `operator-=`, and the value of `operator-` -/
def subAssign (other : Bitset SZ) : Bitset SZ :=
  ⟨s.data.zipWith (fun word otherWord => word &&& ~~~otherWord) other.data⟩

end Bitset

end ParallelEnum
