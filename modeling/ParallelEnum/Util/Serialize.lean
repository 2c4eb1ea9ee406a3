import Mathlib.Algebra.Group.Nat.Defs

/-!
# `Serialize` and `Deserialize`

The overloads of `util/serialize.hpp`, which write values as `size_t` words and read them back.
There is one pair of overloads for each form a type can have; those for a composed type call those
for its parts.  `Deserialize` writes to a destination that exists already, and moves the cursor
over the words it has read.
-/

namespace ParallelEnum

/-- `size_t` -/
abbrev Word := BitVec 64

/-- `std::vector<T>`: its size is a `size_t`. -/
@[ext] structure StdVector (α : Type) where
  toList : List α
  length_lt : toList.length < 2 ^ 64
deriving DecidableEq

/-- The overloads for a type. -/
structure Serializable (α : Type) where
  /-- A default-constructed value. -/
  default : α
  serialize : α → List Word
  /-- From the destination and the words under the cursor to the value written and the words that
  are left; `none` if there are too few words. -/
  deserialize : α → List Word → Option (α × List Word)

namespace Serializable

variable {α β : Type}

/-- Integral types: `out->push_back(in)` and `*out = **in`, both with the integral conversions. -/
def integral (width : ℕ) (signed : Bool) : Serializable (BitVec width) where
  default := 0
  serialize x := [if signed then x.signExtend 64 else x.setWidth 64]
  deserialize _ words :=
    match words with
    | [] => none
    | word :: words => some (word.setWidth width, words)

/-- `bool` -/
def bool : Serializable Bool where
  default := false
  serialize x := [if x then 1 else 0]
  deserialize _ words :=
    match words with
    | [] => none
    | word :: words => some (word ≠ 0, words)

/-- `out->resize(n)` -/
def resize (default : α) (out : List α) (n : ℕ) : List α :=
  out.take n ++ List.replicate (n - out.length) default

theorem length_resize (default : α) (out : List α) (n : ℕ) :
    (resize default out n).length = n := by
  unfold resize
  rw [List.length_append, List.length_take, List.length_replicate]
  omega

/-- `for (T& t : *out) Deserialize(in, &t)` -/
def deserializeAll (c : Serializable α) : (out : List α) → List Word →
    Option ({out' : List α // out'.length = out.length} × List Word)
  | [], words => some (⟨[], rfl⟩, words)
  | x :: out, words =>
    (c.deserialize x words).bind fun r =>
      (deserializeAll c out r.2).map fun s =>
        (⟨r.1 :: s.1, congrArg Nat.succ s.1.property⟩, s.2)

/-- `std::vector<T>` -/
def vector (c : Serializable α) : Serializable (StdVector α) where
  default := ⟨[], Nat.two_pow_pos 64⟩
  serialize x := BitVec.ofNat 64 x.toList.length :: x.toList.flatMap c.serialize
  deserialize out words :=
    match words with
    | [] => none
    | n :: words =>
      (c.deserializeAll (resize c.default out.toList n.toNat) words).map fun r =>
        (⟨r.1, by rw [r.1.property, length_resize]; exact n.isLt⟩, r.2)

/-- The smart pointers: one word that tells whether there is a value, and the value. -/
def pointer (c : Serializable α) : Serializable (Option α) where
  default := none
  serialize
    | some x => 1 :: c.serialize x
    | none => [0]
  deserialize out words :=
    match words with
    | [] => none
    | word :: words =>
      if word ≠ 0 then (c.deserialize c.default words).map fun r => (some r.1, r.2)
      else some (out, words)

/-- `std::shared_ptr<T>` -/
def sharedPtr (c : Serializable α) : Serializable (Option α) := pointer c

/-- `std::unique_ptr<T>` -/
def uniquePtr (c : Serializable α) : Serializable (Option α) := pointer c

/-- `std::pair<T, U>` -/
def pair (c : Serializable α) (d : Serializable β) : Serializable (α × β) where
  default := (c.default, d.default)
  serialize x := c.serialize x.1 ++ d.serialize x.2
  deserialize out words :=
    (c.deserialize out.1 words).bind fun r =>
      (d.deserialize out.2 r.2).map fun s => ((r.1, s.1), s.2)

end Serializable

end ParallelEnum
