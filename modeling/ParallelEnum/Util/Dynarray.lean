import Mathlib.Algebra.Group.Nat.Defs

/-!
# `dynarray` when constructions throw

The constructors with a size, the destructor and `resize` of `util/dynarray.hpp`, with the memory
they work on.  An operation is `none` where it destroys an element that is not there or frees memory
that is not allocated, and says otherwise whether it has thrown.

The function `init` with a value declares a counter without a value for its cleanup loop; the number
`i` it happens to hold is an argument here.
-/

namespace ParallelEnum.Dynarray

/-! ### Memory -/

/-- Memory, in numbered blocks. -/
structure Memory where
  /-- The block that `malloc` returns next. -/
  next : ℕ
  allocated : ℕ → Bool
  /-- Whether a block has an element at an index that has been constructed and not destroyed. -/
  alive : ℕ → ℕ → Bool

namespace Memory

/-- The elements at some indices of a block are there, or are not. -/
def setAlive (m : Memory) (b : ℕ) (l : List ℕ) (x : Bool) : Memory :=
  { m with alive := fun b' i => if b' = b ∧ i ∈ l then x else m.alive b' i }

/-- `malloc` -/
def malloc (m : Memory) : ℕ × Memory :=
  (m.next,
    { m with next := m.next + 1, allocated := fun b => if b = m.next then true else m.allocated b })

/-- `free` -/
def free (m : Memory) (b : ℕ) : Option Memory :=
  if m.allocated b then
    some { m with allocated := fun b' => if b' = b then false else m.allocated b' }
  else none

/-- `(store + i)->~T()` -/
def destroy (b : ℕ) (m : Memory) (i : ℕ) : Option Memory :=
  if m.alive b i then some (m.setAlive b [i] false) else none

end Memory

/-! ### The members -/

/-- The type `T` of the elements: its size, and for which indices the construction throws. -/
structure Elements where
  size : ℕ
  throws : ℕ → Bool

/-- The data members of a `dynarray<T>`. -/
structure Members where
  /-- A block of memory, or a null pointer. -/
  store : Option ℕ
  count : ℕ

/-- How a function ends. -/
inductive Exit where
  | returned
  | thrown
deriving DecidableEq

section Functions

variable (T : Elements)

/-- The test of `alloc`, which throws for these sizes. -/
def rejects (n : ℕ) : Bool := n > (2 ^ 64 - 1) / T.size

/-- `for (size_type i = 0; i < count; ++i) new (store + i) T`, on the indices that are left. -/
def constructAll (b : ℕ) : List ℕ → Memory → Exit × Memory
  | [], m => (.returned, m)
  | i :: is, m => if T.throws i then (.thrown, m) else constructAll b is (m.setAlive b [i] true)

/-- The two functions `init`, in which `i` is the counter that the cleanup loop starts from: the
counter of the other loop is another variable, of the same name. -/
def initFrom (i b count : ℕ) (m : Memory) : Option (Exit × Memory) :=
  match constructAll T b (List.range count) m with
  | (.returned, m) => some (.returned, m)
  | (.thrown, m) => ((List.range i).reverse.foldlM (Memory.destroy b) m).map fun m => (.thrown, m)

/-- `init(n)` -/
def init (b count : ℕ) (m : Memory) : Option (Exit × Memory) := initFrom T 0 b count m

/-- `init(n, v)` -/
def initValue (i b count : ℕ) (m : Memory) : Option (Exit × Memory) := initFrom T i b count m

/-- The destructor. -/
def destructor (a : Members) (m : Memory) : Option Memory :=
  match a.store with
  | none => some m
  | some b => ((List.range a.count).foldlM (Memory.destroy b) m).bind fun m => m.free b

/-- The constructors with a size: the array, unless they throw. -/
def sizedWith (init : ℕ → ℕ → Memory → Option (Exit × Memory)) (n : ℕ) (m : Memory) :
    Option (Option Members × Memory) :=
  if rejects T n then some (none, m)
  else
    let r := m.malloc
    (init r.1 n r.2).map fun s =>
      (if s.1 = .returned then some { store := some r.1, count := n } else none, s.2)

/-- `dynarray(n)` -/
def sized (n : ℕ) (m : Memory) : Option (Option Members × Memory) := sizedWith T (init T) n m

/-- `dynarray(n, v)` -/
def sizedValue (i n : ℕ) (m : Memory) : Option (Option Members × Memory) :=
  sizedWith T (initValue T i) n m

/-- The two functions `resize`. -/
def resizeWith (init : ℕ → ℕ → Memory → Option (Exit × Memory)) (a : Members) (n : ℕ) (m : Memory) :
    Option (Exit × Members × Memory) :=
  (destructor a m).bind fun m =>
    if rejects T n then some (.thrown, a, m)
    else
      let r := m.malloc
      (init r.1 n r.2).map fun s => (s.1, { store := some r.1, count := n }, s.2)

/-- `resize(n)` -/
def resize (a : Members) (n : ℕ) (m : Memory) : Option (Exit × Members × Memory) :=
  resizeWith T (init T) a n m

/-- `resize(n, v)` -/
def resizeValue (i : ℕ) (a : Members) (n : ℕ) (m : Memory) : Option (Exit × Members × Memory) :=
  resizeWith T (initValue T i) a n m

end Functions

end ParallelEnum.Dynarray
