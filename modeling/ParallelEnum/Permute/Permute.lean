import ParallelEnum.Util.Graph

/-!
# `DegeneracyOrder`

The order of `permute/permute.hpp`: vertices of smallest remaining degree first, by a bucket queue.
Bucket `r` holds the vertices of remaining degree `r` that have not been taken.

`degeneracyOrderChecked` is the same program with an error for every access outside a vector.
-/

namespace ParallelEnum

/-- The local variables of `DegeneracyOrder`. -/
structure Buckets where
  perm : List ℕ := []
  d : Vec (Vec ℕ)
  degs : Vec ℕ
  /-- Where a vertex is in its bucket. -/
  positions : Vec ℕ
  used : Vec Bool

namespace Buckets

/-- `d[r].push_back(x)`, with `degs[x]` and `positions[x]` brought up to date. -/
def place (s : Buckets) (x r : ℕ) : Buckets :=
  let row := (s.d.get r).push x
  { s with
    d := s.d.set r row
    degs := s.degs.set x r
    positions := s.positions.set x (row.size - 1) }

/-- Take `x` out of its bucket: it changes places with the last entry, whose position is written
through the reference `to_swap`, and is removed. -/
def unlink (s : Buckets) (x : ℕ) : Buckets :=
  let r := s.degs.get x
  let p := s.positions.get x
  let row := s.d.get r
  let row := (row.set p row.back).set (row.size - 1) (row.get p)
  { s with
    positions := s.positions.set (row.get p) p
    d := s.d.set r row.pop }

/-- The body of the loop over the neighbours of the vertex taken. -/
def lower (s : Buckets) (x : ℕ) : Buckets :=
  if s.used.get x then s
  else
    let s := s.unlink x
    s.place x (s.degs.get x - 1)

/-- Take the last vertex of bucket `j`. -/
def takeBack (s : Buckets) (j : ℕ) : Buckets :=
  { s with
    d := s.d.set j (s.d.get j).pop
    perm := s.perm ++ [(s.d.get j).back]
    used := s.used.set (s.d.get j).back true }

/-- `while (d[j].empty()) j++`, within the buckets there are. -/
def findBucket (s : Buckets) : ℕ → ℕ → ℕ
  | 0, j => j
  | fuel + 1, j => if (s.d.get j).isEmpty then s.findBucket fuel (j + 1) else j

variable (g : Graph)

/-- The buckets when every vertex has been put in the one of its degree. -/
def init : Buckets :=
  (List.range g.size).foldl (fun s i => s.place i (g.degree i))
    { d := Vec.zeros g.size
      degs := Vec.zeros g.size
      positions := Vec.zeros g.size
      used := Vec.zeros g.size }

/-- One iteration of the main loop, on the buckets and `j`. -/
def round (s : Buckets × ℕ) : Buckets × ℕ :=
  let j := s.1.findBucket s.1.d.size s.2
  let v := (s.1.d.get j).back
  ((g.neighs v).foldl lower (s.1.takeBack j), if j > 0 then j - 1 else j)

end Buckets

/-- `DegeneracyOrder` -/
def degeneracyOrder (g : Graph) : List ℕ :=
  ((List.range g.size).foldl (fun s _ => Buckets.round g s) (Buckets.init g, 0)).1.perm

/-! ### With every access checked -/

namespace Buckets

/-- `place` -/
def placeChecked (s : Buckets) (x r : ℕ) : Option Buckets := do
  let row ← s.d.read r
  let row := row.push x
  let d ← s.d.write r row
  let degs ← s.degs.write x r
  let positions ← s.positions.write x (row.size - 1)
  return { s with d, degs, positions }

/-- `unlink` -/
def unlinkChecked (s : Buckets) (x : ℕ) : Option Buckets := do
  let r ← s.degs.read x
  let p ← s.positions.read x
  let row ← s.d.read r
  let entry ← row.read p
  let last ← row.read (row.size - 1)
  let row ← row.write p last
  let row ← row.write (row.size - 1) entry
  -- `to_swap` refers to the slot, which holds the last entry now
  let toSwap ← row.read p
  let positions ← s.positions.write toSwap p
  let d ← s.d.write r row.pop
  return { s with positions, d }

/-- `lower`.  A degree of 0 cannot be lowered. -/
def lowerChecked (s : Buckets) (x : ℕ) : Option Buckets := do
  let used ← s.used.read x
  if used then return s
  let s ← s.unlinkChecked x
  let deg ← s.degs.read x
  guard (0 < deg)
  s.placeChecked x (deg - 1)

/-- `takeBack` -/
def takeBackChecked (s : Buckets) (j : ℕ) : Option Buckets := do
  let row ← s.d.read j
  let v ← row.read (row.size - 1)
  let d ← s.d.write j row.pop
  let used ← s.used.write v true
  return { s with d, perm := s.perm ++ [v], used }

/-- `while (d[j].empty()) j++` -/
def findBucketChecked (s : Buckets) (j : ℕ) : Option ℕ :=
  if j < s.d.size then
    if (s.d.get j).isEmpty then s.findBucketChecked (j + 1) else some j
  else none
termination_by s.d.size - j

variable (g : Graph)

/-- `init` -/
def initChecked : Option Buckets :=
  (List.range g.size).foldlM (fun s i => s.placeChecked i (g.degree i))
    { d := Vec.zeros g.size
      degs := Vec.zeros g.size
      positions := Vec.zeros g.size
      used := Vec.zeros g.size }

/-- `round` -/
def roundChecked (s : Buckets × ℕ) : Option (Buckets × ℕ) := do
  let j ← s.1.findBucketChecked s.2
  let row ← s.1.d.read j
  let v ← row.read (row.size - 1)
  let t ← s.1.takeBackChecked j
  let t ← (g.neighs v).foldlM lowerChecked t
  return (t, if j > 0 then j - 1 else j)

end Buckets

/-- `DegeneracyOrder`, with every access checked. -/
def degeneracyOrderChecked (g : Graph) : Option (List ℕ) := do
  let s ← Buckets.initChecked g
  let t ← (List.range g.size).foldlM (fun s _ => Buckets.roundChecked g s) (s, 0)
  return t.1.perm

end ParallelEnum
