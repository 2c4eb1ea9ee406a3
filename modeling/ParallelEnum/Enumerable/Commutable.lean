import ParallelEnum.Enumerable.Enumerable
import ParallelEnum.Theory.BreadthFirst
import ParallelEnum.Theory.Traversal
import ParallelEnum.Util.PriorityQueue

/-!
# `CommutableSystem`: maximal solutions by prefix-closed reverse search

The functions of `enumerable/commutable.hpp`.  A node is a solution, in the order in which it is
found from its seed, with the levels of its elements.  The virtual functions that a derived class
overrides are the fields of `CommutableSystem`, with the defaults of the source; those that pass
elements to a callback are given as the list of what they pass.

`Complete` has no bound in the source, so its loops take a fuel; `none` is a call that does not
return, because the fuel does not bring it to its end or because an assertion fails.
-/

namespace ParallelEnum

open BreadthFirst Traversal

/-- `CommutableNode`: the elements of a solution and their levels. -/
abbrev CommutableNode : Type := List ℕ × List ℕ

/-- The virtual functions of `CommutableSystem`. -/
structure CommutableSystem where
  graphSize : ℕ
  /-- Checks if a given subset is a solution. -/
  isGood : List ℕ → Bool
  /-- Solves the restricted problem. -/
  restrictedProblem : List ℕ → ℕ → List (List ℕ)
  /-- Checks if we can add a given element to a solution. -/
  canAdd : List ℕ → ℕ → Bool := fun s v => isGood (s ++ [v])
  /-- Whether the restricted problem may have at least two solutions. -/
  restrMultiple : Bool := true
  /-- Checks if the given element can be a valid seed of a solution, or a root. -/
  isSeed : ℕ → Option (List ℕ) → Bool := fun v _ => isGood [v]
  /-- Iterates over all the possible new elements that could be added because of a single new
  element in a solution: `CompleteCandNum(ground_set, new_elem, iterator_num, idx)`. -/
  completeCandNum : Option (List ℕ) → ℕ → ℕ → ℕ → Option ℕ := fun groundSet _ _ idx =>
    match groundSet with
    | none => if idx < graphSize then some idx else none
    | some ground => ground[idx]?
  /-- Iterates over all the possible new elements that could be used for the restricted problem. -/
  restrictedCands : List ℕ → List ℕ → List ℕ := fun s _ =>
    (List.range graphSize).filter fun i => !s.contains i
  /-- Recomputes the order and the level of the elements in `s` with another seed.  The default
  throws. -/
  resort : List ℕ → List ℕ → ℕ → Option CommutableNode := fun _ _ _ => none
  /-- The seeds to be tried on a solution of the restricted problem. -/
  validSeeds : List ℕ → ℕ → List ℕ := fun sol cand =>
    sol.filter fun seed => isSeed seed (some sol) && !decide (cand ≤ seed)

namespace CommutableSystem

variable (sys : CommutableSystem)

/-- `s.front()` -/
def front (s : List ℕ) : ℕ := s.headD 0

/-- `s.back()` -/
def back (s : List ℕ) : ℕ := s.getLastD 0

/-! ### `Candidates` -/

/-- `info_t`: iteration index, owner node, owner level. -/
structure Info where
  idx : ℕ
  node : ℕ
  level : ℕ

/-- `CandIter`: level and node, iterator number. -/
abbrev CandIter : Type := Key ℕ ×ₗ ℕ

/-- `Candidates` -/
structure Candidates where
  addedSoFar : List ℕ := []
  pq : PriorityQueue CandIter := .empty
  info : List Info := []

/-- `InsertInPQ` -/
def insertInPQ (groundSet : Option (List ℕ)) (iteratorNum : ℕ) (c : Candidates) : Candidates :=
  match c.info[iteratorNum]? with
  | none => c
  | some inf =>
    let c := { c with info := c.info.set iteratorNum { inf with idx := inf.idx + 1 } }
    match sys.completeCandNum groundSet inf.node iteratorNum inf.idx with
    | none => c
    | some cand => { c with pq := c.pq.emplace (toLex (⟨inf.level + 1, cand⟩, iteratorNum)) }

/-- `CanReallyAdd` -/
def canReallyAdd (s : List ℕ) (c : Candidates) (v : ℕ) : Bool :=
  if c.addedSoFar.contains v then false
  else if s.contains v then true
  else sys.canAdd s v

/-- `Next` -/
def next (groundSet : Option (List ℕ)) (s : List ℕ) :
    ℕ → Candidates → Option (Option (Key ℕ) × Candidates)
  | 0, _ => none
  | fuel + 1, c =>
    match c.pq.pop with
    | none => some (none, c)
    | some (p, pq) =>
      let n := (ofLex p).1
      let c := sys.insertInPQ groundSet (ofLex p).2 { c with pq := pq }
      if sys.canReallyAdd s c n.node then some (some n, c) else next groundSet s fuel c

/-- `Add` -/
def add (groundSet : Option (List ℕ)) (n : Key ℕ) (c : Candidates) : Candidates :=
  sys.insertInPQ groundSet c.info.length
    { c with
      addedSoFar := c.addedSoFar ++ [n.node]
      info := c.info ++ [⟨0, n.node, n.level⟩] }

/-! ### `Complete` -/

/-- The arguments of `Complete` besides the set and its levels. -/
structure CompleteArgs where
  groundSet : Option (List ℕ) := none
  target : Option (List ℕ) := none
  failOnSeedChange : Bool := false
  /-- `none` is the default `{-1, 0}`, which no key is smaller than. -/
  failIfSmallerThan : Option (Key ℕ) := none

/-- `is_in_target` -/
def CompleteArgs.isInTarget (args : CompleteArgs) (v : ℕ) : Bool :=
  match args.target with
  | none => true
  | some target => target.contains v

/-- `{next_lvl, next} < fail_if_smaller_than` -/
def CompleteArgs.isSmaller (args : CompleteArgs) (next : Key ℕ) : Bool :=
  match args.failIfSmallerThan with
  | none => false
  | some bound => decide (next < bound)

/-- `std::swap(s.front(), s.back())` -/
def swapFrontBack : List ℕ → List ℕ
  | [] => []
  | x :: s =>
    match s.getLast? with
    | none => [x]
    | some y => y :: (s.dropLast ++ [x])

/-- The ways to leave the inner loop of `Complete`. -/
inductive Ending where
  | finished (s level : List ℕ)
  | failed
  | seedChange (s level : List ℕ)

/-- The inner loop of `Complete`. -/
def completeLoop (args : CompleteArgs) :
    ℕ → List ℕ → List ℕ → Candidates → ℕ → Option Ending
  | 0, _, _, _, _ => none
  | fuel + 1, s, level, candidates, nextInS =>
    (sys.next args.groundSet s fuel candidates).bind fun
      | (none, _) => some (.finished s level)
      | (some next, candidates) =>
        if s[nextInS]? = some next.node then
          completeLoop args fuel s level (sys.add args.groundSet next candidates) (nextInS + 1)
        else if !args.isInTarget next.node then some .failed
        else if args.isSmaller next then some .failed
        else
          let s := s ++ [next.node]
          let level := level ++ [next.level]
          if next.node < front s then
            if args.failOnSeedChange || args.failIfSmallerThan.isSome then some .failed
            else some (.seedChange (swapFrontBack s) level)
          else completeLoop args fuel s level (sys.add args.groundSet next candidates) nextInS

/-- `Complete`.  The answer is `none` where the source returns `false`. -/
def complete (args : CompleteArgs) : ℕ → List ℕ → List ℕ → Option (Option CommutableNode)
  | 0, _, _ => none
  | fuel + 1, s, level =>
    (sys.completeLoop args fuel s level (sys.add args.groundSet ⟨0, front s⟩ {}) 1).bind fun
      | .failed => some none
      | .finished s level => (sys.resort s level (front s)).map some
      | .seedChange s level =>
        (sys.resort s level (front s)).bind fun r => complete args fuel r.1 r.2

/-! ### `Children` -/

/-- `s.resize(n)` -/
def resize (s : List ℕ) (n : ℕ) : List ℕ := s.take n ++ List.replicate (n - s.length) 0

/-- `GetPrefix` -/
def getPrefix (s level : List ℕ) (seed v : ℕ) : Option CommutableNode :=
  (sys.resort s level seed).map fun r =>
    (resize r.1 (r.1.idxOf v + 1), resize r.2 (r.1.idxOf v + 1))

/-- The smallest element of a solution. -/
def minElem (s : List ℕ) : ℕ := s.foldl (fun min elem => if elem < min then elem else min) (front s)

/-- The innermost callback of `Children` up to its call of `cb`: the child that it finds. -/
def childOf (fuel : ℕ) (s level : List ℕ) (cand : ℕ) (sol : List ℕ) (seed : ℕ) :
    Option (Option CommutableNode) :=
  (sys.getPrefix sol level seed cand).bind fun core =>
    if seed ≠ minElem core.1 then some none
    else
      let fail : CompleteArgs :=
        { failOnSeedChange := true, failIfSmallerThan := some ⟨back core.2, back core.1⟩ }
      (sys.complete fail fuel core.1 core.2).bind fun
        | none => some none
        | some child =>
          if !core.1.isPrefixOf child.1 then some none
          else
            (sys.complete { target := some s } fuel core.1.dropLast core.2.dropLast).bind fun
              | none => some none
              | some p =>
                if sys.restrMultiple then
                  let inSol : CompleteArgs :=
                    { groundSet := some (p.1 ++ [cand]), target := some sol }
                  (sys.complete inSol fuel core.1 core.2).map fun r => r.map fun _ => child
                else some (some child)

section

variable {σ : Type}

/-- The innermost callback of `Children`.  The flag is `not_done`. -/
def childCb (fuel : ℕ) (s level : List ℕ) (cb : CommutableNode → σ → Option (Bool × σ))
    (cand : ℕ) (sol : List ℕ) (seed : ℕ) (t : Bool × σ) : Option (Bool × (Bool × σ)) :=
  (sys.childOf fuel s level cand sol seed).bind fun
    | none => some (true, t)
    | some child =>
      (cb child t.2).map fun r =>
        let notDone := if !r.1 then false else t.1
        (notDone, (notDone, r.2))

/-- A callback that ends with `return not_done;`. -/
def returnNotDone (run : Bool × σ → Option (Bool × σ)) (t : Bool × σ) :
    Option (Bool × (Bool × σ)) :=
  (run t).map fun t => (t.1, t)

/-- `Children` -/
def children (fuel : ℕ) (s level : List ℕ) (cb : CommutableNode → σ → Option (Bool × σ))
    (a : σ) : Option (Bool × σ) :=
  forEach (fun cand => returnNotDone <|
    forEach (fun sol => returnNotDone <|
      forEach (sys.childCb fuel s level cb cand sol) (sys.validSeeds sol cand))
      (sys.restrictedProblem s cand))
    (sys.restrictedCands s level) (true, a)

/-- `GetRoot` -/
def getRoot (fuel i : ℕ) (cb : NodeCallback Unit CommutableNode σ) (t : Unit × σ) :
    Option (Unit × σ) :=
  if !sys.isSeed i none then some t
  else
    (sys.complete { failOnSeedChange := true } fuel [i] [0]).bind fun
      | none => some t
      | some root => (cb root t).map fun r => r.2

/-- `ListChildren` -/
def listChildren (fuel : ℕ) (node : CommutableNode) (cb : NodeCallback Unit CommutableNode σ)
    (t : Unit × σ) : Option (Unit × σ) :=
  (sys.children fuel node.1 node.2 cb t).map fun r => r.2

end

/-- `CommutableSystem` as an `Enumerable`.  No state outlives a call. -/
def enumerable (fuel : ℕ) : Enumerable Unit CommutableNode (List ℕ) where
  maxRoots := sys.graphSize
  getRoot := sys.getRoot fuel
  listChildren := sys.listChildren fuel
  nodeToItem _ node := node.1

end CommutableSystem

end ParallelEnum
