import ParallelEnum.Enumerable.Enumerable
import ParallelEnum.Theory.Traversal
import ParallelEnum.Util.Graph

/-!
# `CliqueEnumeration`: maximal cliques by reverse search

The functions of `enumerable/clique.hpp`.  A node is a maximal clique together with its parent
index.  The `thread_local` members are kept in `Scratch`, and every function that reads or writes
them takes the scratch of its thread and hands it back.
-/

namespace ParallelEnum.Clique

open Traversal

/-- `CliqueEnumerationNode`: a clique and its parent index. -/
abbrev Node : Type := List ℕ × ℕ

/-- The `thread_local` members of `CliqueEnumeration`. -/
structure Scratch where
  candidatesBitset : Vec Bool := #[]
  candidates : List ℕ := []
  child : List ℕ := []
  badBitset : Vec Bool := #[]
  bad : List ℕ := []

variable (g : Graph)

/-- `clique.front()` -/
def front (clique : List ℕ) : ℕ := clique.headD 0

/-- One iteration of `CompleteSmallest`: `if (can_add) clique->push_back(neigh)`. -/
def extend (clique : List ℕ) (neigh : ℕ) : List ℕ :=
  if clique.all (g.areNeighs neigh ·) then clique ++ [neigh] else clique

/-- `CompleteSmallest` -/
def completeSmallest (clique : List ℕ) (small : ℕ) : List ℕ :=
  (g.fwdNeighs small).foldl (extend g) clique

/-- `CompleteFwd` -/
def completeFwd (clique : List ℕ) : List ℕ := completeSmallest g clique (front clique)

/-- One iteration of the loop of `Candidates` that collects candidates. -/
def markCandidate (parind : ℕ) (scr : Scratch) (neigh : ℕ) : Scratch :=
  if decide (parind < neigh) && !scr.candidatesBitset.get neigh then
    { scr with
      candidatesBitset := scr.candidatesBitset.set neigh true
      candidates := scr.candidates ++ [neigh] }
  else scr

/-- The loops of `Candidates` before the callback: mark the clique, collect the larger neighbours
of its vertices that are above the parent index and not marked, clear the clique. -/
def collectCandidates (clique : List ℕ) (parind : ℕ) (scr : Scratch) : Scratch :=
  let scr := { scr with candidatesBitset := scr.candidatesBitset.setAll clique true }
  let scr := clique.foldl
    (fun scr node => (g.fwdNeighs node).foldl (markCandidate parind) scr) scr
  { scr with candidatesBitset := scr.candidatesBitset.setAll clique false }

/-- `Candidates` -/
def candidates {σ : Type} (clique : List ℕ) (parind : ℕ)
    (callback : ℕ → Scratch × σ → Option (Bool × (Scratch × σ))) (s : Scratch × σ) :
    Option (Scratch × σ) :=
  let scr := collectCandidates g clique parind s.1
  (forEach callback scr.candidates (scr, s.2)).map fun s =>
    ({ s.1 with
        candidatesBitset := s.1.candidatesBitset.setAll s.1.candidates false
        candidates := [] }, s.2)

/-- One iteration of the loop of `ChildrenCand`: keep the vertices up to the candidate that are
next to it. -/
def pushChild (cand : ℕ) (scr : Scratch) (node : ℕ) : Scratch :=
  if node > cand then scr
  else if g.areNeighs cand node then { scr with child := scr.child ++ [node] }
  else scr

/-- `ChildrenCand`.  The callback works on `child_` in the scratch. -/
def childrenCand {σ : Type} (clique : List ℕ) (cand : ℕ)
    (callback : Scratch × σ → Option (Bool × (Scratch × σ))) (s : Scratch × σ) :
    Option (Bool × (Scratch × σ)) :=
  let scr := clique.foldl (pushChild g cand) s.1
  (callback (scr, s.2)).map fun r => (r.1, ({ r.2.1 with child := [] }, r.2.2))

/-- The first vertex of a list that has the smallest degree of the list. -/
def minDegree (child : List ℕ) : ℕ :=
  child.foldl (fun idx node => if g.degree node < g.degree idx then node else idx) (front child)

/-- The tests of `ListChildren` that reject a candidate: a vertex next to all of `child` which is
smaller than the clique, or at most the candidate and next to it, or bad. -/
def rejected (clique child : List ℕ) (cand : ℕ) (badBitset : Vec Bool) : Bool :=
  (g.neighs (minDegree g child)).any fun neigh =>
    child.all (g.areNeighs neigh ·) &&
      (decide (neigh < front clique) || (decide (neigh ≤ cand) && g.areNeighs neigh cand) ||
        badBitset.get neigh)

/-- The callback `ListChildren` gives to `ChildrenCand`. -/
def childCb {σ : Type} (clique : List ℕ) (cand : ℕ) (cb : NodeCallback Scratch Node σ)
    (s : Scratch × σ) : Option (Bool × (Scratch × σ)) :=
  if rejected g clique s.1.child cand s.1.badBitset then some (true, s)
  else
    let child := completeFwd g (s.1.child ++ [cand])
    cb (child, cand) ({ s.1 with child := child }, s.2)

/-- One iteration of the first loop of `ListChildren`: a vertex is bad if it is next to all
vertices of the clique up to it. -/
def markBad (clique : List ℕ) (scr : Scratch) (neigh : ℕ) : Scratch :=
  if (clique.takeWhile (· ≤ neigh)).all (g.areNeighs neigh ·) then
    { scr with badBitset := scr.badBitset.set neigh true, bad := scr.bad ++ [neigh] }
  else scr

/-- `ListChildren` -/
def listChildren {σ : Type} (cliqueInfo : Node) (cb : NodeCallback Scratch Node σ)
    (s : Scratch × σ) : Option (Scratch × σ) :=
  let clique := cliqueInfo.1
  let parind := cliqueInfo.2
  let scr := (g.fwdNeighs (front clique)).foldl (markBad g clique) s.1
  (candidates g clique parind
      (fun cand => childrenCand g clique cand (childCb g clique cand cb)) (scr, s.2)).map fun s =>
    ({ s.1 with badBitset := s.1.badBitset.setAll s.1.bad false, bad := [] }, s.2)

/-- `GetRoot` -/
def getRoot {σ : Type} (i : ℕ) (cb : NodeCallback Scratch Node σ) (s : Scratch × σ) :
    Option (Scratch × σ) :=
  if g.degree i = g.fwdDegree i then (cb (completeFwd g [i], i) s).map fun r => r.2
  else some s

/-- `SetUp` -/
def setUp (scr : Scratch) : Scratch :=
  { scr with
    candidatesBitset := scr.candidatesBitset.resize g.size
    badBitset := scr.badBitset.resize g.size }

/-- `CliqueEnumeration`, on the graph it holds in `graph_`. -/
def cliqueEnumeration : Enumerable Scratch Node (List ℕ) where
  setUp := setUp g
  maxRoots := g.size
  getRoot := getRoot g
  listChildren := listChildren g
  nodeToItem _ node := node.1

end ParallelEnum.Clique
