import ParallelEnum.Util.Equiv.FastGraph.Permute
import ParallelEnum.Util.Equiv.Fastio
import ParallelEnum.Util.ReadGraph

/-!
# What is read from a file

`ReadEdgeList` goes through the pairs of numbers of a file, up to the end or to the first number
that looks like it (`readEdges_eq`).  It does not compare a vertex with the size of the graph, so
the accesses are in range exactly when the vertices of all pairs are (`read_outOfRange_iff`).  From
a file that lists the edges of a graph it reads that graph (`readsWell_iff`).
-/

namespace ParallelEnum.ReadGraph

open Cuckoo DigitRuns Fastio Outcome

variable {T : KeyType}

/-! ### `std::unique` -/

theorem mem_unique {l : List ℕ} {x : ℕ} : x ∈ unique l ↔ x ∈ l := by
  induction l using unique.induct with
  | case1 => rfl
  | case2 y => rfl
  | case3 y l ih =>
    rw [unique, if_pos rfl, ih]
    simp
  | case4 y z l hne ih =>
    rw [unique, if_neg hne, List.mem_cons, ih]
    exact List.mem_cons.symm

/-- What is left of a sorted list is strictly ascending. -/
theorem unique_pairwise {l : List ℕ} (h : l.Pairwise (· ≤ ·)) :
    (unique l).Pairwise (· < ·) := by
  induction l using unique.induct with
  | case1 => exact List.Pairwise.nil
  | case2 y => exact List.pairwise_singleton _ _
  | case3 y l ih =>
    rw [unique, if_pos rfl]
    exact ih h.of_cons
  | case4 y z l hne ih =>
    obtain ⟨hy, hl⟩ := List.pairwise_cons.mp h
    rw [unique, if_neg hne]
    refine List.pairwise_cons.mpr ⟨fun x hx => ?_, ih hl⟩
    have hyz : y < z := lt_of_le_of_ne (hy z List.mem_cons_self) hne
    rcases List.mem_cons.mp (mem_unique.mp hx) with rfl | hx
    · exact hyz
    · exact hyz.trans_le ((List.pairwise_cons.mp hl).1 x hx)

/-! ### The pairs that are read -/

/-- The pairs of vertices that some numbers stand for, up to the first one with `node_t(EOF)`. -/
def pairs (T : KeyType) : List ℕ → List (ℕ × ℕ)
  | a :: b :: ns =>
    if a % 2 ^ T.width = eofNode T ∨ b % 2 ^ T.width = eofNode T then []
    else (a % 2 ^ T.width, b % 2 ^ T.width) :: pairs T ns
  | _ => []

/-- The loop of `ReadEdgeList` ends, and goes through the pairs. -/
theorem readEdges_eq {directed oneBased : Bool} {fuel : ℕ} {input : List UInt8}
    {edges : Vec (List ℕ)} (hfuel : input.length < fuel) :
    readEdges T directed oneBased fuel input edges
      = (pairs T (numbers input)).foldlM (addEdge T directed oneBased) edges := by
  induction fuel generalizing input edges with
  | zero => omega
  | succ fuel ih =>
    rw [readEdges]
    cases ha : numbers input with
    | nil =>
      -- no number is left: `fast_read` gives -1, which looks like `node_t(EOF)`
      rw [fastRead_nil ha]
      exact if_pos (Or.inl rfl)
    | cons a ns =>
      obtain ⟨hvalue, hrest, hlt⟩ := fastRead_cons (T := T) ha
      cases hb : ns with
      | nil =>
        -- a number without a partner
        rw [fastRead_nil (hrest.trans hb)]
        exact if_pos (Or.inr rfl)
      | cons b ns =>
        obtain ⟨hvalue', hrest', hlt'⟩ := fastRead_cons (T := T) (hrest.trans hb)
        rw [hvalue, hvalue', pairs]
        split_ifs with heof
        · rfl
        · rw [List.foldlM_cons, ← hrest']
          refine congrArg (Except.bind _) (funext fun edges => ?_)
          exact ih (by omega)

/-- The row of `edges` for a vertex. -/
def row (T : KeyType) (oneBased : Bool) (a : ℕ) : ℕ := if oneBased then decrement T a else a

/-- A vertex of a graph of size `N`, as files name it. -/
def InRange (oneBased : Bool) (N a : ℕ) : Prop := if oneBased then 1 ≤ a ∧ a ≤ N else a < N

instance (oneBased : Bool) (N a : ℕ) : Decidable (InRange oneBased N a) :=
  inferInstanceAs (Decidable (if oneBased then 1 ≤ a ∧ a ≤ N else a < N))

theorem row_lt_iff {oneBased : Bool} {N a : ℕ} (hN : N < 2 ^ T.width) (ha : a < 2 ^ T.width) :
    row T oneBased a < N ↔ InRange oneBased N a := by
  unfold row InRange decrement
  cases oneBased with
  | false => exact Iff.rfl
  | true =>
    simp only [if_true]
    by_cases hzero : a = 0
    · subst hzero
      rw [Nat.zero_add, Nat.mod_eq_of_lt (by omega)]
      omega
    · have hsum : a + (2 ^ T.width - 1) = a - 1 + 2 ^ T.width := by omega
      rw [hsum, Nat.add_mod_right, Nat.mod_eq_of_lt (by omega)]
      omega

/-! ### The accesses to the rows -/

/-- The rows that a pair of vertices is written to exist. -/
def HasRows (T : KeyType) (directed oneBased : Bool) (N : ℕ) (e : ℕ × ℕ) : Prop :=
  e.1 = e.2 ∨ row T oneBased e.1 < N ∧ (directed = true ∨ row T oneBased e.2 < N)

theorem pushBack_of_lt {edges : Vec (List ℕ)} {i : ℕ} (hi : i < edges.size) (x : ℕ) :
    pushBack edges i x = .ok (edges.set i (edges.get i ++ [x])) := if_pos hi

theorem mem_pushBack {edges : Vec (List ℕ)} {i : ℕ} (hi : i < edges.size) (x r y : ℕ) :
    y ∈ (edges.set i (edges.get i ++ [x])).get r ↔ y ∈ edges.get r ∨ i = r ∧ x = y := by
  rw [Vec.get_set]
  by_cases hir : i = r
  · subst hir
    rw [if_pos ⟨rfl, hi⟩, List.mem_append, List.mem_singleton]
    simp only [true_and, eq_comm]
  · rw [if_neg fun h => hir h.1]
    simp only [hir, false_and, or_false]

/-- What a pair adds to the rows. -/
theorem addEdge_spec {directed oneBased : Bool} {edges : Vec (List ℕ)} {e : ℕ × ℕ}
    (h : HasRows T directed oneBased edges.size e) :
    ∃ edges', addEdge T directed oneBased edges e = .ok edges' ∧ edges'.size = edges.size ∧
      (directed = false → ∀ i j, j ∈ edges'.get i ↔ j ∈ edges.get i ∨
        e.1 ≠ e.2 ∧ (row T oneBased e.1 = i ∧ row T oneBased e.2 = j ∨
          row T oneBased e.2 = i ∧ row T oneBased e.1 = j)) := by
  unfold addEdge
  by_cases heq : e.1 = e.2
  · rw [if_pos heq]
    refine ⟨edges, rfl, rfl, fun _ i j => ?_⟩
    simp only [heq, ne_eq, not_true_eq_false, false_and, or_false]
  · obtain ⟨ha, hb⟩ := h.resolve_left heq
    rw [if_neg heq]
    change ∃ edges', (pushBack edges (row T oneBased e.1) (row T oneBased e.2)).bind _
      = .ok edges' ∧ _
    rw [pushBack_of_lt ha]
    cases directed with
    | true => exact ⟨_, rfl, Vec.size_set _ _ _, fun h => by cases h⟩
    | false =>
      have hb' := hb.resolve_left Bool.false_ne_true
      set edges' := edges.set (row T oneBased e.1)
        (edges.get (row T oneBased e.1) ++ [row T oneBased e.2]) with hedges'
      have hsize : edges'.size = edges.size := Vec.size_set _ _ _
      -- the edge goes to both rows, and the second one is that of the array after the first
      refine ⟨_, pushBack_of_lt (hsize ▸ hb') _, (Vec.size_set _ _ _).trans hsize, fun _ i j => ?_⟩
      rw [mem_pushBack (hsize ▸ hb'), mem_pushBack ha, or_assoc]
      simp only [heq, ne_eq, not_false_eq_true, true_and]
      exact Iff.rfl

theorem addEdge_eq_error {directed oneBased : Bool} {edges : Vec (List ℕ)} {e : ℕ × ℕ}
    (h : ¬ HasRows T directed oneBased edges.size e) :
    addEdge T directed oneBased edges e = .error .outOfRange := by
  unfold HasRows at h
  push Not at h
  obtain ⟨heq, hrow⟩ := h
  unfold addEdge
  rw [if_neg heq]
  change (pushBack edges (row T oneBased e.1) (row T oneBased e.2)).bind _ = _
  by_cases ha : row T oneBased e.1 < edges.size
  · obtain ⟨hdirected, hb⟩ := hrow ha
    rw [pushBack_of_lt ha]
    simp only [Bool.not_eq_true] at hdirected
    subst hdirected
    exact if_neg (by rw [Vec.size_set]; exact not_lt.mpr hb)
  · unfold pushBack
    rw [if_neg ha]
    rfl

theorem foldlM_addEdge {directed oneBased : Bool} {l : List (ℕ × ℕ)} {edges : Vec (List ℕ)}
    (h : ∀ e ∈ l, HasRows T directed oneBased edges.size e) :
    ∃ edges', l.foldlM (addEdge T directed oneBased) edges = .ok edges' ∧
      edges'.size = edges.size ∧
      (directed = false → ∀ i j, j ∈ edges'.get i ↔ j ∈ edges.get i ∨ ∃ e ∈ l,
        e.1 ≠ e.2 ∧ (row T oneBased e.1 = i ∧ row T oneBased e.2 = j ∨
          row T oneBased e.2 = i ∧ row T oneBased e.1 = j)) := by
  induction l generalizing edges with
  | nil => exact ⟨edges, rfl, rfl, fun _ i j => by simp⟩
  | cons e l ih =>
    obtain ⟨edges', hrun, hsize, hmem⟩ := addEdge_spec (h e List.mem_cons_self)
    have hrest : ∀ e' ∈ l, HasRows T directed oneBased edges'.size e' := by
      intro e' he'
      rw [hsize]
      exact h e' (List.mem_cons_of_mem e he')
    obtain ⟨edges'', hrun', hsize', hmem'⟩ := ih hrest
    refine ⟨edges'', ?_, hsize'.trans hsize, fun hdirected i j => ?_⟩
    · rw [List.foldlM_cons, hrun]
      exact hrun'
    · rw [hmem' hdirected, hmem hdirected, or_assoc, List.exists_mem_cons_iff]

/-- The first pair without a row ends the loop. -/
theorem foldlM_addEdge_eq_error {directed oneBased : Bool} {l : List (ℕ × ℕ)}
    {edges : Vec (List ℕ)} (h : ∃ e ∈ l, ¬ HasRows T directed oneBased edges.size e) :
    l.foldlM (addEdge T directed oneBased) edges = .error .outOfRange := by
  induction l generalizing edges with
  | nil =>
    obtain ⟨e, he, -⟩ := h
    cases he
  | cons e l ih =>
    rw [List.foldlM_cons]
    by_cases hrow : HasRows T directed oneBased edges.size e
    · obtain ⟨edges', hrun, hsize, -⟩ := addEdge_spec hrow
      rw [hrun]
      -- the pair at the head has its rows, so the one without comes later
      obtain ⟨e', he', hno⟩ := h
      apply ih
      rw [hsize]
      rcases List.mem_cons.mp he' with rfl | he'
      · exact absurd hrow hno
      · exact ⟨e', he', hno⟩
    · rw [addEdge_eq_error hrow]
      rfl

/-- The rows that `ReadEdgeList` returns. -/
theorem readEdgeList_spec {directed oneBased : Bool} {nodes fuel : ℕ} {input : List UInt8}
    (hfuel : input.length < fuel)
    (h : ∀ e ∈ pairs T (numbers input), HasRows T directed oneBased nodes e) :
    ∃ edges, readEdgeList T directed oneBased nodes fuel input = .ok edges ∧
      edges.size = nodes ∧ ∀ i, (edges.get i).Pairwise (· < ·) ∧
        (directed = false → ∀ j, j ∈ edges.get i ↔ ∃ e ∈ pairs T (numbers input),
          e.1 ≠ e.2 ∧ (row T oneBased e.1 = i ∧ row T oneBased e.2 = j ∨
            row T oneBased e.2 = i ∧ row T oneBased e.1 = j)) := by
  have hzeros : (Vec.zeros nodes : Vec (List ℕ)).size = nodes := Vec.size_zeros nodes
  have hrows : ∀ e ∈ pairs T (numbers input),
      HasRows T directed oneBased (Vec.zeros nodes : Vec (List ℕ)).size e := hzeros.symm ▸ h
  obtain ⟨edges, hrun, hsize, hmem⟩ := foldlM_addEdge hrows
  rw [hzeros] at hsize
  -- `std::sort` and `std::unique` work on each row by itself
  have hget : ∀ i, Vec.get (edges.map fun adj => unique (adj.insertionSort (· ≤ ·))) i
      = unique ((edges.get i).insertionSort (· ≤ ·)) := by
    intro i
    unfold Vec.get
    rw [Array.getD_eq_getD_getElem?, Array.getElem?_map, Array.getD_eq_getD_getElem?]
    cases edges[i]? <;> rfl
  refine ⟨edges.map fun adj => unique (adj.insertionSort (· ≤ ·)), ?_, ?_, fun i => ?_⟩
  · unfold readEdgeList
    rw [readEdges_eq hfuel, hrun]
    rfl
  · rw [Array.size_map, hsize]
  · rw [hget]
    refine ⟨unique_pairwise (List.pairwise_insertionSort (· ≤ ·) _), fun hdirected j => ?_⟩
    rw [mem_unique, List.mem_insertionSort, hmem hdirected, Vec.get_zeros]
    simp only [or_iff_right_iff_imp]
    exact fun hj => absurd hj List.not_mem_nil

theorem readEdgeList_eq_error {directed oneBased : Bool} {nodes fuel : ℕ} {input : List UInt8}
    (hfuel : input.length < fuel)
    (h : ∃ e ∈ pairs T (numbers input), ¬ HasRows T directed oneBased nodes e) :
    readEdgeList T directed oneBased nodes fuel input = .error .outOfRange := by
  have hzeros : (Vec.zeros nodes : Vec (List ℕ)).size = nodes := Vec.size_zeros nodes
  unfold readEdgeList
  rw [readEdges_eq hfuel, foldlM_addEdge_eq_error (hzeros.symm ▸ h)]
  rfl

/-! ### The formats -/

/-- The formats of files. -/
inductive Format where
  | nde
  | oly (oneBased : Bool)

namespace Format

/-- The function that reads a format. -/
def read : Format → (T : KeyType) → Bool → ℕ → List UInt8 → Except ReadFailure (FastGraph T)
  | nde, T, directed, fuel, input => readNde T directed fuel input
  | oly oneBased, T, directed, fuel, input => readOlympiadsFormat T directed oneBased fuel input

/-- Whether the first vertex is 1. -/
def oneBased : Format → Bool
  | nde => false
  | oly oneBased => oneBased

/-- How many numbers there are between the number of vertices and the edges. -/
def header : Format → ℕ → ℕ
  | nde, N => 2 * N
  | oly _, _ => 1

/-- The pairs of vertices in a file, given its number of vertices and the numbers after that. -/
def pairs (fmt : Format) (T : KeyType) (n : ℕ) (ns : List ℕ) : List (ℕ × ℕ) :=
  ReadGraph.pairs T (ns.drop (fmt.header (n % 2 ^ T.width)))

end Format

theorem discard_spec (i : ℕ) (input : List UInt8) :
    numbers (discard T i input) = (numbers input).drop (2 * i) ∧
      (discard T i input).length ≤ input.length := by
  induction i generalizing input with
  | zero => exact ⟨rfl, le_rfl⟩
  | succ i ih =>
    obtain ⟨hnumbers, hlen⟩ := ih (fastRead T (fastRead T input).2).2
    rw [discard]
    constructor
    · have hdrop : 2 * (i + 1) = 1 + (1 + 2 * i) := by omega
      rw [hnumbers, numbers_fastRead, numbers_fastRead, ← List.drop_one, ← List.drop_one,
        List.drop_drop, List.drop_drop, hdrop]
    · exact hlen.trans ((length_fastRead_le _).trans (length_fastRead_le _))

/-- All formats are read in the same way: `N`, a header, and the edges. -/
theorem read_eq (fmt : Format) (directed : Bool) (fuel : ℕ) {input : List UInt8} {n : ℕ}
    {ns : List ℕ} (h : numbers input = n :: ns) : ∃ rest, rest.length ≤ input.length ∧
      numbers rest = ns.drop (fmt.header (n % 2 ^ T.width)) ∧
      fmt.read T directed fuel input =
        (readEdgeList T directed fmt.oneBased (n % 2 ^ T.width) fuel rest).bind fun edges =>
          (FastGraph.make T (n % 2 ^ T.width) edges).mapError .build := by
  obtain ⟨hvalue, hrest, hlt⟩ := fastRead_cons (T := T) h
  cases fmt with
  | nde =>
    obtain ⟨hnumbers, hlen⟩ := discard_spec (T := T) (n % 2 ^ T.width) (fastRead T input).2
    refine ⟨_, hlen.trans hlt.le, hnumbers.trans (by rw [hrest]; rfl), ?_⟩
    show readNde T directed fuel input = _
    unfold readNde
    dsimp only
    rw [hvalue]
    rfl
  | oly oneBased =>
    have hlen := length_fastRead_le (T := T) (fastRead T input).2
    refine ⟨(fastRead T (fastRead T input).2).2, hlen.trans hlt.le, ?_, ?_⟩
    · rw [numbers_fastRead, hrest]
      exact (List.drop_one).symm
    · show readOlympiadsFormat T directed oneBased fuel input = _
      unfold readOlympiadsFormat
      dsimp only
      rw [hvalue]
      rfl

/-! ### Files of any kind -/

theorem pairs_lt {ns : List ℕ} {e : ℕ × ℕ} (h : e ∈ pairs T ns) :
    e.1 < 2 ^ T.width ∧ e.2 < 2 ^ T.width := by
  induction ns using pairs.induct T with
  | case1 a b ns heof =>
    rw [pairs, if_pos heof] at h
    cases h
  | case2 a b ns heof ih =>
    rw [pairs, if_neg heof] at h
    rcases List.mem_cons.mp h with rfl | h
    · exact ⟨Nat.mod_lt _ (Nat.two_pow_pos _), Nat.mod_lt _ (Nat.two_pow_pos _)⟩
    · exact ih h
  | case3 ns hshort =>
    rw [pairs] at h
    · cases h
    · exact hshort

/-- **Reading ends, and leaves the range of the rows exactly for files that do**: with a pair of
different vertices of which the first one is out of range, or the second one if the edge is stored
with it as well. -/
theorem read_outOfRange_iff (fmt : Format) (T : KeyType) (directed : Bool) {text : List UInt8}
    {n : ℕ} {ns : List ℕ} (hnumbers : numbers text = n :: ns) {fuel : ℕ}
    (hfuel : text.length < fuel) :
    fmt.read T directed fuel text ≠ .error .outOfFuel ∧
      (fmt.read T directed fuel text ≠ .error .outOfRange ↔
        ∀ e ∈ fmt.pairs T n ns, e.1 = e.2 ∨ InRange fmt.oneBased (n % 2 ^ T.width) e.1 ∧
          (directed = true ∨ InRange fmt.oneBased (n % 2 ^ T.width) e.2)) := by
  obtain ⟨rest, hlen, hrest, hread⟩ := read_eq (T := T) fmt directed fuel hnumbers
  have hN : n % 2 ^ T.width < 2 ^ T.width := Nat.mod_lt _ (Nat.two_pow_pos _)
  have hrows : (∀ e ∈ fmt.pairs T n ns, e.1 = e.2 ∨ InRange fmt.oneBased (n % 2 ^ T.width) e.1 ∧
      (directed = true ∨ InRange fmt.oneBased (n % 2 ^ T.width) e.2)) ↔
        ∀ e ∈ pairs T (numbers rest), HasRows T directed fmt.oneBased (n % 2 ^ T.width) e := by
    unfold Format.pairs HasRows
    rw [hrest]
    refine forall₂_congr fun e he => ?_
    rw [row_lt_iff hN (pairs_lt he).1, row_lt_iff hN (pairs_lt he).2]
  rw [hread, hrows]
  by_cases hall : ∀ e ∈ pairs T (numbers rest),
      HasRows T directed fmt.oneBased (n % 2 ^ T.width) e
  · obtain ⟨edges, hok, -⟩ := readEdgeList_spec (hlen.trans_lt hfuel) hall
    rw [hok]
    simp only [Except.bind]
    generalize FastGraph.make T (n % 2 ^ T.width) edges = made
    cases made with
    | ok G => exact ⟨fun h => (by cases h), iff_of_true (fun h => (by cases h)) hall⟩
    | error e => exact ⟨fun h => (by cases h), iff_of_true (fun h => (by cases h)) hall⟩
  · have hex := hall
    push Not at hex
    rw [readEdgeList_eq_error (hlen.trans_lt hfuel) hex]
    exact ⟨fun h => (by cases h), iff_of_false (fun h => h rfl) hall⟩

/-- A file that counts from 1, without an edge to 0. -/
theorem read_outOfRange_iff_oneBased :
    (Format.oly true).read .uint32 false 9 [50, 32, 49, 10, 49, 32, 50, 10]
      ≠ .error .outOfRange := by
  have hnumbers : numbers [50, 32, 49, 10, 49, 32, 50, 10] = 2 :: [1, 1, 2] := by rfl
  refine (read_outOfRange_iff (.oly true) .uint32 false hnumbers (by decide)).2.mpr ?_
  intro e he
  obtain rfl : e = (1, 2) := List.mem_singleton.mp he
  exact Or.inr ⟨by decide, Or.inr (by decide)⟩

/-- A graph with one vertex and an edge from it to vertex 1. -/
theorem not_in_range :
    Format.nde.read .uint32 false 11 [49, 10, 48, 32, 48, 10, 48, 32, 49, 10]
      = .error .outOfRange := by
  rfl

/-! ### Files that list the edges of a graph -/

namespace Format

/-- The number of a vertex in a file. -/
def vertex (fmt : Format) (a : ℕ) : ℕ := if fmt.oneBased then a + 1 else a

/-- The numbers of a file that lists some edges. -/
def numbers (fmt : Format) (N : ℕ) (header : List ℕ) (es : List (ℕ × ℕ)) : List ℕ :=
  N :: (header ++ es.flatMap fun e => [fmt.vertex e.1, fmt.vertex e.2])

end Format

/-- The text has these numbers, which fit in an `int64_t`, with other bytes between them. -/
def IsRendering (text : List UInt8) (ns : List ℕ) : Prop :=
  DigitRuns.numbers text = ns ∧ ∀ n ∈ ns, n < 2 ^ 63

/-- Edges are compared by their vertices. -/
local instance lawfulBEq_pair : LawfulBEq (ℕ × ℕ) := inferInstance

/-- The graph of the edges that are listed. -/
def listed (N : ℕ) (es : List (ℕ × ℕ)) : Graph := Graph.ofRel N fun a b => decide ((a, b) ∈ es)

/-- The simple undirected graph of the listed edges is read. -/
def ReadsWell (fmt : Format) (T : KeyType) (fuel : ℕ) (text : List UInt8) (N : ℕ)
    (es : List (ℕ × ℕ)) : Prop :=
  ∃ G, fmt.read T false fuel text = .ok G ∧ G.N = N ∧
    (∀ a < N, ∀ b < N, G.areNeighs a b = true ↔ a ≠ b ∧ ((a, b) ∈ es ∨ (b, a) ∈ es)) ∧
    ∀ i < N, (G.neighs i).toList.Pairwise (· < ·) ∧
      ∀ j ∈ (G.neighs i).toList, j < N ∧ i ∈ (G.neighs j).toList

theorem listed_adj {N : ℕ} {es : List (ℕ × ℕ)} {a b : ℕ} :
    (listed N es).toSimpleGraph.Adj a b ↔
      a < N ∧ b < N ∧ a ≠ b ∧ ((a, b) ∈ es ∨ (b, a) ∈ es) := by
  rw [Graph.adj_iff_mem]
  unfold listed
  rw [Graph.neighs_ofRel, Graph.mem_relNeighs, decide_eq_true_iff, decide_eq_true_iff]

section Listed

variable {N : ℕ} {es : List (ℕ × ℕ)} {fmt : Format} (hN : N < 2 ^ T.width - 1)
  (hes : ∀ e ∈ es, e.1 < N ∧ e.2 < N)
include hN

theorem vertex_mod (fmt : Format) {a : ℕ} (ha : a < N) :
    fmt.vertex a % 2 ^ T.width = fmt.vertex a ∧ fmt.vertex a ≠ eofNode T ∧
      row T fmt.oneBased (fmt.vertex a) = a := by
  have heof : eofNode T = 2 ^ T.width - 1 := by cases T <;> rfl
  rw [heof]
  unfold Format.vertex row decrement
  cases fmt.oneBased with
  | false =>
    simp only [Bool.false_eq_true, if_false]
    exact ⟨Nat.mod_eq_of_lt (by omega), by omega, trivial⟩
  | true =>
    simp only [if_true]
    have hsum : a + 1 + (2 ^ T.width - 1) = a + 2 ^ T.width := by omega
    rw [hsum, Nat.add_mod_right]
    exact ⟨Nat.mod_eq_of_lt (by omega), by omega, Nat.mod_eq_of_lt (by omega)⟩

include hes

theorem pairs_listed :
    pairs T (es.flatMap fun e => [fmt.vertex e.1, fmt.vertex e.2])
      = es.map fun e => (fmt.vertex e.1, fmt.vertex e.2) := by
  induction es with
  | nil => rfl
  | cons e es ih =>
    obtain ⟨ha, hb⟩ := hes e List.mem_cons_self
    obtain ⟨hmod, hne, -⟩ := vertex_mod hN fmt ha
    obtain ⟨hmod', hne', -⟩ := vertex_mod hN fmt hb
    rw [List.flatMap_cons, List.cons_append, List.cons_append, List.nil_append, pairs, hmod, hmod',
      if_neg (not_or.mpr ⟨hne, hne'⟩), ih fun e' he' => hes e' (List.mem_cons_of_mem e he')]
    rfl

/-- The rows of the pairs are those of the graph. -/
theorem readEdgeList_listed {fuel : ℕ} {input : List UInt8} (hfuel : input.length < fuel)
    (hinput : numbers input = es.flatMap fun e => [fmt.vertex e.1, fmt.vertex e.2]) :
    readEdgeList T false fmt.oneBased N fuel input = .ok (listed N es).edges := by
  have hpairs : pairs T (numbers input) = es.map fun e => (fmt.vertex e.1, fmt.vertex e.2) :=
    hinput ▸ pairs_listed hN hes
  have hrow : ∀ a < N, row T fmt.oneBased (fmt.vertex a) = a := fun a ha =>
    (vertex_mod hN fmt ha).2.2
  -- every row is there, so the loop goes through all of the pairs
  have hall : ∀ e ∈ pairs T (numbers input), HasRows T false fmt.oneBased N e := by
    intro e he
    rw [hpairs] at he
    obtain ⟨e', he', rfl⟩ := List.mem_map.mp he
    obtain ⟨ha, hb⟩ := hes e' he'
    exact Or.inr ⟨(hrow _ ha).symm ▸ ha, Or.inr ((hrow _ hb).symm ▸ hb)⟩
  obtain ⟨edges, hrun, hsize, hrows⟩ := readEdgeList_spec hfuel hall
  rw [hrun]
  congr 1
  apply Vec.ext_get (hsize.trans (listed N es).size_edges.symm)
  intro i hi
  rw [hsize] at hi
  obtain ⟨hsorted, hmem⟩ := hrows i
  refine hsorted.eq_of_mem_iff ((listed N es).sorted i) fun j =>
    (hmem rfl j).trans (Iff.trans ?_ listed_adj.symm)
  rw [hpairs]
  constructor
  · rintro ⟨e, he, hne, hrow'⟩
    obtain ⟨⟨a, b⟩, hab, rfl⟩ := List.mem_map.mp he
    obtain ⟨ha, hb⟩ := hes _ hab
    rw [hrow a ha, hrow b hb] at hrow'
    have hne' : a ≠ b := fun heq => hne (congrArg fmt.vertex heq)
    rcases hrow' with ⟨rfl, rfl⟩ | ⟨rfl, rfl⟩
    · exact ⟨ha, hb, hne', Or.inl hab⟩
    · exact ⟨hb, ha, hne'.symm, Or.inr hab⟩
  · rintro ⟨hi, hj, hne, hlisted⟩
    have hne' : fmt.vertex i ≠ fmt.vertex j := fun heq => hne (by
      rw [← hrow i hi, heq, hrow j hj])
    rcases hlisted with hij | hji
    · exact ⟨_, List.mem_map_of_mem hij, hne', Or.inl ⟨hrow i hi, hrow j hj⟩⟩
    · exact ⟨_, List.mem_map_of_mem hji, hne'.symm, Or.inr ⟨hrow i hi, hrow j hj⟩⟩

variable {header : List ℕ} {text : List UInt8} {fuel : ℕ} (hheader : header.length = fmt.header N)
  (htext : IsRendering text (fmt.numbers N header es)) (hfuel : text.length < fuel)
include hheader htext hfuel

/-- The graph that the constructor is given. -/
theorem read_listed : fmt.read T false fuel text =
    (FastGraph.make T N (listed N es).edges).mapError .build := by
  obtain ⟨rest, hlen, hrest, hread⟩ := read_eq (T := T) fmt false fuel htext.1
  have hmod : N % 2 ^ T.width = N := Nat.mod_eq_of_lt (by omega)
  rw [hmod, ← hheader, List.drop_left] at hrest
  rw [hread, hmod, readEdgeList_listed hN hes (hlen.trans_lt hfuel) hrest]
  rfl

/-- A graph that is read has its hash sets. -/
theorem uncrowded_of_read {G : FastGraph T} (hG : fmt.read T false fuel text = .ok G) :
    FastGraph.Uncrowded T (listed N es) := by
  have hlt : (listed N es).N < 2 ^ T.width := show N < 2 ^ T.width by omega
  rw [read_listed hN hes hheader htext hfuel] at hG
  cases hmake : FastGraph.make T N (listed N es).edges with
  | ok G' => exact ((FastGraph.make_spec (g := listed N es) hlt).of_ok hmake).uncrowded
  | error e =>
    rw [hmake] at hG
    cases hG

/-- **A file that lists the edges of a graph is read as that graph, exactly when the hash sets of
its vertices can be built.** -/
theorem readsWell_iff :
    ReadsWell fmt T fuel text N es ↔ FastGraph.Uncrowded T (listed N es) := by
  have hlt : (listed N es).N < 2 ^ T.width := show N < 2 ^ T.width by omega
  have hread := read_listed hN hes hheader htext hfuel
  constructor
  · rintro ⟨G, hG, -⟩
    exact uncrowded_of_read hN hes hheader htext hfuel hG
  · intro huncrowded
    obtain ⟨G, hmake, hG⟩ := (FastGraph.exists_make_iff hlt).mpr huncrowded
    refine ⟨G, ?_, hG.N_eq, ?_, ?_⟩
    · rw [hread]
      exact congrArg (Except.mapError ReadFailure.build) hmake
    · intro a ha b hb
      rw [hG.areNeighs_eq hlt ha hb, Graph.areNeighs_eq_true, listed_adj]
      exact ⟨fun h => h.2.2, fun h => ⟨ha, hb, h⟩⟩
    · intro i hi
      rw [hG.neighs_eq i]
      refine ⟨(listed N es).neighs_pairwise i, fun j hj => ?_⟩
      rw [hG.neighs_eq j]
      exact ⟨((listed N es).lt_of_adj hj).2, (listed N es).symm i j hj⟩

end Listed

/-- A path, with a loop and with one edge listed twice, in a file that counts from 1. -/
theorem readsWell_iff_path : ReadsWell (.oly true) .uint32 21
    [51, 32, 52, 10, 49, 32, 50, 10, 50, 32, 50, 10, 51, 32, 50, 10, 50, 32, 51, 10]
    3 [(0, 1), (1, 1), (2, 1), (1, 2)] := by
  have htext : IsRendering
      [51, 32, 52, 10, 49, 32, 50, 10, 50, 32, 50, 10, 51, 32, 50, 10, 50, 32, 51, 10]
      ((Format.oly true).numbers 3 [4] [(0, 1), (1, 1), (2, 1), (1, 2)]) :=
    ⟨by rfl, by decide⟩
  exact (readsWell_iff (by decide) (by decide) rfl htext (by decide)).mpr
    (FastGraph.uncrowded_of_le (show 3 ≤ 2 ^ 31 by decide))

/-- The edges of a star whose leaves crowd a pair of buckets. -/
def crowdedEdges : List (ℕ × ℕ) := FastGraph.rotated.map fun x => (5, x)

/-- A file with the star. -/
def crowdedText : List UInt8 :=
  render ((Format.oly false).numbers (2 ^ 31 + 1) [9] crowdedEdges)

/-- No `fast_graph_t` is built from the file. -/
theorem not_readsWell :
    ¬ ReadsWell (.oly false) .uint32 (crowdedText.length + 1) crowdedText (2 ^ 31 + 1)
      crowdedEdges := by
  rintro ⟨G, hG, -⟩
  have htext : IsRendering crowdedText
      ((Format.oly false).numbers (2 ^ 31 + 1) [9] crowdedEdges) :=
    ⟨numbers_render _, by decide⟩
  have huncrowded := uncrowded_of_read (by decide) (by decide) rfl htext (Nat.lt_succ_self _) hG
  -- vertex 5 is the centre of the star
  refine huncrowded 5 (show 5 < 2 ^ 31 + 1 by decide) (FastGraph.crowded_rotated.mono
    (FastGraph.vertexKeys_mono fun x hx => ?_))
  have hbound : ∀ y ∈ FastGraph.rotated, y < 2 ^ 31 + 1 ∧ y ≠ 5 := by decide
  obtain ⟨hlt, hne⟩ := hbound x hx
  exact listed_adj.mpr ⟨by decide, hlt, hne.symm, Or.inl (List.mem_map_of_mem hx)⟩

end ParallelEnum.ReadGraph
