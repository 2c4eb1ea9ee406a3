import ParallelEnum.Enumerable.Equiv.Diam2Kplex.Block

/-!
# What `GetRoot` leaves in the store

`Idle` holds of the store between two calls: the `thread_local` arrays are clear and the pointers
of the `thread_local` node are valid.  `openRoot_spec` says that `GetRoot` then writes the block of
its root and the lists of non-neighbours through these pointers, makes the root node, and leaves
the store idle; `inv_init` that the root node is a node of the search.
-/

namespace ParallelEnum.Diam2Kplex

open Kplex

variable (g : Graph) (k q : ℕ)

/-! ### Pushing -/

namespace Store

/-- The cell `subgraph_` of the `thread_local` node refers to once it is allocated. -/
def ref (s : Store) : ℕ := s.node.subgraph.getD s.memory.subgraphs.size

/-- The cell `nadj_` of the `thread_local` node refers to once it is allocated. -/
def nadjRef (s : Store) : ℕ := s.node.nadj.getD s.memory.nadjs.size

/-- The pointers of the `thread_local` node are null or valid, and its arrays are clear. -/
structure Idle (s : Store) : Prop where
  subgraph_lt : ∀ r, s.node.subgraph = some r → r < s.memory.subgraphs.size
  nadj_lt : ∀ r, s.node.nadj = some r → r < s.memory.nadjs.size
  added : ∀ a, s.subgraphAdded = some a → a = Vec.zeros g.size
  candidates : s.subgraphCandidates = []
  counts : ∀ c, s.subgraphCounts = some c → c = Vec.zeros g.size

/-- The store with the vertices of `l` at the end of `subgraph_`. -/
def pushes (s : Store) (l : List ℕ) : Store :=
  { s with
    memory.subgraphs :=
      s.memory.subgraphs.set s.ref (s.memory.subgraphs.get s.ref ++ l.toArray) }

variable {g} {s : Store}

theorem clear_spec (h : s.Idle g) : s.clear.node.subgraph = some s.ref ∧
    s.clear.ref = s.ref ∧ s.ref < s.clear.memory.subgraphs.size ∧
    s.clear.memory.subgraphs.get s.ref = #[] ∧
    s.clear.memory.nadjs = s.memory.nadjs ∧ s.clear.node.nadj = s.node.nadj ∧
    s.clear.node.impl0 = s.node.impl0 ∧ s.clear.subgraphAdded = s.subgraphAdded ∧
    s.clear.subgraphCandidates = s.subgraphCandidates ∧
    s.clear.subgraphCounts = s.subgraphCounts := by
  unfold clear ref
  cases hr : s.node.subgraph with
  | none =>
    refine ⟨rfl, rfl, ?_, ?_, rfl, rfl, rfl, rfl, rfl, rfl⟩
    · show s.memory.subgraphs.size < (s.memory.subgraphs.push #[]).size
      rw [Array.size_push]
      exact Nat.lt_succ_self _
    · show Array.getD (s.memory.subgraphs.push #[]) s.memory.subgraphs.size default = #[]
      simp
  | some r =>
    have hlt := h.subgraph_lt r hr
    refine ⟨hr, by simp [hr], ?_, ?_, rfl, rfl, rfl, rfl, rfl, rfl⟩
    · exact hlt.trans_eq (Vec.size_set _ _ _).symm
    · exact Vec.get_set_self hlt _

theorem addToSubgraph_eq {r : ℕ} (hr : s.node.subgraph = some r) (v : ℕ) :
    s.addToSubgraph v = s.pushes [v] := by
  unfold addToSubgraph pushes ref
  rw [hr]
  simp

theorem pushes_pushes {r : ℕ} (hr : s.node.subgraph = some r) (hlt : r < s.memory.subgraphs.size)
    (l₁ l₂ : List ℕ) : (s.pushes l₁).pushes l₂ = s.pushes (l₁ ++ l₂) := by
  have href : s.ref = r := by
    unfold ref
    rw [hr]
    rfl
  have href' : (s.pushes l₁).ref = r := by
    unfold ref pushes
    rw [hr]
    rfl
  unfold pushes at href' ⊢
  rw [href', href]
  simp only [Vec.get_set_self hlt, Vec.set_set, Array.append_assoc, List.append_toArray]

theorem pushes_nil (s : Store) : s.pushes [] = s := by
  unfold pushes
  rw [show (([] : List ℕ).toArray) = #[] from rfl, Array.append_empty, Vec.set_get_self]

theorem foldl_addToSubgraph {r : ℕ} (hr : s.node.subgraph = some r)
    (hlt : r < s.memory.subgraphs.size) (l : List ℕ) :
    l.foldl addToSubgraph s = s.pushes l := by
  induction l generalizing s with
  | nil => exact (pushes_nil s).symm
  | cons v l ih =>
    rw [List.foldl_cons, addToSubgraph_eq hr, ih (by exact hr) (by
      exact hlt.trans_eq (Vec.size_set _ _ _).symm), pushes_pushes hr hlt]
    rfl

/-- The last loop of `GetRoot` over the candidates two hops away. -/
theorem foldl_addTwoHop {r : ℕ} (hr : s.node.subgraph = some r)
    (hlt : r < s.memory.subgraphs.size) {l : List ℕ} (hl : l.Nodup) (counts : Vec ℕ) :
    l.foldl (addTwoHop k q) (s, counts)
      = (s.pushes (l.filter fun n => decide (counts.get n + 2 * k ≥ q + 2)),
        counts.setAll l 0) := by
  induction l generalizing s counts with
  | nil => rw [List.filter_nil, pushes_nil]; rfl
  | cons n l ih =>
    obtain ⟨hnl, hl⟩ := List.nodup_cons.mp hl
    have hother : (l.filter fun m => decide ((counts.set n 0).get m + 2 * k ≥ q + 2))
        = l.filter fun m => decide (counts.get m + 2 * k ≥ q + 2) := by
      refine List.filter_congr fun m hm => ?_
      rw [Vec.get_set_of_ne _ fun heq : n = m => hnl (by rw [heq]; exact hm)]
    rw [List.foldl_cons, List.filter_cons]
    unfold addTwoHop at ih ⊢
    dsimp only at ih ⊢
    by_cases htest : counts.get n + 2 * k ≥ q + 2
    · rw [if_pos htest, addToSubgraph_eq hr, if_pos (decide_eq_true htest),
        ih (s := s.pushes [n]) (by exact hr) (by exact hlt.trans_eq (Vec.size_set _ _ _).symm) hl,
        hother, pushes_pushes hr hlt]
      rfl
    · rw [if_neg htest, if_neg fun h => htest (of_decide_eq_true h), ih hr hlt hl, hother]
      rfl

end Store

/-! ### The lists of non-neighbours -/

/-- The rows of `nadj` of a block. -/
def blockNadj (subgraph : Vec ℕ) (i : ℕ) : List ℕ :=
  if i < subgraph.size then
    (List.range subgraph.size).filter fun j => !(blockGraph g subgraph).Adj i j
  else []

theorem foldl_fillRow (subgraph : Vec ℕ) (i : ℕ) (l : List ℕ) {nadj : Vec (List ℕ)}
    (hi : i < nadj.size) :
    l.foldl (fun nadj j =>
        if !g.areNeighs (subgraph.get i) (subgraph.get j) then nadj.set i (nadj.get i ++ [j])
        else nadj) nadj
      = nadj.set i (nadj.get i ++ l.filter fun j => !(blockGraph g subgraph).Adj i j) := by
  induction l generalizing nadj with
  | nil => rw [List.filter_nil, List.append_nil, Vec.set_get_self]; rfl
  | cons j l ih =>
    rw [List.foldl_cons, List.filter_cons]
    by_cases hadj : (blockGraph g subgraph).Adj i j
    · rw [if_neg (by rw [areNeighs_get]; simp [hadj]), if_neg (by simp [hadj])]
      exact ih hi
    · rw [if_pos (by rw [areNeighs_get]; simp [hadj]), if_pos (by simp [hadj]),
        ih ((Vec.size_set _ _ _).symm ▸ hi), Vec.get_set_self hi, Vec.set_set, List.append_assoc]
      rfl

theorem fillNadj_get (subgraph : Vec ℕ) {nadj : Vec (List ℕ)} (hsize : subgraph.size ≤ nadj.size)
    (hnil : ∀ i, nadj.get i = []) : (fillNadj g subgraph nadj).get = blockNadj g subgraph := by
  have hfold : ∀ m ≤ subgraph.size, ∀ nadj' : Vec (List ℕ), nadj' = (List.range m).foldl
      (fun nadj i => (List.range subgraph.size).foldl
        (fun nadj j =>
          if !g.areNeighs (subgraph.get i) (subgraph.get j) then nadj.set i (nadj.get i ++ [j])
          else nadj) nadj) nadj →
      nadj'.size = nadj.size ∧ ∀ i, nadj'.get i = if i < m then blockNadj g subgraph i else [] := by
    intro m
    induction m with
    | zero =>
      rintro - nadj' rfl
      exact ⟨rfl, fun i => by simpa using hnil i⟩
    | succ m ih =>
      intro hm nadj' hnadj'
      obtain ⟨h1, h2⟩ := ih (by omega) _ rfl
      rw [List.range_succ, List.foldl_append, List.foldl_cons, List.foldl_nil,
        foldl_fillRow g subgraph m _ (by omega)] at hnadj'
      subst hnadj'
      refine ⟨(Vec.size_set _ _ _).trans h1, fun i => ?_⟩
      rw [Vec.get_set, h1]
      by_cases him : m = i
      · subst him
        have hnew : blockNadj g subgraph m
            = (List.range subgraph.size).filter fun j => !(blockGraph g subgraph).Adj m j :=
          if_pos (by omega)
        rw [if_pos ⟨rfl, by omega⟩, h2, if_neg (lt_irrefl m), if_pos (Nat.lt_succ_self m),
          List.nil_append, hnew]
      · rw [if_neg fun h => him h.1, h2]
        by_cases hlt : i < m
        · rw [if_pos hlt, if_pos (by omega)]
        · rw [if_neg hlt, if_neg (by omega)]
  funext i
  unfold fillNadj
  rw [(hfold subgraph.size le_rfl _ rfl).2 i]
  unfold blockNadj
  split_ifs <;> rfl

theorem clearNadj_spec (nadj : Vec (List ℕ)) (n : ℕ) :
    n ≤ (clearNadj nadj n).size ∧ ∀ i, (clearNadj nadj n).get i = [] := by
  have hset : ∀ v : Vec (List ℕ), (List.range v.size).foldl (fun v i => v.set i []) v
      = Vec.zeros v.size := fun v =>
    Vec.setAll_default_eq_zeros (l := List.range v.size) fun i hi => by
      by_contra hno
      exact hi (Vec.get_of_size_le (by simpa using hno))
  unfold clearNadj
  dsimp only
  rw [hset]
  refine ⟨?_, fun i => Vec.get_zeros _ _⟩
  rw [Vec.size_zeros]
  split_ifs with h
  · rw [Vec.size_resize]
  · exact not_lt.mp h

/-! ### `GetRoot` -/

/-- What `GetRoot` has done when it calls back. -/
structure Opened (v : ℕ) (s s' : Store) : Prop where
  idle : s'.Idle g
  ref_eq : s'.node.subgraph = some s.ref
  nadjRef_eq : s'.node.nadj = some s.nadjRef
  subgraph_eq : s'.memory.subgraph s'.node = (block g k q v).toArray
  nadj_eq : (s'.memory.nadj s'.node).get = blockNadj g (block g k q v).toArray
  impl_eq : s'.node.impl0
    = Impl.init (block g k q v).toArray (blockNadj g (block g k q v).toArray) k

/-- `Init` fills a list of empty rows: a new one, or the one that the node has. -/
theorem storeInit_eq {s : Store} (hidle : s.Idle g) : ∃ nadjs : Vec (Vec (List ℕ)),
    s.nadjRef < nadjs.size ∧ s.subgraph.size ≤ (nadjs.get s.nadjRef).size ∧
      (∀ i, (nadjs.get s.nadjRef).get i = []) ∧
      Store.init g k s = { s with
        memory.nadjs := nadjs.set s.nadjRef (fillNadj g s.subgraph (nadjs.get s.nadjRef))
        node.nadj := some s.nadjRef
        node.impl0 :=
          Impl.init s.subgraph (fillNadj g s.subgraph (nadjs.get s.nadjRef)).get k } := by
  unfold Store.init Store.nadjRef
  cases hn : s.node.nadj with
  | none =>
    have hnew : Vec.get (s.memory.nadjs.push (Vec.zeros s.subgraph.size)) s.memory.nadjs.size
        = Vec.zeros s.subgraph.size := by
      rw [Vec.get_push, if_pos rfl]
    refine ⟨s.memory.nadjs.push (Vec.zeros s.subgraph.size), ?_, ?_, ?_, rfl⟩
    · rw [Array.size_push]
      exact Nat.lt_succ_self _
    · rw [Option.getD_none, hnew]
      exact (Vec.size_zeros _).ge
    · intro i
      rw [Option.getD_none, hnew]
      exact Vec.get_zeros _ _
  | some r =>
    have hlt := hidle.nadj_lt r hn
    obtain ⟨hsize, hnil⟩ := clearNadj_spec (s.memory.nadjs.get r) s.subgraph.size
    have hclear :
        Vec.get (s.memory.nadjs.set r (clearNadj (s.memory.nadjs.get r) s.subgraph.size)) r
          = clearNadj (s.memory.nadjs.get r) s.subgraph.size := Vec.get_set_self hlt _
    refine ⟨s.memory.nadjs.set r (clearNadj (s.memory.nadjs.get r) s.subgraph.size), ?_, ?_, ?_, ?_⟩
    · exact hlt.trans_eq (Vec.size_set _ _ _).symm
    · rw [Option.getD_some, hclear]
      exact hsize
    · intro i
      rw [Option.getD_some, hclear]
      exact hnil i
    · simp only [Memory.nadj, hn, Option.map_some, Option.getD_some]

/-- `Init` on a store that holds a block. -/
theorem init_spec {v : ℕ} {s : Store} (hidle : s.Idle g)
    (hsub : s.subgraph = (block g k q v).toArray) {r : ℕ} (hr : s.node.subgraph = some r) :
    Opened g k q v s (Store.init g k s) := by
  have href : s.ref = r := by
    unfold Store.ref
    rw [hr]
    rfl
  obtain ⟨nadjs, hlt, hsize, hnil, heq⟩ := storeInit_eq g k hidle
  have hfill := fillNadj_get g s.subgraph hsize hnil
  rw [heq]
  refine ⟨⟨hidle.subgraph_lt, ?_, hidle.added, hidle.candidates, hidle.counts⟩, ?_, rfl, hsub, ?_,
    ?_⟩
  · intro x hx
    obtain rfl := Option.some.inj hx
    exact hlt.trans_eq (Vec.size_set _ _ _).symm
  · rw [href]
    exact hr
  · show (Vec.get (nadjs.set s.nadjRef _) s.nadjRef).get = _
    rw [Vec.get_set_self hlt, hfill, hsub]
  · show Impl.init s.subgraph (fillNadj g s.subgraph (nadjs.get s.nadjRef)).get k = _
    rw [hfill, hsub]

/-- The marks are cleared. -/
theorem setAll_marks (v : ℕ) (l : List ℕ) (hv : v ∈ l) :
    ((marks g v).setAll l false).setAll (g.fwdNeighs v) false = Vec.zeros g.size := by
  have h := Vec.setAll_default_eq_zeros (v := (marks g v).setAll l false) (l := g.fwdNeighs v) (by
    intro i hi
    by_contra hno
    apply hi
    unfold marks
    rw [Vec.get_setAll, Vec.get_setAll, Vec.get_set, Vec.get_zeros]
    by_cases hil : i ∈ l
    · by_cases hsize : i < g.size
      · simp [hil, hsize]
      · have hvi : ¬ (v = i ∧ v < g.size) := fun h => hsize (h.1 ▸ h.2)
        simp [hno, hsize, hvi]
    · have hvi : ¬ v = i := fun h => hil (h ▸ hv)
      simp [hil, hno, hvi])
  refine h.trans ?_
  unfold marks
  simp

/-- An array that has no value yet, or is clear, is clear when it is used. -/
theorem getD_zeros {α : Type} [Inhabited α] {o : Option (Vec α)} {n : ℕ}
    (h : ∀ a, o = some a → a = Vec.zeros n) : o.getD (Vec.zeros n) = Vec.zeros n := by
  cases o with
  | none => rfl
  | some a => exact h a rfl

/-- The vertices two hops away. -/
theorem twoHop_eq (v : ℕ) {s : Store} (hidle : s.Idle g) :
    (if k ≠ 1 then twoHop g k q v (marks g v) (nearBlock g k q v)
        (s.clear.pushes (v :: nearBlock g k q v)) else s.clear.pushes (v :: nearBlock g k q v))
      = { s.clear.pushes (block g k q v) with
          subgraphCandidates := []
          subgraphCounts := if k ≠ 1 then some (Vec.zeros g.size) else s.subgraphCounts } := by
  obtain ⟨hr, href, hlt, hempty, -, -, -, -, hcands, hcounts⟩ := Store.clear_spec hidle
  have hcands' : s.clear.subgraphCandidates = [] := hcands.trans hidle.candidates
  by_cases hk1 : k ≠ 1
  · have hscan := twoHopScan_spec g k q v
    have hfar : farBlock g k q v = (twoHopScan g k q v).2.filter fun n =>
        decide ((twoHopScan g k q v).1.get n + 2 * k ≥ q + 2) := if_pos hk1
    have hzero : (twoHopScan g k q v).1.setAll (twoHopScan g k q v).2 0 = Vec.zeros g.size := by
      rw [show (0 : ℕ) = default from rfl, Vec.setAll_default_eq_zeros fun i hi => by
        by_contra hno
        exact hi (hscan.zero_of_notMem i hno), hscan.size]
      rfl
    rw [if_pos hk1, if_pos hk1]
    unfold twoHop
    have hc : (s.clear.pushes (v :: nearBlock g k q v)).subgraphCounts.getD (Vec.zeros g.size)
        = Vec.zeros g.size := by
      show s.clear.subgraphCounts.getD _ = _
      rw [hcounts]
      exact getD_zeros hidle.counts
    have hn : (s.clear.pushes (v :: nearBlock g k q v)).subgraphCandidates = [] := hcands'
    rw [hc, hn]
    show { (List.foldl (addTwoHop k q) (s.clear.pushes (v :: nearBlock g k q v),
      (twoHopScan g k q v).1) (twoHopScan g k q v).2).1 with
        subgraphCounts := some (List.foldl (addTwoHop k q)
          (s.clear.pushes (v :: nearBlock g k q v), (twoHopScan g k q v).1)
          (twoHopScan g k q v).2).2
        subgraphCandidates := [] } = _
    rw [Store.foldl_addTwoHop k q (r := s.ref) (by exact hr)
      (by exact hlt.trans_eq (Vec.size_set _ _ _).symm) hscan.nodup, hzero, ← hfar,
      Store.pushes_pushes hr hlt]
    rfl
  · have hfar : farBlock g k q v = [] := if_neg hk1
    rw [if_neg hk1, if_neg hk1, ← hcounts, ← hcands']
    unfold block
    rw [hfar, List.append_nil]
    rfl

/-- The store before `Init`. -/
theorem openRoot_eq (v : ℕ) {s : Store} (hidle : s.Idle g) :
    openRoot g k q v s = Store.init g k { s.clear.pushes (block g k q v) with
      subgraphAdded := some (Vec.zeros g.size)
      subgraphCandidates := []
      subgraphCounts := if k ≠ 1 then some (Vec.zeros g.size) else s.subgraphCounts } := by
  obtain ⟨hr, href, hlt, hempty, -, -, -, hadded, -, -⟩ := Store.clear_spec hidle
  have hadded' : s.clear.subgraphAdded.getD (Vec.zeros g.size) = Vec.zeros g.size := by
    rw [hadded]
    exact getD_zeros hidle.added
  -- the near vertices
  have hnear : (nearBlock g k q v).foldl Store.addToSubgraph (s.clear.addToSubgraph v)
      = s.clear.pushes (v :: nearBlock g k q v) := by
    rw [Store.addToSubgraph_eq hr, Store.foldl_addToSubgraph (r := s.ref) (by exact hr)
      (by exact hlt.trans_eq (Vec.size_set _ _ _).symm), Store.pushes_pushes hr hlt]
    rfl
  unfold openRoot
  dsimp only
  rw [hadded']
  have hloop : filterLoop g k q ((g.fwdNeighs v).length + 1) (g.fwdNeighs v)
      = nearBlock g k q v := rfl
  have hmarks : ((Vec.zeros g.size).set v true).setAll (g.fwdNeighs v) true = marks g v := rfl
  rw [hloop, hmarks, hnear, twoHop_eq g k q v hidle]
  have hsub : (Store.subgraph { s.clear.pushes (block g k q v) with
      subgraphCandidates := []
      subgraphCounts := if k ≠ 1 then some (Vec.zeros g.size) else s.subgraphCounts }).toList
        = block g k q v := by
    show (Memory.subgraph (s.clear.pushes (block g k q v)).memory s.clear.node).toList = _
    unfold Memory.subgraph Store.pushes
    rw [hr, href]
    show ((s.clear.memory.subgraphs.set s.ref
      (s.clear.memory.subgraphs.get s.ref ++ (block g k q v).toArray)).get s.ref).toList = _
    rw [Vec.get_set_self hlt, hempty]
    simp
  rw [hsub, setAll_marks g v (block g k q v) List.mem_cons_self]

/-- **`GetRoot` writes its block** and leaves the store idle. -/
theorem openRoot_spec (v : ℕ) {s : Store} (hidle : s.Idle g) :
    Opened g k q v s (openRoot g k q v s) := by
  obtain ⟨hr, href, hlt, hempty, hnadjs, hnadj, -, -, -, -⟩ := Store.clear_spec hidle
  rw [openRoot_eq g k q v hidle]
  set s' : Store := { s.clear.pushes (block g k q v) with
    subgraphAdded := some (Vec.zeros g.size)
    subgraphCandidates := []
    subgraphCounts := if k ≠ 1 then some (Vec.zeros g.size) else s.subgraphCounts } with hs'
  have hsub : s'.subgraph = (block g k q v).toArray := by
    show Memory.subgraph (s.clear.pushes (block g k q v)).memory s.clear.node = _
    unfold Memory.subgraph Store.pushes
    rw [hr, href]
    show (s.clear.memory.subgraphs.set s.ref
      (s.clear.memory.subgraphs.get s.ref ++ (block g k q v).toArray)).get s.ref = _
    rw [Vec.get_set_self hlt, hempty]
    simp
  have hidle' : s'.Idle g := by
    refine ⟨?_, ?_, ?_, rfl, ?_⟩
    · intro r hr'
      have hr' : s.clear.node.subgraph = some r := hr'
      rw [hr] at hr'
      obtain rfl := Option.some.inj hr'
      exact hlt.trans_eq (Vec.size_set _ _ _).symm
    · intro r hr'
      have hr' : s.clear.node.nadj = some r := hr'
      show r < s.clear.memory.nadjs.size
      rw [hnadjs]
      exact hidle.nadj_lt r (hnadj ▸ hr')
    · intro a ha
      exact (Option.some.inj ha).symm
    · intro c hc
      have hc : (if k ≠ 1 then some (Vec.zeros g.size) else s.subgraphCounts) = some c := hc
      split_ifs at hc
      · exact (Option.some.inj hc).symm
      · exact hidle.counts c hc
  have hopen := init_spec g k q hidle' hsub (r := s.ref) hr
  have href' : s'.ref = s.ref := by
    show s.clear.node.subgraph.getD _ = _
    rw [hr]
    rfl
  have hnadj' : s'.nadjRef = s.nadjRef := by
    show s.clear.node.nadj.getD s.clear.memory.nadjs.size = _
    rw [hnadj, hnadjs]
    rfl
  refine ⟨hopen.idle, ?_, ?_, hopen.subgraph_eq, hopen.nadj_eq, hopen.impl_eq⟩
  · rw [hopen.ref_eq, href']
  · rw [hopen.nadjRef_eq, hnadj']

/-! ### The root node -/

variable {g k q}

/-- The loop of `Init` counts as the loop of `AddToKplex` does. -/
theorem foldl_initCounter (hk : 1 ≤ k) {impl : Impl} {l : List ℕ} (hl : l.Nodup)
    (hlt : ∀ e ∈ l, e < impl.counters.size) (hzero : ∀ e ∈ l, impl.counter e = 0) :
    l.foldl (Impl.initCounter k) impl = l.foldl (Impl.bumpCounter k 0) impl := by
  induction l generalizing impl with
  | nil => rfl
  | cons e l ih =>
    obtain ⟨hel, hl⟩ := List.nodup_cons.mp hl
    have hstep : Impl.initCounter k impl e = Impl.bumpCounter k 0 impl e := by
      unfold Impl.initCounter Impl.bumpCounter
      rw [if_pos (by rw [hzero e List.mem_cons_self]; omega)]
    have hsize : (Impl.bumpCounter k 0 impl e).counters.size = impl.counters.size :=
      Vec.size_set _ _ _
    rw [List.foldl_cons, List.foldl_cons, hstep, ih hl
      (fun x hx => hsize ▸ hlt x (List.mem_cons_of_mem _ hx)) fun x hx => by
        rw [Impl.counter_bumpCounter 0 (hlt e List.mem_cons_self),
          if_neg fun h : x = e => hel (by rw [← h]; exact hx)]
        exact hzero x (List.mem_cons_of_mem _ hx)]

variable {subgraph : Vec ℕ} {nadj : ℕ → List ℕ}

/-- The arrays of a node without members. -/
def emptyImpl (subgraph : Vec ℕ) (k : ℕ) : Impl :=
  { counters := Vec.zeros subgraph.size
    status := Vec.zeros subgraph.size
    nonNeighs := Vec.zeros (k * subgraph.size) }

theorem counted_emptyImpl : Impl.Counted g subgraph k (emptyImpl subgraph k) := by
  refine ⟨List.nodup_nil, by simp [emptyImpl], Vec.size_zeros _, Vec.size_zeros _,
    Vec.size_zeros _, fun i _ => ?_, fun i _ _ => rfl⟩
  show ((Vec.zeros subgraph.size : Vec UInt8).get i).toNat = _
  rw [Vec.get_zeros]
  rfl

/-- The root is the first vertex to join the `k`-plex. -/
theorem init_eq (hB : IsBlock g subgraph nadj) (hk : 1 ≤ k) : Impl.init subgraph nadj k
    = { (emptyImpl subgraph k).addToKplex nadj k 0 with
        cands := List.range' 1 (subgraph.size - 1)
        status := ((emptyImpl subgraph k).addToKplex nadj k 0).status.setAll
          (List.range' 1 (subgraph.size - 1)) .inCand } := by
  unfold Impl.init Impl.addToKplex
  dsimp only
  rw [foldl_initCounter hk (hB.nodup_nadj hB.pos)
    (fun e he => ((hB.mem_nadj hB.pos).mp he).1.trans_eq (Vec.size_zeros _).symm)
    (fun e _ => by
      show ((Vec.zeros subgraph.size : Vec UInt8).get e).toNat = 0
      rw [Vec.get_zeros]
      rfl)]
  rfl

theorem mem_range'_one {n i : ℕ} : i ∈ List.range' 1 (n - 1) ↔ i ≠ 0 ∧ i < n := by
  rw [List.mem_range'_1]
  omega

theorem foldl_initCounter_frame (k : ℕ) (l : List ℕ) (impl : Impl) :
    ∃ counters nonNeighs, l.foldl (Impl.initCounter k) impl
        = { impl with counters := counters, nonNeighs := nonNeighs } ∧
      counters.size = impl.counters.size := by
  induction l generalizing impl with
  | nil => exact ⟨_, _, rfl, rfl⟩
  | cons e l ih =>
    obtain ⟨counters, nonNeighs, hrun, hsize⟩ := ih (Impl.initCounter k impl e)
    refine ⟨counters, nonNeighs, ?_, hsize.trans (Vec.size_set _ _ _)⟩
    rw [List.foldl_cons, hrun]
    rfl

/-- The lists of the root node, and the size of its counts. -/
theorem init_frame (subgraph : Vec ℕ) (nadj : ℕ → List ℕ) (k : ℕ) :
    (Impl.init subgraph nadj k).kplex = [0] ∧
      (Impl.init subgraph nadj k).cands = List.range' 1 (subgraph.size - 1) ∧
      (Impl.init subgraph nadj k).excluded = [] ∧
      (Impl.init subgraph nadj k).counters.size = subgraph.size ∧
      (Impl.init subgraph nadj k).status = ((Vec.zeros subgraph.size).set 0 .inKplex).setAll
        (List.range' 1 (subgraph.size - 1)) .inCand := by
  unfold Impl.init
  dsimp only
  obtain ⟨counters, nonNeighs, hrun, hsize⟩ := foldl_initCounter_frame k (nadj 0)
    { kplex := [0]
      counters := Vec.zeros subgraph.size
      status := (Vec.zeros subgraph.size).set 0 .inKplex
      nonNeighs := Vec.zeros (k * subgraph.size) }
  rw [hrun]
  exact ⟨rfl, rfl, rfl, hsize.trans (Vec.size_zeros _), rfl⟩

/-- The root is marked as a member, and every other index as a candidate. -/
theorem status_init (nadj : ℕ → List ℕ) (k : ℕ) {i : ℕ} (hi : i < subgraph.size) :
    (Impl.init subgraph nadj k).status.get i = if i = 0 then .inKplex else .inCand := by
  rw [(init_frame subgraph nadj k).2.2.2.2, Vec.get_setAll, Vec.size_set, Vec.size_zeros,
    Vec.get_set, Vec.size_zeros]
  by_cases hi0 : i = 0
  · rw [if_neg fun h => (mem_range'_one.mp h.1).1 hi0, if_pos hi0,
      if_pos ⟨hi0.symm, Nat.zero_lt_of_lt hi⟩]
  · rw [if_pos ⟨mem_range'_one.mpr ⟨hi0, hi⟩, hi⟩, if_neg hi0]

/-- A single vertex, and when another one extends it. -/
theorem addable_zero_iff (hk : 1 ≤ k)
    (hone : k = 1 → ∀ i < subgraph.size, i ≠ 0 → (blockGraph g subgraph).Adj 0 i) {i : ℕ}
    (hi : i < subgraph.size) :
    IsKplex (blockGraph g subgraph) k {0} ∧
      (Addable (blockGraph g subgraph) k {0} i ↔ i ≠ 0) := by
  have hcard : ∀ x, (nonAdj (blockGraph g subgraph) {0} x).card ≤ 1 := fun x =>
    (Finset.card_filter_le _ _).trans (Finset.card_singleton 0).le
  have hK : IsKplex (blockGraph g subgraph) k {0} :=
    isKplex_iff_nonAdj.mpr fun v _ => (hcard v).trans hk
  refine ⟨hK, fun h => by simpa using h.1, fun hi0 => ?_⟩
  refine (addable_iff hK).mpr ⟨by simpa using hi0, ?_, fun u hu hnot => ?_⟩
  · by_cases hk1 : k = 1
    · have hempty : nonAdj (blockGraph g subgraph) {0} i = ∅ :=
        Finset.filter_eq_empty_iff.mpr fun u hu => by
          rw [Finset.mem_singleton.mp hu]
          exact not_not.mpr (hone hk1 i hi hi0).symm
      rw [hempty, Finset.card_empty]
      omega
    · have := hcard i
      omega
  · rw [Finset.mem_singleton.mp hu] at hnot ⊢
    have hk1 : k ≠ 1 := fun hk1 => hnot (hone hk1 i hi hi0).symm
    have := hcard 0
    omega

/-- **The node `GetRoot` makes is a node of the search.** -/
theorem inv_init (hB : IsBlock g subgraph nadj) (hk : 1 ≤ k) (hk' : k ≤ 255)
    (hone : k = 1 → ∀ i < subgraph.size, i ≠ 0 → (blockGraph g subgraph).Adj 0 i) :
    Impl.Inv g subgraph k (Impl.init subgraph nadj k) := by
  obtain ⟨hkplex, hcands, hexcl, -, hstatus⟩ := init_frame subgraph nadj k
  constructor
  case toCounted =>
    have h : Impl.Counted g subgraph k ((emptyImpl subgraph k).addToKplex nadj k 0) :=
      counted_emptyImpl.addToKplex hB hk' hB.pos List.not_mem_nil
    rw [init_eq hB hk]
    exact ⟨h.nodup, h.lt_size, h.size_counters, (Vec.size_setAll _ _ _).trans h.size_status,
      h.size_nonNeighs, h.counter_eq, h.slots_eq⟩
  case head => exact ⟨[], hkplex⟩
  case isKplex =>
    rw [hkplex]
    exact (addable_zero_iff hk hone hB.pos).1
  case grown =>
    intro i hi hi0
    rw [hkplex] at hi
    exact absurd (List.mem_singleton.mp hi) hi0
  case cands_sorted =>
    rw [hcands]
    exact List.pairwise_lt_range'
  case excluded_nodup =>
    rw [hexcl]
    exact List.nodup_nil
  case disjoint =>
    intro i _ hi
    rw [hexcl] at hi
    exact List.not_mem_nil hi
  case lt_of_mem =>
    rw [hcands, hexcl]
    rintro i (hi | hi)
    · exact (mem_range'_one.mp hi).2
    · exact absurd hi List.not_mem_nil
  case addable =>
    intro i hi
    rw [hcands, hexcl, hkplex, mem_range'_one]
    show _ ↔ Addable _ k {0} i
    rw [(addable_zero_iff hk hone hi).2]
    simp [hi]
  case status_cand =>
    intro i hi
    rw [status_init nadj k hi, hcands, mem_range'_one]
    by_cases hi0 : i = 0
    · simp [hi0]
    · simp [hi0, hi]
  case status_kplex =>
    intro i hi h
    rw [status_init nadj k hi] at h
    rw [hkplex]
    by_cases hi0 : i = 0
    · exact List.mem_singleton.mpr hi0
    · rw [if_neg hi0] at h
      exact absurd h (by decide)

/-! ### The block as an array -/

variable (g k q) in
/-- The array that `GetRoot` writes through `subgraph_`. -/
abbrev blockVec (v : ℕ) : Vec ℕ := (block g k q v).toArray

theorem block_get {v i : ℕ} (hi : i < (block g k q v).length) :
    (blockVec g k q v).get i = (block g k q v)[i] := by
  unfold Vec.get
  rw [Array.getD_eq_getD_getElem?, List.getElem?_toArray, List.getElem?_eq_getElem hi]
  rfl

theorem block_get_zero (v : ℕ) : (blockVec g k q v).get 0 = v := rfl

theorem block_get_mem {v i : ℕ} (hi : i < (blockVec g k q v).size) :
    (blockVec g k q v).get i ∈ block g k q v := by
  rw [block_get (by simpa using hi)]
  exact List.getElem_mem _

theorem exists_block_get {v u : ℕ} (hu : u ∈ block g k q v) :
    ∃ i < (blockVec g k q v).size, (blockVec g k q v).get i = u := by
  obtain ⟨i, hi, rfl⟩ := List.getElem_of_mem hu
  exact ⟨i, by simpa using hi, block_get hi⟩

variable (g k q) in
theorem isBlock_block (v : ℕ) :
    IsBlock g (blockVec g k q v) (blockNadj g (blockVec g k q v)) := by
  refine ⟨?_, fun i hi j hj h => ?_, fun i hi => if_pos hi⟩
  · show 0 < (block g k q v).toArray.size
    unfold block
    simp
  · have hi' : i < (block g k q v).length := by simpa using hi
    have hj' : j < (block g k q v).length := by simpa using hj
    rw [block_get hi', block_get hj'] at h
    exact (block_nodup.getElem_inj_iff).mp h

/-- The root comes first. -/
theorem block_get_ge {v i : ℕ} (hi : i < (blockVec g k q v).size) :
    v ≤ (blockVec g k q v).get i := by
  rcases List.mem_cons.mp (block_get_mem hi) with h | h
  · exact h.ge
  · exact (lt_of_mem_block h).le

/-- For `k = 1` the block is the root and its neighbours. -/
theorem adj_block_of_one {v i : ℕ} (hk : k = 1) (hi : i < (blockVec g k q v).size)
    (hi0 : i ≠ 0) : (blockGraph g (blockVec g k q v)).Adj 0 i := by
  show g.toSimpleGraph.Adj ((blockVec g k q v).get 0) ((blockVec g k q v).get i)
  rw [block_get_zero]
  have hne : (blockVec g k q v).get i ≠ v := by
    intro h
    rw [← block_get_zero (g := g) (k := k) (q := q) v] at h
    exact hi0 ((isBlock_block g k q v).injOn i hi 0 (isBlock_block g k q v).pos h)
  rcases mem_block.mp (block_get_mem hi) with h | h | h
  · exact absurd h hne
  · exact (adj_of_mem_nearBlock h).1
  · exact absurd hk (mem_farBlock.mp h).1

variable (g k q) in
/-- The root node of `v`. -/
def rootImpl (v : ℕ) : Impl :=
  Impl.init (blockVec g k q v) (blockNadj g (blockVec g k q v)) k

theorem inv_rootImpl (hk : 1 ≤ k) (hk' : k ≤ 255) (v : ℕ) :
    Impl.Inv g (blockVec g k q v) k (rootImpl g k q v) :=
  inv_init (isBlock_block g k q v) hk hk' fun hk1 _ hi hi0 => adj_block_of_one hk1 hi hi0

variable (g k q) in
/-- The root node holds its root, for every `k`. -/
theorem kplex_rootImpl (v : ℕ) : (rootImpl g k q v).kplex = [0] := (init_frame _ _ k).1

variable (g k q) in
theorem cands_rootImpl (v : ℕ) :
    (rootImpl g k q v).cands = List.range' 1 ((blockVec g k q v).size - 1) :=
  (init_frame _ _ k).2.1

/-- The sets below the root node are those of the block that contain the root. -/
theorem mem_fam_rootImpl (v : ℕ) {S : Finset ℕ} :
    (rootImpl g k q v).kplex.toFinset ⊆ S ∧
        S ⊆ (rootImpl g k q v).kplex.toFinset ∪ (rootImpl g k q v).cands.toFinset ↔
      0 ∈ S ∧ ∀ i ∈ S, i < (blockVec g k q v).size := by
  rw [kplex_rootImpl, cands_rootImpl]
  constructor
  · rintro ⟨h1, h2⟩
    refine ⟨h1 (by simp), fun i hi => ?_⟩
    rcases Finset.mem_union.mp (h2 hi) with h | h
    · have : i = 0 := by simpa using h
      rw [this]
      exact (isBlock_block g k q v).pos
    · exact (mem_range'_one.mp (List.mem_toFinset.mp h)).2
  · rintro ⟨h0, hS⟩
    refine ⟨fun i hi => ?_, fun i hi => ?_⟩
    · have : i = 0 := by simpa using hi
      rw [this]
      exact h0
    · by_cases hi0 : i = 0
      · simp [hi0]
      · exact Finset.mem_union_right _
          (List.mem_toFinset.mpr (mem_range'_one.mpr ⟨hi0, hS i hi⟩))

/-- The tree below a root is no higher than the graph has vertices. -/
theorem length_cands_rootImpl {v : ℕ} (hv : v < g.N) :
    (rootImpl g k q v).cands.length < g.N := by
  have hlen : (block g k q v).length ≤ g.N := by
    rw [← List.toFinset_card_of_nodup block_nodup, ← Finset.card_range g.N]
    refine Finset.card_le_card fun u hu => Finset.mem_range.mpr ?_
    exact lt_N_of_mem_block hv (List.mem_toFinset.mp hu)
  have hsize : (blockVec g k q v).size = (block g k q v).length := List.size_toArray
  rw [cands_rootImpl, List.length_range', hsize]
  omega

end ParallelEnum.Diam2Kplex
