import Mathlib.Data.List.DropRight
import ParallelEnum.Enumerable.Equiv.Labels
import ParallelEnum.Theory.Renaming
import ParallelEnum.Ui.TextUi
import ParallelEnum.Util.Equiv.FastGraph.Permute
import ParallelEnum.Util.Equiv.ReadGraph

/-!
# What the program prints

From the bytes of the file to the bytes on `stdout`.  A line names the positions of vertices in the
degeneracy order, so the vertices that it stands for are read through that order (`named`).

* `main_clique_iff`: the lines before those of `PrintStats` stand for the maximal cliques of the
  graph in the file, each once, exactly when the hash sets of that graph and of the renumbered one
  can be built.
* `main_d2kplex_iff`: the same for the maximal `k`-plexes of at least `max q (2k - 1)` vertices and
  the lines of at least `2k - 1` entries.
-/

namespace ParallelEnum

open Cuckoo Outcome

/-- A `fast_graph_t` that stores a graph is read as that graph. -/
theorem FastGraph.Represents.toGraph_eq {T : KeyType} {G : FastGraph T} {g : Graph}
    (h : Represents G g) : G.toGraph = g := by
  apply Graph.ext_adj h.N_eq
  intro i j
  rw [Graph.adj_iff_mem]
  unfold FastGraph.toGraph
  rw [Graph.neighs_ofRel, Graph.mem_relNeighs, decide_eq_true_iff, decide_eq_true_iff,
    h.neighs_eq, h.neighs_eq, h.N_eq]
  show _ ↔ j ∈ g.neighs i
  constructor
  · rintro ⟨_, _, _, hij | hji⟩
    · exact hij
    · exact g.symm j i hji
  · intro hij
    have hlt := g.lt_of_adj hij
    exact ⟨hlt.1, hlt.2, fun heq => g.irrefl i (heq ▸ hij), Or.inl hij⟩

namespace TextUi

open Kplex LexCompletion ReadGraph

/-! ### Lines -/

theorem ne_newline_of_isDigit {c : UInt8} (h : DigitRuns.isDigit c = true) :
    (c == 10) = false := by
  rw [beq_eq_false_iff_ne]
  rintro rfl
  cases h

theorem line_of_digits {n : ℕ} : ∀ c ∈ DigitRuns.decimal n, (c == 10) = false :=
  fun c hc => ne_newline_of_isDigit ((DigitRuns.decimal_spec n).2.1 c hc)

/-- The items can be read back, line by line. -/
theorem lineNumbers_items (items : List (List ℕ)) (text : List UInt8) :
    DigitRuns.lineNumbers (items.flatMap printItem ++ text)
      = items ++ DigitRuns.lineNumbers text := by
  have hlines : ∀ line ∈ items.map (fun item => item.flatMap fun i => DigitRuns.decimal i ++ [32]),
      ∀ c ∈ line, (c == 10) = false := by
    intro line hline c hc
    obtain ⟨item, -, rfl⟩ := List.mem_map.mp hline
    obtain ⟨i, -, hc⟩ := List.mem_flatMap.mp hc
    rcases List.mem_append.mp hc with hc | hc
    · exact line_of_digits c hc
    · rw [List.mem_singleton.mp hc]
      rfl
  have hnumbers : (items.map fun item => item.flatMap fun i => DigitRuns.decimal i ++ [32]).map
      DigitRuns.numbers = items := by
    rw [List.map_map]
    exact (List.map_congr_left fun item _ => DigitRuns.numbers_flatMap (by decide) item).trans
      (List.map_id items)
  have hprinted : items.flatMap printItem
      = (items.map fun item => item.flatMap fun i => DigitRuns.decimal i ++ [32]).flatMap
          fun line => line ++ [10] := by
    rw [List.flatMap_map]
    rfl
  rw [hprinted, DigitRuns.lineNumbers_flatMap hlines, hnumbers]

theorem line_of_printLong {i : ℤ} : ∀ c ∈ printLong i, (c == 10) = false := by
  intro c hc
  rcases List.mem_append.mp hc with hc | hc
  · split_ifs at hc
    · rw [List.mem_singleton.mp hc]
      rfl
    · cases hc
  · exact line_of_digits c hc

/-- A line with a time in it. -/
theorem line_of_time {what : List UInt8} (hwhat : ∀ c ∈ what, (c == 10) = false) {i : ℤ} :
    ∀ c ∈ what ++ printLong i ++ bytes " ms", (c == 10) = false :=
  List.forall_mem_append.mpr
    ⟨List.forall_mem_append.mpr ⟨hwhat, line_of_printLong⟩, by decide +kernel⟩

/-- How many lines `PrintStats` has. -/
def Flags.statsLines (flags : Flags) : ℕ := if flags.quiet then 0 else 6

/-- The lines of `PrintStats` are lines. -/
theorem length_printStats (flags : Flags) (m : Measured) (e : Enumerator (List ℕ)) :
    (DigitRuns.lineNumbers (if !flags.quiet then e.printStats m else [])).length
      = flags.statsLines := by
  unfold Flags.statsLines
  cases flags.quiet with
  | true =>
    show (DigitRuns.lineNumbers []).length = 0
    rw [DigitRuns.lineNumbers_nil]
    rfl
  | false =>
    have hlines : ∀ line ∈ e.statsLines m, ∀ c ∈ line, (c == 10) = false := by
      simp only [Enumerator.statsLines, List.forall_mem_cons]
      refine ⟨?_, ?_, ?_, ?_, ?_, ?_, List.forall_mem_nil _⟩
      · exact line_of_time (by decide +kernel)
      · exact line_of_time (by decide +kernel)
      · exact line_of_time (by decide +kernel)
      · exact List.forall_mem_append.mpr ⟨by decide +kernel, line_of_digits⟩
      · exact List.forall_mem_append.mpr ⟨by decide +kernel, line_of_digits⟩
      · exact List.forall_mem_append.mpr ⟨by decide +kernel, m.quotient_line _ _⟩
    have hread := DigitRuns.lineNumbers_flatMap hlines []
    rw [List.append_nil, DigitRuns.lineNumbers_nil, List.append_nil] at hread
    show (DigitRuns.lineNumbers (e.printStats m)).length = 6
    rw [Enumerator.printStats, hread, List.length_map]
    rfl

/-- The lines of an output but for the first ones and those of `PrintStats`. -/
def solutionLines (flags : Flags) (first : ℕ) (out : List UInt8) : List (List ℕ) :=
  ((DigitRuns.lineNumbers out).drop first).rdrop flags.statsLines

theorem solutionLines_output {flags : Flags} (hprint : flags.print = true) (m : Measured)
    (e : Enumerator (List ℕ)) : solutionLines flags 0 (output flags m e) = e.items := by
  have hlength := length_printStats flags m e
  rw [solutionLines, List.drop_zero, output, if_pos hprint, lineNumbers_items, List.rdrop,
    List.length_append, hlength, Nat.add_sub_cancel, List.take_left]

/-- The vertices at some positions of an order. -/
def named (order line : List ℕ) : Finset ℕ := (line.map fun i => order.getD i 0).toFinset

theorem named_eq_image (order line : List ℕ) :
    named order line = line.toFinset.image fun i => order.getD i 0 := by
  unfold named
  ext x
  simp

/-- Lines that stand for the sets with a property, each once. -/
structure Lists (order : List ℕ) (P : Finset ℕ → Prop) (lines : List (List ℕ)) : Prop where
  nodup_line : ∀ line ∈ lines, line.Nodup
  nodup : (lines.map (named order)).Nodup
  mem_iff : ∀ S, S ∈ lines.map (named order) ↔ P S

/-! ### Renumbering -/

section Renumbered

variable {g : Graph}

/-- The vertex of the graph given that has a number in the renumbered graph. -/
def vertexAt (g : Graph) (i : ℕ) : ℕ := (degeneracyOrder g).getD i 0

theorem vertexAt_injOn : Set.InjOn (vertexAt g) g.vertices := by
  intro i hi j hj heq
  exact Graph.order_inj (degeneracyOrder_perm g) (Finset.mem_range.mp hi) (Finset.mem_range.mp hj)
    heq

theorem image_vertices : g.vertices.image (vertexAt g) = g.vertices := by
  ext x
  rw [Finset.mem_image, g.mem_vertices]
  constructor
  · rintro ⟨i, hi, rfl⟩
    exact Graph.order_lt (degeneracyOrder_perm g) (g.mem_vertices.mp hi)
  · intro hx
    obtain ⟨i, hi, heq⟩ := Graph.exists_order (degeneracyOrder_perm g) hx
    exact ⟨i, g.mem_vertices.mpr hi, heq⟩

theorem adj_vertexAt {i j : ℕ} (hi : i ∈ g.vertices) (hj : j ∈ g.vertices) :
    g.renumbered.toSimpleGraph.Adj i j
      ↔ g.toSimpleGraph.Adj (vertexAt g i) (vertexAt g j) := by
  rw [renumbered_adj, and_iff_right (g.mem_vertices.mp hi), and_iff_right (g.mem_vertices.mp hj)]
  rfl

theorem image_subset_vertices {S : Finset ℕ} (hS : S ⊆ g.vertices) :
    S.image (vertexAt g) ⊆ g.vertices := by
  rw [← image_vertices (g := g)]
  exact Finset.image_subset_image hS

theorem isCliqueIn_image {S : Finset ℕ} (hS : S ⊆ g.vertices) :
    IsCliqueIn g.toSimpleGraph g.vertices (S.image (vertexAt g))
      ↔ IsCliqueIn g.renumbered.toSimpleGraph g.renumbered.vertices S := by
  unfold IsCliqueIn
  rw [Finset.image_nonempty, and_iff_right (image_subset_vertices hS)]
  apply and_congr_right
  intro _
  rw [and_iff_right (show S ⊆ g.renumbered.vertices from hS)]
  constructor
  · intro h i hi j hj hne
    refine (adj_vertexAt (hS hi) (hS hj)).mpr (h ?_ ?_ fun heq => hne ?_)
    · exact Finset.mem_coe.mpr (Finset.mem_image_of_mem _ hi)
    · exact Finset.mem_coe.mpr (Finset.mem_image_of_mem _ hj)
    · exact vertexAt_injOn (hS hi) (hS hj) heq
  · intro h x hx y hy hne
    obtain ⟨i, hi, rfl⟩ := Finset.mem_image.mp (Finset.mem_coe.mp hx)
    obtain ⟨j, hj, rfl⟩ := Finset.mem_image.mp (Finset.mem_coe.mp hy)
    exact (adj_vertexAt (hS hi) (hS hj)).mp (h hi hj fun heq => hne (congrArg _ heq))

/-- The maximal cliques of the renumbered graph are those of the graph given. -/
theorem isMaximalClique_image {S : Finset ℕ} (hS : S ⊆ g.vertices) :
    IsMaximalClique g.toSimpleGraph g.vertices (S.image (vertexAt g))
      ↔ IsMaximalClique g.renumbered.toSimpleGraph g.renumbered.vertices S := by
  apply Renaming.maximal_image_iff vertexAt_injOn _ _ (fun S hS => isCliqueIn_image hS) hS
  · exact fun S h => h.2.1
  · intro T h
    rw [image_vertices]
    exact h.2.1

/-- The maximal `k`-plexes of the renumbered graph are those of the graph given. -/
theorem isMaximalKplex_image {k : ℕ} {S : Finset ℕ} (hS : S ⊆ g.vertices) :
    IsMaximalKplex g.toSimpleGraph k g.vertices (S.image (vertexAt g))
      ↔ IsMaximalKplex g.renumbered.toSimpleGraph k g.renumbered.vertices S := by
  apply Renaming.maximal_image_iff vertexAt_injOn _ _ _ hS
  · exact fun S h => h.1
  · intro T h
    rw [image_vertices]
    exact h.1
  · intro S hS
    rw [and_iff_right (image_subset_vertices hS),
      and_iff_right (show S ⊆ g.renumbered.vertices from hS)]
    apply isKplex_image_iff (vertexAt_injOn.mono hS)
    exact fun v hv u hu => adj_vertexAt (hS hv) (hS hu)

/-- The lines for the items of the renumbered graph. -/
theorem lists_of_items {P Q : Finset ℕ → Prop} {items : List (List ℕ)}
    (hitem : ∀ item ∈ items, item.Nodup) (hnodup : (items.map List.toFinset).Nodup)
    (hmem : ∀ S, S ∈ items.map List.toFinset ↔ P S) (hP : ∀ S, P S → S ⊆ g.vertices)
    (hQ : ∀ S, Q S → S ⊆ g.vertices)
    (hPQ : ∀ S ⊆ g.vertices, Q (S.image (vertexAt g)) ↔ P S) :
    Lists (degeneracyOrder g) Q items := by
  have hmap : items.map (named (degeneracyOrder g))
      = (items.map List.toFinset).map fun S => S.image (vertexAt g) := by
    rw [List.map_map]
    apply List.map_congr_left
    exact fun item _ => named_eq_image _ _
  constructor
  case nodup_line => exact hitem
  case nodup =>
    rw [hmap]
    apply hnodup.map_on
    intro S hS S' hS' heq
    have hS := hP S ((hmem S).mp hS)
    have hS' := hP S' ((hmem S').mp hS')
    exact ((Renaming.image_subset_image_iff vertexAt_injOn hS hS').mp heq.le).antisymm
      ((Renaming.image_subset_image_iff vertexAt_injOn hS' hS).mp heq.ge)
  case mem_iff =>
    intro T
    rw [hmap, List.mem_map]
    constructor
    · rintro ⟨S, hS, rfl⟩
      have hPS := (hmem S).mp hS
      exact (hPQ S (hP S hPS)).mpr hPS
    · intro hT
      have hTV := hQ T hT
      rw [← image_vertices (g := g)] at hTV
      obtain ⟨S, hS, rfl⟩ := Finset.subset_image_iff.mp hTV
      have hS := Finset.coe_subset.mp hS
      exact ⟨S, (hmem S).mpr ((hPQ S hS).mp hT), rfl⟩

end Renumbered

/-! ### The graph -/

namespace Flags

/-- The format of the file. -/
def format (flags : Flags) : Format :=
  match flags.graphFormat with
  | .nde => .nde
  | .oly => .oly flags.oneBased

end Flags

/-- `--fast_graph` makes no difference. -/
theorem readFastGraph_eq (flags : Flags) (T : KeyType) (fuel : ℕ) (input : List UInt8) :
    readFastGraph flags T fuel (some input)
      = (flags.format.read T false fuel input).mapError .read := by
  unfold readFastGraph Flags.format
  cases flags.graphFormat with
  | nde => rfl
  | oly =>
    simp only [ite_self]
    rfl

/-- The graph that an enumeration runs on. -/
def newGraph (flags : Flags) (T : KeyType) (fuel : ℕ) (file : Option (List UInt8)) :
    Except Failure (FastGraph T) :=
  (readFastGraph flags T fuel file).bind permuted

theorem cliqueMain_eq (flags : Flags) (m : Measured) (T : KeyType) (fuel : ℕ)
    (file : Option (List UInt8)) :
    cliqueMain flags m T fuel file = (newGraph flags T fuel file).bind fun graph =>
      printed flags m
        (Sequential.runInternal fuel (Clique.cliqueEnumeration graph.toGraph) {} {}) := by
  unfold cliqueMain newGraph
  cases readFastGraph flags T fuel file <;> rfl

theorem d2kplexMain_eq (flags : Flags) (m : Measured) (T : KeyType) (std : StdSort) (fuel : ℕ)
    (file : Option (List UInt8)) :
    d2kplexMain flags m T std fuel file = (newGraph flags T fuel file).bind fun graph =>
      printed flags m (Sequential.runInternal fuel
        (Diam2Kplex.diam2KplexEnumeration graph.toGraph flags.k flags.q flags.enablePivoting std)
        {} {}) := by
  unfold d2kplexMain newGraph
  cases readFastGraph flags T fuel file <;> rfl

/-- The hash sets of a graph and of the renumbered graph can be built. -/
def Fits (T : KeyType) (g : Graph) : Prop :=
  FastGraph.Uncrowded T g ∧ FastGraph.Uncrowded T g.renumbered

/-- With enough fuel, a run ends, and of the lines before those of `PrintStats` the ones that are
looked at stand for the sets with a property. -/
def Prints (flags : Flags) (run : ℕ → Except Failure (List UInt8)) (keep : List ℕ → Bool)
    (order : List ℕ) (P : Finset ℕ → Prop) : Prop :=
  ∃ bound, ∀ fuel > bound, ∃ out, run fuel = .ok out ∧
    Lists order P ((solutionLines flags 0 out).filter keep)

section Programs

variable {T : KeyType} {flags : Flags} {N : ℕ} {es : List (ℕ × ℕ)} (hN : N < 2 ^ T.width - 1)
  (hes : ∀ e ∈ es, e.1 < N ∧ e.2 < N) {header : List ℕ} {text : List UInt8}
  (hheader : header.length = flags.format.header N)
  (htext : IsRendering text (flags.format.numbers N header es))

include hN hes hheader htext

/-- The graph of a file is renumbered, or one of the two graphs does not fit. -/
theorem newGraph_spec {fuel : ℕ} (hfuel : text.length < fuel) :
    Ensures (fun G => FastGraph.Represents G (listed N es).renumbered ∧ Fits T (listed N es))
      (fun _ => ¬ Fits T (listed N es)) (newGraph flags T fuel (some text)) := by
  have hlt : (listed N es).N < 2 ^ T.width := show N < 2 ^ T.width by omega
  have hlt' : (listed N es).renumbered.N < 2 ^ T.width := hlt
  have hread : Ensures (fun G => FastGraph.Represents G (listed N es))
      (fun _ => ¬ Fits T (listed N es)) (readFastGraph flags T fuel (some text)) := by
    rw [readFastGraph_eq, read_listed hN hes hheader htext hfuel]
    apply ((FastGraph.make_spec hlt).mapError _).mapError
    · exact fun e he => he
    · rintro e ⟨i, hi, hcrowded⟩ ⟨hfits, _⟩
      exact hfits i hi hcrowded
  refine hread.bind ?_
  intro G hG
  unfold permuted
  rw [hG.toGraph_eq, hG.permute_eq (degeneracyOrder_perm _)]
  apply ((FastGraph.make_spec hlt').mono _ _).mapError
  · exact fun e he => he
  · exact fun P hP => ⟨hP, hG.uncrowded, hP.uncrowded⟩
  · rintro e ⟨i, hi, hcrowded⟩ ⟨_, hfits⟩
    exact hfits i hi hcrowded

/-- A program prints what its enumeration reports, exactly when the graphs fit. -/
theorem prints_iff {St : Type} (exec : ℕ → Graph → Option (St × Enumerator (List ℕ)))
    {run : ℕ → Except Failure (List UInt8)} {m : Measured} {keep : List ℕ → Bool}
    {P : Finset ℕ → Prop} (hprint : flags.print = true)
    (hrun : ∀ fuel, run fuel = (newGraph flags T fuel (some text)).bind fun graph =>
      printed flags m (exec fuel graph.toGraph))
    (hexec : ∃ bound, ∀ fuel > bound, ∃ st e, exec fuel (listed N es).renumbered = some (st, e) ∧
      Lists (degeneracyOrder (listed N es)) P (e.items.filter keep)) :
    Prints flags run keep (degeneracyOrder (listed N es)) P ↔ Fits T (listed N es) := by
  constructor
  · rintro ⟨bound, hbound⟩
    obtain ⟨out, hout, -⟩ := hbound (max bound text.length + 1) (by omega)
    have hspec := newGraph_spec hN hes hheader htext
      (show text.length < max bound text.length + 1 by omega)
    by_contra hnot
    rw [hrun] at hout
    cases hgraph : newGraph flags T (max bound text.length + 1) (some text) with
    | ok G => exact hnot (hspec.of_ok hgraph).2
    | error e =>
      rw [hgraph] at hout
      cases hout
  · intro hfits
    obtain ⟨bound, hbound⟩ := hexec
    refine ⟨max bound text.length, ?_⟩
    intro fuel hfuel
    obtain ⟨G, hgraph, hG, -⟩ := (newGraph_spec hN hes hheader htext
      (show text.length < fuel by omega)).exists_ok fun _ hnot => hnot hfits
    obtain ⟨st, e, he, hlists⟩ := hbound fuel (by omega)
    refine ⟨output flags m e, ?_, ?_⟩
    · rw [hrun, hgraph]
      show printed flags m (exec fuel G.toGraph) = _
      rw [hG.toGraph_eq, he]
      rfl
    · rw [solutionLines_output hprint]
      exact hlists

theorem cliqueMain_iff (m : Measured) (hprint : flags.print = true) :
    Prints flags (fun fuel => cliqueMain flags m T fuel (some text)) (fun _ => true)
      (degeneracyOrder (listed N es))
      (IsMaximalClique (listed N es).toSimpleGraph (listed N es).vertices)
      ↔ Fits T (listed N es) := by
  refine prints_iff hN hes hheader htext
    (fun fuel g => Sequential.runInternal fuel (Clique.cliqueEnumeration g) {} {}) hprint
    (fun fuel => cliqueMain_eq flags m T fuel (some text)) ?_
  set g := (listed N es).renumbered with hg
  refine ⟨(Clique.listsForest g).allNodes.length, ?_⟩
  intro fuel hfuel
  obtain ⟨l, hl, st, e, hrun, hitems⟩ := Clique.runInternal_nodes g hfuel
  refine ⟨st, e, hrun, ?_⟩
  rw [List.filter_true, hitems]
  refine lists_of_items (P := IsMaximalClique g.toSimpleGraph g.vertices) ?_ ?_ ?_ ?_ ?_ ?_
  · intro item hitem
    obtain ⟨x, hx, rfl⟩ := List.mem_map.mp hitem
    exact ((Clique.mem_allNodes g).mp (hl.mem_iff.mp hx)).1.nodup
  · rw [List.map_map]
    exact Clique.map_toFinset_nodup g hl
  · intro S
    rw [List.map_map, List.mem_map]
    exact Clique.exists_node_iff g hl
  · exact fun S hS => hS.prop.2.1
  · exact fun S hS => hS.prop.2.1
  · exact fun S hS => isMaximalClique_image hS

theorem d2kplexMain_iff (m : Measured) (std : StdSort) (hprint : flags.print = true)
    (hk : 1 ≤ flags.k) (hk' : flags.k ≤ 255) :
    Prints flags (fun fuel => d2kplexMain flags m T std fuel (some text))
      (fun line => decide (2 * flags.k - 1 ≤ line.length)) (degeneracyOrder (listed N es))
      (fun S => IsMaximalKplex (listed N es).toSimpleGraph flags.k (listed N es).vertices S ∧
        max flags.q (2 * flags.k - 1) ≤ S.card)
      ↔ Fits T (listed N es) := by
  refine prints_iff hN hes hheader htext (fun fuel g => Sequential.runInternal fuel
      (Diam2Kplex.diam2KplexEnumeration g flags.k flags.q flags.enablePivoting std) {} {}) hprint
    (fun fuel => d2kplexMain_eq flags m T std fuel (some text)) ?_
  set g := (listed N es).renumbered with hg
  refine ⟨g.N, ?_⟩
  intro fuel hfuel
  obtain ⟨st, e, hrun, hitem, hnodup, hmem⟩ := Diam2Kplex.runInternal_reported
    flags.enablePivoting std (g := g) (q := flags.q) hk hk' hfuel
  refine ⟨st, e, hrun, ?_⟩
  refine lists_of_items (P := fun S => IsMaximalKplex g.toSimpleGraph flags.k g.vertices S ∧
    max flags.q (2 * flags.k - 1) ≤ S.card) ?_ ?_ ?_ ?_ ?_ ?_
  · exact fun item h => hitem item (List.mem_of_mem_filter h)
  · exact hnodup.sublist (List.filter_sublist.map _)
  · intro S
    rw [Diam2Kplex.mem_map_filter_iff hitem fun n => decide (2 * flags.k - 1 ≤ n), hmem,
      decide_eq_true_iff, max_le_iff]
    constructor
    · rintro ⟨hcard, hS⟩
      obtain ⟨hmax, hq⟩ := (Diam2Kplex.exists_isReported_iff hk (by omega)).mp hS
      exact ⟨hmax, hq, hcard⟩
    · rintro ⟨hmax, hq, hcard⟩
      exact ⟨hcard, (Diam2Kplex.exists_isReported_iff hk (by omega)).mpr ⟨hmax, hq⟩⟩
  · exact fun S hS => hS.1.prop.1
  · exact fun S hS => hS.1.prop.1
  · intro S hS
    rw [isMaximalKplex_image hS, Finset.card_image_of_injOn (vertexAt_injOn.mono hS)]

end Programs

section Main

variable (flags : Flags) {N : ℕ} {es : List (ℕ × ℕ)} {header : List ℕ} {text : List UInt8}

end Main

/-- Up to `2 ^ 31` vertices every graph fits. -/
theorem fits_of_le {T : KeyType} {g : Graph} (hN : g.N ≤ 2 ^ 31) : Fits T g :=
  ⟨FastGraph.uncrowded_of_le hN, FastGraph.uncrowded_of_le (g := g.renumbered) hN⟩

/-- A file with a path, one edge of which is listed twice. -/
def pathText : List UInt8 := DigitRuns.render [3, 0, 1, 1, 2, 2, 1, 0, 1, 1, 2, 2, 1]

/-- The edges in `pathText`. -/
def pathEdges : List (ℕ × ℕ) := [(0, 1), (1, 2), (2, 1)]

theorem isRendering_pathText :
    IsRendering pathText (Format.nde.numbers 3 [0, 1, 1, 2, 2, 1] pathEdges) :=
  ⟨DigitRuns.numbers_render _, by decide⟩

/-- A run of one millisecond. -/
def oneMillisecond : Measured where
  readingTime := 3
  setupTime := 0
  runTime := 1
  quotient solutions time := DigitRuns.decimal (solutions / time.natAbs) ++ bytes ".000000"
  quotient_line _ _ := List.forall_mem_append.mpr ⟨line_of_digits, by decide +kernel⟩

end TextUi

end ParallelEnum
