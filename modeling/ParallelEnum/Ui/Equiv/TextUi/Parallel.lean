import ParallelEnum.Enumerable.Equiv.Diam2Kplex.Threads
import ParallelEnum.Ui.Equiv.TextUi
import ParallelEnum.Ui.TextUi.Parallel

/-!
# What the program prints with several threads

* `parallel_clique_iff`: in every interleaving of the threads the lines stand for the maximal
  cliques of the graph in the file, each once, exactly when the hash sets can be built.  The line of
  the constructor comes first, and those of `PrintStats` come last.
* `parallel_d2kplex_iff`: the same for the maximal `k`-plexes of at least `max q (2k - 1)` vertices
  and the lines of at least `2k - 1` entries.
-/

namespace ParallelEnum.TextUi

open Cuckoo Kplex LexCompletion Outcome ReadGraph Transition

/-- With enough fuel, some run ends, and whatever a run prints, of the lines after the first one and
before those of `PrintStats` the ones that are looked at stand for the sets with a property. -/
def AlwaysPrints (flags : Flags) (run : ℕ → List UInt8 → Prop) (keep : List ℕ → Bool)
    (order : List ℕ) (P : Finset ℕ → Prop) : Prop :=
  ∃ bound, ∀ fuel > bound, (∃ out, run fuel out) ∧
    ∀ out, run fuel out → Lists order P ((solutionLines flags 1 out).filter keep)

/-- The constructor prints one line. -/
theorem solutionLines_banner (flags : Flags) (n : ℕ) (out : List UInt8) :
    solutionLines flags 1 (banner n ++ out) = solutionLines flags 0 out := by
  have hline : ∀ c ∈ bytes "Parallel enumerator (Pthreads): running with " ++ DigitRuns.decimal n
      ++ bytes " threads.", (c == 10) = false := by
    refine List.forall_mem_append.mpr ⟨List.forall_mem_append.mpr ⟨?_, line_of_digits⟩, ?_⟩
    · decide +kernel
    · decide +kernel
  have hlines := DigitRuns.lineNumbers_append hline out
  unfold solutionLines banner
  rw [List.append_assoc, List.singleton_append, hlines, List.drop_succ_cons]

/-! ### What the threads report -/

section Reports

variable {g : Graph} {n : ℕ} {e : Enumerator (List ℕ)}

theorem lists_of_cliqueReports (hn : 0 < n) (h : CliqueReports g.renumbered n e) :
    Lists (degeneracyOrder g) (IsMaximalClique g.toSimpleGraph g.vertices) e.items := by
  obtain ⟨s, hs, hfinished, rfl⟩ := h
  have hlists := Clique.listsMaximalCliques_of_finished g.renumbered hn hs hfinished
  have hmap : (s.shared.reported.map Prod.fst).map List.toFinset
      = s.shared.reported.map fun x => x.1.toFinset := List.map_map
  have hitems : (s.shared.reported.foldl
      (fun e node => Enumerator.reportSolution (Clique.cliqueEnumeration g.renumbered) {} node e)
        {}).items = s.shared.reported.map Prod.fst := by
    rw [Enumerator.foldl_reportSolution]
    simp [Enumerator.reports, Clique.cliqueEnumeration]
  rw [hitems]
  refine lists_of_items (P := IsMaximalClique g.renumbered.toSimpleGraph g.renumbered.vertices)
    ?_ ?_ ?_ ?_ ?_ ?_
  · intro item hitem
    obtain ⟨x, hx, rfl⟩ := List.mem_map.mp hitem
    exact (hlists.sorted x hx).nodup
  · exact hmap ▸ hlists.nodup
  · exact hmap ▸ hlists.mem_iff
  · exact fun S hS => hS.prop.2.1
  · exact fun S hS => hS.prop.2.1
  · exact fun S hS => isMaximalClique_image hS

theorem lists_of_d2kplexReports {flags : Flags} {std : StdSort} (hk : 1 ≤ flags.k)
    (hk' : flags.k ≤ 255) (hn : 0 < n) (h : D2KplexReports flags std g.renumbered n e) :
    Lists (degeneracyOrder g)
      (fun S => IsMaximalKplex g.toSimpleGraph flags.k g.vertices S ∧
        max flags.q (2 * flags.k - 1) ≤ S.card)
      (e.items.filter fun line => decide (2 * flags.k - 1 ≤ line.length)) := by
  obtain ⟨r, hr, hfinished, rfl⟩ := h
  have hlists := Diam2Kplex.listsReported_of_finished flags.enablePivoting std hk hk' hn hr
    hfinished
  refine lists_of_items (P := fun S =>
    IsMaximalKplex g.renumbered.toSimpleGraph flags.k g.renumbered.vertices S ∧
      max flags.q (2 * flags.k - 1) ≤ S.card) ?_ ?_ ?_ ?_ ?_ ?_
  · exact fun item h => hlists.nodup_item item (List.mem_of_mem_filter h)
  · exact hlists.nodup.sublist (List.filter_sublist.map _)
  · intro S
    rw [Diam2Kplex.mem_map_filter_iff hlists.nodup_item fun m => decide (2 * flags.k - 1 ≤ m),
      hlists.mem_iff, decide_eq_true_iff, max_le_iff]
    constructor
    · rintro ⟨hcard, hS⟩
      obtain ⟨hmax, hq⟩ := (Diam2Kplex.exists_isReported_iff hk (by omega)).mp hS
      exact ⟨hmax, hq, hcard⟩
    · rintro ⟨hmax, hq, hcard⟩
      exact ⟨hcard, (Diam2Kplex.exists_isReported_iff hk (by omega)).mpr ⟨hmax, hq⟩⟩
  · exact fun S hS => hS.1.prop.1
  · exact fun S hS => hS.1.prop.1
  · intro S hS
    rw [isMaximalKplex_image hS, Finset.card_image_of_injOn (vertexAt_injOn.mono hS)]

end Reports

/-! ### What is printed -/

section Programs

variable {flags : Flags} {N : ℕ} {es : List (ℕ × ℕ)} {header : List ℕ} {text : List UInt8}

/-- A program prints what its threads report, exactly when the graphs fit. -/
theorem alwaysPrints_iff {T : KeyType} (Reports : Graph → ℕ → Enumerator (List ℕ) → Prop) (n : ℕ)
    {run : ℕ → List UInt8 → Prop} {keep : List ℕ → Bool} {P : Finset ℕ → Prop}
    (hprint : flags.print = true) (hN : N < 2 ^ T.width - 1) (hes : ∀ e ∈ es, e.1 < N ∧ e.2 < N)
    (hheader : header.length = flags.format.header N)
    (htext : IsRendering text (flags.format.numbers N header es))
    (hrun : ∀ fuel out, run fuel out ↔
      ∃ graph, (readFastGraph flags T fuel (some text)).bind permuted = .ok graph ∧
        ∃ e, Reports graph.toGraph n e ∧ ∃ m, out = banner n ++ output flags m e)
    (hexists : ∃ e, Reports (listed N es).renumbered n e)
    (hlists : ∀ e, Reports (listed N es).renumbered n e →
      Lists (degeneracyOrder (listed N es)) P (e.items.filter keep)) :
    AlwaysPrints flags run keep (degeneracyOrder (listed N es)) P ↔ Fits T (listed N es) := by
  constructor
  · rintro ⟨bound, hbound⟩
    obtain ⟨out, hout⟩ := (hbound (max bound text.length + 1) (by omega)).1
    obtain ⟨graph, hgraph, -⟩ := (hrun _ out).mp hout
    exact ((newGraph_spec hN hes hheader htext (by omega)).of_ok hgraph).2
  · intro hfits
    refine ⟨text.length, ?_⟩
    intro fuel hfuel
    obtain ⟨G, hG, hrepresents, -⟩ := (newGraph_spec hN hes hheader htext hfuel).exists_ok
      fun _ hnot => hnot hfits
    have hgraph := hrepresents.toGraph_eq
    constructor
    · obtain ⟨e, he⟩ := hexists
      rw [← hgraph] at he
      exact ⟨_, (hrun fuel _).mpr ⟨G, hG, e, he, oneMillisecond, rfl⟩⟩
    · intro out hout
      obtain ⟨G', hG', e, he, m, rfl⟩ := (hrun fuel out).mp hout
      obtain rfl : G = G' := Except.ok.inj (hG.symm.trans hG')
      rw [hgraph] at he
      rw [solutionLines_banner, solutionLines_output hprint]
      exact hlists e he

end Programs

end ParallelEnum.TextUi
