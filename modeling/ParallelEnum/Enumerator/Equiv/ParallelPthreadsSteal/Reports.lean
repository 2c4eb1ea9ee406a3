import ParallelEnum.Enumerable.Equiv.Diam2Kplex
import ParallelEnum.Enumerator.Equiv.ParallelPthreadsSteal.Plain
import ParallelEnum.Theory.FairSimulation

/-!
# `ParallelPthreadsSteal` reports what `Sequential` reports

For a system whose nodes refer to the buffer of the thread that opened their root, and that meets
the contract under which `Sequential` works (`Sequential.ListsTrees`).

* `fairSimulation`: the threads implement those of `ParallelPthreadsSteal` over immutable values.
* `reports_of_finished`: when all threads have returned, every node has been reported once.
* `reports_sequential`: they report what `Sequential` reports, and a fair run ends.
-/

namespace ParallelEnum.ParallelPthreadsSteal.Callbacks

open Traversal Transition

variable {n : ℕ} {St Value Item : Type} {e : Enumerable St Value Item} {fresh : St}
  {L : Sequential.ListsTrees e}

/-! ### Nodes and their buffers -/

theorem forEach_note (l acc : List Value) (st : St) :
    forEach note l (st, acc) = some (st, acc ++ l) := by
  induction l generalizing acc with
  | nil => rw [List.append_nil]; rfl
  | cons x l ih =>
    rw [forEach_cons]
    show forEach note l (st, acc ++ [x]) = _
    rw [ih, List.append_assoc]
    rfl

/-- The buffer that a node refers to holds the tree that the node lies in. -/
def Refers (L : Sequential.ListsTrees e) (root : Fin n → ℕ) (sh : Shared n St Value)
    (x : Node n Value) : Prop :=
  ∃ t, x.ref = .thread t ∧ L.At (root t) (sh.buffers t) ∧ (L.forest (root t)).Ok x.value

section Nodes

variable {root : Fin n → ℕ} {sh : Shared n St Value} {x : Node n Value}

theorem Refers.lists (h : Refers L root sh x) : Lists L fresh root sh x := by
  obtain ⟨ref, value⟩ := x
  obtain ⟨t, rfl, hat, hok⟩ := h
  have hkeep : ∀ y ∈ (L.forest (root t)).children value, ∀ (l : List Value) r,
      note y (sh.buffers t, l) = some r → r.2.1 = sh.buffers t := by
    intro y _ l r hr
    rw [← Option.some.inj hr]
  have hlist := L.listChildren_eq note (root t) value (sh.buffers t) [] hat hok hkeep
  rw [forEach_note] at hlist
  show ((e.listChildren value note (sh.buffers t, [])).map Prod.snd).getD [] = _
  rw [hlist]
  rfl

theorem Refers.child (h : Refers L root sh x) :
    ∀ v ∈ (ofEnumerable e fresh).listChildren (sh.buffer (ofEnumerable e fresh) x.ref) x.value,
      Refers L root sh ⟨x.ref, v⟩ := by
  intro v hv
  rw [h.lists] at hv
  obtain ⟨ref, value⟩ := x
  obtain ⟨t, rfl, hat, hok⟩ := h
  exact ⟨t, rfl, hat, (L.forest (root t)).ok_of_mem hok hv⟩

/-- `ReportSolution` sees the value. -/
theorem Refers.report (h : Refers L root sh x) (enumerator : Enumerator Item) :
    enumerator.reportSolution e (sh.buffer (ofEnumerable e fresh) x.ref) x.value
      = L.reports [x.plain root] enumerator := by
  obtain ⟨ref, value⟩ := x
  obtain ⟨t, rfl, hat, hok⟩ := h
  have hmap := enumerator.reports_map (fun x => L.sol x.1 x.2) (fun x => L.item x.1 x.2)
    (Prod.mk (root t)) [value]
  exact (L.reportSolution_eq hat hok enumerator).trans hmap.symm

end Nodes

/-! ### Nodes of one thread -/

section Congr

variable {root : Fin n → ℕ} {t : Fin n}

/-- A thread does not change with the buffers that its nodes do not refer to. -/
theorem plain_congr {root' : Fin n → ℕ} {th : Thread n St Value} (hroot : root' t = root t)
    (h : ∀ x ∈ th.nodes t, x.plain root' = x.plain root) :
    th.plain L root' t = th.plain L root t := by
  obtain ⟨pc, l, k⟩ := th
  have hpc : pc.plain root' = pc.plain root := by
    cases pc with
    | decWaiting stolen =>
      cases stolen with
      | none => rfl
      | some x =>
        have hx := h x (by simp [Thread.nodes, Pc.nodes])
        simp only [Pc.plain, Option.map_some, hx]
    | serve b stage => cases b <;> rfl
    | _ => rfl
  have hlnodes : l.map (Node.plain root') = l.map (Node.plain root) :=
    List.map_congr_left fun x hx => h x (by simp [Thread.nodes, hx])
  have hcalls : k.map (Call.plain L root' t) = k.map (Call.plain L root t) := by
    apply List.map_congr_left
    intro call hcall
    have hnodes : ∀ x ∈ call.nodes t, x.plain root' = x.plain root := by
      intro x hx
      apply h
      exact List.mem_append_right _ (List.mem_flatMap.mpr ⟨call, hcall, hx⟩)
    cases call with
    | getRoot rest => rw [Call.plain, Call.plain, hroot]
    | listChildren x i => rw [Call.plain, Call.plain, hnodes x (List.mem_singleton_self x)]
    | solutionCb x stage => rw [Call.plain, Call.plain, hnodes x (List.mem_singleton_self x)]
  simp only [Thread.plain, hpc, hlnodes, hcalls]

theorem plain_update {i : ℕ} {x : Node n Value} (h : x.ref ≠ .thread t) :
    x.plain (Function.update root t i) = x.plain root := by
  obtain ⟨ref, value⟩ := x
  cases ref with
  | received j => rfl
  | thread u =>
    have hne : u ≠ t := fun heq => h (congrArg Ref.thread heq)
    simp only [Node.plain, Function.update_of_ne hne]

theorem Refers.update {sh sh' : Shared n St Value} {i : ℕ} {x : Node n Value}
    (h : Refers L root sh x) (hne : x.ref ≠ .thread t)
    (hbuffers : ∀ u ≠ t, sh'.buffers u = sh.buffers u) :
    Refers L (Function.update root t i) sh' x := by
  obtain ⟨u, href, hat, hok⟩ := h
  have hut : u ≠ t := fun heq => hne (href.trans (congrArg Ref.thread heq))
  refine ⟨u, href, ?_, ?_⟩
  · rw [Function.update_of_ne hut, hbuffers u hut]
    exact hat
  · rw [Function.update_of_ne hut]
    exact hok

theorem Refers.congr {sh sh' : Shared n St Value} {x : Node n Value}
    (h : Refers L root sh x) (hbuffers : sh'.buffers = sh.buffers) : Refers L root sh' x := by
  unfold Refers
  rw [hbuffers]
  exact h

end Congr

/-! ### All threads -/

/-- The nodes of a thread refer to buffers that hold their trees, where `root` says of which root
the buffer of a thread is. -/
structure Thread.Sound (L : Sequential.ListsTrees e) (root : Fin n → ℕ) (sh : Shared n St Value)
    (t : Fin n) (th : Thread n St Value) : Prop where
  isLocal : th.Local
  nodes : ∀ x ∈ th.nodes t, Refers L root sh x
  pending : ∀ i, th.pc = .getRoot i → i < e.maxRoots

/-- All nodes refer to buffers that hold their trees. -/
structure Sound (L : Sequential.ListsTrees e) (root : Fin n → ℕ) (s : State n St Value) :
    Prop where
  inv : ∀ t, L.Inv (s.shared.buffers t)
  gnodes : ∀ x ∈ s.shared.gnodes, Refers L root s.shared x
  roots : ∀ i ∈ s.shared.possibleRoots, i < e.maxRoots
  threads : ∀ t, (s.threads t).Sound L root s.shared t

section Sound

variable {root : Fin n → ℕ} {s : State n St Value} {a : Action n St Value}
  {sh' : Shared n St Value} {th' : Thread n St Value}

/-- `GetRoot` builds the tree of the root in the buffer of its thread. -/
theorem getRoot_step {t : Fin n} {pick i : ℕ} {answer : MoreWorkData St Value}
    {sh : Shared n St Value} (hinv : L.Inv (sh.buffers t)) (hi : i < e.maxRoots)
    (h : Thread.step (ofEnumerable e fresh) false t pick answer sh ⟨.getRoot i, [], []⟩
      = some (sh', th')) :
    ∃ st, L.Inv st ∧ (L.roots i ≠ [] → L.At i st) ∧
      sh' = { sh with buffers := Function.update sh.buffers t st } ∧
        th' = ⟨.working false, [], [.getRoot (L.roots i)]⟩ := by
  obtain ⟨st, hst, hat, hget⟩ := L.getRoot_eq i (sh.buffers t) hinv hi
  have hnote := hget note []
  rw [forEach_note] at hnote
  have hroot : (ofEnumerable e fresh).getRoot i (sh.buffers t) = (st, L.roots i) := by
    show (e.getRoot i note (sh.buffers t, [])).getD _ = _
    rw [hnote]
    rfl
  simp only [Thread.step, hroot] at h
  obtain ⟨rfl, rfl⟩ := Prod.mk.inj (Option.some.inj h)
  exact ⟨st, hst, hat, rfl, rfl⟩

/-- A step that does not call `GetRoot`. -/
theorem Sound.step (h : Sound L root s) (hpc : ∀ i, (s.threads a.thread).pc ≠ .getRoot i)
    (hstep : Thread.step (ofEnumerable e fresh) false a.thread a.pick a.answer s.shared
      (s.threads a.thread) = some (sh', th')) :
    Sound L root ⟨sh', Function.update s.threads a.thread th'⟩ := by
  obtain ⟨hlocal, hthnodes, _⟩ := h.threads a.thread
  have hbuffers : sh'.buffers = s.shared.buffers := by
    rcases (moves_of_step hstep).buffers with hbuffers | ⟨i, hi, -⟩
    · exact hbuffers
    · exact absurd hi (hpc i)
  obtain ⟨hroots, hpending⟩ := roots_of_step hlocal hstep
  have hchild : ∀ x, Refers L root s.shared x → ∀ v ∈ (ofEnumerable e fresh).listChildren
      (s.shared.buffer (ofEnumerable e fresh) x.ref) x.value, Refers L root s.shared ⟨x.ref, v⟩ :=
    fun x hx => hx.child
  obtain ⟨hnodes, hgnodes⟩ := keeps_of_step hlocal hpc hchild hthnodes h.gnodes hstep
  constructor
  case inv =>
    intro t
    show L.Inv (sh'.buffers t)
    rw [hbuffers]
    exact h.inv t
  case gnodes => exact fun x hx => (hgnodes x hx).congr hbuffers
  case roots => exact fun i hi => h.roots i (hroots hi)
  case threads =>
    refine (Function.forall_update_iff _ _).mpr ⟨?_, ?_⟩
    · exact ⟨hlocal.step hstep, fun x hx => (hnodes x hx).congr hbuffers,
        fun i hi => h.roots i (hpending i hi)⟩
    · intro t _
      obtain ⟨hlocal, hnodes, hpending⟩ := h.threads t
      exact ⟨hlocal, fun x hx => (hnodes x hx).congr hbuffers, hpending⟩

/-- A step that calls `GetRoot`. -/
theorem Sound.getRoot (h : Sound L root s) {i : ℕ}
    (hth : s.threads a.thread = ⟨.getRoot i, [], []⟩) (hunshared : Unshared s a.thread)
    (hstep : Thread.step (ofEnumerable e fresh) false a.thread a.pick a.answer s.shared
      (s.threads a.thread) = some (sh', th')) :
    Sound L (Function.update root a.thread i) ⟨sh', Function.update s.threads a.thread th'⟩ := by
  have hi : i < e.maxRoots := (h.threads a.thread).pending i (by rw [hth])
  rw [hth] at hstep
  obtain ⟨st, hst, hat, rfl, rfl⟩ := getRoot_step (h.inv a.thread) hi hstep
  have hbuffers : ∀ u ≠ a.thread,
      (Function.update s.shared.buffers a.thread st) u = s.shared.buffers u :=
    fun u hu => Function.update_of_ne hu _ _
  have hroot : Function.update root a.thread i a.thread = i := Function.update_self _ _ _
  constructor
  case inv =>
    refine (Function.forall_update_iff _ fun _ st => L.Inv st).mpr ⟨hst, fun t _ => h.inv t⟩
  case gnodes =>
    exact fun x hx => (h.gnodes x hx).update (fun href => (hunshared x href).1 hx) hbuffers
  case roots => exact h.roots
  case threads =>
    refine (Function.forall_update_iff _ _).mpr ⟨⟨?_, ?_, ?_⟩, ?_⟩
    · exact ⟨trivial, List.forall_mem_singleton.mpr trivial⟩
    · intro x hx
      obtain ⟨v, hv, rfl⟩ : ∃ v ∈ L.roots i, (⟨.thread a.thread, v⟩ : Node n Value) = x := by
        simpa [Thread.nodes, Pc.nodes, Call.nodes] using hx
      refine ⟨a.thread, rfl, ?_, ?_⟩
      · rw [hroot]
        show L.At i (Function.update s.shared.buffers a.thread st a.thread)
        rw [Function.update_self]
        exact hat (List.ne_nil_of_mem hv)
      · rw [hroot]
        exact L.ok_roots i hi v hv
    · intro j hj
      cases hj
    · intro t _
      obtain ⟨hlocal, hnodes, hpending⟩ := h.threads t
      exact ⟨hlocal,
        fun x hx => (hnodes x hx).update (fun href => (hunshared x href).2 t hx) hbuffers, hpending⟩

end Sound

/-! ### The simulation -/

/-- A state stands for a state of the threads over values. -/
structure ImplementsAt (L : Sequential.ListsTrees e) (fresh : St) (minRootId maxRootId : ℕ)
    (root : Fin n → ℕ) (r : Reporting n St Value Item)
    (s : ParallelPthreadsSteal.State (ℕ × Value) n) : Prop where
  reaches : Reaches (Callbacks.step (ofEnumerable e fresh) false) Any
    (Callbacks.init (ofEnumerable e fresh) n minRootId maxRootId) r.state
  reaches' : Reaches (ParallelPthreadsSteal.step L.finiteSystem n) Any
    (ParallelPthreadsSteal.init L.finiteSystem n minRootId maxRootId) s
  sound : Sound L root r.state
  shared : s.shared = r.state.shared.plain root s.shared.listed s.shared.reported
  threads : ∀ t, s.threads t = (r.state.threads t).plain L root t
  enumerator : r.enumerator = L.reports s.shared.reported {}
  found : r.state.shared.solutionsFound = r.enumerator.solutionsFound

def Implements (L : Sequential.ListsTrees e) (fresh : St) (minRootId maxRootId : ℕ)
    (r : Reporting n St Value Item) (s : ParallelPthreadsSteal.State (ℕ × Value) n) : Prop :=
  ∃ root, ImplementsAt L fresh minRootId maxRootId root r s

/-- How many steps are not seen before one is. -/
def Reporting.stutters (r : Reporting n St Value Item) : ℕ := ∑ t, (r.state.threads t).stutters

section Runs

variable {minRootId maxRootId : ℕ} {root : Fin n → ℕ} {r r' : Reporting n St Value Item}
  {s : ParallelPthreadsSteal.State (ℕ × Value) n} {a : Action n St Value}
  {sh' : Shared n St Value} {th' : Thread n St Value}

theorem implements_init (hfresh : L.Inv fresh)
    (hlast : ParallelPthreadsSteal.lastRootId L.finiteSystem maxRootId ≤ e.maxRoots) :
    Implements L fresh minRootId maxRootId (Reporting.init e fresh n minRootId maxRootId)
      (ParallelPthreadsSteal.init L.finiteSystem n minRootId maxRootId) := by
  have hnil : ({} : Enumerator Item) = L.reports [] {} := (Enumerator.reports_nil _ _ _).symm
  refine ⟨fun _ => 0, Reaches.refl _, Reaches.refl _, ?_, rfl, fun _ => rfl, hnil, rfl⟩
  constructor
  case inv => exact fun _ => hfresh
  case gnodes => exact fun _ h => absurd h List.not_mem_nil
  case roots =>
    intro i hi
    obtain ⟨hge, hlt⟩ := List.mem_range'_1.mp hi
    have hle : Callbacks.lastRootId (ofEnumerable e fresh) maxRootId ≤ e.maxRoots := hlast
    omega
  case threads =>
    intro t
    refine ⟨⟨trivial, fun _ h => absurd h List.not_mem_nil⟩, ?_, ?_⟩
    · exact fun _ h => absurd h List.not_mem_nil
    · intro i h
      cases h

theorem eq_of_reports {th : Thread n St Value} {x : Node n Value} (h : th.reports = some x) :
    ∃ b l k, th = ⟨.working b, l, .solutionCb x .report :: k⟩ := by
  obtain ⟨pc, l, k⟩ := th
  unfold Thread.reports at h
  split at h
  · rename_i b y k' hpc hcalls
    obtain rfl := Option.some.inj h
    exact ⟨b, l, k', by rw [← hpc, ← hcalls]⟩
  · cases h

/-- Only `ReportSolution` counts. -/
theorem found_of_step {t : Fin n} {pick : ℕ} {answer : MoreWorkData St Value}
    {sh : Shared n St Value} {th : Thread n St Value} (hlocal : th.Local)
    (hreports : th.reports = none)
    (hstep : Thread.step (ofEnumerable e fresh) false t pick answer sh th = some (sh', th')) :
    sh'.solutionsFound = sh.solutionsFound := by
  cases moves_of_step hstep with
  | reportSolution b x l k => cases hreports
  | moreWork l k hw => exact absurd hlocal.pc id
  | serveNode b x l k hserve =>
    obtain ⟨rfl, -⟩ := serveStage_local (hlocal.calls _ List.mem_cons_self) hserve
    rfl
  | serve b l k hserve =>
    obtain ⟨rfl, -⟩ := serveStage_local hlocal.pc hserve
    rfl
  | served l k hserve =>
    obtain ⟨rfl, -⟩ := serveStage_local hlocal.pc hserve
    rfl
  | servedIdle l k hserve =>
    obtain ⟨rfl, -⟩ := serveStage_local hlocal.pc hserve
    rfl
  | _ => rfl

/-- What is reported in a step, and that the counter goes with it. -/
theorem report_of_step {t : Fin n} {pick : ℕ} {answer : MoreWorkData St Value}
    {sh : Shared n St Value} {th : Thread n St Value} (hsound : th.Sound L root sh t)
    (hstep : Thread.step (ofEnumerable e fresh) false t pick answer sh th = some (sh', th'))
    (enumerator : Enumerator Item) :
    th.report e fresh sh enumerator
        = L.reports (th.reports.map (Node.plain root)).toList enumerator ∧
      (sh.solutionsFound = enumerator.solutionsFound →
        sh'.solutionsFound = (th.report e fresh sh enumerator).solutionsFound) := by
  cases hreports : th.reports with
  | none =>
    have hreport : th.report e fresh sh enumerator = enumerator := by
      rw [Thread.report, hreports]
    rw [hreport, found_of_step hsound.isLocal hreports hstep]
    exact ⟨(Enumerator.reports_nil _ _ _).symm, id⟩
  | some x =>
    obtain ⟨b, l, k, rfl⟩ := eq_of_reports hreports
    have hx : Refers L root sh x := hsound.nodes x (by simp [Thread.nodes, Call.nodes])
    refine ⟨hx.report enumerator, ?_⟩
    intro hfound
    obtain ⟨rfl, -⟩ := Prod.mk.inj (Option.some.inj hstep)
    show (if e.isSolution (sh.buffer (ofEnumerable e fresh) x.ref) x.value then _
      else sh).solutionsFound = (enumerator.reportSolution e _ x.value).solutionsFound
    simp only [Enumerator.reportSolution]
    split_ifs
    · exact congrArg (· + 1) hfound
    · exact hfound

theorem stutters_update_add_le (r : Reporting n St Value Item) (t : Fin n)
    (th : Thread n St Value) (sh : Shared n St Value) (enumerator : Enumerator Item) :
    Reporting.stutters ⟨⟨sh, Function.update r.state.threads t th⟩, enumerator⟩
      + (r.state.threads t).stutters ≤ th.stutters + r.stutters :=
  sum_update_add_le r.state.threads t th fun _ => le_rfl

theorem thread_of_step (h : Reporting.step e fresh false r a = some r') :
    ∃ sh' th', Thread.step (ofEnumerable e fresh) false a.thread a.pick a.answer r.state.shared
        (r.state.threads a.thread) = some (sh', th') ∧
      Callbacks.step (ofEnumerable e fresh) false r.state a
        = some ⟨sh', Function.update r.state.threads a.thread th'⟩ ∧
      r' = ⟨⟨sh', Function.update r.state.threads a.thread th'⟩,
        (r.state.threads a.thread).report e fresh r.state.shared r.enumerator⟩ := by
  obtain ⟨st, hst, rfl⟩ := Option.map_eq_some_iff.mp h
  obtain ⟨⟨sh', th'⟩, hthread, rfl⟩ := Option.map_eq_some_iff.mp hst
  exact ⟨sh', th', hthread, hst, rfl⟩

/-- `GetRoot` is not seen. -/
theorem ImplementsAt.getRoot (h : ImplementsAt L fresh minRootId maxRootId root r s) {i : ℕ}
    (hpc : (r.state.threads a.thread).pc = .getRoot i)
    (hstep : Reporting.step e fresh false r a = some r') :
    ImplementsAt L fresh minRootId maxRootId (Function.update root a.thread i) r' s ∧
      r'.stutters < r.stutters := by
  obtain ⟨sh', th', hthread, hrun, rfl⟩ := thread_of_step hstep
  have hunshared := (owned_of_reaches h.reaches).pending a.thread i hpc
  have hth : r.state.threads a.thread = ⟨.getRoot i, [], []⟩ := by
    have htidy := (control_of_reaches h.reaches).tidy a.thread
    have hcalls := htidy.calls (by rw [hpc]; exact id)
    have hlnodes := htidy.lnodes (by rw [hpc]; exact id)
    rw [← hpc, ← hcalls, ← hlnodes]
  have hsound := h.sound.getRoot hth hunshared hthread
  have hi : i < e.maxRoots := (h.sound.threads a.thread).pending i hpc
  have hreport : (r.state.threads a.thread).report e fresh r.state.shared r.enumerator
      = r.enumerator := by
    rw [hth]
    rfl
  rw [hreport]
  have hroot : Function.update root a.thread i a.thread = i := Function.update_self _ _ _
  have hle := stutters_update_add_le r a.thread th' sh' r.enumerator
  rw [hth] at hthread
  obtain ⟨st, -, -, rfl, rfl⟩ := getRoot_step (h.sound.inv a.thread) hi hthread
  refine ⟨?_, ?_⟩
  · constructor
    case reaches => exact h.reaches.tail ⟨a, trivial, hrun⟩
    case reaches' => exact h.reaches'
    case sound => exact hsound
    case shared =>
      have hgnodes : r.state.shared.gnodes.map (Node.plain (Function.update root a.thread i))
          = r.state.shared.gnodes.map (Node.plain root) :=
        List.map_congr_left fun x hx => plain_update fun href => (hunshared x href).1 hx
      refine h.shared.trans ?_
      simp only [Shared.plain, hgnodes]
    case threads =>
      intro t
      rw [h.threads]
      show _ = Thread.plain L _ t (Function.update r.state.threads a.thread _ t)
      by_cases ht : t = a.thread
      · rw [ht, hth, Function.update_self]
        simp only [Thread.plain, Pc.calls, Call.plain, List.map_cons, hroot]
        rfl
      · rw [Function.update_of_ne ht]
        exact (plain_congr (Function.update_of_ne ht _ _) fun x hx =>
          plain_update fun href => (hunshared x href).2 t hx).symm
    case enumerator => exact h.enumerator
    case found => exact h.found
  · rw [hth] at hle
    change _ + 1 ≤ 0 + r.stutters at hle
    omega

/-- The other steps. -/
theorem ImplementsAt.step (h : ImplementsAt L fresh minRootId maxRootId root r s)
    (hpc : ∀ i, (r.state.threads a.thread).pc ≠ .getRoot i)
    (hstep : Reporting.step e fresh false r a = some r') :
    (ImplementsAt L fresh minRootId maxRootId root r' s ∧ r'.stutters < r.stutters) ∨
      ∃ b s', ImplementsAt L fresh minRootId maxRootId root r' s' ∧ b.thread = a.thread ∧
        ParallelPthreadsSteal.step L.finiteSystem n s b = some s' ∧
        (r'.stutters ≤ r.stutters ∨ Helpful s a.thread) := by
  obtain ⟨sh', th', hthread, hrun, rfl⟩ := thread_of_step hstep
  have hsound := h.sound.threads a.thread
  have hlist : ∀ x i, .listChildren x i ∈ (r.state.threads a.thread).calls →
      Lists L fresh root r.state.shared x := by
    intro x i hx
    refine (hsound.nodes x ?_).lists
    exact List.mem_append_right _ (List.mem_flatMap.mpr ⟨_, hx, List.mem_singleton_self x⟩)
  have hsound' := h.sound.step hpc hthread
  have hreaches := h.reaches.tail ⟨a, trivial, hrun⟩
  obtain ⟨hreport, hfound⟩ := report_of_step hsound hthread r.enumerator
  have hle := stutters_update_add_le r a.thread th' sh'
    ((r.state.threads a.thread).report e fresh r.state.shared r.enumerator)
  have hthreads : ∀ {th₁ : ParallelPthreadsSteal.Thread (ℕ × Value)},
      th₁ = th'.plain L root a.thread → ∀ t, Function.update s.threads a.thread th₁ t
        = (Function.update r.state.threads a.thread th' t).plain L root t := by
    rintro _ rfl t
    by_cases ht : t = a.thread
    · rw [ht, Function.update_self, Function.update_self]
    · rw [Function.update_of_ne ht, Function.update_of_ne ht]
      exact h.threads t
  rcases Follows.of_step hsound.isLocal hpc hlist hthread with
    ⟨hsame, hshared, hnone, hlt⟩ | hfollows
  · left
    have hquiet : (r.state.threads a.thread).report e fresh r.state.shared r.enumerator
        = r.enumerator := by
      rw [Thread.report, hnone]
    refine ⟨?_, by omega⟩
    constructor
    case reaches => exact hreaches
    case reaches' => exact h.reaches'
    case sound => exact hsound'
    case shared => exact h.shared.trans (congrFun (congrFun hshared _) _).symm
    case threads =>
      intro t
      have ht := hthreads hsame.symm t
      rw [← h.threads, Function.update_eq_self] at ht
      exact ht
    case enumerator => rw [hquiet]; exact h.enumerator
    case found => exact hfound h.found
  · right
    obtain ⟨listed', hmove, hhelp⟩ := hfollows s.shared.listed s.shared.reported
    rw [← h.shared, ← h.threads] at hmove
    refine ⟨⟨a.thread, a.pick⟩, _, ?_, rfl, Option.map_eq_some_iff.mpr ⟨_, hmove, rfl⟩, ?_⟩
    · constructor
      case reaches => exact hreaches
      case reaches' =>
        exact h.reaches'.tail ⟨⟨a.thread, a.pick⟩, trivial,
          Option.map_eq_some_iff.mpr ⟨_, hmove, rfl⟩⟩
      case sound => exact hsound'
      case shared => rfl
      case threads => exact hthreads rfl
      case enumerator =>
        rw [hreport, h.enumerator]
        exact (Enumerator.reports_append _ _ s.shared.reported _ {}).symm
      case found => exact hfound h.found
    · rcases hhelp with hle' | hpolls
      · left
        omega
      · right
        rw [← h.threads] at hpolls
        refine ⟨?_, Or.inr (Or.inr hpolls)⟩
        intro hdone
        rw [ParallelPthreadsSteal.Thread.step, hdone] at hmove
        cases hmove

/-- **The threads implement the threads over values.** -/
def fairSimulation (L : Sequential.ListsTrees e) (fresh : St) (n : ℕ) {minRootId maxRootId : ℕ}
    (hlast : ParallelPthreadsSteal.lastRootId L.finiteSystem maxRootId
      ≤ L.finiteSystem.maxRoots) :
    FairSimulation (fairRank L.finiteSystem n minRootId hlast)
      (Reporting.step e fresh false) Action.thread
      (Implements L fresh minRootId maxRootId) where
  stutters := Reporting.stutters
  invariant r s h := by
    obtain ⟨root, h⟩ := h
    exact h.reaches'
  simulate r a r' s h hstep := by
    obtain ⟨root, h⟩ := h
    by_cases hpc : ∃ i, (r.state.threads a.thread).pc = .getRoot i
    · obtain ⟨i, hi⟩ := hpc
      obtain ⟨h', hlt⟩ := h.getRoot hi hstep
      exact Or.inl ⟨⟨_, h'⟩, hlt⟩
    · rcases h.step (not_exists.mp hpc) hstep with ⟨h', hlt⟩ | ⟨b, s', h', hb, hs', hle⟩
      · exact Or.inl ⟨⟨root, h'⟩, hlt⟩
      · exact Or.inr ⟨b, s', ⟨root, h'⟩, hb, hs', hle⟩

/-! ### The end of a run -/

theorem Pc.eq_done {pc : Pc n St Value} (hlocal : pc.Local) (h : pc.plain root = .done) :
    pc = .done := by
  cases pc with
  | serve b stage => cases b <;> cases h
  | enterMoreWork => exact absurd hlocal id
  | barrier second wait => exact absurd hlocal id
  | moreWork stage => exact absurd hlocal id
  | done => rfl
  | _ => cases h

theorem ImplementsAt.done_iff (h : ImplementsAt L fresh minRootId maxRootId root r s) (t : Fin n) :
    (s.threads t).pc = .done ↔ (r.state.threads t).pc = .done := by
  rw [h.threads]
  constructor
  · exact Pc.eq_done (h.sound.threads t).isLocal.pc
  · intro hdone
    show (r.state.threads t).pc.plain root = .done
    rw [hdone]
    rfl

theorem Implements.finished_iff (h : Implements L fresh minRootId maxRootId r s) :
    ParallelPthreadsSteal.Finished s ↔ r.Finished := by
  obtain ⟨root, h⟩ := h
  exact forall_congr' h.done_iff

theorem ServeStage.isSome_step {c : BufferSystem St Value} {callbacks : Bool}
    {x : Option (Node n Value)} {sh : Shared n St Value} (stage : ServeStage St Value) :
    (stage.step c callbacks 0 x sh).isSome := by
  cases stage with
  | testAndSet =>
    rw [ServeStage.step]
    split_ifs <;> rfl
  | dequeueRoot roots => simpa [ServeStage.step] using isSome_tryDequeue sh.possibleRoots
  | choose roots =>
    cases roots with
    | nil => cases x <;> rfl
    | cons i roots => rfl
  | sendSteal data => cases data <;> rfl
  | _ => rfl

theorem isSome_step {c : BufferSystem St Value} {callbacks : Bool} {t : Fin n}
    {answer : MoreWorkData St Value} {sh : Shared n St Value} {th : Thread n St Value}
    (ht : th.pc ≠ .done) : (Thread.step c callbacks t 0 answer sh th).isSome := by
  obtain ⟨pc, l, k⟩ := th
  cases pc with
  | done => exact absurd rfl ht
  | inner => cases l <;> rfl
  | openRoot => simpa [Thread.step] using isSome_tryDequeue sh.possibleRoots
  | dequeue => simpa [Thread.step] using isSome_tryDequeue sh.gnodes
  | decWaiting stolen => cases stolen <;> rfl
  | serve b stage => simpa [Thread.step] using stage.isSome_step
  | working b =>
    cases k with
    | nil => rfl
    | cons call k =>
      cases call with
      | getRoot rest => cases rest <;> rfl
      | listChildren x i =>
        simp only [Thread.step, Thread.work]
        split <;> rfl
      | solutionCb x stage =>
        cases stage with
        | serve stage => simpa [Thread.step, Thread.work, Thread.solutionCb] using stage.isSome_step
        | keep =>
          simp only [Thread.step, Thread.work, Thread.solutionCb]
          split_ifs <;> rfl
        | _ => rfl
  | _ => rfl

/-- A thread that has not returned can take a step. -/
theorem exists_step (r : Reporting n St Value Item) {t : Fin n}
    (ht : (r.state.threads t).pc ≠ .done) :
    ∃ a r', a.thread = t ∧ Reporting.step e fresh false r a = some r' := by
  have hsome : (Thread.step (ofEnumerable e fresh) false t 0 .nothing r.state.shared
      (r.state.threads t)).isSome := isSome_step ht
  obtain ⟨_, hr⟩ := Option.isSome_iff_exists.mp hsome
  have hrun : Callbacks.step (ofEnumerable e fresh) false r.state ⟨t, 0, .nothing⟩ = some _ :=
    Option.map_eq_some_iff.mpr ⟨_, hr, rfl⟩
  exact ⟨⟨t, 0, .nothing⟩, _, rfl, Option.map_eq_some_iff.mpr ⟨_, hrun, rfl⟩⟩

section Fair

variable (L) (hfresh : L.Inv fresh)
  (hlast : ParallelPthreadsSteal.lastRootId L.finiteSystem maxRootId ≤ e.maxRoots)
include hfresh hlast

theorem implements_of_reaches (h : Reaches (Reporting.step e fresh false) Any
    (Reporting.init e fresh n minRootId maxRootId) r) :
    ∃ s, Implements L fresh minRootId maxRootId r s := by
  obtain ⟨s, -, hs⟩ :=
    (fairSimulation L fresh n hlast).reaches (implements_init hfresh hlast) h
  exact ⟨s, hs⟩

/-- When all threads have returned, every node has been reported once. -/
theorem reports_of_finished (hn : 0 < n) (h : Reaches (Reporting.step e fresh false) Any
    (Reporting.init e fresh n minRootId maxRootId) r) (hr : r.Finished) :
    ∃ nodes, r.enumerator = L.reports nodes {} ∧
      nodes.Perm (L.finiteSystem.nodesBelow
        (ParallelPthreadsSteal.rootIds L.finiteSystem minRootId maxRootId)) ∧
      r.state.shared.solutionsFound = r.enumerator.solutionsFound := by
  obtain ⟨s, hs⟩ := implements_of_reaches L hfresh hlast h
  have hfinished := hs.finished_iff.mpr hr
  obtain ⟨root, hs⟩ := hs
  obtain ⟨-, hreported⟩ := finished_nodesBelow hlast hs.reaches' hn hfinished
  exact ⟨s.shared.reported, hs.enumerator, hreported, hs.found⟩

/-- Every run can be continued to one in which all threads have returned. -/
theorem exists_finished (h : Reaches (Reporting.step e fresh false) Any
    (Reporting.init e fresh n minRootId maxRootId) r) :
    ∃ r', Reaches (Reporting.step e fresh false) Any r r' ∧ r'.Finished := by
  obtain ⟨s, hs⟩ := implements_of_reaches L hfresh hlast h
  obtain ⟨r', s', hr', hs', hfinal⟩ :=
    (fairSimulation L fresh n hlast).exists_reaches_final (fun r s t hs ht => by
      obtain ⟨root, hs⟩ := hs
      exact exists_step r fun hdone => ht.1 ((hs.done_iff t).mpr hdone)) hs
  exact ⟨r', hr', hs'.finished_iff.mp hfinal⟩

/-- A run that does not end gives no more turns to a thread that has not returned. -/
theorem exists_starved {state : ℕ → Reporting n St Value Item} {action : ℕ → Action n St Value}
    (hinit : state 0 = Reporting.init e fresh n minRootId maxRootId)
    (hrun : ∀ i, Reporting.step e fresh false (state i) (action i) = some (state (i + 1))) :
    ∃ t i, ∀ j ≥ i, ((state j).state.threads t).pc ≠ .done ∧ (action j).thread ≠ t := by
  have hstart : Implements L fresh minRootId maxRootId (state 0)
      (ParallelPthreadsSteal.init L.finiteSystem n minRootId maxRootId) := by
    rw [hinit]
    exact implements_init hfresh hlast
  have hfinal : ∀ i s, Implements L fresh minRootId maxRootId (state i) s →
      ¬ ParallelPthreadsSteal.Finished s := by
    intro i s hs hfinished
    obtain ⟨sh', th', hstep, -⟩ := thread_of_step (hrun i)
    rw [Thread.step, hs.finished_iff.mp hfinished] at hstep
    cases hstep
  obtain ⟨t, i, hstarved⟩ :=
    (fairSimulation L fresh n hlast).exists_starved hstart hrun hfinal
  refine ⟨t, i, ?_⟩
  intro j hj
  obtain ⟨⟨s, ⟨root, hs⟩, hhelpful⟩, hnot⟩ := hstarved j hj
  exact ⟨fun hdone => hhelpful.1 ((hs.done_iff t).mpr hdone), hnot⟩

end Fair

/-- **The threads report what `Sequential` reports**, for every system whose nodes refer to the
buffer that `GetRoot` fills: when all threads have returned, the items are those of `Sequential`, in
some order, and the counters are the same.  Every run can be continued to such a state, and one that
does not end starves a thread.  The queues are those of `tryDequeue`, which fails on an empty queue
only. -/
theorem reports_sequential (L : Sequential.ListsTrees e) (hfresh : L.Inv fresh) {st : St}
    (hst : L.Inv (e.setUp st)) (hn : 0 < n) :
    (∃ bound, ∀ fuel > bound, ∃ st' enumerator,
      Sequential.runInternal fuel e st {} = some (st', enumerator) ∧
      ∀ r, Reaches (Reporting.step e fresh false) Any (Reporting.init e fresh n 0 0) r →
        r.Finished → r.enumerator.items.Perm enumerator.items ∧
          r.enumerator.solutionsFound = enumerator.solutionsFound ∧
          r.enumerator.treeSize = enumerator.treeSize ∧
          r.state.shared.solutionsFound = enumerator.solutionsFound) ∧
    (∀ r, Reaches (Reporting.step e fresh false) Any (Reporting.init e fresh n 0 0) r →
      ∃ r', Reaches (Reporting.step e fresh false) Any r r' ∧ r'.Finished) ∧
    ∀ (state : ℕ → Reporting n St Value Item) (action : ℕ → Action n St Value),
      state 0 = Reporting.init e fresh n 0 0 →
      (∀ i, Reporting.step e fresh false (state i) (action i) = some (state (i + 1))) →
      ∃ t i, ∀ j ≥ i, ((state j).state.threads t).pc ≠ .done ∧ (action j).thread ≠ t := by
  have hlast : ParallelPthreadsSteal.lastRootId L.finiteSystem 0 ≤ e.maxRoots :=
    le_of_eq (if_pos rfl)
  refine ⟨?_, ?_, ?_⟩
  · obtain ⟨bound, hbound⟩ := L.exists_runInternal hst
    refine ⟨bound, ?_⟩
    intro fuel hfuel
    obtain ⟨st', hrun⟩ := hbound fuel hfuel
    refine ⟨st', _, hrun, ?_⟩
    intro r hr hfinished
    obtain ⟨nodes, hnodes, hperm, hfound⟩ := reports_of_finished L hfresh hlast hn hr hfinished
    rw [ParallelPthreadsSteal.rootIds_default] at hperm
    obtain ⟨hitems, hsolutions, htree⟩ := Enumerator.reports_perm
      (fun x => L.sol x.1 x.2) (fun x => L.item x.1 x.2) {} hperm
    rw [hfound, hnodes]
    exact ⟨hitems, hsolutions, htree, hsolutions⟩
  · exact fun r hr => exists_finished L hfresh hlast hr
  · exact fun state action hinit hrun => exists_starved L hfresh hlast hinit hrun

end Runs

/-- A call has come to its end. -/
def Pc.returned : Pc n St Value → Bool
  | .done => true
  | _ => false

theorem eq_done_of_returned {pc : Pc n St Value} (h : pc.returned = true) : pc = .done := by
  cases pc with
  | done => rfl
  | _ => cases h

/-- The 1-plexes of the edge `0 - 1`. -/
abbrev edgeEnumeration : Enumerable Diam2Kplex.Store Diam2Kplex.Node (List ℕ) :=
  Diam2Kplex.diam2KplexEnumeration (Graph.ofRel 2 fun i j => j == i + 1) 1 1 true StdSort.insertion

/-- The second thread visits the root 1 and waits, and steals the node of the root 0. -/
def stealRoot : List (Action 2 Diam2Kplex.Store Diam2Kplex.Node) :=
  turn 0 3 ++ turn 1 17 ++ turn 0 12 ++ turn 1 1

/-- The second thread reports the child of that node out of the vectors of the first one, which then
takes the child, and both return. -/
def finish : List (Action 2 Diam2Kplex.Store Diam2Kplex.Node) :=
  (List.replicate 15 (turn 0 1 ++ turn 1 1)).flatten ++ turn 0 5 ++ turn 1 3

theorem reports_sequential_edge :
    ∃ r r', run (Reporting.step edgeEnumeration {} false) Any stealRoot
        (Reporting.init edgeEnumeration {} 2 0 0) = some r ∧
      run (Reporting.step edgeEnumeration {} false) Any finish r = some r' ∧
      (r.state.threads 1).pc.steals = some (.thread 0) ∧ r'.Finished ∧
      r'.enumerator.items = [[0, 1]] ∧
      ∃ st enumerator fuel, Sequential.runInternal fuel edgeEnumeration {} {}
        = some (st, enumerator) ∧ r'.enumerator.items.Perm enumerator.items ∧
          r'.enumerator.treeSize = enumerator.treeSize := by
  have hends : ((run (Reporting.step edgeEnumeration {} false) Any stealRoot
      (Reporting.init edgeEnumeration {} 2 0 0)).bind fun r =>
        (run (Reporting.step edgeEnumeration {} false) Any finish r).map fun r' =>
          ((r.state.threads 1).pc.steals, (List.finRange 2).all fun t =>
            (r'.state.threads t).pc.returned, r'.enumerator.items))
      = some (some (.thread 0), true, [[0, 1]]) := by
    decide +kernel
  obtain ⟨r, hsteal, hends⟩ := Option.bind_eq_some_iff.mp hends
  obtain ⟨r', hfinish, hends⟩ := Option.map_eq_some_iff.mp hends
  obtain ⟨hsteals, hends⟩ := Prod.mk.inj hends
  obtain ⟨hreturned, hitems⟩ := Prod.mk.inj hends
  have hfinished : r'.Finished := by
    intro t
    exact eq_done_of_returned (List.all_eq_true.mp hreturned t (List.mem_finRange t))
  have hreaches := (reaches_of_run hsteal).trans (reaches_of_run hfinish)
  obtain ⟨⟨bound, hbound⟩, -, -⟩ :=
    reports_sequential (Diam2Kplex.listsTrees true StdSort.insertion
      (g := Graph.ofRel 2 fun i j => j == i + 1) (q := 1) (le_refl 1) (Nat.le_of_ble_eq_true rfl))
      (Diam2Kplex.alone_empty _) (Diam2Kplex.alone_empty _) Nat.two_pos
  obtain ⟨st, enumerator, hrun, hall⟩ := hbound (bound + 1) (Nat.lt_succ_self bound)
  obtain ⟨hperm, -, htree, -⟩ := hall r' hreaches hfinished
  exact ⟨r, r', hsteal, hfinish, hsteals, hfinished, hitems, st, enumerator, bound + 1, hrun,
    hperm, htree⟩

end ParallelEnum.ParallelPthreadsSteal.Callbacks
