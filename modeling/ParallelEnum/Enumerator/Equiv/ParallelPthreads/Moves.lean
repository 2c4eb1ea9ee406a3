import ParallelEnum.Enumerator.ParallelPthreads
import ParallelEnum.Util.Equiv.ConcurrentQueue

/-!
# What a step of `ParallelPthreads` does

`Moves` lists what one step of one thread can do, and `Evolves` what it can do to the queue of one
producer.  `Inv` is what all steps preserve (`inv_step`): the queues are in order for the calls that
the threads are in, and no two threads have one token.
-/

namespace ParallelEnum.ParallelPthreads

open Traversal Transition ConcurrentQueue
open ParallelPthreadsSteal (FiniteSystem lastRootId)

variable {Node : Type} {c : FiniteSystem Node} {n : ℕ}

/-! ### What a step does -/

/-- The call of `dequeue` that a thread is in, and the producer whose queue it is for. -/
def Pc.takes (ptok : Fin n) : Pc Node n → Option (Fin n × Dequeue)
  | .own d => some (ptok, d)
  | .scan producer _ d => some (producer, d)
  | _ => none

/-- The same place with the call further on. -/
def Pc.goOn (d : Dequeue) : Pc Node n → Pc Node n
  | .own _ => .own d
  | .scan producer left _ => .scan producer left d
  | pc => pc

/-- What one step can do to the shared variables and to the thread that takes it. -/
inductive Moves (c : FiniteSystem Node) (maxRootId : ℕ) (sh : Shared Node n) :
    Thread Node n → Shared Node n → Thread Node n → Prop
  | start (p) (h : sh.inactive p = true) : Moves c maxRootId sh .start
      { sh with inactive := Function.update sh.inactive p false } (.run p true .roots)
  | takeRoot (p) (h : sh.nextRoot < maxRootId) : Moves c maxRootId sh (.run p true .roots)
      { sh with nextRoot := sh.nextRoot + 1 }
      (.run p true (.call .getRoot (c.getRoot sh.nextRoot)))
  | lastRoot (p) (h : maxRootId ≤ sh.nextRoot) : Moves c maxRootId sh (.run p true .roots)
      { sh with nextRoot := sh.nextRoot + 1 } (.run p false (.own .start))
  | noRoots (p) : Moves c maxRootId sh (.run p false .roots) sh (.run p false (.own .start))
  | rootDone (p b) : Moves c maxRootId sh (.run p b (.call .getRoot [])) sh
      (.run p b (.own .start))
  | childrenDone (p b) : Moves c maxRootId sh (.run p b (.call .listChildren [])) sh
      (.run p b .roots)
  | callBack (p b caller x rest) : Moves c maxRootId sh (.run p b (.call caller (x :: rest))) sh
      (.run p b (.enqueue caller rest x (.start x)))
  | construct (p b caller rest x y) :
      Moves c maxRootId sh (.run p b (.enqueue caller rest x (.start y)))
        { sh with gnodes := Function.update sh.gnodes p ((Enqueue.start y).step (sh.gnodes p)).1 }
        (.run p b (.enqueue caller rest x (.store (1 + (sh.gnodes p).tailIndex))))
  | publish (p b caller rest x k) :
      Moves c maxRootId sh (.run p b (.enqueue caller rest x (.store k)))
        { sh with gnodes := Function.update sh.gnodes p ((Enqueue.store k).step (sh.gnodes p)).1 }
        (.run p b (.report caller rest x))
  | report (p b caller rest x) : Moves c maxRootId sh (.run p b (.report caller rest x))
      { sh with reported := sh.reported ++ [x] } (.run p b (.call caller rest))
  | goOn (p b) (pc : Pc Node n) {q d d' p'} (htakes : pc.takes p = some (q, d))
      (hd : d.step (sh.gnodes q) = some (p', .inl d')) :
      Moves c maxRootId sh (.run p b pc)
        { sh with gnodes := Function.update sh.gnodes q p' } (.run p b (pc.goOn d'))
  | found (p b) (pc : Pc Node n) {q d x p'} (htakes : pc.takes p = some (q, d))
      (hd : d.step (sh.gnodes q) = some (p', .inr (some x))) :
      Moves c maxRootId sh (.run p b pc)
        { sh with
          gnodes := Function.update sh.gnodes q p'
          listed := sh.listed ++ [x] }
        (.run p b (.call .listChildren (c.listChildren x)))
  | missOwn (p b q) {d p'} (hd : d.step (sh.gnodes p) = some (p', .inr none)) :
      Moves c maxRootId sh (.run p b (.own d))
        { sh with gnodes := Function.update sh.gnodes p p' } (.run p b (.scan q n .start))
  | missScan (p b q q') {left d p'} (hd : d.step (sh.gnodes q) = some (p', .inr none))
      (h : 1 < left) :
      Moves c maxRootId sh (.run p b (.scan q left d))
        { sh with gnodes := Function.update sh.gnodes q p' }
        (.run p b (.scan q' (left - 1) .start))
  | missLast (p b q) {left d p'} (hd : d.step (sh.gnodes q) = some (p', .inr none)) :
      Moves c maxRootId sh (.run p b (.scan q left d))
        { sh with gnodes := Function.update sh.gnodes q p' } (.run p b .checkRoots)
  | exit (p b) (h : maxRootId ≤ sh.nextRoot) : Moves c maxRootId sh (.run p b .checkRoots) sh
      (.run p b .leave)
  | again (p b) (h : sh.nextRoot < maxRootId) : Moves c maxRootId sh (.run p b .checkRoots) sh
      (.run p b .roots)
  | leave (p b) : Moves c maxRootId sh (.run p b .leave)
      { sh with inactive := Function.update sh.inactive p true } .done

theorem moves_of_own {maxRootId pick : ℕ} {sh sh' : Shared Node n} {th' : Thread Node n}
    {p : Fin n} {b : Bool} {d : Dequeue}
    (h : Pc.step c maxRootId pick sh p b (.own d) = some (sh', th')) :
    Moves c maxRootId sh (.run p b (.own d)) sh' th' := by
  obtain ⟨⟨p', r⟩, hr, h⟩ := Option.map_eq_some_iff.mp h
  match r, h, hr with
  | .inl d', h, hr =>
    obtain ⟨rfl, rfl⟩ := Prod.mk.inj h
    exact Moves.goOn p b (.own d) rfl hr
  | .inr (some x), h, hr =>
    obtain ⟨rfl, rfl⟩ := Prod.mk.inj h
    exact Moves.found p b (.own d) rfl hr
  | .inr none, h, hr =>
    obtain ⟨rfl, rfl⟩ := Prod.mk.inj h
    exact Moves.missOwn p b _ hr

theorem moves_of_scan {maxRootId pick : ℕ} {sh sh' : Shared Node n} {th' : Thread Node n}
    {p q : Fin n} {b : Bool} {left : ℕ} {d : Dequeue}
    (h : Pc.step c maxRootId pick sh p b (.scan q left d) = some (sh', th')) :
    Moves c maxRootId sh (.run p b (.scan q left d)) sh' th' := by
  obtain ⟨⟨p', r⟩, hr, h⟩ := Option.map_eq_some_iff.mp h
  match r, h, hr with
  | .inl d', h, hr =>
    obtain ⟨rfl, rfl⟩ := Prod.mk.inj h
    exact Moves.goOn p b (.scan q left d) rfl hr
  | .inr (some x), h, hr =>
    obtain ⟨rfl, rfl⟩ := Prod.mk.inj h
    exact Moves.found p b (.scan q left d) rfl hr
  | .inr none, h, hr =>
    dsimp only at h
    split_ifs at h with hleft
    · obtain ⟨rfl, rfl⟩ := Prod.mk.inj h
      exact Moves.missLast p b q hr
    · obtain ⟨rfl, rfl⟩ := Prod.mk.inj h
      exact Moves.missScan p b q _ hr (Nat.lt_of_not_le hleft)

/-- Every step of a thread is one of those listed. -/
theorem moves_of_step {maxRootId pick : ℕ} {sh sh' : Shared Node n} {th th' : Thread Node n}
    (h : Thread.step c maxRootId pick sh th = some (sh', th')) :
    Moves c maxRootId sh th sh' th' := by
  cases th with
  | start =>
    rw [Thread.step] at h
    split_ifs at h with hpick hinactive
    obtain ⟨rfl, rfl⟩ := Prod.mk.inj (Option.some.inj h)
    exact Moves.start _ hinactive
  | done => cases h
  | run p b pc =>
    rw [Thread.step] at h
    cases pc with
    | roots =>
      cases b with
      | true =>
        simp only [Pc.step, if_true] at h
        split_ifs at h with hlt
        · obtain ⟨rfl, rfl⟩ := Prod.mk.inj (Option.some.inj h)
          exact Moves.takeRoot p hlt
        · obtain ⟨rfl, rfl⟩ := Prod.mk.inj (Option.some.inj h)
          exact Moves.lastRoot p (Nat.le_of_not_lt hlt)
      | false =>
        obtain ⟨rfl, rfl⟩ := Prod.mk.inj (Option.some.inj h)
        exact Moves.noRoots p
    | call caller rest =>
      cases rest with
      | nil =>
        cases caller with
        | getRoot =>
          obtain ⟨rfl, rfl⟩ := Prod.mk.inj (Option.some.inj h)
          exact Moves.rootDone p b
        | listChildren =>
          obtain ⟨rfl, rfl⟩ := Prod.mk.inj (Option.some.inj h)
          exact Moves.childrenDone p b
      | cons x rest =>
        obtain ⟨rfl, rfl⟩ := Prod.mk.inj (Option.some.inj h)
        exact Moves.callBack p b caller x rest
    | enqueue caller rest x e =>
      cases e with
      | start y =>
        obtain ⟨rfl, rfl⟩ := Prod.mk.inj (Option.some.inj h)
        exact Moves.construct p b caller rest x y
      | store k =>
        obtain ⟨rfl, rfl⟩ := Prod.mk.inj (Option.some.inj h)
        exact Moves.publish p b caller rest x k
    | report caller rest x =>
      obtain ⟨rfl, rfl⟩ := Prod.mk.inj (Option.some.inj h)
      exact Moves.report p b caller rest x
    | own d => exact moves_of_own h
    | scan q left d => exact moves_of_scan h
    | checkRoots =>
      simp only [Pc.step] at h
      split_ifs at h with hge
      · obtain ⟨rfl, rfl⟩ := Prod.mk.inj (Option.some.inj h)
        exact Moves.exit p b hge
      · obtain ⟨rfl, rfl⟩ := Prod.mk.inj (Option.some.inj h)
        exact Moves.again p b (Nat.lt_of_not_le hge)
    | leave =>
      obtain ⟨rfl, rfl⟩ := Prod.mk.inj (Option.some.inj h)
      exact Moves.leave p b

/-- A step of the system is a step of one thread. -/
theorem step_cases {maxRootId : ℕ} {s s' : State Node n} {a : Action n}
    (h : step c maxRootId s a = some s') :
    ∃ sh th, Moves c (lastRootId c maxRootId) s.shared (s.threads a.thread) sh th ∧
      s' = { shared := sh, threads := Function.update s.threads a.thread th } := by
  obtain ⟨r, hr, rfl⟩ := Option.map_eq_some_iff.mp h
  exact ⟨r.1, r.2, moves_of_step hr, rfl⟩

/-! ### The queue of one producer -/

/-- The call of `dequeue` for the queue of a producer that a thread is in. -/
def Thread.callOn (q : Fin n) : Thread Node n → Option Dequeue
  | .run p _ pc => (pc.takes p).bind fun r => if r.1 = q then some r.2 else none
  | _ => none

/-- What a step does to the queue of a producer and to the thread's call of `dequeue` for it. -/
inductive Evolves (p : Producer Node) : Option Dequeue → Producer Node → Option Dequeue → Prop
  | same (d) : Evolves p d p d
  | begin : Evolves p none p (some .start)
  | step {d p' r} (h : d.step p = some (p', r)) : Evolves p (some d) p' r.getLeft?
  | again {d p'} (h : d.step p = some (p', .inr none)) : Evolves p (some d) p' (some .start)
  | construct (d x) : Evolves p d ((Enqueue.start x).step p).1 d
  | publish (d) (h : (p.elements p.tailIndex).isSome) :
      Evolves p d { p with tailIndex := p.tailIndex + 1 } d

theorem Evolves.inv {p p' : Producer Node} {d d' : Option Dequeue} (h : Evolves p d p' d')
    {calls : Fin n → Option Dequeue} (hp : p.Inv calls) {t : Fin n} (ht : calls t = d) :
    p'.Inv (Function.update calls t d') := by
  cases h with
  | same =>
    rw [← ht, Function.update_eq_self]
    exact hp
  | begin => exact hp.begin ht
  | step hstep => exact hp.step ht hstep
  | again hstep =>
    have hnone := hp.step ht hstep
    have hstart := hnone.begin (i := t) (Function.update_self _ _ _)
    rw [Function.update_idem] at hstart
    exact hstart
  | construct =>
    rw [← ht, Function.update_eq_self]
    exact hp.construct _
  | publish _ hsome =>
    rw [← ht, Function.update_eq_self]
    exact hp.publish hsome

/-! ### What holds in every state -/

/-- A place in the loop only holds nodes of the forest, and an element that has been constructed
stands where it is to be published. -/
def Pc.Ok (c : FiniteSystem Node) (p : Producer Node) : Pc Node n → Prop
  | .call _ rest => ∀ x ∈ rest, c.forest.Ok x
  | .enqueue _ rest x (.start y) => y = x ∧ ∀ z ∈ x :: rest, c.forest.Ok z
  | .enqueue _ rest x (.store k) =>
    (k = 1 + p.tailIndex ∧ p.elements p.tailIndex = some x) ∧ ∀ z ∈ x :: rest, c.forest.Ok z
  | .report _ rest x => ∀ z ∈ x :: rest, c.forest.Ok z
  | _ => True

/-- A thread that has seen that no roots are available. -/
def Thread.IsPast : Thread Node n → Prop
  | .run _ b pc => b = false ∨ pc = .leave
  | .done => True
  | .start => False

/-- The producer of a thread's token. -/
def Thread.holder : Thread Node n → Option (Fin n)
  | .run p _ _ => some p
  | _ => none

/-- What holds in every state of a run. -/
structure Inv (c : FiniteSystem Node) (maxRootId : ℕ) (s : State Node n) : Prop where
  gnodes : ∀ q, (s.shared.gnodes q).Inv fun t => (s.threads t).callOn q
  nodes : ∀ q j x, (s.shared.gnodes q).elements j = some x → c.forest.Ok x
  pcs : ∀ t p b pc, s.threads t = .run p b pc → pc.Ok c (s.shared.gnodes p)
  past : ∀ t, (s.threads t).IsPast → maxRootId ≤ s.shared.nextRoot
  active : ∀ t p, (s.threads t).holder = some p → s.shared.inactive p = false
  held : ∀ p, s.shared.inactive p = false → ∃ t, (s.threads t).holder = some p
  /-- No two threads have a token of one producer. -/
  distinct : ∀ t t' p, (s.threads t).holder = some p → (s.threads t').holder = some p → t = t'

theorem inv_init (c : FiniteSystem Node) (maxRootId n minRootId : ℕ) :
    Inv c maxRootId (init n minRootId) where
  gnodes _ := Producer.inv_init
  nodes _ _ _ h := by cases h
  pcs _ _ _ _ h := by cases h
  past _ h := h.elim
  active _ _ h := by cases h
  held _ h := by cases h
  distinct _ _ _ h := by cases h

/-! ### What a step preserves -/

theorem Thread.callOn_of_takes {p q r : Fin n} {b : Bool} {pc : Pc Node n} {d : Dequeue}
    (h : pc.takes p = some (q, d)) :
    (Thread.run p b pc).callOn r = if q = r then some d else none := by
  rw [Thread.callOn, h, Option.bind_some]

theorem Thread.callOn_self {p q : Fin n} {b : Bool} {pc : Pc Node n} {d : Dequeue}
    (h : pc.takes p = some (q, d)) : (Thread.run p b pc).callOn q = some d := by
  rw [Thread.callOn_of_takes h, if_pos rfl]

theorem Pc.takes_goOn {p q : Fin n} {pc : Pc Node n} {d : Dequeue} (h : pc.takes p = some (q, d))
    (d' : Dequeue) : (pc.goOn d').takes p = some (q, d') := by
  cases pc with
  | own => cases h; rfl
  | scan => cases h; rfl
  | _ => cases h

/-- A step that goes on with a call of `dequeue`, or ends it. -/
theorem evolves_dequeue {gnodes : Fin n → Producer Node} {q r : Fin n} {d : Dequeue}
    {p' : Producer Node} {res : Dequeue ⊕ Option Node} (hd : d.step (gnodes q) = some (p', res)) :
    Evolves (gnodes r) (if q = r then some d else none) (Function.update gnodes q p' r)
      (if q = r then res.getLeft? else none) := by
  by_cases hq : q = r
  · subst hq
    rw [if_pos rfl, if_pos rfl, Function.update_self]
    exact .step hd
  · rw [if_neg hq, if_neg hq, Function.update_of_ne (Ne.symm hq)]
    exact .same none

/-- A step that ends a call of `dequeue` without an element and begins the next one. -/
theorem evolves_next {gnodes : Fin n → Producer Node} {q q' r : Fin n} {d : Dequeue}
    {p' : Producer Node} (hd : d.step (gnodes q) = some (p', .inr none)) :
    Evolves (gnodes r) (if q = r then some d else none) (Function.update gnodes q p' r)
      (if q' = r then some .start else none) := by
  by_cases hq : q = r
  · subst hq
    rw [if_pos rfl, Function.update_self]
    split_ifs
    · exact .again hd
    · exact .step hd
  · rw [if_neg hq, Function.update_of_ne (Ne.symm hq)]
    split_ifs
    · exact .begin
    · exact .same none

theorem Moves.evolves {maxRootId : ℕ} {sh sh' : Shared Node n} {th th' : Thread Node n}
    (h : Moves c maxRootId sh th sh' th')
    (hok : ∀ p b pc, th = .run p b pc → pc.Ok c (sh.gnodes p)) (q : Fin n) :
    Evolves (sh.gnodes q) (th.callOn q) (sh'.gnodes q) (th'.callOn q) := by
  -- the calls of `dequeue` begin outside any other
  have hbegin : ∀ p : Fin n, Evolves (sh.gnodes q) none (sh.gnodes q)
      (if p = q then some .start else none) := by
    intro p
    split_ifs
    · exact .begin
    · exact .same none
  cases h with
  | lastRoot p => exact hbegin p
  | noRoots p => exact hbegin p
  | rootDone p => exact hbegin p
  | construct p b caller rest x y =>
    show Evolves _ none (Function.update sh.gnodes p _ q) none
    rcases eq_or_ne q p with rfl | hne
    · rw [Function.update_self]
      exact .construct none y
    · rw [Function.update_of_ne hne]
      exact .same none
  | publish p b caller rest x k =>
    obtain ⟨⟨rfl, hx⟩, -⟩ := hok p b _ rfl
    show Evolves _ none (Function.update sh.gnodes p _ q) none
    rcases eq_or_ne q p with rfl | hne
    · rw [Function.update_self, Enqueue.step, Nat.add_comm]
      exact .publish none (by rw [hx]; rfl)
    · rw [Function.update_of_ne hne]
      exact .same none
  | goOn p b pc htakes hd =>
    rw [Thread.callOn_of_takes htakes, Thread.callOn_of_takes (Pc.takes_goOn htakes _)]
    exact evolves_dequeue hd
  | found p b pc htakes hd =>
    have hres := evolves_dequeue (r := q) hd
    rw [Thread.callOn_of_takes htakes]
    simp only [Sum.getLeft?_inr, ite_self] at hres
    exact hres
  | missOwn p b r hd => exact evolves_next hd
  | missScan p b r r' hd => exact evolves_next hd
  | missLast p b r hd =>
    have hres := evolves_dequeue (r := q) hd
    simp only [Sum.getLeft?_inr, ite_self] at hres
    exact hres
  | _ => exact .same none

/-- A thread changes the queue of a producer whose token it has not only by `dequeue`. -/
theorem Moves.gnodes_of_ne {maxRootId : ℕ} {sh sh' : Shared Node n} {th th' : Thread Node n}
    (h : Moves c maxRootId sh th sh' th') {q : Fin n} (hq : th.holder ≠ some q) :
    sh'.gnodes q = sh.gnodes q ∨
      ∃ d r, th.callOn q = some d ∧ d.step (sh.gnodes q) = some (sh'.gnodes q, r) := by
  have hdequeue : ∀ {r : Fin n} {d : Dequeue} {p' : Producer Node} {res : Dequeue ⊕ Option Node},
      th.callOn q = (if r = q then some d else none) → d.step (sh.gnodes r) = some (p', res) →
      Function.update sh.gnodes r p' q = sh.gnodes q ∨ ∃ d res, th.callOn q = some d ∧
        d.step (sh.gnodes q) = some (Function.update sh.gnodes r p' q, res) := by
    intro r d p' res hcall hd
    by_cases hr : r = q
    · subst hr
      rw [if_pos rfl] at hcall
      rw [Function.update_self]
      exact Or.inr ⟨d, res, hcall, hd⟩
    · exact Or.inl (Function.update_of_ne (Ne.symm hr) _ _)
  cases h with
  | construct p b caller rest x y =>
    exact Or.inl (Function.update_of_ne (fun h => hq (congrArg some h.symm)) _ _)
  | publish p b caller rest x k =>
    exact Or.inl (Function.update_of_ne (fun h => hq (congrArg some h.symm)) _ _)
  | goOn p b pc htakes hd => exact hdequeue (Thread.callOn_of_takes htakes) hd
  | found p b pc htakes hd => exact hdequeue (Thread.callOn_of_takes htakes) hd
  | missOwn p b r hd => exact hdequeue rfl hd
  | missScan p b r r' hd => exact hdequeue rfl hd
  | missLast p b r hd => exact hdequeue rfl hd
  | _ => exact Or.inl rfl

/-- A step of `dequeue` leaves the place alone at which the next element is put. -/
theorem top_eq_of_step {ι : Type} [Fintype ι] {p p' : Producer Node} {calls : ι → Option Dequeue}
    (hp : p.Inv calls) {t : ι} {d : Dequeue} {r : Dequeue ⊕ Option Node} (ht : calls t = some d)
    (hd : d.step p = some (p', r)) :
    p'.tailIndex = p.tailIndex ∧ p'.elements p.tailIndex = p.elements p.tailIndex := by
  have hmoved := Dequeue.moved_of_step hd
  refine ⟨hmoved.tail_eq, ?_⟩
  cases hmoved with
  | moveOut _ =>
    have hlt := (hp.moving t _ ht).1.trans_le hp.head_le
    exact Function.update_of_ne hlt.ne' _ _
  | _ => rfl

theorem Pc.Ok.congr {p p' : Producer Node} {pc : Pc Node n} (h : pc.Ok c p)
    (htail : p'.tailIndex = p.tailIndex)
    (htop : p'.elements p.tailIndex = p.elements p.tailIndex) : pc.Ok c p' := by
  match pc, h with
  | .enqueue _ rest x (.store k), h =>
    obtain ⟨⟨hk, hx⟩, hrest⟩ := h
    refine ⟨⟨?_, ?_⟩, hrest⟩
    · rw [htail]
      exact hk
    · rw [htail, htop]
      exact hx
  | .enqueue _ rest x (.start y), h => exact h
  | .call _ rest, h => exact h
  | .report _ rest x, h => exact h
  | .roots, _ => trivial
  | .own _, _ => trivial
  | .scan _ _ _, _ => trivial
  | .checkRoots, _ => trivial
  | .leave, _ => trivial

/-- What a step of `dequeue` returns stood in the queue, and what stands there stood there
before. -/
theorem nodes_of_step {p p' : Producer Node} {P : Node → Prop} {d : Dequeue}
    {r : Dequeue ⊕ Option Node} (hP : ∀ j x, p.elements j = some x → P x)
    (hd : d.step p = some (p', r)) :
    (∀ j x, p'.elements j = some x → P x) ∧ ∀ x, r = .inr (some x) → P x := by
  cases Dequeue.moved_of_step hd with
  | count d' _ _ _ =>
    refine ⟨hP, ?_⟩
    intro x hx
    cases d' <;> cases hx
  | take => exact ⟨hP, fun x hx => by cases hx⟩
  | @moveOut index y hy =>
    constructor
    · intro j x hx
      rcases eq_or_of_update hx with ⟨-, hnone⟩ | ⟨-, hx⟩
      · cases hnone
      · exact hP j x hx
    · intro x hx
      cases hx
      exact hP index _ hy

theorem forall_update {gnodes : Fin n → Producer Node} {P : Node → Prop}
    (hP : ∀ q j x, (gnodes q).elements j = some x → P x) {p : Fin n} {p' : Producer Node}
    (hp : ∀ j x, p'.elements j = some x → P x) :
    ∀ q j x, (Function.update gnodes p p' q).elements j = some x → P x := by
  intro q j x hx
  rcases eq_or_ne q p with rfl | hne
  · rw [Function.update_self] at hx
    exact hp j x hx
  · rw [Function.update_of_ne hne] at hx
    exact hP q j x hx

section Step

variable {maxRootId : ℕ} {sh sh' : Shared Node n} {th th' : Thread Node n}
  (h : Moves c maxRootId sh th sh' th')

include h

/-- The queues hold nodes of the forest. -/
theorem Moves.nodes (hnodes : ∀ q j x, (sh.gnodes q).elements j = some x → c.forest.Ok x)
    (hok : ∀ p b pc, th = .run p b pc → pc.Ok c (sh.gnodes p)) :
    ∀ q j x, (sh'.gnodes q).elements j = some x → c.forest.Ok x := by
  cases h with
  | construct p b caller rest x y =>
    obtain ⟨rfl, hz⟩ := hok p b _ rfl
    apply forall_update hnodes
    intro j z hz'
    rcases eq_or_of_update hz' with ⟨-, hzy⟩ | ⟨-, hz'⟩
    · cases hzy
      exact hz _ List.mem_cons_self
    · exact hnodes p j z hz'
  | publish p b caller rest x k => exact forall_update hnodes (hnodes p)
  | goOn p b pc htakes hd => exact forall_update hnodes (nodes_of_step (hnodes _) hd).1
  | found p b pc htakes hd => exact forall_update hnodes (nodes_of_step (hnodes _) hd).1
  | missOwn p b r hd => exact forall_update hnodes (nodes_of_step (hnodes _) hd).1
  | missScan p b r r' hd => exact forall_update hnodes (nodes_of_step (hnodes _) hd).1
  | missLast p b r hd => exact forall_update hnodes (nodes_of_step (hnodes _) hd).1
  | _ => exact hnodes

/-- The thread that takes the step holds nodes of the forest. -/
theorem Moves.pc_ok (hlast : maxRootId ≤ c.maxRoots)
    (hnodes : ∀ q j x, (sh.gnodes q).elements j = some x → c.forest.Ok x)
    (hok : ∀ p b pc, th = .run p b pc → pc.Ok c (sh.gnodes p)) :
    ∀ p b pc, th' = .run p b pc → pc.Ok c (sh'.gnodes p) := by
  intro p b pc hth
  cases h with
  | takeRoot p' hlt =>
    cases hth
    exact c.ok_getRoot sh.nextRoot (hlt.trans_le hlast)
  | callBack p' b' caller x rest =>
    have hrest := hok p' b' _ rfl
    cases hth
    exact ⟨rfl, hrest⟩
  | construct p' b' caller rest x y =>
    obtain ⟨rfl, hz⟩ := hok p' b' _ rfl
    cases hth
    refine ⟨⟨?_, ?_⟩, hz⟩
    · show _ = 1 + (Function.update sh.gnodes p _ p).tailIndex
      rw [Function.update_self]
      rfl
    · show (Function.update sh.gnodes p _ p).elements (Function.update sh.gnodes p _ p).tailIndex
        = some _
      rw [Function.update_self]
      exact Function.update_self _ _ _
  | publish p' b' caller rest x k =>
    have hz := (hok p' b' _ rfl).2
    cases hth
    exact hz
  | report p' b' caller rest x =>
    have hz := hok p' b' _ rfl
    cases hth
    exact fun y hy => hz y (List.mem_cons_of_mem _ hy)
  | @goOn p' b' pc' q d d' q' htakes hd =>
    cases hth
    cases pc' with
    | own | scan => trivial
    | _ => cases htakes
  | found p' b' pc' htakes hd =>
    have hx := (nodes_of_step (hnodes _) hd).2 _ rfl
    cases hth
    exact fun y hy => c.forest.ok_of_mem hx hy
  | _ =>
    cases hth
    try trivial

theorem Moves.nextRoot_le : sh.nextRoot ≤ sh'.nextRoot := by
  cases h with
  | takeRoot | lastRoot => exact Nat.le_succ _
  | _ => exact le_rfl

/-- Only when the roots have run out does a thread stop looking for them. -/
theorem Moves.past (hpast : th.IsPast → maxRootId ≤ sh.nextRoot) (hth : th'.IsPast) :
    maxRootId ≤ sh'.nextRoot := by
  cases h with
  | lastRoot p hle => exact hle.trans (Nat.le_succ _)
  | exit p b hle => exact hle
  | leave p b => exact hpast (Or.inr rfl)
  | noRoots p => exact hpast (Or.inl rfl)
  | start | takeRoot =>
    rcases hth with hth | hth <;> cases hth
  | @goOn p b pc q d d' q' htakes hd =>
    rcases hth with hth | hth
    · exact hpast (Or.inl hth)
    · cases pc with
      | leave => cases htakes
      | _ => cases hth
  | _ =>
    rcases hth with hth | hth
    · exact hpast (Or.inl hth)
    · cases hth

/-- A thread keeps its token until it leaves, and takes one that no thread has. -/
theorem Moves.holder_cases :
    (th'.holder = th.holder ∧ sh'.inactive = sh.inactive) ∨
      (∃ p, sh.inactive p = true ∧ th.holder = none ∧ th'.holder = some p ∧
        sh'.inactive = Function.update sh.inactive p false) ∨
      ∃ p b, th = .run p b .leave ∧ th'.holder = none ∧ sh'.gnodes = sh.gnodes ∧
        sh'.inactive = Function.update sh.inactive p true := by
  cases h with
  | start p hp => exact Or.inr (Or.inl ⟨p, hp, rfl, rfl, rfl⟩)
  | leave p b => exact Or.inr (Or.inr ⟨p, b, rfl, rfl, rfl, rfl⟩)
  | _ => exact Or.inl ⟨rfl, rfl⟩

end Step

theorem inv_step {maxRootId : ℕ} (hlast : lastRootId c maxRootId ≤ c.maxRoots) {s s' : State Node n}
    {a : Action n} (hs : Inv c (lastRootId c maxRootId) s) (h : step c maxRootId s a = some s') :
    Inv c (lastRootId c maxRootId) s' := by
  obtain ⟨sh, th, hmoves, rfl⟩ := step_cases h
  have hok := fun p b pc => hs.pcs a.thread p b pc
  constructor
  case gnodes =>
    intro q
    have hinv := (hmoves.evolves hok q).inv (hs.gnodes q) (t := a.thread) rfl
    have hcalls : (fun t => Thread.callOn q (Function.update s.threads a.thread th t))
        = Function.update (fun t => (s.threads t).callOn q) a.thread (th.callOn q) := by
      funext t
      rcases eq_or_ne t a.thread with rfl | hne
      · rw [Function.update_self, Function.update_self]
      · rw [Function.update_of_ne hne, Function.update_of_ne hne]
    rw [← hcalls] at hinv
    exact hinv
  case nodes => exact hmoves.nodes hs.nodes hok
  case pcs =>
    intro t p b pc ht
    rcases eq_or_of_update ht with ⟨-, hth⟩ | ⟨hne, ht⟩
    · exact hmoves.pc_ok hlast hs.nodes hok p b pc hth
    · -- the thread that takes the step has another token
      have hholder : (s.threads a.thread).holder ≠ some p := by
        intro hp
        exact hne (hs.distinct t a.thread p (by rw [ht]; rfl) hp)
      show pc.Ok c (sh.gnodes p)
      rcases hmoves.gnodes_of_ne hholder with heq | ⟨d, r, hcall, hd⟩
      · rw [heq]
        exact hs.pcs t p b pc ht
      · obtain ⟨htail, htop⟩ := top_eq_of_step (hs.gnodes p) hcall hd
        exact (hs.pcs t p b pc ht).congr htail htop
  case past =>
    intro t ht
    replace ht : (Function.update s.threads a.thread th t).IsPast := ht
    rcases eq_or_ne t a.thread with rfl | hne
    · rw [Function.update_self] at ht
      exact hmoves.past (hs.past a.thread) ht
    · rw [Function.update_of_ne hne] at ht
      exact (hs.past t ht).trans hmoves.nextRoot_le
  case active =>
    intro t p ht
    show sh.inactive p = false
    replace ht : (Function.update s.threads a.thread th t).holder = some p := ht
    rcases hmoves.holder_cases with
      ⟨hholder, heq⟩ | ⟨q, hq, -, hholder, heq⟩ | ⟨q, b, hrun, hholder, -, heq⟩
    · rw [heq]
      rcases eq_or_ne t a.thread with rfl | hne
      · rw [Function.update_self, hholder] at ht
        exact hs.active _ p ht
      · rw [Function.update_of_ne hne] at ht
        exact hs.active t p ht
    · rw [heq]
      rcases eq_or_ne t a.thread with rfl | hne
      · rw [Function.update_self, hholder] at ht
        cases ht
        exact Function.update_self _ _ _
      · rw [Function.update_of_ne hne] at ht
        have hp := hs.active t p ht
        rw [Function.update_of_ne]
        · exact hp
        · rintro rfl
          rw [hp] at hq
          cases hq
    · rw [heq]
      rcases eq_or_ne t a.thread with rfl | hne
      · rw [Function.update_self, hholder] at ht
        cases ht
      · rw [Function.update_of_ne hne] at ht
        have hp := hs.active t p ht
        rw [Function.update_of_ne]
        · exact hp
        · rintro rfl
          exact hne (hs.distinct t a.thread _ ht (by rw [hrun]; rfl))
  case held =>
    intro p hp
    replace hp : sh.inactive p = false := hp
    show ∃ t, (Function.update s.threads a.thread th t).holder = some p
    -- another thread has kept its token
    have hkeep : ∀ t, t ≠ a.thread → (s.threads t).holder = some p →
        ∃ t, (Function.update s.threads a.thread th t).holder = some p :=
      fun t hne ht => ⟨t, by rw [Function.update_of_ne hne]; exact ht⟩
    rcases hmoves.holder_cases with
      ⟨hsame, heq⟩ | ⟨q, -, hnone, hholder, heq⟩ | ⟨q, b, hrun, -, -, heq⟩
    · rw [heq] at hp
      obtain ⟨t, ht⟩ := hs.held p hp
      rcases eq_or_ne t a.thread with rfl | hne
      · exact ⟨a.thread, by rw [Function.update_self, hsame]; exact ht⟩
      · exact hkeep t hne ht
    · rw [heq] at hp
      rcases eq_or_of_update hp with ⟨rfl, -⟩ | ⟨-, hp⟩
      · exact ⟨a.thread, by rw [Function.update_self]; exact hholder⟩
      · obtain ⟨t, ht⟩ := hs.held p hp
        apply hkeep t _ ht
        rintro rfl
        rw [hnone] at ht
        cases ht
    · rw [heq] at hp
      rcases eq_or_of_update hp with ⟨-, htrue⟩ | ⟨hne, hp⟩
      · cases htrue
      · obtain ⟨t, ht⟩ := hs.held p hp
        apply hkeep t _ ht
        rintro rfl
        rw [hrun] at ht
        exact hne (Option.some.inj ht).symm
  case distinct =>
    intro t t' p ht ht'
    replace ht : (Function.update s.threads a.thread th t).holder = some p := ht
    replace ht' : (Function.update s.threads a.thread th t').holder = some p := ht'
    have hother : ∀ u, u ≠ a.thread → (s.threads u).holder = some p → th.holder ≠ some p := by
      intro u hne hu hth
      rcases hmoves.holder_cases with
        ⟨hholder, -⟩ | ⟨q, hq, -, hholder, -⟩ | ⟨q, b, -, hholder, -, -⟩
      · rw [hholder] at hth
        exact hne (hs.distinct u a.thread p hu hth)
      · rw [hholder] at hth
        cases hth
        rw [hs.active u p hu] at hq
        cases hq
      · rw [hholder] at hth
        cases hth
    rcases eq_or_ne t a.thread with rfl | hne
    · rw [Function.update_self] at ht
      rcases eq_or_ne t' a.thread with rfl | hne'
      · rfl
      · rw [Function.update_of_ne hne'] at ht'
        exact absurd ht (hother t' hne' ht')
    · rw [Function.update_of_ne hne] at ht
      rcases eq_or_ne t' a.thread with rfl | hne'
      · rw [Function.update_self] at ht'
        exact absurd ht' (hother t hne ht)
      · rw [Function.update_of_ne hne'] at ht'
        exact hs.distinct t t' p ht ht'

end ParallelEnum.ParallelPthreads
