import ParallelEnum.Enumerator.ParallelPthreadsSteal.Callbacks

/-!
# What the threads of `ParallelPthreadsSteal` report

All threads call `Enumerator::ReportSolution` of one object, which counts and calls the item
callback.  A run keeps that object, with the items in the order of the calls, whichever thread has
made them.  The queues are those of `Callbacks`, linearizable and with an exact `size_approx`.
-/

namespace ParallelEnum.ParallelPthreadsSteal.Callbacks

variable {n : ℕ} {St Value Item : Type}

/-- The node for which a thread is about to call `ReportSolution`. -/
def Thread.reports (th : Thread n St Value) : Option (Node n Value) :=
  match th.pc, th.calls with
  | .working _, .solutionCb node .report :: _ => some node
  | _, _ => none

/-- What the next step of a thread does to the object. -/
def Thread.report (e : Enumerable St Value Item) (fresh : St) (sh : Shared n St Value)
    (th : Thread n St Value) (enumerator : Enumerator Item) : Enumerator Item :=
  match th.reports with
  | none => enumerator
  | some node =>
    enumerator.reportSolution e (sh.buffer (ofEnumerable e fresh) node.ref) node.value

/-- The state of a run, and the object that it reports to. -/
structure Reporting (n : ℕ) (St Value Item : Type) where
  state : State n St Value
  enumerator : Enumerator Item := {}

namespace Reporting

/-- One step of one thread. -/
def step (e : Enumerable St Value Item) (fresh : St) (callbacks : Bool)
    (r : Reporting n St Value Item) (a : Action n St Value) : Option (Reporting n St Value Item) :=
  (Callbacks.step (ofEnumerable e fresh) callbacks r.state a).map fun s =>
    { state := s
      enumerator := (r.state.threads a.thread).report e fresh r.state.shared r.enumerator }

/-- The state in which the threads start. -/
def init (e : Enumerable St Value Item) (fresh : St) (n minRootId maxRootId : ℕ) :
    Reporting n St Value Item where
  state := Callbacks.init (ofEnumerable e fresh) n minRootId maxRootId

/-- All threads have returned. -/
def Finished (r : Reporting n St Value Item) : Prop := ∀ t, (r.state.threads t).pc = .done

end Reporting

end ParallelEnum.ParallelPthreadsSteal.Callbacks
