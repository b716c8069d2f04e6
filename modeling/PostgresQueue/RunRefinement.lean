import PostgresQueue.TaskRuns

namespace PostgresQueue

open Library

section Refinement

def ExceptionClass.erase (e : Thrown) : ExceptionClass → BaseException
  | .timeoutError => .timeoutError
  | .exception => .exception (utf8Replaced e.text)
  | .baseException => .other

def BaseException.exceptionClass : BaseException → ExceptionClass
  | .timeoutError => .timeoutError
  | .exception _ => .exception
  | .systemExit | .keyboardInterrupt | .cancelledError | .other => .baseException

/-- The exit code as a shell reports it. -/
def Death.code : Death → ℕ
  | .alarm => exitTimeout
  | .exit code => code
  | .killed signum => 128 + signum

def Called.erase (e : Thrown) (o : Called) : CallEnding := o.map (·.erase e) Death.code id

theorem ExceptionClass.exceptionClass_erase (e : Thrown) (x : ExceptionClass) :
    (x.erase e).exceptionClass = x := by
  cases x <;> rfl

theorem ExceptionClass.isException_erase (e : Thrown) (x : ExceptionClass) :
    (x.erase e).isException = x.isException := by
  cases x <;> rfl

variable (c : TaskRun) (e : Thrown)

def TaskRun.calls : ChildCalls where
  closeReadFd := .ok ()
  setpgrp := .ok ()
  signalSigterm := .ok ()
  signalSigint := .ok ()
  signalSigalrm := .ok ()
  preExecute := c.preExecute.map (Called.erase e)
  handler := Called.erase e c.handler.call
  formatExc := (c.formatExc.map (fun x => x.exceptionClass.erase e) Death.code fun _ => ())
  postExecute := c.postExecute.map fun post error =>
    Called.erase e (post (error.map BaseException.exceptionClass))
  writeError := Called.erase e c.write
  closePools := Called.erase e (swallowed c.closePools)

theorem refines_exceptException {α α' : Type} {f : α → α'} {x : TaskProc α} {y : ChildProc α'}
    {k : ExceptionClass → TaskProc α} {k' : BaseException → ChildProc α'}
    (hx : Proc.Refines (ExceptionClass.erase e) Death.code f x y)
    (hk : ∀ a, Proc.Refines (ExceptionClass.erase e) Death.code f (k a) (k' (a.erase e))) :
    Proc.Refines (ExceptionClass.erase e) Death.code f (TaskProc.exceptException x k)
      (exceptException y k') := by
  refine hx.tryExcept fun a => ?_
  rw [a.isException_erase e]
  split_ifs
  · exact .some (hk a)
  · exact .none

theorem work_refines :
    Proc.Refines (ExceptionClass.erase e) Death.code id c.work (c.calls e).work := by
  rw [TaskRun.work_eq, ChildCalls.work_eq]
  have hwork : Called.erase e c.workEnding = (c.calls e).workEnding := by
    unfold TaskRun.workEnding ChildCalls.workEnding TaskRun.calls
    cases c.preExecute with
    | none => rfl
    | some pre => cases pre <;> rfl
  exact hwork

theorem onException_refines (x : ExceptionClass) :
    Proc.Refines (ExceptionClass.erase e) Death.code (fun left => left.1.map (·.erase e))
      (c.onException e x) ((c.calls e).onException (x.erase e)) := by
  cases x with
  | timeoutError => rfl
  | exception | baseException =>
    unfold TaskRun.onException ChildCalls.onException TaskRun.formatted TaskRun.calls
    cases c.formatExc <;> rfl

theorem errorAtFinally_erase (o : Called) :
    PostgresQueue.errorAtFinally (Called.erase e o) =
      (TaskRun.errorAtFinally o).map (·.erase e) := by
  cases o with
  | returns | exits => rfl
  | raises x => cases x <;> rfl

theorem post_refines (error : Option ExceptionClass) :
    Proc.Refines (ExceptionClass.erase e) Death.code id (c.post error)
      ((c.calls e).post (error.map (·.erase e))) := by
  unfold TaskRun.post ChildCalls.post TaskRun.calls
  refine refines_exceptException e ?_ fun _ => Proc.refines_pure ()
  cases c.postExecute with
  | none => exact Proc.refines_pure _
  | some post =>
    have herror : (error.map (·.erase e)).map BaseException.exceptionClass = error := by
      cases error with
      | none => rfl
      | some x => exact congrArg some (x.exceptionClass_erase e)
    simp only [Option.map_some, herror]
    exact Proc.refines_ofEnding (post error)

theorem report_refines (error : Option ExceptionClass) (errorTb : PyText) :
    Proc.Refines (ExceptionClass.erase e) Death.code id (c.report e error errorTb)
      ((c.calls e).report (error.map (·.erase e))) := by
  have hwrite : ∀ x : ChildProc Unit, x = .ofEnding (Called.erase e c.write) →
      Proc.Refines (ExceptionClass.erase e) Death.code id
        (do .ofEnding c.write; .emit (e.raised errorTb) : TaskProc Unit) x := by
    rintro _ rfl
    cases c.write <;> rfl
  cases error with
  | none => exact Proc.refines_pure exitSuccess
  | some x =>
    cases x with
    | timeoutError => exact Proc.refines_pure exitTimeout
    | exception | baseException =>
      exact (refines_exceptException e (hwrite _ rfl) fun _ => Proc.refines_pure ()).bind
        fun _ => Proc.refines_pure exitFailure

theorem close_refines : Proc.Refines (ExceptionClass.erase e) Death.code id c.closePoolsBeforeExit
    (.ofEnding (c.calls e).closePools : ChildProc Unit) := by
  rw [c.closePoolsBeforeExit_eq]
  exact Proc.refines_ofEnding (swallowed c.closePools)

/-- But for what it sends, and for how it is stopped, a run is one of `runInChild`. -/
theorem run_refines {maxRuntime : PyFloat} (hfits : FitsAlarm maxRuntime) :
    Proc.Refines (ExceptionClass.erase e) Death.code id (c.run e)
      (runInChild maxRuntime (c.calls e)) := by
  obtain ⟨n, hn⟩ := (alarmSeconds_ok maxRuntime).mpr hfits
  have hrun : runInChild maxRuntime (c.calls e) = (do
      let error ← Proc.tryFinally
        (exceptException (do (c.calls e).work; return none) (c.calls e).onException)
        fun _ => (c.calls e).post (PostgresQueue.errorAtFinally (c.calls e).work.ending)
      let exitCode ← (c.calls e).report error
      .ofEnding (c.calls e).closePools
      .exit exitCode) := by
    unfold runInChild
    rw [hn]
    rfl
  have hat : PostgresQueue.errorAtFinally (c.calls e).work.ending =
      (TaskRun.errorAtFinally c.work.ending).map (·.erase e) := by
    rw [← errorAtFinally_erase]
    exact congrArg PostgresQueue.errorAtFinally (work_refines c e).symm
  rw [hrun, hat]
  refine Proc.Refines.bind (h := fun left => left.1.map (·.erase e)) (Proc.Refines.tryFinally ?_
    fun _ => post_refines c e _) fun left => (report_refines c e left.1 left.2).bind fun code =>
      (close_refines c e).bind fun _ => ?_
  · exact refines_exceptException e ((work_refines c e).bind fun _ => Proc.refines_pure (none, []))
      (onException_refines c e)
  · exact Proc.refines_ofEnding (.exits (Death.exit code))

end Refinement

end PostgresQueue
