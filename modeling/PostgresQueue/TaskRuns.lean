import PostgresQueue.ChildProcess
import PostgresQueue.WorkerPaths

namespace PostgresQueue

open Library System

inductive ExceptionClass
  | timeoutError
  | exception
  | baseException
deriving DecidableEq

def ExceptionClass.isException : ExceptionClass → Bool
  | .timeoutError | .exception => true
  | .baseException => false

inductive Death
  | alarm
  | exit (code : ℕ)
  | killed (signum : ℕ)
deriving DecidableEq

def Death.status : Death → WaitStatus
  | .alarm => .exited exitTimeout
  | .exit code => .exited (code % 256)
  | .killed signum => .signaled signum

abbrev Called := Ending ExceptionClass Death Unit

/-- A coroutine is `none` if `asyncio.wait_for` has cut it off at `max_runtime`. -/
inductive TaskHandler
  | function (o : Called)
  | coroutine (o : Option Called)

def TaskHandler.call : TaskHandler → Called
  | .function o => o
  | .coroutine (some o) => o
  | .coroutine none => .raises .timeoutError

/-- What is left of a text that is encoded and decoded as UTF-8 with `errors="replace"`. -/
def utf8Replaced (text : PyText) : String := String.ofList (text.map (Sum.elim id fun _ => '?'))

structure Thrown where
  typeName : PyText
  text : PyText
  typeName_nulFree : NulFree (utf8Replaced typeName)

def Thrown.raised (e : Thrown) (errorTb : PyText) : Raised :=
  ⟨utf8Replaced e.typeName, utf8Replaced e.text, utf8Replaced errorTb⟩

/-- An exception that the code of the child lets through, as the child sees it. -/
def TaskError.exceptionClass : TaskError → ExceptionClass
  | .baseException => .baseException
  | .timeout _ | .oom _ | .killed _ | .interrupted _ | .exception _ => .exception

/-- A run of a task, but for the name and the message of the exception that it may raise. `escaped`
is the wait status of a child that an exception has left and that the worker's clauses do not stop. -/
structure TaskRun where
  preExecute : Option Called
  handler : TaskHandler
  formatExc : Ending TaskError Death (Thrown → PyText)
  formatExc_header : ∀ errorTb, formatExc = .returns errorTb → ∀ e, ∃ before after,
    errorTb e = before ++ pyText "Traceback (most recent call last):\n" ++ after
  postExecute : Option (Option ExceptionClass → Called)
  write : Called
  closePools : Called
  escaped : WaitStatus

abbrev TaskProc := Proc Raised ExceptionClass Death

def TaskProc.exceptException {α : Type} (x : TaskProc α) (handler : ExceptionClass → TaskProc α) :
    TaskProc α :=
  Proc.tryExcept x fun e => if e.isException then some (handler e) else none

namespace TaskRun

variable (c : TaskRun)

def work : TaskProc Unit := do
  match c.preExecute with
  | some pre => .ofEnding pre
  | none => pure ()
  .ofEnding c.handler.call

def formatted (e : Thrown) : Ending ExceptionClass Death PyText :=
  c.formatExc.map TaskError.exceptionClass id fun errorTb => errorTb e

/-- The two `except` clauses, with `error` and `error_tb` as they leave them. -/
def onException (e : Thrown) (x : ExceptionClass) : TaskProc (Option ExceptionClass × PyText) :=
  if x = .timeoutError then return (some x, [])
  else do
    let errorTb ← .ofEnding (c.formatted e)
    return (some x, errorTb)

def post (error : Option ExceptionClass) : TaskProc Unit :=
  TaskProc.exceptException
    (match c.postExecute with
      | some post => .ofEnding (post error)
      | none => pure ())
    fun _ => pure ()

def report (e : Thrown) (error : Option ExceptionClass) (errorTb : PyText) : TaskProc ℕ :=
  match error with
  | none => return exitSuccess
  | some .timeoutError => return exitTimeout
  | some _ => do
    TaskProc.exceptException (do .ofEnding c.write; .emit (e.raised errorTb)) fun _ => pure ()
    return exitFailure

def closePoolsBeforeExit : TaskProc Unit :=
  TaskProc.exceptException (.ofEnding c.closePools) fun _ => pure ()

def errorAtFinally : Called → Option ExceptionClass
  | .raises x => if x.isException then some x else none
  | .returns () | .exits _ => none

/-- `_run_in_child` from its `try` on. -/
def run (e : Thrown) : TaskProc Unit := do
  let left ← Proc.tryFinally
    (TaskProc.exceptException (do c.work; return (none, [])) (c.onException e))
    fun _ => c.post (errorAtFinally c.work.ending)
  let exitCode ← c.report e left.1 left.2
  c.closePoolsBeforeExit
  .exit (.exit exitCode)

def status (e : Thrown) : WaitStatus :=
  match (c.run e).ending with
  | .returns () => .exited exitFailure
  | .raises _ => c.escaped
  | .exits d => d.status

/-- The `Exception` that leaves the child: only `format_exc` can raise one there. -/
def left (e : Thrown) : Option TaskError :=
  match (c.run e).ending, c.formatExc with
  | .raises .exception, .raises x => some x
  | _, _ => none

end TaskRun

structure Waited where
  elapsed : String
  killedByDrain : Bool
  drainTimeout : String
  maxRssKb : String

structure Waited.Figures (w : Waited) : Prop where
  elapsed : Figure w.elapsed
  drainTimeout : Figure w.drainTimeout
  maxRssKb : Figure w.maxRssKb

def BaseException.str : BaseException → String
  | .exception text => text
  | .timeoutError | .systemExit | .keyboardInterrupt | .cancelledError | .other => ""

namespace TaskRun

variable (c : TaskRun)

def childEnd (e : Thrown) (w : Waited) : ChildEnd :=
  ⟨c.status e, w.killedByDrain, w.drainTimeout, w.maxRssKb, (c.run e).trace.head?⟩

/-- An `Exception` that leaves the child meets the clauses of the worker that it was forked from:
they record the run as not started, unless it passes them too. -/
def runEnd (mode : Mode) (maxRuntime : PyFloat) (e : Thrown) (w : Waited) : RunEnd :=
  match alarmSeconds maxRuntime with
  | .error x => .notStarted (.exception (some x.str)) w.elapsed
  | .ok _ =>
    match c.left e with
    | some x =>
      if ((RunEnd.notStarted x w.elapsed).outcome mode).isSome then .notStarted x w.elapsed
      else .child w.elapsed (c.childEnd e w).exit
    | none => .child w.elapsed (c.childEnd e w).exit

def workEnding : Called :=
  match c.preExecute with
  | some (.raises e) => .raises e
  | some (.exits d) => .exits d
  | some (.returns ()) | none => c.handler.call

def postEnding (error : Option ExceptionClass) : Called :=
  match c.postExecute with
  | some post => post error
  | none => .returns ()

def ReachesLimit : Prop :=
  (c.preExecute = none ∨ c.preExecute = some (.returns ())) ∧ c.handler = .coroutine none

def RaisesBeforeLimit : Prop :=
  (∃ x, c.workEnding = .raises x ∧ x.isException = true) ∧ ¬c.ReachesLimit

/-- The calls after the work, a write to the pipe aside, and what the work does to the process. -/
def lastCalls : List Called :=
  match c.workEnding with
  | .returns () => [c.postEnding none, c.closePools]
  | .raises .baseException => [c.postEnding none, .raises .baseException]
  | .raises x => [c.postEnding (some x), c.closePools]
  | .exits d => [.exits d]

end TaskRun

def cutsOff : Called → Bool
  | .returns () => false
  | .raises x => !x.isException
  | .exits _ => true

namespace TaskRun

variable (c : TaskRun)

def lastCall : Option Called := c.lastCalls.find? cutsOff

def statusAfter : Called → WaitStatus
  | .returns () => .exited exitFailure
  | .raises _ => c.escaped
  | .exits d => d.status

def StoppedByLimit (e : Thrown) : Prop := c.ReachesLimit ∨ (c.run e).ending = .exits .alarm

end TaskRun

section Run

def swallowed (o : Called) : Called := if cutsOff o then o else .returns ()

theorem exceptException_ofEnding (o : Called) :
    TaskProc.exceptException (.ofEnding o) (fun _ => pure ()) = ⟨[], swallowed o⟩ := by
  cases o with
  | returns => rfl
  | raises x => cases x <;> rfl
  | exits => rfl

namespace TaskRun

variable (c : TaskRun)

theorem work_eq : c.work = ⟨[], c.workEnding⟩ := by
  unfold work workEnding
  cases c.preExecute with
  | none => rfl
  | some pre => cases pre <;> rfl

theorem post_eq (error : Option ExceptionClass) :
    c.post error = ⟨[], swallowed (c.postEnding error)⟩ := by
  unfold post postEnding
  cases c.postExecute with
  | none => rfl
  | some post => exact exceptException_ofEnding (post error)

theorem closePoolsBeforeExit_eq : c.closePoolsBeforeExit = ⟨[], swallowed c.closePools⟩ :=
  exceptException_ofEnding c.closePools

def tryEnding (e : Thrown) : Ending ExceptionClass Death (Option ExceptionClass × PyText) :=
  match c.workEnding with
  | .returns () => .returns (none, [])
  | .raises .timeoutError => .returns (some .timeoutError, [])
  | .raises .exception => (c.formatted e).map id id fun errorTb => (some .exception, errorTb)
  | .raises .baseException => .raises .baseException
  | .exits d => .exits d

theorem try_eq (e : Thrown) :
    TaskProc.exceptException (do c.work; return (none, [])) (c.onException e) =
      ⟨[], c.tryEnding e⟩ := by
  rw [work_eq]
  unfold tryEnding
  cases c.workEnding with
  | returns => rfl
  | raises x =>
    cases x with
    | timeoutError | baseException => rfl
    | exception =>
      change c.onException e .exception = _
      unfold onException
      rw [if_neg (by decide)]
      cases c.formatted e <;> rfl
  | exits => rfl

theorem close_eq (code : ℕ) : (do c.closePoolsBeforeExit; .exit (.exit code) : TaskProc Unit) =
    ⟨[], if cutsOff c.closePools then c.closePools else .exits (.exit code)⟩ := by
  rw [closePoolsBeforeExit_eq]
  unfold swallowed
  cases c.closePools with
  | returns => rfl
  | raises x => cases x <;> rfl
  | exits => rfl

theorem run_eq (e : Thrown) : c.run e = (Proc.tryFinally ⟨[], c.tryEnding e⟩ fun _ =>
    ⟨[], swallowed (c.postEnding (errorAtFinally c.workEnding))⟩) >>= fun left =>
      c.report e left.1 left.2 >>= fun code =>
        ⟨[], if cutsOff c.closePools then c.closePools else .exits (.exit code)⟩ := by
  have hwork : c.work.ending = c.workEnding := by rw [work_eq]
  simp only [← close_eq, ← post_eq, ← try_eq, ← hwork]
  rfl

theorem run_of_error {error : Option ExceptionClass} {errorTb : PyText} {e : Thrown}
    (h : c.tryEnding e = .returns (error, errorTb)) (hat : errorAtFinally c.workEnding = error) :
    c.run e = if cutsOff (c.postEnding error) then ⟨[], c.postEnding error⟩ else
      c.report e error errorTb >>= fun code =>
        ⟨[], if cutsOff c.closePools then c.closePools else .exits (.exit code)⟩ := by
  rw [run_eq, h, hat]
  dsimp only [Proc.tryFinally]
  unfold swallowed
  cases c.postEnding error with
  | returns => rfl
  | raises x => cases x <;> rfl
  | exits => rfl

theorem run_of_escape {x : ExceptionClass} {e : Thrown} (h : c.tryEnding e = .raises x) :
    c.run e = ⟨[], if cutsOff (c.postEnding (errorAtFinally c.workEnding)) then
      c.postEnding (errorAtFinally c.workEnding) else .raises x⟩ := by
  rw [run_eq, h]
  dsimp only [Proc.tryFinally]
  unfold swallowed
  cases c.postEnding (errorAtFinally c.workEnding) with
  | returns => rfl
  | raises x => cases x <;> rfl
  | exits => rfl

theorem run_of_exit {d : Death} {e : Thrown} (h : c.tryEnding e = .exits d) :
    c.run e = ⟨[], .exits d⟩ := by
  rw [run_eq, h]
  rfl

def exitCode : ℕ :=
  match c.workEnding with
  | .returns () => exitSuccess
  | .raises _ | .exits _ => exitTimeout

theorem run_silent (h : c.workEnding ≠ .raises .exception) (e : Thrown) :
    c.run e = ⟨[], c.lastCall.getD (.exits (.exit c.exitCode))⟩ := by
  unfold lastCall lastCalls exitCode
  cases hw : c.workEnding with
  | returns =>
    have htry : c.tryEnding e = .returns (none, []) := by
      unfold tryEnding
      rw [hw]
    rw [c.run_of_error htry (by rw [hw, errorAtFinally])]
    by_cases hp : cutsOff (c.postEnding none) = true
    · simp [hp]
    · by_cases hc : cutsOff c.closePools = true
      · simp [hp, hc, report]
      · simp [hp, hc, report]
  | exits d =>
    have htry : c.tryEnding e = .exits d := by
      unfold tryEnding
      rw [hw]
    rw [c.run_of_exit htry]
    rfl
  | raises x =>
    cases x with
    | exception => exact absurd hw h
    | baseException =>
      have htry : c.tryEnding e = .raises .baseException := by
        unfold tryEnding
        rw [hw]
      have hat : errorAtFinally c.workEnding = none := by
        rw [hw]
        rfl
      rw [c.run_of_escape htry, hat]
      by_cases hp : cutsOff (c.postEnding none) = true
      · simp [hp]
      · have hb : cutsOff (.raises .baseException) = true := rfl
        simp [hp, hb]
    | timeoutError =>
      have htry : c.tryEnding e = .returns (some .timeoutError, []) := by
        unfold tryEnding
        rw [hw]
      rw [c.run_of_error htry (by rw [hw]; rfl)]
      by_cases hp : cutsOff (c.postEnding (some .timeoutError)) = true
      · simp [hp]
      · by_cases hc : cutsOff c.closePools = true
        · simp [hp, hc, report]
        · simp [hp, hc, report]

theorem errorAtFinally_exception (h : c.workEnding = .raises .exception) :
    errorAtFinally c.workEnding = some .exception := by
  rw [h]
  rfl

theorem tryEnding_exception (h : c.workEnding = .raises .exception) (e : Thrown) :
    c.tryEnding e = (c.formatted e).map id id fun errorTb => (some .exception, errorTb) := by
  unfold tryEnding
  rw [h]

theorem run_exception (h : c.workEnding = .raises .exception) :
    (∃ errorTb, c.formatExc = .returns errorTb ∧ cutsOff (c.postEnding (some .exception)) = false ∧
      c.write = .returns () ∧ ∀ e, c.run e = ⟨[e.raised (errorTb e)],
        if cutsOff c.closePools then c.closePools else .exits (.exit exitFailure)⟩) ∨
      (¬(∃ errorTb, c.formatExc = .returns errorTb ∧
          cutsOff (c.postEnding (some .exception)) = false ∧ c.write = .returns ()) ∧
        ∃ o, ∀ e, c.run e = ⟨[], o⟩) := by
  have hat := c.errorAtFinally_exception h
  cases hf : c.formatExc with
  | raises x =>
    have htry : ∀ e, c.tryEnding e = .raises x.exceptionClass := by
      intro e
      rw [c.tryEnding_exception h, formatted, hf]
      rfl
    exact .inr ⟨by simp, _, fun e => hat ▸ c.run_of_escape (htry e)⟩
  | exits d =>
    have htry : ∀ e, c.tryEnding e = .exits d := by
      intro e
      rw [c.tryEnding_exception h, formatted, hf]
      rfl
    exact .inr ⟨by simp, _, fun e => c.run_of_exit (htry e)⟩
  | returns errorTb =>
    have htry : ∀ e, c.tryEnding e = .returns (some .exception, errorTb e) := by
      intro e
      rw [c.tryEnding_exception h, formatted, hf]
      rfl
    by_cases hp : cutsOff (c.postEnding (some .exception)) = true
    · refine .inr ⟨by simp [hp], c.postEnding (some .exception), fun e => ?_⟩
      rw [c.run_of_error (htry e) hat, if_pos hp]
    · rw [Bool.not_eq_true] at hp
      cases hw : c.write with
      | returns =>
        refine .inl ⟨errorTb, rfl, hp, rfl, fun e => ?_⟩
        rw [c.run_of_error (htry e) hat]
        simp only [hp, report, hw]
        rfl
      | exits d =>
        refine .inr ⟨by simp, .exits d, fun e => ?_⟩
        rw [c.run_of_error (htry e) hat]
        simp only [hp, report, hw]
        rfl
      | raises x =>
        cases x with
        | baseException =>
          refine .inr ⟨by simp, .raises .baseException, fun e => ?_⟩
          rw [c.run_of_error (htry e) hat]
          simp only [hp, report, hw]
          rfl
        | timeoutError | exception =>
          refine .inr ⟨by simp, if cutsOff c.closePools then c.closePools
            else .exits (.exit exitFailure), fun e => ?_⟩
          rw [c.run_of_error (htry e) hat]
          simp only [hp, report, hw]
          rfl

theorem left_eq_none {e : Thrown} (h : (c.run e).ending ≠ .raises .exception) : c.left e = none := by
  unfold left
  split
  · rename_i hraises _
    exact absurd hraises h
  · rfl

end TaskRun

end Run

end PostgresQueue
