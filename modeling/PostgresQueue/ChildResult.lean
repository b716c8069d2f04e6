import PostgresQueue.Models

namespace PostgresQueue

def exitSuccess : ℕ := 0
def exitFailure : ℕ := 1
def exitTimeout : ℕ := 124

def sigkill : ℕ := 9

inductive WaitStatus
  | exited (code : ℕ)
  | signaled (signum : ℕ)
  | other
deriving DecidableEq

inductive ExitKind
  | success
  | timeout
  | oom
  | killed
  | shutdown
  | error
deriving DecidableEq

structure ChildResult where
  taskStatus : TaskStatus
  errorMsg : Option String
  exitKind : ExitKind
deriving DecidableEq

/-- What `_wait_for_child` knows when the child is gone: whether the drain killed it, the
drain timeout and the peak memory as text, the decoded content of the error pipe. -/
structure ChildExit where
  status : WaitStatus
  killedByDrain : Bool
  drainTimeout : String
  maxRssKb : String
  errorText : String
deriving DecidableEq

def isSpace (c : Char) : Bool :=
  (9 ≤ c.toNat && c.toNat ≤ 13) || (28 ≤ c.toNat && c.toNat ≤ 32) || c.toNat == 133 ||
    c.toNat == 160 || c.toNat == 5760 || (8192 ≤ c.toNat && c.toNat ≤ 8202) || c.toNat == 8232 ||
    c.toNat == 8233 || c.toNat == 8239 || c.toNat == 8287 || c.toNat == 12288

def rstrip (s : String) : String :=
  String.ofList (s.toList.reverse.dropWhile isSpace).reverse

def waitResult (e : ChildExit) : ChildResult :=
  match e.status with
  | .signaled signum =>
    if e.killedByDrain && signum == sigkill then
      ⟨.failed, some ("Task interrupted by worker shutdown (exceeded drain_timeout=" ++
        e.drainTimeout ++ "s)"), .shutdown⟩
    else if signum == sigkill then
      ⟨.failed, some ("Task killed (likely OOM). Max RSS: " ++ e.maxRssKb ++ " KB"), .oom⟩
    else ⟨.failed, some ("Task killed by signal " ++ toString signum), .killed⟩
  | .exited code =>
    if code = exitSuccess then ⟨.completed, none, .success⟩
    else if code = exitTimeout then ⟨.failed, some "Task exceeded max runtime", .timeout⟩
    else if e.errorText ≠ "" then ⟨.failed, some (rstrip e.errorText), .error⟩
    else ⟨.failed, some ("Task failed with exit code " ++ toString code), .error⟩
  | .other => ⟨.failed, some "Unknown child exit status", .error⟩

/-- An exception as the `except` clauses of a worker tell it apart, with the text that `str` makes
of it: `none` if its `__str__` raises. The last stands for what is no `Exception`. -/
inductive TaskError
  | timeout (str : Option String)
  | oom (str : Option String)
  | killed (str : Option String)
  | interrupted (str : Option String)
  | exception (str : Option String)
  | baseException
deriving DecidableEq

def TaskError.str : TaskError → Option String
  | .timeout str | .oom str | .killed str | .interrupted str | .exception str => str
  | .baseException => none

def orDefault (msg : Option String) (default : String) : String :=
  match msg with
  | some s => if s = "" then default else s
  | none => default

def executeInFork (r : ChildResult) : Except TaskError Unit :=
  match r.exitKind with
  | .success => .ok ()
  | .timeout => .error (.timeout (some (orDefault r.errorMsg "Task exceeded max runtime")))
  | .oom => .error (.oom (some (orDefault r.errorMsg "Task killed (likely OOM)")))
  | .killed => .error (.killed (some (orDefault r.errorMsg "Task killed by signal")))
  | .shutdown => .error (.interrupted (some (orDefault r.errorMsg "Task interrupted by worker shutdown")))
  | .error => .error (.exception (some (orDefault r.errorMsg "Task failed")))

structure Outcome where
  status : TaskStatus
  errorMsg : Option String
deriving DecidableEq

/-- The `except` clauses of `_process_one_off_task`. Nothing is left to be recorded if none of them
fits, or if `str(e)` raises in the one that does: an exception leaves the function. -/
def exceptOutcome (elapsed : String) : Except TaskError Unit → Option Outcome
  | .ok () => some ⟨.completed, none⟩
  | .error (.timeout _) => some ⟨.failed, some ("Timed out after " ++ elapsed ++ " s")⟩
  | .error (.oom str) => str.map fun msg => ⟨.failed, some msg⟩
  | .error (.killed str) => str.map fun msg => ⟨.failed, some msg⟩
  | .error (.interrupted str) => str.map fun msg => ⟨.failed, some msg⟩
  | .error (.exception str) => str.map fun msg => ⟨.failed, some msg⟩
  | .error .baseException => none

/-- The one `except` clause of `_claim_and_fork_one_off`, which formats the exception twice. -/
def startOutcome (e : TaskError) : Option Outcome := e.str.map fun msg => ⟨.failed, some msg⟩

def concurrentOutcome (elapsed : String) (r : ChildResult) : Outcome :=
  if r.exitKind = .timeout then ⟨r.taskStatus, some ("Timed out after " ++ elapsed ++ " s")⟩
  else ⟨r.taskStatus, r.errorMsg⟩

inductive Mode
  | sequential
  | concurrent
deriving DecidableEq

/-- How a claimed run comes to its end: an exception reached the clauses around its start, or its
child was waited for. -/
inductive RunEnd
  | notStarted (e : TaskError) (elapsed : String)
  | child (elapsed : String) (e : ChildExit)
deriving DecidableEq

def RunEnd.outcome (mode : Mode) : RunEnd → Option Outcome
  | .notStarted e elapsed =>
    match mode with
    | .sequential => exceptOutcome elapsed (.error e)
    | .concurrent => startOutcome e
  | .child elapsed e =>
    match mode with
    | .sequential => exceptOutcome elapsed (executeInFork (waitResult e))
    | .concurrent => some (concurrentOutcome elapsed (waitResult e))

def Outcome.Sound (o : Outcome) : Prop :=
  o = ⟨.completed, none⟩ ∨ o.status = .failed

def ChildResult.Sound (r : ChildResult) : Prop :=
  r = ⟨.completed, none, .success⟩ ∨ (r.taskStatus = .failed ∧ r.exitKind ≠ .success)

theorem waitResult_sound (e : ChildExit) : (waitResult e).Sound := by
  unfold waitResult ChildResult.Sound
  cases e.status with
  | exited code => dsimp only; split_ifs <;> simp
  | signaled signum => dsimp only; split_ifs <;> simp
  | other => simp

theorem exceptOutcome_error {elapsed : String} {e : TaskError} {o : Outcome}
    (h : exceptOutcome elapsed (.error e) = some o) : o.status = .failed := by
  cases e with
  | timeout =>
    cases h
    rfl
  | oom | killed | interrupted | exception =>
    obtain ⟨msg, -, rfl⟩ := Option.map_eq_some_iff.mp h
    rfl
  | baseException => cases h

theorem exceptOutcome_sound {elapsed : String} {x : Except TaskError Unit} {o : Outcome}
    (h : exceptOutcome elapsed x = some o) : o.Sound := by
  cases x with
  | ok =>
    cases h
    exact .inl rfl
  | error e => exact .inr (exceptOutcome_error h)

theorem startOutcome_failed {e : TaskError} {o : Outcome} (h : startOutcome e = some o) :
    o.status = .failed := by
  obtain ⟨msg, -, rfl⟩ := Option.map_eq_some_iff.mp h
  rfl

theorem concurrentOutcome_sound {r : ChildResult} (h : r.Sound) (elapsed : String) :
    (concurrentOutcome elapsed r).Sound := by
  rcases h with rfl | ⟨hs, -⟩
  · exact .inl rfl
  · unfold concurrentOutcome
    split_ifs
    exacts [.inr hs, .inr hs]

theorem RunEnd.outcome_sound {mode : Mode} {e : RunEnd} {o : Outcome}
    (h : e.outcome mode = some o) : o.Sound := by
  cases e with
  | notStarted e elapsed =>
    cases mode with
    | sequential => exact exceptOutcome_sound h
    | concurrent => exact .inr (startOutcome_failed h)
  | child elapsed e =>
    cases mode with
    | sequential => exact exceptOutcome_sound h
    | concurrent =>
      cases h
      exact concurrentOutcome_sound (waitResult_sound e) elapsed

theorem executeInFork_outcome (elapsed : String) (r : ChildResult) :
    ∃ o, exceptOutcome elapsed (executeInFork r) = some o := by
  unfold executeInFork
  cases r.exitKind <;> exact ⟨_, rfl⟩

theorem RunEnd.outcome_child (mode : Mode) (elapsed : String) (e : ChildExit) :
    ∃ o, (RunEnd.child elapsed e).outcome mode = some o := by
  cases mode with
  | sequential => exact executeInFork_outcome elapsed (waitResult e)
  | concurrent => exact ⟨_, rfl⟩

end PostgresQueue
