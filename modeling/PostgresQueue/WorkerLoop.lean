import PostgresQueue.Library.OrderedDict
import PostgresQueue.Shutdown
import PostgresQueue.WorkerPaths

namespace PostgresQueue

open Library

structure WorkerConfig where
  mode : Mode
  concurrency : ℕ
  retentionDays : ℤ
  cleanupInterval : PyFloat
  staleTaskTimeout : Option ℚ
  drainTimeout : String

def reaperInterval : PyFloat := .finite 300

section Maintenance

/-- `not (now - last < interval)`. -/
def intervalPassed (now last : ℚ) : PyFloat → Bool
  | .finite interval => decide (interval ≤ now - last)
  | .inf negative => negative
  | .nan => true

/-- 0001-01-01, the first day a `datetime` can hold. -/
def datetimeMin : Timestamptz := -62135596800000000

def retentionCutoff (now : Timestamptz) (days : ℤ) : Except PyError Timestamptz :=
  if 999999999 < days then .error .overflowError
  else if now - days * 86400000000 < datetimeMin then .error .overflowError
  else .ok (now - days * 86400000000)

/-- The clocks at a cleanup and how its two calls of the client end. -/
structure CleanupCalls where
  time : ℚ
  now : Timestamptz
  clearCompleted : Timestamptz → Except PyError ℕ
  clearFailed : Timestamptz → Except PyError ℕ

structure ReapCalls where
  time : ℚ
  reapStaleTasks : ℚ → Except PyError ℕ

variable (cfg : WorkerConfig)

def maybeRunCleanup (calls : CleanupCalls) (lastCleanup : ℚ) : Except PyError ℚ := do
  if cfg.retentionDays ≤ 0 then return lastCleanup
  if !intervalPassed calls.time lastCleanup cfg.cleanupInterval then return lastCleanup
  let cutoff ← retentionCutoff calls.now cfg.retentionDays
  let _ ← calls.clearCompleted cutoff
  let _ ← calls.clearFailed cutoff
  return calls.time

def maybeReapStale (calls : ReapCalls) (lastReap : ℚ) : Except PyError ℚ :=
  match cfg.staleTaskTimeout with
  | none => .ok lastReap
  | some timeout => do
    if !intervalPassed calls.time lastReap reaperInterval then return lastReap
    try let _ ← calls.reapStaleTasks timeout
    catch _ => pure ()
    return calls.time

end Maintenance

/-- A slot of the worker: the claimed row, its child's pid and pipe. The number of the fork
tells children apart that had the same pid one after the other; the code has no such field. -/
structure LoopSlot extends ChildSlot where
  pid : ℕ
  readFd : ℕ
  child : ℕ

structure OsChild where
  child : ℕ
  pid : ℕ
  status : Option WaitStatus

structure Os where
  forks : ℕ
  unreaped : List OsChild
  openFds : List ℕ

structure Log (τ : Type) where
  claimed : List ChildSlot
  ended : List (ChildSlot × Outcome)
  handed : List ℕ
  reaped : List (ℕ × ChildExit)
  kills : List (ℕ × τ)

/-- The steps of `_wait_for_child`: `wait4`, the two reads of `deadline_passed`, the kill. -/
inductive WaitPc
  | poll
  | requested
  | deadline
  | kill
  | select
deriving DecidableEq

inductive After
  | batch (ready : List ℕ)
  | drain (rest : List LoopSlot)
  | once

inductive Pc
  | head
  | onceReturned (processed : Bool)
  | fill
  | claimOneOff
  | claimPeriodic
  | select
  | batch (ready : List ℕ)
  | wait (slot : LoopSlot) (wpc : WaitPc) (killedByDrain : Bool) (after : After)
  | recheck
  | cleanup
  | reapStale
  | sleep
  | stopped
  | drain (rest : List LoopSlot)
  | returned
  | keyError
  | osError
  | escaped (e : PyError)

def After.pc : After → Pc
  | .batch ready => .batch ready
  | .drain rest => .drain rest
  | .once => .onceReturned true

structure Main (τ : Type) where
  pc : Pc
  children : OrderedDict ℕ LoopSlot
  fdToPid : OrderedDict ℕ ℕ
  lastCleanup : ℚ
  lastReap : ℚ
  os : Os
  log : Log τ

namespace Main

variable {τ : Type}

def init : Main τ where
  pc := .head
  children := OrderedDict.empty
  fdToPid := OrderedDict.empty
  lastCleanup := 0
  lastReap := 0
  os := ⟨0, [], []⟩
  log := ⟨[], [], [], [], []⟩

def goto (m : Main τ) (pc : Pc) : Main τ := { m with pc := pc }

/-- `_reap_and_update` and `_execute_in_fork` enter `_wait_for_child`. -/
def handOver (m : Main τ) (slot : LoopSlot) (after : After) : Main τ :=
  { m with
    pc := .wait slot .poll false after
    log.handed := m.log.handed ++ [slot.child] }

end Main

/-- How one claim ends. A fork that fails leaves both ends of its pipe open. -/
inductive Attempt
  | nothing
  | notStarted (run : ChildSlot) (e : TaskError) (elapsed : String) (leaked : List ℕ)
  | forked (run : ChildSlot) (pid readFd : ℕ)

structure ChildTexts where
  maxRssKb : String
  errorText : String
  elapsed : String

inductive Input
  | next
  | claim (a : Attempt)
  | ready (fds : List ℕ)
  | wait4 (texts : ChildTexts)
  | cleanup (calls : CleanupCalls)
  | reapStale (calls : ReapCalls)

inductive Started
  | nothing
  | failed
  | child (slot : LoopSlot)

namespace Os

/-- The system gives out no pid of an unreaped child and no number of an open descriptor. -/
def CanFork (os : Os) (pid readFd : ℕ) : Prop :=
  pid ∉ os.unreaped.map OsChild.pid ∧ readFd ∉ os.openFds

instance (os : Os) (pid readFd : ℕ) : Decidable (os.CanFork pid readFd) :=
  inferInstanceAs (Decidable (_ ∧ _))

def child? (os : Os) (pid : ℕ) : Option OsChild := os.unreaped.find? fun c => c.pid == pid

def fork (os : Os) (pid readFd : ℕ) : Os :=
  ⟨os.forks + 1, ⟨os.forks, pid, none⟩ :: os.unreaped, readFd :: os.openFds⟩

def reap (os : Os) (pid readFd : ℕ) : Os :=
  ⟨os.forks, os.unreaped.filter fun c => c.pid ≠ pid, os.openFds.filter fun fd => fd ≠ readFd⟩

def ends (os : Os) (pid : ℕ) (status : WaitStatus) : Os :=
  { os with unreaped := os.unreaped.map fun c =>
      if c.pid = pid ∧ c.status = none then { c with status := some status } else c }

end Os

namespace Main

variable {τ : Type} (m : Main τ)

def notStarted (run : ChildSlot) (o : Outcome) (leaked : List ℕ) : Main τ :=
  { m with
    os.openFds := leaked ++ m.os.openFds
    log.claimed := m.log.claimed ++ [run]
    log.ended := m.log.ended ++ [(run, o)] }

def forked (slot : LoopSlot) : Main τ :=
  { m with
    os := m.os.fork slot.pid slot.readFd
    log.claimed := m.log.claimed ++ [slot.toChildSlot] }

def attempt (mode : Mode) (isPeriodic : Bool) : Input → Option (Main τ × Started)
  | .claim .nothing => some (m, .nothing)
  | .claim (.notStarted run e elapsed leaked) =>
    if run.isPeriodic = isPeriodic then
      -- there is no next step of the loop if the exception leaves it
      ((RunEnd.notStarted e elapsed).outcome mode).map fun o => (m.notStarted run o leaked, .failed)
    else none
  | .claim (.forked run pid readFd) =>
    let slot : LoopSlot := { run with pid := pid, readFd := readFd, child := m.os.forks }
    if run.isPeriodic = isPeriodic ∧ m.os.CanFork pid readFd then
      some (m.forked slot, .child slot)
    else none
  | _ => none

variable (cfg : WorkerConfig) (signals : Signals τ)

def reap (slot : LoopSlot) (c : OsChild) (status : WaitStatus) (killedByDrain : Bool)
    (texts : ChildTexts) : Main τ :=
  let exit : ChildExit := ⟨status, killedByDrain, cfg.drainTimeout, texts.maxRssKb, texts.errorText⟩
  { m with
    os := m.os.reap slot.pid slot.readFd
    log.ended := m.log.ended ++
      ((RunEnd.child texts.elapsed exit).outcome cfg.mode).toList.map fun o => (slot.toChildSlot, o)
    log.reaped := m.log.reaped ++ [(c.child, exit)] }

theorem reap_ended (slot : LoopSlot) (c : OsChild) (status : WaitStatus) (killedByDrain : Bool)
    (texts : ChildTexts) : ∃ o,
      (RunEnd.child texts.elapsed ⟨status, killedByDrain, cfg.drainTimeout, texts.maxRssKb,
        texts.errorText⟩).outcome cfg.mode = some o ∧
      (m.reap cfg slot c status killedByDrain texts).log.ended =
        m.log.ended ++ [(slot.toChildSlot, o)] := by
  obtain ⟨o, ho⟩ := RunEnd.outcome_child cfg.mode texts.elapsed
    ⟨status, killedByDrain, cfg.drainTimeout, texts.maxRssKb, texts.errorText⟩
  refine ⟨o, ho, ?_⟩
  simp only [reap, ho]
  rfl

variable [LinearOrder τ]

def deadlinePassed (signals : Signals τ) : Bool :=
  match signals.shutdown.deadline with
  | none => true
  | some deadline => decide (deadline ≤ signals.now)

def waitForChild (slot : LoopSlot) (killedByDrain : Bool) (after : After) :
    WaitPc → Input → Option (Main τ)
  | .poll, .wait4 texts =>
    match m.os.child? slot.pid with
    | none => some (m.goto .osError)
    | some c =>
      match c.status with
      | none => some (m.goto (.wait slot .requested killedByDrain after))
      | some status =>
        if slot.readFd ∈ m.os.openFds then
          some ((m.reap cfg slot c status killedByDrain texts).goto (After.pc after))
        else some (m.goto .osError)
  | .requested, .next =>
    some (m.goto (.wait slot (if !killedByDrain && signals.requested then .deadline else .select)
      killedByDrain after))
  | .deadline, .next =>
    some (m.goto (.wait slot (if deadlinePassed signals then .kill else .select) killedByDrain after))
  | .kill, .next =>
    let killed := (m.os.child? slot.pid).toList.map fun c => (c.child, signals.now)
    some { m with
      pc := .wait slot .select true after
      log.kills := m.log.kills ++ killed }
  | .select, .next => some (m.goto (.wait slot .poll killedByDrain after))
  | _, _ => none

def cleanUp : Input → Option (Main τ)
  | .cleanup calls =>
    match maybeRunCleanup cfg calls m.lastCleanup with
    | .ok t => some { m with lastCleanup := t, pc := .reapStale }
    | .error e => some (m.goto (.escaped e))
  | _ => none

def reapStale (next : Pc) : Input → Option (Main τ)
  | .reapStale calls =>
    match maybeReapStale cfg calls m.lastReap with
    | .ok t => some { m with lastReap := t, pc := next }
    | .error e => some (m.goto (.escaped e))
  | _ => none

/-- `children[slot.pid] = slot; fd_to_pid[slot.read_fd] = slot.pid`. -/
def register (slot : LoopSlot) : Main τ :=
  { m with
    children := m.children.set slot.pid slot
    fdToPid := m.fdToPid.set slot.readFd slot.pid }

def popReady (fd : ℕ) (rest : List ℕ) : Main τ :=
  match m.fdToPid.pop? fd with
  | none => m.goto .keyError
  | some (pid, fdToPid) =>
    match m.children.pop? pid with
    | none => m.goto .keyError
    | some (slot, children) =>
      { m with children := children, fdToPid := fdToPid }.handOver slot (.batch rest)

def concurrentStep (i : Input) : Option (Main τ) :=
  match m.pc, i with
  | .head, .next => some (m.goto (if signals.requested then .stopped else .fill))
  | .fill, .next =>
    some (m.goto (if m.children.entries.length < cfg.concurrency && !signals.requested
      then .claimOneOff else .select))
  | .claimOneOff, i =>
    (m.attempt cfg.mode false i).map fun (m, started) =>
      match started with
      | .child slot => (m.register slot).goto .fill
      | _ => m.goto .claimPeriodic
  | .claimPeriodic, i =>
    (m.attempt cfg.mode true i).map fun (m, started) =>
      match started with
      | .child slot => (m.register slot).goto .fill
      | _ => m.goto .select
  | .select, .ready fds =>
    if m.children.entries ≠ [] ∧ fds.Nodup ∧ ∀ fd ∈ fds, fd ∈ m.fdToPid.keys then
      some (m.goto (.batch fds))
    else none
  | .select, .next => if m.children.entries = [] then some (m.goto .recheck) else none
  | .batch [], .next => some (m.goto .recheck)
  | .batch (fd :: rest), .next => some (m.popReady fd rest)
  | .wait slot wpc killedByDrain after, i =>
    m.waitForChild cfg signals slot killedByDrain after wpc i
  | .recheck, .next => some (m.goto (if signals.requested then .stopped else .cleanup))
  | .cleanup, i => m.cleanUp cfg i
  | .reapStale, i => m.reapStale cfg .head i
  | .stopped, .next => some (m.goto (.drain m.children.values))
  | .drain [], .next => some (m.goto .returned)
  | .drain (slot :: rest), .next => some (m.handOver slot (.drain rest))
  | _, _ => none

/-- `run_worker_once`, from its claims to its return. -/
def onceStep (i : Input) : Option (Main τ) :=
  match m.pc, i with
  | .claimOneOff, i =>
    (m.attempt cfg.mode false i).map fun (m, started) =>
      match started with
      | .child slot => m.handOver slot .once
      | .failed => m.goto (.onceReturned true)
      | .nothing => m.goto .claimPeriodic
  | .claimPeriodic, i =>
    (m.attempt cfg.mode true i).map fun (m, started) =>
      match started with
      | .child slot => m.handOver slot .once
      | .failed => m.goto (.onceReturned true)
      | .nothing => m.goto (.onceReturned false)
  | .wait slot wpc killedByDrain after, i =>
    m.waitForChild cfg signals slot killedByDrain after wpc i
  | _, _ => none

def sequentialStep (i : Input) : Option (Main τ) :=
  match m.pc, i with
  | .head, .next => some (m.goto (if signals.requested then .stopped else .claimOneOff))
  | .onceReturned processed, .next => some (m.goto (if processed then .head else .recheck))
  | .recheck, .next => some (m.goto (if signals.requested then .stopped else .cleanup))
  | .cleanup, i => m.cleanUp cfg i
  | .reapStale, i => m.reapStale cfg .sleep i
  | .sleep, .next => some (m.goto .head)
  | .stopped, .next => some (m.goto .returned)
  | _, i => m.onceStep cfg signals i

def step (i : Input) : Option (Main τ) :=
  match cfg.mode with
  | .sequential => m.sequentialStep cfg signals i
  | .concurrent => m.concurrentStep cfg signals i

end Main

def Pc.stopping : Pc → Bool
  | .stopped | .drain _ | .wait _ _ _ (.drain _) | .returned => true
  | _ => false

def Pc.waits : Pc → Bool
  | .wait _ _ _ _ => true
  | _ => false

def Pc.escapes : Pc → Bool
  | .escaped _ => true
  | _ => false

section Maintenance

variable {cfg : WorkerConfig}

theorem maybeReapStale_ok (cfg : WorkerConfig) (calls : ReapCalls) (lastReap : ℚ) :
    ∃ t, maybeReapStale cfg calls lastReap = .ok t := by
  unfold maybeReapStale
  cases cfg.staleTaskTimeout with
  | none => exact ⟨_, rfl⟩
  | some timeout =>
    dsimp only
    split_ifs
    · exact ⟨_, rfl⟩
    · cases calls.reapStaleTasks timeout with
      | ok n => exact ⟨calls.time, by simp [bind, Except.bind]; rfl⟩
      | error e => exact ⟨calls.time, by simp [bind, Except.bind]; rfl⟩

end Maintenance

namespace Main

variable {τ : Type}

structure Quiet (cfg : WorkerConfig) (signals : Signals τ) (m : Main τ) (i : Input) (m' : Main τ) :
    Prop where
  kills : m'.log.kills = m.log.kills
  reaped : m'.log.reaped = m.log.reaped
  enters : ∀ slot wpc killed after, m'.pc = .wait slot wpc killed after → wpc = .poll ∧ killed = false
  stops : m'.pc.stopping → m.pc.stopping ∨ signals.requested
  escapes : ∀ e, m'.pc = .escaped e →
    ∃ calls, i = .cleanup calls ∧ maybeRunCleanup cfg calls m.lastCleanup = .error e

variable {cfg : WorkerConfig} {signals : Signals τ} {m m' : Main τ} {i : Input}

theorem Quiet.of_pc (hkills : m'.log.kills = m.log.kills) (hreaped : m'.log.reaped = m.log.reaped)
    (hwait : m'.pc.waits = false) (hescape : m'.pc.escapes = false)
    (hstop : m'.pc.stopping → m.pc.stopping ∨ signals.requested) : Quiet cfg signals m i m' := by
  refine ⟨hkills, hreaped, ?_, hstop, ?_⟩
  · intro slot wpc killed after hpc
    rw [hpc] at hwait
    cases hwait
  · intro e hpc
    rw [hpc] at hescape
    cases hescape

theorem Quiet.goto {pc : Pc} (hwait : pc.waits = false) (hescape : pc.escapes = false)
    (hstop : pc.stopping → m.pc.stopping ∨ signals.requested) :
    Quiet cfg signals m i (m.goto pc) :=
  .of_pc rfl rfl hwait hescape hstop

theorem Quiet.stay {pc : Pc} (hwait : pc.waits = false) (hescape : pc.escapes = false)
    (hstop : pc.stopping = false) : Quiet cfg signals m i (m.goto pc) :=
  .goto hwait hescape fun hs => absurd hs (by simp [hstop])

theorem Quiet.unlessRequested {pc : Pc} (hwait : pc.waits = false) (hescape : pc.escapes = false)
    (hstop : pc.stopping = false) :
    Quiet cfg signals m i (m.goto (if signals.requested then .stopped else pc)) := by
  cases hr : signals.requested with
  | false => exact .stay hwait hescape hstop
  | true => exact .goto rfl rfl fun _ => .inr hr

theorem Quiet.handOver {m₁ : Main τ} (hkills : m₁.log.kills = m.log.kills)
    (hreaped : m₁.log.reaped = m.log.reaped) (slot : LoopSlot) (after : After)
    (hstop : after = .once ∨ (∃ rest, after = .batch rest) ∨ m.pc.stopping) :
    Quiet cfg signals m i (m₁.handOver slot after) := by
  refine ⟨hkills, hreaped, ?_, ?_, ?_⟩
  · intro slot' wpc killed after' hpc
    cases hpc
    exact ⟨rfl, rfl⟩
  · intro hs
    rcases hstop with rfl | ⟨rest, rfl⟩ | hstop
    · cases hs
    · cases hs
    · exact .inl hstop
  · intro e hpc
    cases hpc

theorem attempt_quiet {isPeriodic : Bool} {started : Started}
    (he : m.attempt cfg.mode isPeriodic i = some (m', started)) :
    m'.log.kills = m.log.kills ∧ m'.log.reaped = m.log.reaped ∧ m'.pc = m.pc := by
  unfold attempt at he
  split at he
  · cases he
    exact ⟨rfl, rfl, rfl⟩
  · split_ifs at he
    obtain ⟨o, -, heq⟩ := Option.map_eq_some_iff.mp he
    cases heq
    exact ⟨rfl, rfl, rfl⟩
  · dsimp only at he
    split_ifs at he
    cases he
    exact ⟨rfl, rfl, rfl⟩
  · cases he

theorem fillClaim_quiet {isPeriodic : Bool} {started : Started} {next : Pc}
    (hwait : next.waits = false) (hescape : next.escapes = false) (hstop : next.stopping = false) :
    m.attempt cfg.mode isPeriodic i = some (m', started) →
    Quiet cfg signals m i (match started with
      | .child slot => (m'.register slot).goto .fill
      | _ => m'.goto next) := by
  intro he
  obtain ⟨hkills, hreaped, -⟩ := attempt_quiet he
  have hleaves : next.stopping → m.pc.stopping ∨ signals.requested := fun hs =>
    absurd hs (by simp [hstop])
  cases started with
  | nothing => exact .of_pc hkills hreaped hwait hescape hleaves
  | failed => exact .of_pc hkills hreaped hwait hescape hleaves
  | child slot => exact .of_pc hkills hreaped rfl rfl nofun

theorem onceClaim_quiet {isPeriodic : Bool} {started : Started} {next : Pc}
    (hwait : next.waits = false) (hescape : next.escapes = false) (hstop : next.stopping = false) :
    m.attempt cfg.mode isPeriodic i = some (m', started) →
    Quiet cfg signals m i (match started with
      | .child slot => m'.handOver slot .once
      | .failed => m'.goto (.onceReturned true)
      | .nothing => m'.goto next) := by
  intro he
  obtain ⟨hkills, hreaped, -⟩ := attempt_quiet he
  have hleaves : next.stopping → m.pc.stopping ∨ signals.requested := fun hs =>
    absurd hs (by simp [hstop])
  cases started with
  | nothing => exact .of_pc hkills hreaped hwait hescape hleaves
  | failed => exact .of_pc hkills hreaped rfl rfl nofun
  | child slot => exact .handOver hkills hreaped _ _ (.inl rfl)

theorem cleanUp_quiet (he : m.cleanUp cfg i = some m') : Quiet cfg signals m i m' := by
  unfold cleanUp at he
  split at he
  · rename_i calls
    split at he
    · cases he
      exact .of_pc rfl rfl rfl rfl fun hs => (by cases hs)
    · rename_i e herr
      cases he
      refine ⟨rfl, rfl, fun _ _ _ _ hpc => (by cases hpc), fun hs => (by cases hs), fun e' hpc => ?_⟩
      cases hpc
      exact ⟨calls, rfl, herr⟩
  · cases he

theorem reapStale_quiet {next : Pc} (hwait : next.waits = false) (hescape : next.escapes = false)
    (hstop : next.stopping = false) (he : m.reapStale cfg next i = some m') :
    Quiet cfg signals m i m' := by
  unfold reapStale at he
  split at he
  · rename_i calls
    obtain ⟨t, ht⟩ := maybeReapStale_ok cfg calls m.lastReap
    rw [ht] at he
    cases he
    exact .of_pc rfl rfl hwait hescape fun hs => absurd hs (by simp [hstop])
  · cases he

theorem popReady_quiet (fd : ℕ) (rest : List ℕ) : Quiet cfg signals m i (m.popReady fd rest) := by
  unfold popReady
  split
  · exact .stay rfl rfl rfl
  · split
    · exact .stay rfl rfl rfl
    · refine .handOver ?_ ?_ _ _ (.inr (.inl ⟨rest, rfl⟩)) <;> rfl

variable [LinearOrder τ]

theorem concurrentStep_quiet (he : m.concurrentStep cfg signals i = some m')
    (hwait : m.pc.waits = false) : Quiet cfg signals m i m' := by
  unfold concurrentStep at he
  split at he
  · cases he
    exact .unlessRequested rfl rfl rfl
  · cases he
    split_ifs
    · exact .stay rfl rfl rfl
    · exact .stay rfl rfl rfl
  · obtain ⟨⟨m₁, started⟩, ha, rfl⟩ := Option.map_eq_some_iff.mp he
    exact fillClaim_quiet rfl rfl rfl ha
  · obtain ⟨⟨m₁, started⟩, ha, rfl⟩ := Option.map_eq_some_iff.mp he
    exact fillClaim_quiet rfl rfl rfl ha
  · split_ifs at he
    cases he
    exact .stay rfl rfl rfl
  · split_ifs at he
    cases he
    exact .stay rfl rfl rfl
  · cases he
    exact .stay rfl rfl rfl
  · cases he
    exact popReady_quiet _ _
  · rename_i hpc
    rw [hpc] at hwait
    cases hwait
  · cases he
    exact .unlessRequested rfl rfl rfl
  · exact cleanUp_quiet he
  · exact reapStale_quiet rfl rfl rfl he
  · rename_i hpc
    cases he
    exact .goto rfl rfl fun _ => .inl (hpc ▸ rfl)
  · rename_i hpc
    cases he
    exact .goto rfl rfl fun _ => .inl (hpc ▸ rfl)
  · rename_i hpc
    cases he
    exact .handOver rfl rfl _ _ (.inr (.inr (hpc ▸ rfl)))
  · cases he

theorem onceStep_quiet (he : m.onceStep cfg signals i = some m') (hwait : m.pc.waits = false) :
    Quiet cfg signals m i m' := by
  unfold onceStep at he
  split at he
  · obtain ⟨⟨m₁, started⟩, ha, rfl⟩ := Option.map_eq_some_iff.mp he
    exact onceClaim_quiet rfl rfl rfl ha
  · obtain ⟨⟨m₁, started⟩, ha, rfl⟩ := Option.map_eq_some_iff.mp he
    exact onceClaim_quiet rfl rfl rfl ha
  · rename_i hpc
    rw [hpc] at hwait
    cases hwait
  · cases he

theorem sequentialStep_quiet (he : m.sequentialStep cfg signals i = some m')
    (hwait : m.pc.waits = false) : Quiet cfg signals m i m' := by
  unfold sequentialStep at he
  split at he
  · cases he
    exact .unlessRequested rfl rfl rfl
  · cases he
    split_ifs
    · exact .stay rfl rfl rfl
    · exact .stay rfl rfl rfl
  · cases he
    exact .unlessRequested rfl rfl rfl
  · exact cleanUp_quiet he
  · exact reapStale_quiet rfl rfl rfl he
  · cases he
    exact .stay rfl rfl rfl
  · rename_i hpc
    cases he
    exact .goto rfl rfl fun _ => .inl (hpc ▸ rfl)
  · exact onceStep_quiet he hwait

theorem waitForChild_pc {slot : LoopSlot} {wpc : WaitPc} {killed : Bool} {after : After}
    (he : m.waitForChild cfg signals slot killed after wpc i = some m') :
    m'.pc = .osError ∨ m'.pc = After.pc after ∨
      ∃ wpc' killed', m'.pc = .wait slot wpc' killed' after := by
  unfold waitForChild at he
  split at he
  · split at he
    · cases he
      exact .inl rfl
    · split at he
      · cases he
        exact .inr (.inr ⟨_, _, rfl⟩)
      · split_ifs at he
        · cases he
          exact .inr (.inl rfl)
        · cases he
          exact .inl rfl
  · cases he
    exact .inr (.inr ⟨_, _, rfl⟩)
  · cases he
    exact .inr (.inr ⟨_, _, rfl⟩)
  · cases he
    exact .inr (.inr ⟨_, _, rfl⟩)
  · cases he
    exact .inr (.inr ⟨_, _, rfl⟩)
  · cases he

theorem step_cases (he : m.step cfg signals i = some m') :
    (∃ slot wpc killed after, m.pc = .wait slot wpc killed after ∧
      m.waitForChild cfg signals slot killed after wpc i = some m') ∨
    (m.pc.waits = false ∧ Quiet cfg signals m i m') := by
  cases hw : m.pc.waits with
  | false =>
    refine .inr ⟨rfl, ?_⟩
    unfold step at he
    split at he
    exacts [sequentialStep_quiet he hw, concurrentStep_quiet he hw]
  | true =>
    obtain ⟨slot, wpc, killed, after, hpc⟩ : ∃ slot wpc killed after,
        m.pc = .wait slot wpc killed after := by
      cases hpc : m.pc with
      | wait slot wpc killed after => exact ⟨slot, wpc, killed, after, rfl⟩
      | _ =>
        rw [hpc] at hw
        cases hw
    refine .inl ⟨slot, wpc, killed, after, hpc, ?_⟩
    simp only [step, sequentialStep, onceStep, concurrentStep, hpc] at he
    split at he <;> exact he

end Main

structure Worker (τ : Type) where
  signals : Signals τ
  main : Main τ

inductive WorkerEvent (τ : Type)
  | signal (e : Signals.Event τ)
  | childEnds (pid : ℕ) (status : WaitStatus)
  | main (i : Input)

/-- `run_worker` with everything that happens around it: signals and their handlers, the
monotonic clock, children that end. -/
def runWorker {τ : Type} [LinearOrder τ] (cfg : WorkerConfig) (drain : DrainTimeout τ) (start : τ) :
    System (Worker τ) (WorkerEvent τ) where
  init := ⟨Signals.installed start, Main.init⟩
  step w
    | .signal e => (w.signals.step drain e).map fun s => { w with signals := s }
    | .childEnds pid status => some { w with main.os := w.main.os.ends pid status }
    | .main i =>
      if w.signals.handlers.isEmpty then
        (w.main.step cfg w.signals i).map fun m => { w with main := m }
      else none

end PostgresQueue
