import PostgresQueue.Client
import PostgresQueue.ChildResult
import PostgresQueue.Library.Rounding

namespace PostgresQueue

open Library

variable {P : Type}

structure Periodic (P : Type) where
  id : ℕ
  clientId : Option ClientId
  name : String
  key : String
  payload : P
  priority : ℤ
  runEvery : Option ℤ
  cron : Option String
  nextRun : Timestamptz
  maxConcurrent : Option ℤ
  active : Bool
  maxRuntimeSeconds : Option PyFloat
  lastRun : Option Timestamptz
  lockedUntil : Option Timestamptz
  createdAt : Timestamptz
deriving DecidableEq

namespace Periodic

def uniq (p : Periodic P) : Option ClientId × String × String := (p.clientId, p.name, p.key)

def clash (a b : Option ClientId × String × String) : Bool := sameClient a.1 b.1 || a.2 == b.2

end Periodic

abbrev Periodics (P : Type) := Table (Periodic.id (P := P)) Periodic.uniq Periodic.clash

/-- The croniter package: the error text for a bad expression, and `get_next` after an instant. -/
structure Croniter where
  invalid : String → Option String
  getNext : String → Timestamptz → Except PyError Timestamptz

inductive CronArg
  | expression (cron : String)
  | croniter (expressions : List String)

structure Schedule (P : Type) where
  task : Except PyError String
  arguments : Except PyError P
  runEvery : Option ℤ
  cron : Option CronArg
  priority : ℤ
  clientId : Option ClientId
  maxConcurrent : Option ℤ
  key : String
  active : Bool
  maxRuntimeSeconds : Option PyFloat
  now : Timestamptz

/-- `timedelta(seconds=x)` in microseconds. -/
def timedelta : PyFloat → Except PyError ℤ
  | .finite q =>
    if -86399999913600000000 ≤ roundHalfEven (q * 1000000) ∧
        roundHalfEven (q * 1000000) < 86400000000000000000 then
      .ok (roundHalfEven (q * 1000000))
    else .error .overflowError
  | .inf _ => .error .overflowError
  | .nan => .error (.valueError "cannot convert float NaN to integer")

/-- `t + d` for a Python `timedelta`, which reaches Postgres as days and a rest. -/
def Conn.plus (conn : Conn) (t : Timestamptz) (d : ℤ) : Except PyError Timestamptz :=
  PostgresQueue.timestamptz (conn.addDays (d / 86400000000) t + d % 86400000000)

def cronExpr (croniter : Croniter) : Option CronArg → Except PyError (Option String)
  | none => .ok none
  | some (.croniter expressions) => .ok (some (" ".intercalate expressions))
  | some (.expression cron) =>
    match croniter.invalid cron with
    | none => .ok (some cron)
    | some e => .error (.valueError ("Invalid cron expression '" ++ cron ++ "': " ++ e))

def truthy (s : Option String) : Option String := s.filter fun text => text != ""

def nextRun (croniter : Croniter) (cron : Option String) (now : Timestamptz) :
    Except PyError Timestamptz :=
  match truthy cron with
  | some expr => croniter.getNext expr now
  | none => .ok now

namespace Schedule

def row (conn : Conn) (c : Schedule P) (name : String) (payload : P) (cron : Option String)
    (next : Timestamptz) (id : ℕ) : Periodic P where
  id := id
  clientId := c.clientId
  name := name
  key := c.key
  payload := payload
  priority := c.priority
  runEvery := c.runEvery
  cron := cron
  nextRun := next
  maxConcurrent := c.maxConcurrent
  active := c.active
  maxRuntimeSeconds := c.maxRuntimeSeconds
  lastRun := none
  lockedUntil := none
  createdAt := conn.now

def onConflict (c : Schedule P) (payload : P) (cron : Option String) (next : Timestamptz)
    (p : Periodic P) : Periodic P :=
  { p with
    payload := payload
    priority := c.priority
    runEvery := c.runEvery
    cron := cron
    nextRun := next
    maxConcurrent := c.maxConcurrent
    active := c.active
    maxRuntimeSeconds := c.maxRuntimeSeconds }

def checkArguments (c : Schedule P) (repr : PyFloat → String) : Except PyError Unit := do
  if c.runEvery = none ∧ c.cron.isNone then
    throw (.valueError "Either run_every or cron must be provided")
  if c.runEvery ≠ none ∧ c.cron.isSome then
    throw (.valueError "Only one of run_every or cron can be provided")
  match c.maxConcurrent with
  | some k =>
    if 1 < k then throw (.valueError ("max_concurrent must be 1 or None, got " ++ toString k ++
      " (values > 1 reserved for future use)"))
  | none => pure ()
  validateMaxRuntime repr c.maxRuntimeSeconds

def execute (conn : Conn) (c : Schedule P) (name : String) (payload : P) (cron : Option String)
    (next : Timestamptz) (rows : Periodics P) : Except PyError (ℕ × Periodics P) :=
  match rows.find? fun p => p.name == name && p.key == c.key with
  | some existing =>
    .ok (existing.id, rows.update (fun p => p.id == existing.id) (c.onConflict payload cron next))
  | none =>
    match h : rows.conflict? (c.row conn name payload cron next rows.next) with
    | none => .ok (rows.next, rows.insert (c.row conn name payload cron next) (fun _ => rfl) h)
    | some _ => .error .integrityError

end Schedule

def schedule (croniter : Croniter) (repr : PyFloat → String) (conn : Conn) (c : Schedule P)
    (rows : Periodics P) : Except PyError (ℕ × Periodics P) := do
  c.checkArguments repr
  let cron ← cronExpr croniter c.cron
  let name ← c.task
  let payload ← c.arguments
  let next ← nextRun croniter cron c.now
  c.execute conn name payload cron next rows

theorem schedule_ok {croniter : Croniter} {repr : PyFloat → String} {conn : Conn} {c : Schedule P}
    {rows rows' : Periodics P} {id : ℕ}
    (h : schedule croniter repr conn c rows = .ok (id, rows')) :
    (∃ p, p.lockedUntil = none ∧ rows.Inserts p rows') ∨
      ∃ p q, q.lockedUntil = p.lockedUntil ∧ rows.Replaces p q rows' := by
  simp only [schedule, bind_ok] at h
  obtain ⟨-, -, cron, -, name, -, payload, -, next, -, h⟩ := h
  unfold Schedule.execute at h
  split at h
  · rename_i existing hf
    cases h
    exact .inr ⟨existing, c.onConflict payload cron next existing, rfl,
      Table.update_replaces (Table.mem_of_find? hf).1 rfl⟩
  · split at h
    · cases h
      exact .inl ⟨_, rfl, Table.insert_inserts⟩
    · cases h

def effectiveMaxRuntime (maxRuntime : PyFloat) (p : Periodic P) : PyFloat :=
  p.maxRuntimeSeconds.getD maxRuntime

def PyFloat.positive : PyFloat → Bool
  | .finite q => decide (0 < q)
  | .inf negative => !negative
  | .nan => false

def lockDuration (m : PyFloat) : PyFloat := if m.positive then m else .finite 3600

/-- One claim query and its update; `maxRuntime` is the worker's, `clock` the one croniter gets. -/
structure PeriodicClaim where
  conn : Conn
  priorities : Option (List ℤ)
  maxRuntime : PyFloat
  clock : Timestamptz
  skipLocked : List ℕ

namespace PeriodicClaim

def dueWhere (c : PeriodicClaim) (p : Periodic P) : Bool :=
  p.active && decide (p.nextRun ≤ c.conn.now) &&
    (p.maxConcurrent.isNone || p.lockedUntil.all fun l => decide (l ≤ c.conn.now)) &&
    match c.priorities with
    | none | some [] => true
    | some ps => ps.contains p.priority

def order (a b : Periodic P) : Prop :=
  b.priority < a.priority ∨ (a.priority = b.priority ∧ a.nextRun ≤ b.nextRun)

instance (a b : Periodic P) : Decidable (order a b) := by unfold order; infer_instance

def select (c : PeriodicClaim) (rows : Periodics P) : Option (Periodic P) :=
  ((rows.rows.filter fun p => c.dueWhere p && !c.skipLocked.contains p.id)
    |>.insertionSort order).head?

def lock (c : PeriodicClaim) (p : Periodic P) : Except PyError (Option Timestamptz) :=
  match p.maxConcurrent with
  -- an unlimited schedule keeps whatever lock an earlier claim wrote
  | none => .ok p.lockedUntil
  | some _ => do
    let duration ← timedelta (lockDuration (effectiveMaxRuntime c.maxRuntime p))
    let until_ ← c.conn.plus c.conn.now duration
    return some until_

def advance (croniter : Croniter) (c : PeriodicClaim) (p : Periodic P) :
    Except PyError Timestamptz :=
  match truthy p.cron with
  | some expr => croniter.getNext expr c.clock
  | none =>
    match p.runEvery with
    | some every => c.conn.plus c.conn.now every
    | none => .error .integrityError

def written (croniter : Croniter) (c : PeriodicClaim) (p : Periodic P) :
    Except PyError (Periodic P) := do
  let lock ← c.lock p
  let next ← c.advance croniter p
  return { p with
    lockedUntil := lock
    lastRun := some c.conn.now
    nextRun := next }

end PeriodicClaim

def flushPeriodic (q : Periodic P) (rows : Periodics P) : Periodics P :=
  rows.update (fun p => p.id == q.id) fun p =>
    { q with id := p.id, clientId := p.clientId, name := p.name, key := p.key }

/-- Phase 1 of both worker paths. Whatever is raised is logged, after the session has rolled
back. -/
def PeriodicClaim.run (croniter : Croniter) (c : PeriodicClaim) (rows : Periodics P) :
    Option (Periodic P × Periodics P) :=
  match c.select rows with
  | none => none
  | some p =>
    match c.written croniter p with
    | .ok q => some (q, flushPeriodic q rows)
    | .error _ => none

def processPeriodicClaim (croniter : Croniter) (c : PeriodicClaim) (rows : Periodics P) :
    Option (Periodic P × Periodics P) := c.run croniter rows

def claimAndForkPeriodicClaim (croniter : Croniter) (c : PeriodicClaim) (rows : Periodics P) :
    Option (Periodic P × Periodics P) := c.run croniter rows

def Mode.claimPeriodic : Mode → Croniter → PeriodicClaim → Periodics P →
    Option (Periodic P × Periodics P)
  | .sequential => processPeriodicClaim
  | .concurrent => claimAndForkPeriodicClaim

theorem Mode.claimPeriodic_eq (mode : Mode) (croniter : Croniter) (c : PeriodicClaim)
    (rows : Periodics P) : mode.claimPeriodic croniter c rows = c.run croniter rows := by
  cases mode <;> rfl

theorem flushPeriodic_replaces {p q : Periodic P} {rows : Periodics P} (hp : p ∈ rows)
    (hid : q.id = p.id) (hu : q.uniq = p.uniq) : rows.Replaces p q (flushPeriodic q rows) := by
  simp only [Periodic.uniq, Prod.mk.injEq] at hu
  obtain ⟨hc, hn, hk⟩ := hu
  have he : ({ q with id := p.id, clientId := p.clientId, name := p.name, key := p.key } :
      Periodic P) = q := by rw [← hid, ← hc, ← hn, ← hk]
  unfold flushPeriodic
  rw [hid]
  exact Table.update_replaces hp he

namespace PeriodicClaim

theorem select_some {c : PeriodicClaim} {rows : Periodics P} {p : Periodic P}
    (h : c.select rows = some p) : p ∈ rows ∧ c.dueWhere p = true ∧ p.id ∉ c.skipLocked := by
  have hm := List.mem_of_mem_head? h
  rw [List.mem_insertionSort, List.mem_filter] at hm
  simpa using hm

theorem run_some {croniter : Croniter} {c : PeriodicClaim} {rows rows' : Periodics P}
    {q : Periodic P} (h : c.run croniter rows = some (q, rows')) :
    ∃ p lock, c.dueWhere p = true ∧ p.id ∉ c.skipLocked ∧ c.lock p = .ok lock ∧
      q.lockedUntil = lock ∧ q.id = p.id ∧ q.maxConcurrent = p.maxConcurrent ∧
      q.maxRuntimeSeconds = p.maxRuntimeSeconds ∧ rows.Replaces p q rows' := by
  unfold run at h
  split at h
  · cases h
  · rename_i p hs
    split at h
    · rename_i q' hw
      cases h
      simp only [written, bind_ok] at hw
      obtain ⟨lock, hl, next, -, he⟩ := hw
      cases he
      obtain ⟨hm, hd, hk⟩ := select_some hs
      exact ⟨p, lock, hd, hk, hl, rfl, rfl, rfl, rfl, flushPeriodic_replaces hm rfl rfl⟩
    · cases h

theorem dueWhere_unlocked {c : PeriodicClaim} {p : Periodic P} (h : c.dueWhere p = true)
    (hc : p.maxConcurrent ≠ none) {l : Timestamptz} (hl : p.lockedUntil = some l) :
    l ≤ c.conn.now := by
  simp only [dueWhere, Bool.and_eq_true, Bool.or_eq_true, Option.isNone_iff_eq_none, hc,
    false_or, hl, Option.all_some, decide_eq_true_eq] at h
  exact h.1.2

theorem lock_ok {c : PeriodicClaim} {p : Periodic P} {lock : Option Timestamptz}
    (h : c.lock p = .ok lock) : (p.maxConcurrent = none → lock = p.lockedUntil) ∧
      (p.maxConcurrent ≠ none → lock ≠ none) := by
  unfold PeriodicClaim.lock at h
  split at h
  · rename_i hc
    cases h
    exact ⟨fun _ => rfl, fun hn => absurd hc hn⟩
  · rename_i k hc
    simp only [bind_ok] at h
    obtain ⟨duration, -, l, -, he⟩ := h
    cases he
    exact ⟨fun hn => by simp [hc] at hn, fun _ => Option.some_ne_none l⟩

end PeriodicClaim

def clearLock (id : ℕ) (rows : Periodics P) : Periodics P :=
  rows.update (fun p => p.id == id) fun p => { p with lockedUntil := none }

def releaseIfLimited (maxConcurrent : Option ℤ) (id : ℕ) (rows : Periodics P) : Periodics P :=
  if maxConcurrent ≠ none then clearLock id rows else rows

def processPeriodicRelease (maxConcurrent : Option ℤ) (id : ℕ) (rows : Periodics P) : Periodics P :=
  releaseIfLimited maxConcurrent id rows

def claimAndForkPeriodicRelease (maxConcurrent : Option ℤ) (id : ℕ) (rows : Periodics P) :
    Periodics P := releaseIfLimited maxConcurrent id rows

def reapAndUpdateRelease (maxConcurrent : Option ℤ) (id : ℕ) (rows : Periodics P) : Periodics P :=
  releaseIfLimited maxConcurrent id rows

def RunEnd.release : Mode → RunEnd → Option ℤ → ℕ → Periodics P → Periodics P
  | .sequential, _ => processPeriodicRelease
  | .concurrent, .notStarted _ _ => claimAndForkPeriodicRelease
  | .concurrent, .child _ _ => reapAndUpdateRelease

/-- The lock is cleared in a `finally` on the sequential path. On the concurrent path the message of
the exception is formatted first. -/
def RunEnd.releases : Mode → RunEnd → Bool
  | .concurrent, .notStarted e _ => (startOutcome e).isSome
  | .sequential, _ | .concurrent, .child _ _ => true

theorem RunEnd.release_eq (mode : Mode) (e : RunEnd) (maxConcurrent : Option ℤ) (id : ℕ)
    (rows : Periodics P) :
    e.release mode maxConcurrent id rows = releaseIfLimited maxConcurrent id rows := by
  cases mode <;> cases e <;> rfl

theorem mem_clearLock {id : ℕ} {rows : Periodics P} {q : Periodic P} :
    q ∈ clearLock id rows ↔ (q.id = id ∧ q.lockedUntil = none ∧
      ∃ p ∈ rows, p.id = id ∧ q = { p with lockedUntil := none }) ∨ (q ∈ rows ∧ q.id ≠ id) := by
  rw [clearLock, Table.mem_update]
  constructor
  · rintro ⟨p, hp, ⟨hid, rfl⟩ | ⟨hid, rfl⟩⟩
    · rw [beq_iff_eq] at hid
      exact .inl ⟨hid, rfl, p, hp, hid, rfl⟩
    · exact .inr ⟨hp, by simpa using hid⟩
  · rintro (⟨-, -, p, hp, hid, rfl⟩ | ⟨hq, hne⟩)
    · exact ⟨p, hp, .inl ⟨beq_iff_eq.mpr hid, rfl⟩⟩
    · exact ⟨q, hq, .inr ⟨by simpa using hne, rfl⟩⟩

end PostgresQueue
