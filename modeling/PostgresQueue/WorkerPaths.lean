import PostgresQueue.FinishedRuns
import PostgresQueue.Periodic

namespace PostgresQueue

open Library

variable {P : Type}

/-- What `_run_in_child` sends through the pipe for a handler that raised. A lone surrogate in
it arrives as a question mark. -/
structure Raised where
  typeName : String
  text : String
  traceback : String

def Raised.message (e : Raised) : String :=
  e.typeName ++ ": " ++ e.text ++ "\n" ++ e.traceback

structure ChildEnd where
  status : WaitStatus
  killedByDrain : Bool
  drainTimeout : String
  maxRssKb : String
  sent : Option Raised

def ChildEnd.exit (c : ChildEnd) : ChildExit :=
  ⟨c.status, c.killedByDrain, c.drainTimeout, c.maxRssKb, c.sent.elim "" Raised.message⟩

/-- What each call between the claim and the fork does. Any class of exception can come out of
a module that is imported or an argument that is restored. -/
structure StartCalls where
  resolveFunctionPath : Except TaskError Unit
  deserialize : Except TaskError Unit
  pipe : Except TaskError Unit
  fork : Except TaskError Unit

def StartCalls.start (c : StartCalls) : Except TaskError Unit := do
  c.resolveFunctionPath
  c.deserialize
  c.pipe
  c.fork

structure Database (P : Type) where
  tasks : Tasks P
  periodics : Periodics P

/-- What a worker has done with one row: the claimed row, the `max_runtime` of the child it
forked, and the database. `raises` says that an exception leaves the worker's functions. -/
structure Processed (R P : Type) where
  claimed : Option R
  maxRuntime : Option PyFloat
  db : Database P
  raises : Bool

def taskMaxRuntime (maxRuntime : PyFloat) (t : Task P) : PyFloat :=
  t.maxRuntimeSeconds.getD maxRuntime

section Sequential

variable (calls : StartCalls) (child : ChildEnd)

def executeClaimed : Except TaskError Unit := do
  calls.start
  executeInFork (waitResult child.exit)

def processOneOffTask (env : Env P) (maxRuntime : PyFloat) (c : Claim) (elapsed : String)
    (clock : Timestamptz) (db : Database P) : Processed (Task P) P :=
  match processOneOffClaim c db.tasks with
  | none => ⟨none, none, db, false⟩
  | some (t, tasks) =>
    let effective := taskMaxRuntime maxRuntime t
    let forked := if calls.start.isOk then some effective else none
    match exceptOutcome elapsed (executeClaimed calls child) with
    | some o => ⟨some t, forked,
        { db with tasks := finishOneOff env clock t.id t.startedAt o tasks }, false⟩
    | none => ⟨some t, forked, { db with tasks := tasks }, true⟩

def processPeriodicTask (croniter : Croniter) (c : PeriodicClaim) (elapsed : String)
    (db : Database P) : Processed (Periodic P) P :=
  match processPeriodicClaim croniter c db.periodics with
  | none => ⟨none, none, db, false⟩
  | some (p, rows) =>
    let effective := effectiveMaxRuntime c.maxRuntime p
    -- the lock is cleared in any case; the clauses format what those of a task record
    ⟨some p, if calls.start.isOk then some effective else none,
      { db with periodics := processPeriodicRelease p.maxConcurrent p.id rows },
      (exceptOutcome elapsed (executeClaimed calls child)).isNone⟩

end Sequential

section Concurrent

structure ChildSlot where
  taskId : ℕ
  isPeriodic : Bool
  startedAt : Option Timestamptz
  periodicMaxConcurrent : Option ℤ

/-- A claim of the concurrent path: the slot is missing if nothing was claimed or the start
failed. -/
structure Forked (R P : Type) extends Processed R P where
  slot : Option ChildSlot

variable (calls : StartCalls)

def claimAndForkOneOff (env : Env P) (maxRuntime : PyFloat) (c : Claim) (clock : Timestamptz)
    (db : Database P) : Forked (Task P) P :=
  match claimAndForkOneOffClaim c db.tasks with
  | none => ⟨⟨none, none, db, false⟩, none⟩
  | some (t, tasks) =>
    let effective := taskMaxRuntime maxRuntime t
    match calls.start with
    | .error e =>
      match startOutcome e with
      | some o => ⟨⟨some t, none,
          { db with tasks := finishOneOff env clock t.id t.startedAt o tasks }, false⟩, none⟩
      | none => ⟨⟨some t, none, { db with tasks := tasks }, true⟩, none⟩
    | .ok () => ⟨⟨some t, some effective, { db with tasks := tasks }, false⟩,
        some ⟨t.id, false, t.startedAt, none⟩⟩

def claimAndForkPeriodic (croniter : Croniter) (c : PeriodicClaim) (db : Database P) :
    Forked (Periodic P) P :=
  match claimAndForkPeriodicClaim croniter c db.periodics with
  | none => ⟨⟨none, none, db, false⟩, none⟩
  | some (p, rows) =>
    let effective := effectiveMaxRuntime c.maxRuntime p
    match calls.start with
    | .error e =>
      -- the message is formatted before the lock is cleared
      if (startOutcome e).isSome then
        ⟨⟨some p, none, { db with
          periodics := claimAndForkPeriodicRelease p.maxConcurrent p.id rows }, false⟩, none⟩
      else ⟨⟨some p, none, { db with periodics := rows }, true⟩, none⟩
    | .ok () => ⟨⟨some p, some effective, { db with periodics := rows }, false⟩,
        some ⟨p.id, true, none, p.maxConcurrent⟩⟩

def reapAndUpdate (env : Env P) (child : ChildEnd) (elapsed : String) (clock : Timestamptz)
    (slot : ChildSlot) (db : Database P) : Database P :=
  let result := waitResult child.exit
  if slot.isPeriodic then
    { db with periodics := reapAndUpdateRelease slot.periodicMaxConcurrent slot.taskId db.periodics }
  else
    let errorMsg := if result.exitKind = .timeout then some ("Timed out after " ++ elapsed ++ " s")
      else result.errorMsg
    let o : Outcome := ⟨result.taskStatus, errorMsg⟩
    { db with tasks := finishOneOff env clock slot.taskId slot.startedAt o db.tasks }

def Forked.reap {R : Type} (f : Forked R P) (env : Env P) (child : ChildEnd) (elapsed : String)
    (clock : Timestamptz) : Processed R P :=
  match f.slot with
  | none => f.toProcessed
  | some slot => { f.toProcessed with db := reapAndUpdate env child elapsed clock slot f.db }

end Concurrent

theorem rstrip_ne_empty {text : String} {c : Char} (hc : c ∈ text.toList)
    (hs : isSpace c = false) : rstrip text ≠ "" := by
  intro h
  unfold rstrip at h
  have hnil : (text.toList.reverse.dropWhile isSpace).reverse = [] := by
    simpa using congrArg String.toList h
  rw [List.reverse_eq_nil_iff, List.dropWhile_eq_nil_iff] at hnil
  have := hnil c (List.mem_reverse.mpr hc)
  simp [hs] at this

theorem Raised.rstrip_message (e : Raised) : rstrip e.message ≠ "" := by
  have hc : ':' ∈ e.message.toList := by simp [Raised.message]
  exact rstrip_ne_empty hc (by decide)

theorem exceptOutcome_child (elapsed : String) (child : ChildEnd) :
    exceptOutcome elapsed (executeInFork (waitResult child.exit)) =
      some (concurrentOutcome elapsed (waitResult child.exit)) := by
  obtain ⟨status, killed, drain, rss, sent⟩ := child
  unfold waitResult ChildEnd.exit
  cases status with
  | signaled signum =>
    dsimp only
    split_ifs <;> simp [executeInFork, exceptOutcome, concurrentOutcome, orDefault]
  | other => rfl
  | exited code =>
    dsimp only
    split_ifs with hs ht hx
    · rfl
    · rfl
    · cases sent with
      | none => exact absurd rfl hx
      | some e =>
        have := e.rstrip_message
        simp [executeInFork, exceptOutcome, concurrentOutcome, orDefault, this]
    · simp [executeInFork, exceptOutcome, concurrentOutcome, orDefault]

theorem finishOneOff_failed_eq_iff (env : Env P) (clock : Timestamptz) {tasks : Tasks P}
    {t : Task P} (ht : t ∈ tasks) (hs : t.status = .running) (hq : t.requeue = none)
    {a : String} (hne : a ≠ "") (ha : NulFree a) (b : String) :
    finishOneOff env clock t.id t.startedAt ⟨.failed, some a⟩ tasks =
        finishOneOff env clock t.id t.startedAt ⟨.failed, some b⟩ tasks ↔
      t.errorAfter ⟨.failed, some b⟩ = some a := by
  have hf := find?_running ht hs
  have hleft : (recordOutcome clock ⟨.failed, some a⟩ t).error = some a := by
    simp [recordOutcome, hne]
  have hright := recordOutcome_errorAfter clock ⟨.failed, some b⟩ t
  have hstore : storable (some a) = true := by simpa [storable, NulFree] using ha
  rw [finishOneOff_record hf hq, finishOneOff_record hf hq, hleft, hright, if_pos hstore]
  constructor
  · intro h
    have hrep : tasks.Replaces t (recordOutcome clock ⟨.failed, some a⟩ t)
        (flush (recordOutcome clock ⟨.failed, some a⟩ t) tasks) := flush_replaces ht rfl rfl
    have hm := hrep.mem_new
    rw [h] at hm
    split_ifs at hm with hb
    · have hrep' : tasks.Replaces t (recordOutcome clock ⟨.failed, some b⟩ t)
          (flush (recordOutcome clock ⟨.failed, some b⟩ t) tasks) := flush_replaces ht rfl rfl
      have he := Table.eq_of_key _ hm hrep'.mem_new rfl
      rw [← hright, ← he, hleft]
    · have he := tasks.eq_of_key hm ht rfl
      have hrun := congrArg Task.status he
      rw [hs] at hrun
      cases hrun
  · intro h
    have he : recordOutcome clock ⟨.failed, some a⟩ t = recordOutcome clock ⟨.failed, some b⟩ t := by
      simp only [recordOutcome, hne, if_false]
      rw [← h]
      rfl
    rw [h, if_pos hstore, he]

theorem executeClaimed_ok {calls : StartCalls} (child : ChildEnd) (h : calls.start = .ok ()) :
    executeClaimed calls child = executeInFork (waitResult child.exit) := by
  simp [executeClaimed, h, bind, Except.bind]

theorem executeClaimed_error {calls : StartCalls} (child : ChildEnd) {e : TaskError}
    (h : calls.start = .error e) : executeClaimed calls child = .error e := by
  simp [executeClaimed, h, bind, Except.bind]

structure Processed.Agrees {R : Type} (p q : Processed R P) : Prop where
  claimed : p.claimed = q.claimed
  maxRuntime : p.maxRuntime = q.maxRuntime
  db : p.db = q.db

section Periodic

variable {calls : StartCalls} {croniter : Croniter} {c : PeriodicClaim} {p : Periodic P}

theorem claimed_locked {rows rows' : Periodics P} (h : c.run croniter rows = some (p, rows')) :
    p ∈ rows' ∧ (p.maxConcurrent ≠ none → p.lockedUntil ≠ none) := by
  obtain ⟨p₀, lock, -, -, hl, hq, -, hmc, -, hrep⟩ := PeriodicClaim.run_some h
  exact ⟨hrep.mem_new, fun hn => hq ▸ (PeriodicClaim.lock_ok hl).2 (hmc ▸ hn)⟩

theorem releaseIfLimited_eq_iff {rows rows' : Periodics P}
    (h : c.run croniter rows = some (p, rows')) :
    releaseIfLimited p.maxConcurrent p.id rows' = rows' ↔ p.maxConcurrent = none := by
  unfold releaseIfLimited
  by_cases hn : p.maxConcurrent = none
  · simp [hn]
  · obtain ⟨hm, hlocked⟩ := claimed_locked h
    rw [if_pos hn]
    refine iff_of_false (fun he => ?_) hn
    have hin : p ∈ clearLock p.id rows' := by rwa [he]
    rcases mem_clearLock.mp hin with ⟨-, hnone, -⟩ | ⟨-, hne⟩
    exacts [hlocked hn hnone, hne rfl]

theorem periodicPaths_agree (child : ChildEnd) (env : Env P) (elapsed : String)
    (clock : Timestamptz) (db : Database P) :
    (processPeriodicTask calls child croniter c elapsed db).Agrees
        ((claimAndForkPeriodic calls croniter c db).reap env child elapsed clock) ↔
      ∀ p rows e, c.run croniter db.periodics = some (p, rows) → p.maxConcurrent ≠ none →
        calls.start = .error e → e.str ≠ none := by
  unfold processPeriodicTask claimAndForkPeriodic Forked.reap
  rw [← Mode.claimPeriodic, ← Mode.claimPeriodic, Mode.claimPeriodic_eq, Mode.claimPeriodic_eq]
  cases hrun : c.run croniter db.periodics with
  | none => exact iff_of_true ⟨rfl, rfl, rfl⟩ fun _ _ _ h => by cases h
  | some claimed =>
    obtain ⟨p, rows⟩ := claimed
    cases hstart : calls.start with
    | ok => exact iff_of_true ⟨rfl, rfl, rfl⟩ fun _ _ _ _ _ h => by cases h
    | error e =>
      dsimp only
      cases hstr : e.str with
      | some msg =>
        have hsome : (startOutcome e).isSome = true := by simp [startOutcome, hstr]
        rw [if_pos hsome]
        refine iff_of_true ⟨rfl, rfl, rfl⟩ fun p' rows' e' _ _ he => ?_
        cases he
        simp [hstr]
      | none =>
        have hnone : ¬(startOutcome e).isSome = true := by simp [startOutcome, hstr]
        rw [if_neg hnone]
        have hkeep := releaseIfLimited_eq_iff hrun
        constructor
        · rintro ⟨-, -, hdb⟩ p' rows' e' hp hlimited
          cases hp
          exact absurd (hkeep.mp (Database.mk.inj hdb).2) hlimited
        · intro h
          refine ⟨rfl, rfl, ?_⟩
          have hunlimited : p.maxConcurrent = none := by
            by_contra hlimited
            exact h p rows e rfl hlimited rfl hstr
          exact congrArg (Database.mk db.tasks) (hkeep.mpr hunlimited)

end Periodic

section OneOff

variable {calls : StartCalls} {env : Env P} {clock : Timestamptz} {c : Claim} {elapsed : String}

theorem oneOffPaths_agree_ok (h : calls.start = .ok ()) (child : ChildEnd)
    (env : Env P) (maxRuntime : PyFloat) (c : Claim) (elapsed : String) (clock : Timestamptz)
    (db : Database P) : processOneOffTask calls child env maxRuntime c elapsed clock db =
      (claimAndForkOneOff calls env maxRuntime c clock db).reap env child elapsed clock := by
  have ho : concurrentOutcome elapsed (waitResult child.exit) =
      ⟨(waitResult child.exit).taskStatus, if (waitResult child.exit).exitKind = .timeout then
        some ("Timed out after " ++ elapsed ++ " s") else (waitResult child.exit).errorMsg⟩ := by
    unfold concurrentOutcome
    split_ifs <;> rfl
  unfold processOneOffTask claimAndForkOneOff Forked.reap reapAndUpdate
  rw [← Mode.claim, ← Mode.claim, Mode.claim_eq, Mode.claim_eq, h, executeClaimed_ok child h,
    exceptOutcome_child, ho]
  cases c.run db.tasks <;> rfl

def recordedRows (env : Env P) (clock : Timestamptz) (t : Task P) (tasks : Tasks P) :
    Option Outcome → Tasks P
  | some o => finishOneOff env clock t.id t.startedAt o tasks
  | none => tasks

theorem oneOffPaths_agree_error {e : TaskError} (h : calls.start = .error e) (child : ChildEnd)
    (maxRuntime : PyFloat) (db : Database P) :
    (processOneOffTask calls child env maxRuntime c elapsed clock db).Agrees
        ((claimAndForkOneOff calls env maxRuntime c clock db).reap env child elapsed clock) ↔
      ∀ t tasks, c.run db.tasks = some (t, tasks) →
        recordedRows env clock t tasks (exceptOutcome elapsed (.error e)) =
          recordedRows env clock t tasks (startOutcome e) := by
  unfold processOneOffTask claimAndForkOneOff Forked.reap
  rw [← Mode.claim, ← Mode.claim, Mode.claim_eq, Mode.claim_eq, h, executeClaimed_error child h]
  cases c.run db.tasks with
  | none => exact iff_of_true ⟨rfl, rfl, rfl⟩ fun _ _ h => by cases h
  | some claimed =>
    obtain ⟨t, tasks⟩ := claimed
    have hdb : ∀ rows rows' : Tasks P,
        ({ db with tasks := rows } : Database P) = { db with tasks := rows' } ↔ rows = rows' := by
      simp
    constructor
    · rintro ⟨-, -, hagree⟩ t' tasks' hrun
      cases hrun
      dsimp only at hagree
      cases hseq : exceptOutcome elapsed (.error e) <;> cases hcon : startOutcome e <;>
        rw [hseq, hcon] at hagree <;> exact (hdb _ _).mp hagree
    · intro hagree
      have hrows := hagree t tasks rfl
      dsimp only
      cases hseq : exceptOutcome elapsed (.error e) <;> cases hcon : startOutcome e <;>
        rw [hseq, hcon] at hrows <;> exact ⟨rfl, rfl, (hdb _ _).mpr hrows⟩

/-- A `TaskTimeoutError` that leaves the same row on both paths: its text is that of a timeout, or it
has none and no finishing call could write the row. -/
def TimeoutUnseen (env : Env P) (t : Task P) (elapsed : String) : Option String → Prop
  | some msg => t.requeue = none →
      t.errorAfter ⟨.failed, some msg⟩ = some ("Timed out after " ++ elapsed ++ " s")
  | none => ¬t.Readable env

theorem finishOneOff_eq_iff {tasks : Tasks P} {t : Task P} (ht : t ∈ tasks)
    (hs : t.status = .running) (hq : t.requeue = none → storable (t.errorAfter ⟨.failed, some
      ("Timed out after " ++ elapsed ++ " s")⟩) = true) :
    finishOneOff env clock t.id t.startedAt
        ⟨.failed, some ("Timed out after " ++ elapsed ++ " s")⟩ tasks = tasks ↔
      ¬t.Readable env := by
  have hf := find?_running ht hs
  have hmoved : ∀ {q : Task P} {tasks' : Tasks P}, tasks.Replaces t q tasks' → q.id = t.id →
      q.status ≠ .running → tasks' ≠ tasks := by
    rintro q _ hrep hid hne rfl
    obtain rfl := Table.eq_of_key _ hrep.mem_new ht hid
    exact hne hs
  by_cases hr : t.requeue = none
  · have hread : t.Readable env := fun spec hspec => by simp [hr] at hspec
    have hrep : tasks.Replaces t (recordOutcome clock ⟨.failed, some
        ("Timed out after " ++ elapsed ++ " s")⟩ t) _ := flush_replaces ht rfl rfl
    rw [finishOneOff_record hf hr, recordOutcome_errorAfter, if_pos (hq hr)]
    exact iff_of_false (hmoved hrep rfl TaskStatus.noConfusion) (not_not.mpr hread)
  · rw [finishOneOff_requeue hf hr]
    cases ha : t.applyRequeue env with
    | ok q =>
      obtain ⟨spec, v, hspec, hv, rfl⟩ := Task.applyRequeue_ok.mp ha
      have hrep : tasks.Replaces t (t.fresh v) _ := flush_replaces ht rfl rfl
      refine iff_of_false (hmoved hrep rfl TaskStatus.noConfusion) ?_
      refine not_not.mpr fun spec' hspec' => ⟨v, ?_⟩
      rw [hspec] at hspec'
      exact Option.some.inj hspec' ▸ hv
    | error err =>
      refine iff_of_true rfl fun hread => ?_
      obtain ⟨spec, hspec⟩ := Option.ne_none_iff_exists'.mp hr
      obtain ⟨v, hv⟩ := hread spec hspec
      have hok := Task.applyRequeue_ok.mpr ⟨spec, v, hspec, hv, rfl⟩
      rw [ha] at hok
      cases hok

theorem timeoutStart_agree_iff (he : Figure elapsed) (str : Option String) {tasks : Tasks P} :
    (∀ t claimed, c.run tasks = some (t, claimed) →
      recordedRows env clock t claimed (exceptOutcome elapsed (.error (.timeout str))) =
        recordedRows env clock t claimed (startOutcome (.timeout str))) ↔
      ∀ t, c.select tasks = some t → TimeoutUnseen env t elapsed str := by
  have hclean : NulFree ("Timed out after " ++ elapsed ++ " s") := by
    simpa using timedOut_clean he
  have hne : "Timed out after " ++ elapsed ++ " s" ≠ "" := by
    intro h
    have := congrArg String.toList h
    simp at this
  unfold Claim.run
  cases hsel : c.select tasks with
  | none => simp
  | some t =>
    have hrep : tasks.Replaces t (c.markRunning t) (flush (c.markRunning t) tasks) :=
      flush_replaces (Claim.select_some hsel).1 rfl rfl
    have hmem := hrep.mem_new
    have hone : (∀ q claimed, some (c.markRunning t, flush (c.markRunning t) tasks) =
          some (q, claimed) → recordedRows env clock q claimed
            (exceptOutcome elapsed (.error (.timeout str))) =
          recordedRows env clock q claimed (startOutcome (.timeout str))) ↔
        recordedRows env clock (c.markRunning t) (flush (c.markRunning t) tasks)
            (exceptOutcome elapsed (.error (.timeout str))) =
          recordedRows env clock (c.markRunning t) (flush (c.markRunning t) tasks)
            (startOutcome (.timeout str)) := by
      constructor
      · exact fun h => h _ _ rfl
      · rintro h q claimed hq
        cases hq
        exact h
    refine hone.trans ?_
    simp only [Option.some.injEq, forall_eq']
    cases str with
    | none =>
      refine (finishOneOff_eq_iff hmem rfl fun _ => ?_).trans Iff.rfl
      simpa [Task.errorAfter, hne, storable, NulFree] using hclean
    | some msg =>
      by_cases hq : t.requeue = none
      · exact (finishOneOff_failed_eq_iff env clock hmem rfl hq hne hclean msg).trans
          ⟨fun h _ => h, fun h => h hq⟩
      · have hf := find?_running hmem rfl
        refine iff_of_true ?_ fun h => absurd h hq
        change finishOneOff _ _ _ _ _ _ = finishOneOff _ _ _ _ _ _
        rw [finishOneOff_requeue hf hq, finishOneOff_requeue hf hq]

/-- The two paths do the same with a schedule unless it is limited and the start raises what cannot
be formatted, and with a task unless the start raises a `TaskTimeoutError`: the sequential path
reports that as a run that took too long. -/
theorem paths_agree (calls : StartCalls) (child : ChildEnd) (env : Env P) (maxRuntime : PyFloat)
    (c : Claim) {elapsed : String} (he : Figure elapsed) (clock : Timestamptz) (db : Database P) :
    (∀ croniter (pc : PeriodicClaim), (processPeriodicTask calls child croniter pc elapsed db).Agrees
        ((claimAndForkPeriodic calls croniter pc db).reap env child elapsed clock) ↔
      ∀ p rows e, pc.run croniter db.periodics = some (p, rows) → p.maxConcurrent ≠ none →
        calls.start = .error e → e.str ≠ none) ∧
    ((processOneOffTask calls child env maxRuntime c elapsed clock db).Agrees
        ((claimAndForkOneOff calls env maxRuntime c clock db).reap env child elapsed clock) ↔
      ∀ t str, c.select db.tasks = some t → calls.start = .error (.timeout str) →
        TimeoutUnseen env t elapsed str) := by
  refine ⟨fun croniter pc => periodicPaths_agree child env elapsed clock db, ?_⟩
  cases hstart : calls.start with
  | ok =>
    rw [oneOffPaths_agree_ok hstart]
    exact iff_of_true ⟨rfl, rfl, rfl⟩ fun _ _ _ h => by cases h
  | error e =>
    rw [oneOffPaths_agree_error hstart]
    by_cases ht : ∃ str, e = .timeout str
    · obtain ⟨str, rfl⟩ := ht
      rw [timeoutStart_agree_iff he]
      constructor
      · intro h t str' ht hstr
        cases hstr
        exact h t ht
      · exact fun h t ht => h t str ht rfl
    · have hsame : exceptOutcome elapsed (.error e) = startOutcome e := by
        cases e with
        | timeout str => exact absurd ⟨str, rfl⟩ ht
        | oom | killed | interrupted | exception | baseException => rfl
      rw [hsame]
      refine iff_of_true (fun _ _ _ => rfl) fun t str _ hstr => ?_
      cases hstr
      exact absurd ⟨str, rfl⟩ ht

end OneOff

section Sample

def importRaises (e : TaskError) : StartCalls := ⟨.error e, .ok (), .ok (), .ok ()⟩

def sampleEnd : ChildEnd := ⟨.exited exitSuccess, false, "", "", none⟩

def sampleDatabase : Database String :=
  ⟨(upsert sampleEnv sampleConn (sampleUpsert "a") Table.empty).2, Table.empty⟩

theorem paths_agree_exception :
    (processOneOffTask (importRaises (.exception "No module named 'reports'")) sampleEnd sampleEnv
        (.finite 1800) ⟨10, none, 10, []⟩ "0.001" 20 sampleDatabase).Agrees
      ((claimAndForkOneOff (importRaises (.exception "No module named 'reports'")) sampleEnv
        (.finite 1800) ⟨10, none, 10, []⟩ 20 sampleDatabase).reap sampleEnv sampleEnd "0.001" 20) := by
  have he : Figure "0.001" := by decide
  exact (paths_agree _ sampleEnd sampleEnv (.finite 1800) _ he 20 sampleDatabase).2.mpr
    fun t str _ h => by cases h

theorem paths_differ : ¬∀ (calls : StartCalls) (child : ChildEnd) (env : Env String)
    (maxRuntime : PyFloat) (c : Claim) (elapsed : String) (clock : Timestamptz)
    (db : Database String), Figure elapsed →
      (processOneOffTask calls child env maxRuntime c elapsed clock db).Agrees
        ((claimAndForkOneOff calls env maxRuntime c clock db).reap env child elapsed clock) := by
  intro h
  have hdb := congrArg (fun db => db.tasks.rows.map Task.error)
    (h (importRaises (.timeout "no answer")) sampleEnd sampleEnv (.finite 1800) ⟨10, none, 10, []⟩
      "0.001" 20 sampleDatabase (by decide)).db
  exact absurd hdb (by decide +kernel)

end Sample

end PostgresQueue
