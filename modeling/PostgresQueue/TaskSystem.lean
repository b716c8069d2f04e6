import PostgresQueue.Library.Transition
import PostgresQueue.Reaper
import PostgresQueue.Worker

namespace PostgresQueue

open Library

inductive Phase
  | claimed
  | alive
  | ended (e : RunEnd)
  | recorded
deriving DecidableEq

/-- A claim and what became of it. `task` is the claimed row, which the child gets. -/
structure Run (P : Type) where
  task : Task P
  startedAt : Timestamptz
  worker : ℕ
  mode : Mode
  phase : Phase
deriving DecidableEq

/-- An open transaction of `reap_stale_tasks`, with the rows that each of its two statements
has locked, as they were read under the lock. Nothing is visible before it commits. -/
structure ReapTxn (P : Type) where
  reap : Reap
  second : Bool
  failing : List (Task P)
  requeueing : List (Task P)

def ReapTxn.locked {P : Type} (x : ReapTxn P) : List ℕ := (x.failing ++ x.requeueing).map Task.id

inductive Event (P : Type)
  | accepted (conn : Conn) (new : NewTask P)
  | removed (clientId : Option ClientId)

structure State (P : Type) where
  tasks : Tasks P
  runs : List (Run P)
  reaps : List (ReapTxn P)
  dead : List ℕ
  history : List (Event P)

inductive Action (P : Type)
  | enqueue (conn : Conn) (c : Call P) (clientId : Option ClientId)
  | upsert (conn : Conn) (u : Upsert P)
  | upsertMany (conn : Conn) (us : List (Upsert P))
  | claim (worker : ℕ) (mode : Mode) (c : Claim)
  | start (run : ℕ)
  | finishes (run : ℕ) (e : RunEnd)
  | record (run : ℕ) (clock : Timestamptz)
  | dies (worker : ℕ)
  | reapBegin (r : Reap)
  | reapFail (txn id : ℕ)
  | reapSecond (txn : ℕ)
  | reapRequeue (txn id : ℕ)
  | reapCommit (txn : ℕ)
  | reapAbort (txn : ℕ)
  | cancel (id : ℕ)
  | clearCompleted (before : Option Timestamptz)
  | clearFailed (before : Option Timestamptz)
  | clearAll

variable {P Q : Type}

def Call.stamp (stamp : P → ℕ → Q) (n : ℕ) (c : Call P) : Call Q where
  task := c.task
  arguments := c.arguments.map fun p => stamp p n
  runAt := c.runAt
  priority := c.priority
  maxRuntimeSeconds := c.maxRuntimeSeconds
  now := c.now

def Upsert.stamp (stamp : P → ℕ → Q) (n : ℕ) (u : Upsert P) : Upsert Q :=
  { u.toCall.stamp stamp n with clientId := u.clientId }

def stampAll (stamp : P → ℕ → Q) : ℕ → List (Upsert P) → List (Upsert Q)
  | _, [] => []
  | n, u :: us => u.stamp stamp n :: stampAll stamp (n + 1) us

namespace State

def lockedIds (s : State P) : List ℕ := s.reaps.flatMap ReapTxn.locked

def lockedClient (s : State P) (c : ClientId) : Bool :=
  s.tasks.rows.any fun t => t.clientId == some c && s.lockedIds.contains t.id

def claim (s : State P) (mode : Mode) (c : Claim) : Option (Task P × Tasks P) :=
  mode.claim { c with skipLocked := s.lockedIds ++ c.skipLocked } s.tasks

def taken (s : State P) : List (Task P × Timestamptz) := s.runs.map fun r => (r.task, r.startedAt)

def claims (s : State P) : List (ℕ × Timestamptz) := s.taken.map fun c => (c.1.id, c.2)

def accept (s : State P) (tasks : Tasks P) (events : List (Event P)) : State P :=
  { s with tasks := tasks, history := events ++ s.history }

def setPhase (s : State P) (i : ℕ) (phase : Phase) : State P :=
  { s with runs := s.runs.modify i fun r => { r with phase := phase } }

def setReap (s : State P) (j : ℕ) (f : ReapTxn P → ReapTxn P) : State P :=
  { s with reaps := s.reaps.modify j f }

def endReap (s : State P) (j : ℕ) (tasks : Tasks P) : State P :=
  { s with tasks := tasks, reaps := s.reaps.eraseIdx j }

def delete (s : State P) (tasks : Tasks P) (removed : List (Event P)) : State P :=
  { s with tasks := tasks, history := removed ++ s.history }

def initial : State P := ⟨Table.empty, [], [], [], []⟩

end State

section Step

variable (stamp : P → ℕ → Q) (env : Env Q)

/-- One step of a client, a worker, a child or a reaper. `stamp` labels each submitted payload
with its place in the history; the code never looks into it. -/
def step (s : State Q) : Action P → Option (State Q)
  | .enqueue conn c clientId =>
    let c := c.stamp stamp s.history.length
    match PostgresQueue.enqueue env conn c clientId s.tasks, c.newTask env clientId with
    | (.ok _, tasks), .ok new => some (s.accept tasks [.accepted conn new])
    | _, _ => some s
  | .upsert conn u =>
    let u := u.stamp stamp s.history.length
    -- the statement waits for a row that an open transaction has locked
    if s.lockedClient u.clientId then none
    else match PostgresQueue.upsert env conn u s.tasks, upsertStatement env u with
      | (.ok _, tasks), .ok new => some (s.accept tasks [.accepted conn new])
      | _, _ => some s
  | .upsertMany conn us =>
    let us := stampAll stamp s.history.length us
    if us.any fun u => s.lockedClient u.clientId then none
    else match PostgresQueue.upsertMany env conn us s.tasks, upsertStatements env us with
      | (.ok _, tasks), .ok stmts =>
        some (s.accept tasks ((upsertOrder stmts).reverse.map fun a => .accepted conn a.1.2))
      | _, _ => some s
  | .claim worker mode c =>
    if s.dead.contains worker then none
    else match s.claim mode c with
      | none => some s
      | some (t, tasks) => some { s with
          tasks := tasks
          runs := s.runs ++ [⟨t, c.startedAt, worker, mode, .claimed⟩] }
  | .start i =>
    match s.runs[i]? with
    | some r =>
      if r.phase = .claimed ∧ r.worker ∉ s.dead then some (s.setPhase i .alive) else none
    | none => none
  | .finishes i e =>
    match s.runs[i]?, e with
    | some r, .notStarted _ _ =>
      if r.phase = .claimed ∧ r.worker ∉ s.dead then some (s.setPhase i (.ended e)) else none
    -- a child outlives its worker
    | some r, .child _ _ => if r.phase = .alive then some (s.setPhase i (.ended e)) else none
    | none, _ => none
  | .record i clock =>
    match s.runs[i]? with
    | some r =>
      match r.phase with
      | .ended e =>
        match e.outcome r.mode with
        | some o =>
          if r.worker ∈ s.dead ∨ r.task.id ∈ s.lockedIds then none
          else some { s.setPhase i .recorded with
            tasks := finishOneOff env clock r.task.id (some r.startedAt) o s.tasks }
        -- an exception has left the code of the worker
        | none => none
      | _ => none
    | none => none
  | .dies worker => some { s with dead := worker :: s.dead }
  | .reapBegin r => some { s with reaps := s.reaps ++ [⟨r, false, [], []⟩] }
  -- the statement reads each row again once it has the lock on it
  | .reapFail j id =>
    match s.reaps[j]?, s.tasks.find? (fun t => t.id == id) with
    | some x, some t =>
      if x.second = false ∧ id ∉ s.lockedIds ∧ x.reap.failWhere t = .ok true then
        some (s.setReap j fun x => { x with failing := t :: x.failing })
      else none
    | _, _ => none
  | .reapSecond j =>
    if j < s.reaps.length then some (s.setReap j fun x => { x with second := true }) else none
  | .reapRequeue j id =>
    match s.reaps[j]?, s.tasks.find? (fun t => t.id == id) with
    | some x, some t =>
      if x.second = true ∧ id ∉ s.lockedIds ∧ x.reap.requeueWhere t = .ok true then
        some (s.setReap j fun x => { x with requeueing := x.requeueing ++ [t] })
      else none
    | _, _ => none
  | .reapCommit j =>
    match s.reaps[j]? with
    | some x =>
      match x.reap.write env x.failing x.requeueing s.tasks with
      | .ok tasks => some (s.endReap j tasks)
      -- `apply_requeue` raised, and the session rolls back
      | .error _ => some (s.endReap j s.tasks)
    | none => none
  | .reapAbort j => if j < s.reaps.length then some (s.endReap j s.tasks) else none
  | .cancel id =>
    if id ∈ s.lockedIds then none
    else some (s.delete (PostgresQueue.cancel id s.tasks)
      ((s.tasks.rows.filter fun t => t.id == id).map fun t => .removed t.clientId))
  | .clearCompleted before => some (s.delete (PostgresQueue.clearCompleted before s.tasks) [])
  | .clearFailed before => some (s.delete (PostgresQueue.clearFailed before s.tasks) [])
  | .clearAll =>
    if s.lockedIds = [] then
      some (s.delete (PostgresQueue.clearAll s.tasks) (s.tasks.rows.map fun t => .removed t.clientId))
    else none

def noRemoval : Action P → Prop
  | .cancel _ | .clearAll => False
  | _ => True

instance (a : Action P) : Decidable (noRemoval a) :=
  match a with
  | .cancel _ | .clearAll => isFalse id
  | .enqueue .. | .upsert .. | .upsertMany .. | .claim .. | .start _ | .finishes .. | .record ..
  | .dies _ | .reapBegin _ | .reapFail .. | .reapSecond _ | .reapRequeue .. | .reapCommit _
  | .reapAbort _ | .clearCompleted _ | .clearFailed _ => isTrue trivial

def taskSystem : System (State Q) (Action P) := ⟨State.initial, step stamp env⟩

end Step

section Sample

def unlabelled (p : P) (_ : ℕ) : P := p

def sampleClaim (worker : ℕ) (now : Timestamptz) : Action String :=
  .claim worker .sequential ⟨now, none, now, []⟩

end Sample

end PostgresQueue
