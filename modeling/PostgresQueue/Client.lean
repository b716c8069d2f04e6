import Mathlib.Algebra.Order.Floor.Defs
import Mathlib.Data.Rat.Floor
import Mathlib.Data.List.Sort
import PostgresQueue.Models

namespace PostgresQueue

open Library

variable {P : Type}

def validateMaxRuntime (repr : PyFloat → String) : Option PyFloat → Except PyError Unit
  | none => .ok ()
  | some (.finite q) =>
    if q ≤ 0 then
      .error (.valueError ("max_runtime_seconds must be > 0 (got " ++ repr (.finite q) ++
        "); pass None to use the worker's configured default."))
    else .ok ()
  | some x =>
    .error (.valueError ("max_runtime_seconds must be a finite positive number (got " ++ repr x ++
      "); pass None to use the worker's configured default."))

theorem validateMaxRuntime_ok {repr : PyFloat → String} {m : Option PyFloat} :
    validateMaxRuntime repr m = .ok () ↔ ∀ x, m = some x → ∃ q, 0 < q ∧ x = .finite q := by
  rcases m with _ | ⟨q⟩ | _ | _ <;> simp [validateMaxRuntime]

/-- The arguments `enqueue` and `upsert` share. `task` and `arguments` are what
`get_function_path` and `serialize` return or raise, `now` is the wall clock of the call. -/
structure Call (P : Type) where
  task : Except PyError String
  arguments : Except PyError P
  runAt : Option PyDatetime
  priority : ℤ
  maxRuntimeSeconds : Option PyFloat
  now : Timestamptz

structure Upsert (P : Type) extends Call P where
  clientId : ClientId

def Call.newTask (env : Env P) (clientId : Option ClientId) (c : Call P) :
    Except PyError (NewTask P) := do
  validateMaxRuntime env.floatRepr c.maxRuntimeSeconds
  let name ← c.task
  let payload ← c.arguments
  let runAt := c.runAt.getD (.aware c.now)
  return ⟨clientId, name, payload, c.priority, runAt, c.maxRuntimeSeconds⟩

namespace NewTask

def row (conn : Conn) (new : NewTask P) (id : ℕ) : Task P where
  id := id
  clientId := new.clientId
  name := new.name
  payload := new.payload
  priority := new.priority
  status := .pending
  runAt := conn.timestamptz new.runAt
  createdAt := conn.now
  startedAt := none
  completedAt := none
  error := none
  attempts := 0
  maxRuntimeSeconds := new.maxRuntimeSeconds
  requeue := none

def requeue (conn : Conn) (new : NewTask P) : JsonObject P :=
  JsonObject.concat
    [("name", .str new.name), ("payload", .doc new.payload), ("priority", .int new.priority),
      ("max_runtime_seconds", Json.ofNullableFloat new.maxRuntimeSeconds)]
    [("run_at", .str (conn.isoformat (conn.timestamptz new.runAt)))]

def unlessRunning {α : Type} (existing : Task P) (value column : α) : α :=
  if existing.status = .running then column else value

def onConflict (conn : Conn) (new : NewTask P) (t : Task P) : Task P :=
  { t with
    name := unlessRunning t new.name t.name
    payload := unlessRunning t new.payload t.payload
    priority := unlessRunning t new.priority t.priority
    status := unlessRunning t .pending t.status
    runAt := unlessRunning t (conn.timestamptz new.runAt) t.runAt
    maxRuntimeSeconds := unlessRunning t new.maxRuntimeSeconds t.maxRuntimeSeconds
    attempts := unlessRunning t 0 t.attempts
    startedAt := unlessRunning t none t.startedAt
    completedAt := unlessRunning t none t.completedAt
    error := unlessRunning t none t.error
    requeue := if t.status = .running then some (new.requeue conn) else none }

def version (conn : Conn) (new : NewTask P) : Version P :=
  ⟨new.name, new.payload, new.priority, conn.timestamptz new.runAt, new.maxRuntimeSeconds⟩

theorem onConflict_running (conn : Conn) (new : NewTask P) {t : Task P} (h : t.status = .running) :
    new.onConflict conn t = { t with requeue := some (new.requeue conn) } := by
  simp [onConflict, unlessRunning, h]

theorem onConflict_idle (conn : Conn) (new : NewTask P) {t : Task P} (h : t.status ≠ .running) :
    new.onConflict conn t = t.fresh (new.version conn) := by
  simp [onConflict, unlessRunning, h, Task.fresh, version]

theorem row_eq_fresh (conn : Conn) (new : NewTask P) (id : ℕ) :
    new.row conn id = (new.row conn id).fresh (new.version conn) := rfl

section Requeue

variable (conn : Conn) (new : NewTask P)

theorem requeue_eq : new.requeue conn =
    [("name", .str new.name), ("payload", .doc new.payload), ("priority", .int new.priority),
      ("max_runtime_seconds", Json.ofNullableFloat new.maxRuntimeSeconds),
      ("run_at", .str (conn.isoformat (conn.timestamptz new.runAt)))] := by
  simp [requeue, JsonObject.concat]

theorem requeue_encodes {env : Env P} {v : Version P} : (new.requeue conn).Encodes env v ↔
    ∃ runAt, env.fromisoformat (conn.isoformat (conn.timestamptz new.runAt)) = some runAt ∧
      v = { new.version conn with runAt := runAt } := by
  have hname : (new.requeue conn).str "name" = .ok new.name := by rw [requeue_eq]; rfl
  have hpayload : (new.requeue conn).doc "payload" = .ok new.payload := by rw [requeue_eq]; rfl
  have hpriority : (new.requeue conn).int "priority" = .ok new.priority := by rw [requeue_eq]; rfl
  have hrun : (new.requeue conn).str "run_at" =
      .ok (conn.isoformat (conn.timestamptz new.runAt)) := by rw [requeue_eq]; rfl
  have hmax : (new.requeue conn).nullableFloat "max_runtime_seconds" =
      .ok new.maxRuntimeSeconds := by
    rw [requeue_eq]
    exact Json.asNullableFloat_of _
  constructor
  · rintro ⟨hn, hp, hi, ⟨iso, hr, ha⟩, hm⟩
    rw [hrun] at hr
    obtain rfl := Except.ok.inj hr
    refine ⟨v.runAt, ha, ?_⟩
    obtain ⟨n, p, i, r, m⟩ := v
    rw [hname] at hn; rw [hpayload] at hp; rw [hpriority] at hi; rw [hmax] at hm
    cases hn; cases hp; cases hi; cases hm
    rfl
  · rintro ⟨runAt, ha, rfl⟩
    exact ⟨hname, hpayload, hpriority, ⟨_, hrun, ha⟩, hmax⟩

end Requeue

end NewTask

def session {α : Type} (tasks : Tasks P) (block : Tasks P → Except PyError (α × Tasks P)) :
    Except PyError α × Tasks P :=
  match block tasks with
  | .ok (a, written) => (.ok a, written)
  | .error e => (.error e, tasks)

/-- The ORM's `UPDATE` of a loaded row; pq assigns neither `id` nor `client_id`. -/
def flush (t : Task P) (tasks : Tasks P) : Tasks P :=
  tasks.update (fun q => q.id == t.id) fun q => { t with id := q.id, clientId := q.clientId }

def insertTask (env : Env P) (conn : Conn) (new : NewTask P) (tasks : Tasks P) :
    Except PyError (ℕ × Tasks P) :=
  if env.columnsOk new then
    match h : tasks.conflict? (new.row conn tasks.next) with
    | none => .ok (tasks.next, tasks.insert (new.row conn) (fun _ => rfl) h)
    | some _ => .error .integrityError
  else .error .dataError

def executeUpsert (env : Env P) (conn : Conn) (new : NewTask P) (tasks : Tasks P) :
    Except PyError (ℕ × Tasks P) :=
  if env.columnsOk new then
    match h : tasks.conflict? (new.row conn tasks.next) with
    | none => .ok (tasks.next, tasks.insert (new.row conn) (fun _ => rfl) h)
    | some existing =>
      .ok (existing.id, tasks.update (fun t => t.id == existing.id) (new.onConflict conn))
  else .error .dataError

theorem flush_replaces {t t' : Task P} {tasks : Tasks P} (ht : t ∈ tasks) (hid : t'.id = t.id)
    (hc : t'.clientId = t.clientId) : tasks.Replaces t t' (flush t' tasks) := by
  have he : ({ t' with id := t.id, clientId := t.clientId } : Task P) = t' := by rw [← hid, ← hc]
  unfold flush
  rw [hid]
  exact Table.update_replaces ht he

theorem insertTask_ok {env : Env P} {conn : Conn} {new : NewTask P} {tasks tasks' : Tasks P} {id : ℕ}
    (h : insertTask env conn new tasks = .ok (id, tasks')) :
    id = tasks.next ∧ tasks.Inserts (new.row conn tasks.next) tasks' := by
  unfold insertTask at h
  split_ifs at h
  split at h
  · cases h
    exact ⟨rfl, Table.insert_inserts⟩
  · cases h

theorem executeUpsert_ok {env : Env P} {conn : Conn} {new : NewTask P} {tasks tasks' : Tasks P}
    {id : ℕ} (h : executeUpsert env conn new tasks = .ok (id, tasks')) :
    (id = tasks.next ∧ tasks.Inserts (new.row conn tasks.next) tasks') ∨
      ∃ t, t.id = id ∧ new.clientId.isSome ∧ t.clientId = new.clientId ∧
        tasks.Replaces t (new.onConflict conn t) tasks' := by
  unfold executeUpsert at h
  split_ifs at h
  split at h
  · cases h
    exact .inl ⟨rfl, Table.insert_inserts⟩
  · rename_i existing hc
    cases h
    obtain ⟨hm, hp⟩ := Table.mem_of_find? hc
    simp only [NewTask.row, sameClient, Bool.or_eq_true, Bool.and_eq_true, beq_iff_eq] at hp
    have hsame : new.clientId.isSome ∧ existing.clientId = new.clientId := by
      rcases hp with ⟨hs, he⟩ | ⟨hs, he⟩
      exacts [⟨hs, he.symm⟩, ⟨he ▸ hs, he⟩]
    exact .inr ⟨existing, rfl, hsame.1, hsame.2, Table.update_replaces hm rfl⟩

theorem session_ok {α : Type} {tasks tasks' : Tasks P} {block : Tasks P → Except PyError (α × Tasks P)}
    {a : α} : session tasks block = (.ok a, tasks') ↔ block tasks = .ok (a, tasks') := by
  unfold session
  cases block tasks <;> simp [Prod.ext_iff]

def enqueue (env : Env P) (conn : Conn) (c : Call P) (clientId : Option ClientId)
    (tasks : Tasks P) : Except PyError ℕ × Tasks P :=
  match c.newTask env clientId with
  | .error e => (.error e, tasks)
  | .ok new => session tasks (insertTask env conn new)

def upsertStatement (env : Env P) (u : Upsert P) : Except PyError (NewTask P) :=
  u.newTask env (some u.clientId)

def upsert (env : Env P) (conn : Conn) (u : Upsert P) (tasks : Tasks P) :
    Except PyError ℕ × Tasks P :=
  match upsertStatement env u with
  | .error e => (.error e, tasks)
  | .ok stmt => session tasks (executeUpsert env conn stmt)

def upsertStatements (env : Env P) : List (Upsert P) → Except PyError (List (Upsert P × NewTask P))
  | [] => .ok []
  | u :: us => do
    let stmt ← upsertStatement env u
    let stmts ← upsertStatements env us
    return (u, stmt) :: stmts

theorem upsertStatements_ok {env : Env P} {us : List (Upsert P)} {stmts : List (Upsert P × NewTask P)}
    (h : upsertStatements env us = .ok stmts) :
    stmts.map Prod.fst = us ∧ ∀ a ∈ stmts, upsertStatement env a.1 = .ok a.2 := by
  induction us generalizing stmts with
  | nil => cases h; simp
  | cons u us ih =>
    simp only [upsertStatements, bind_ok] at h
    obtain ⟨stmt, hu, rest, hr, he⟩ := h
    obtain ⟨hm, hall⟩ := ih hr
    cases he
    exact ⟨by simp [hm], by simpa [hu] using hall⟩

theorem Call.newTask_ok {env : Env P} {c : Call P} {clientId : Option ClientId} {new : NewTask P}
    (h : c.newTask env clientId = .ok new) :
    new.clientId = clientId ∧ c.arguments = .ok new.payload := by
  simp only [Call.newTask, bind_ok] at h
  obtain ⟨-, -, name, -, payload, hp, he⟩ := h
  cases he
  exact ⟨rfl, hp⟩

/-- The batch in `client_id` order; repeated ids keep their input order. -/
def upsertOrder (stmts : List (Upsert P × NewTask P)) : List ((Upsert P × NewTask P) × ℕ) :=
  stmts.zipIdx.insertionSort fun a b => a.1.1.clientId ≤ b.1.1.clientId

def executeAll (env : Env P) (conn : Conn) : List ((Upsert P × NewTask P) × ℕ) → Tasks P →
    Except PyError (List (ℕ × ℕ) × Tasks P)
  | [], tasks => .ok ([], tasks)
  | ((_, stmt), i) :: rest, tasks => do
    let (id, tasks) ← executeUpsert env conn stmt tasks
    let (ids, tasks) ← executeAll env conn rest tasks
    return ((i, id) :: ids, tasks)

def upsertMany (env : Env P) (conn : Conn) (us : List (Upsert P)) (tasks : Tasks P) :
    Except PyError (List ℕ) × Tasks P :=
  match upsertStatements env us with
  | .error e => (.error e, tasks)
  | .ok stmts => session tasks fun tasks => do
    let (ids, tasks) ← executeAll env conn (upsertOrder stmts) tasks
    return ((List.range us.length).map fun i => (ids.lookup i).getD 0, tasks)

section Accepted

variable {env : Env P} {conn : Conn} {tasks tasks' : Tasks P}

theorem enqueue_ok {c : Call P} {clientId : Option ClientId} {id : ℕ}
    (h : enqueue env conn c clientId tasks = (.ok id, tasks')) :
    ∃ new, c.newTask env clientId = .ok new ∧ insertTask env conn new tasks = .ok (id, tasks') := by
  unfold enqueue at h
  split at h
  · cases h
  · rename_i new hn
    exact ⟨new, hn, session_ok.mp h⟩

theorem upsert_ok {u : Upsert P} {id : ℕ} (h : upsert env conn u tasks = (.ok id, tasks')) :
    ∃ new, upsertStatement env u = .ok new ∧ executeUpsert env conn new tasks = .ok (id, tasks') := by
  unfold upsert at h
  split at h
  · cases h
  · rename_i new hn
    exact ⟨new, hn, session_ok.mp h⟩

theorem upsertMany_ok {us : List (Upsert P)} {ids : List ℕ}
    (h : upsertMany env conn us tasks = (.ok ids, tasks')) :
    ∃ stmts written, upsertStatements env us = .ok stmts ∧
      executeAll env conn (upsertOrder stmts) tasks = .ok (written, tasks') ∧
      ids = (List.range us.length).map fun i => (written.lookup i).getD 0 := by
  unfold upsertMany at h
  split at h
  · cases h
  · rename_i stmts hs
    have h := session_ok.mp h
    simp only [bind_ok] at h
    obtain ⟨⟨written, last⟩, hx, he⟩ := h
    cases he
    exact ⟨stmts, written, hs, hx, rfl⟩

theorem upsertOrder_perm (stmts : List (Upsert P × NewTask P)) :
    (upsertOrder stmts).Perm stmts.zipIdx := List.perm_insertionSort _ _

end Accepted

def cancel (id : ℕ) (tasks : Tasks P) : Tasks P :=
  tasks.delete fun t => t.id == id

/-- `completed_at < before`, where a NULL `completed_at` compares as unknown. -/
def closedBefore (before : Option Timestamptz) (t : Task P) : Bool :=
  match before with
  | none => true
  | some limit => t.completedAt.any fun c => decide (c < limit)

def clearCompleted (before : Option Timestamptz) (tasks : Tasks P) : Tasks P :=
  tasks.delete fun t => t.status == .completed && closedBefore before t

def clearFailed (before : Option Timestamptz) (tasks : Tasks P) : Tasks P :=
  tasks.delete fun t => t.status == .failed && closedBefore before t

def clearAll (tasks : Tasks P) : Tasks P :=
  tasks.delete fun _ => true

section Sample

def sampleEnv : Env P where
  floatRepr
    | .finite q => toString q ++ ".0"
    | .inf negative => if negative then "-inf" else "inf"
    | .nan => "nan"
  floatText
    | .finite q => toString q
    | .inf negative => if negative then "-Infinity" else "Infinity"
    | .nan => "NaN"
  fromisoformat s := if s = "1970-01-01T00:00:00+00:00" then some 0 else none
  columnsOk _ := true

def sampleConn : Conn where
  now := 0
  readNaive := id
  isoformat t := if t = 0 then "1970-01-01T00:00:00+00:00" else ""
  addDays n t := t + n * 86400000000
  addDays_zero t := by simp

def sampleUpsert (arguments : String) : Upsert String where
  task := .ok "reports:build"
  arguments := .ok arguments
  runAt := some (.aware 0)
  priority := 0
  maxRuntimeSeconds := none
  now := 0
  clientId := "report"

def sampleNew (arguments : P) : NewTask P :=
  ⟨some "report", "reports:build", arguments, 0, .aware 0, none⟩

end Sample

end PostgresQueue
