import Mathlib.Data.Rat.Defs
import PostgresQueue.Library.KeyedTable

namespace PostgresQueue

open Library

/-- Microseconds since the epoch. -/
abbrev Timestamptz := ℤ

abbrev ClientId := String

inductive PyFloat
  | finite (q : ℚ)
  | inf (negative : Bool)
  | nan
deriving DecidableEq

/-- The code points of a Python string, lone surrogates among them. -/
abbrev PyText := List (Char ⊕ Fin 2048)

def pyText (s : String) : PyText := s.toList.map .inl

inductive PyDatetime
  | aware (t : Timestamptz)
  | naive (wall : ℤ)
deriving DecidableEq

inductive PyError
  | valueError (msg : String)
  | keyError (key : String)
  | typeError
  | overflowError
  | integrityError
  | dataError
deriving DecidableEq

/-- The JSON values of a parked version. `doc` is a whole payload, which pq never looks into. -/
inductive Json (P : Type)
  | null
  | int (i : ℤ)
  | float (x : PyFloat)
  | str (s : String)
  | doc (p : P)
deriving DecidableEq

abbrev JsonObject (P : Type) := List (String × Json P)

inductive TaskStatus
  | pending
  | running
  | completed
  | failed
deriving DecidableEq

structure Task (P : Type) where
  id : ℕ
  clientId : Option ClientId
  name : String
  payload : P
  priority : ℤ
  status : TaskStatus
  runAt : Timestamptz
  createdAt : Timestamptz
  startedAt : Option Timestamptz
  completedAt : Option Timestamptz
  error : Option String
  attempts : ℕ
  maxRuntimeSeconds : Option PyFloat
  requeue : Option (JsonObject P)
deriving DecidableEq

structure NewTask (P : Type) where
  clientId : Option ClientId
  name : String
  payload : P
  priority : ℤ
  runAt : PyDatetime
  maxRuntimeSeconds : Option PyFloat
deriving DecidableEq

/-- What a session fixes for its statements: `now()`, and its time zone, which says how a
naive timestamp is read, how a `timestamptz` is written inside JSON and how long a day is. -/
structure Conn where
  now : Timestamptz
  readNaive : ℤ → Timestamptz
  isoformat : Timestamptz → String
  addDays : ℤ → Timestamptz → Timestamptz
  addDays_zero : ∀ t, addDays 0 t = t

structure Env (P : Type) where
  floatRepr : PyFloat → String
  floatText : PyFloat → String
  fromisoformat : String → Option Timestamptz
  columnsOk : NewTask P → Bool

/-- The range of `timestamptz`: 4714-11-24 BC up to the end of the year 294276. -/
def timestamptzInRange (t : Timestamptz) : Bool :=
  decide (-210866803200000000 ≤ t ∧ t < 9224318016000000000)

def timestamptz (t : Timestamptz) : Except PyError Timestamptz :=
  if timestamptzInRange t then .ok t else .error .dataError

def Conn.timestamptz (conn : Conn) : PyDatetime → Timestamptz
  | .aware t => t
  | .naive wall => conn.readNaive wall

/-- The unique index on `client_id`: NULLs are distinct. -/
def sameClient (a b : Option ClientId) : Bool := a.isSome && a == b

abbrev Tasks (P : Type) := Table (Task.id (P := P)) Task.clientId sameClient

section Json

variable {P : Type}

def JsonObject.concat (a b : JsonObject P) : JsonObject P :=
  a.filter (fun entry => !(b.map Prod.fst).contains entry.1) ++ b

def orRaise {α : Type} (o : Option α) (e : PyError) : Except PyError α :=
  match o with
  | some a => .ok a
  | none => .error e

def JsonObject.get (o : JsonObject P) (key : String) : Except PyError (Json P) :=
  orRaise (o.lookup key) (.keyError key)

def Json.asStr : Json P → Except PyError String
  | .str s => .ok s
  | _ => .error .typeError

def Json.asDoc : Json P → Except PyError P
  | .doc p => .ok p
  | _ => .error .typeError

def Json.asInt : Json P → Except PyError ℤ
  | .int i => .ok i
  | _ => .error .typeError

def Json.asNullableFloat : Json P → Except PyError (Option PyFloat)
  | .null => .ok none
  | .float x => .ok (some x)
  | .int i => .ok (some (.finite i))
  | _ => .error .typeError

def Json.ofNullableFloat : Option PyFloat → Json P
  | none => .null
  | some x => .float x

def JsonObject.str (o : JsonObject P) (key : String) : Except PyError String :=
  o.get key >>= Json.asStr

def JsonObject.doc (o : JsonObject P) (key : String) : Except PyError P :=
  o.get key >>= Json.asDoc

def JsonObject.int (o : JsonObject P) (key : String) : Except PyError ℤ :=
  o.get key >>= Json.asInt

def JsonObject.nullableFloat (o : JsonObject P) (key : String) : Except PyError (Option PyFloat) :=
  o.get key >>= Json.asNullableFloat

@[simp] theorem Json.asNullableFloat_of (x : Option PyFloat) :
    (Json.ofNullableFloat x : Json P).asNullableFloat = .ok x := by
  cases x <;> rfl

theorem orRaise_ok {α : Type} {o : Option α} {e : PyError} {a : α} :
    orRaise o e = .ok a ↔ o = some a := by
  cases o <;> simp [orRaise]

theorem bind_ok {α β : Type} {x : Except PyError α} {f : α → Except PyError β} {b : β} :
    x >>= f = .ok b ↔ ∃ a, x = .ok a ∧ f a = .ok b := by
  cases x <;> simp [bind, Except.bind]

end Json

namespace Task

variable {P : Type}

def applyRequeue (env : Env P) (t : Task P) : Except PyError (Task P) := do
  let spec ← orRaise t.requeue
    (.valueError ("Task id=" ++ toString t.id ++ " has no parked requeue version"))
  let name ← spec.str "name"
  let payload ← spec.doc "payload"
  let priority ← spec.int "priority"
  let isoformat ← spec.str "run_at"
  let runAt ← orRaise (env.fromisoformat isoformat)
    (.valueError ("Invalid isoformat string: '" ++ isoformat ++ "'"))
  let maxRuntimeSeconds ← spec.nullableFloat "max_runtime_seconds"
  return { t with
    name := name
    payload := payload
    priority := priority
    runAt := runAt
    maxRuntimeSeconds := maxRuntimeSeconds
    status := .pending
    attempts := 0
    startedAt := none
    completedAt := none
    error := none
    requeue := none }

end Task

/-- What a caller submits and a run executes: the columns an upsert replaces, in any status. -/
structure Version (P : Type) where
  name : String
  payload : P
  priority : ℤ
  runAt : Timestamptz
  maxRuntimeSeconds : Option PyFloat
deriving DecidableEq

structure JsonObject.Encodes {P : Type} (env : Env P) (spec : JsonObject P) (v : Version P) : Prop where
  name : spec.str "name" = .ok v.name
  payload : spec.doc "payload" = .ok v.payload
  priority : spec.int "priority" = .ok v.priority
  runAt : ∃ isoformat, spec.str "run_at" = .ok isoformat ∧ env.fromisoformat isoformat = some v.runAt
  maxRuntimeSeconds : spec.nullableFloat "max_runtime_seconds" = .ok v.maxRuntimeSeconds

namespace Task

variable {P : Type}

def version (t : Task P) : Version P :=
  ⟨t.name, t.payload, t.priority, t.runAt, t.maxRuntimeSeconds⟩

def fresh (t : Task P) (v : Version P) : Task P where
  id := t.id
  clientId := t.clientId
  name := v.name
  payload := v.payload
  priority := v.priority
  status := .pending
  runAt := v.runAt
  createdAt := t.createdAt
  startedAt := none
  completedAt := none
  error := none
  attempts := 0
  maxRuntimeSeconds := v.maxRuntimeSeconds
  requeue := none

theorem applyRequeue_ok {env : Env P} {t t' : Task P} : t.applyRequeue env = .ok t' ↔
    ∃ spec v, t.requeue = some spec ∧ spec.Encodes env v ∧ t' = t.fresh v := by
  simp only [applyRequeue, bind_ok, orRaise_ok]
  constructor
  · rintro ⟨spec, hs, name, hn, payload, hp, priority, hi, iso, hr, runAt, ha, m, hm, he⟩
    exact ⟨spec, ⟨name, payload, priority, runAt, m⟩, hs, ⟨hn, hp, hi, ⟨iso, hr, ha⟩, hm⟩,
      (Except.ok.inj he).symm⟩
  · rintro ⟨spec, v, hs, ⟨hn, hp, hi, ⟨iso, hr, ha⟩, hm⟩, rfl⟩
    exact ⟨spec, hs, v.name, hn, v.payload, hp, v.priority, hi, iso, hr, v.runAt, ha,
      v.maxRuntimeSeconds, hm, rfl⟩

end Task

end PostgresQueue
