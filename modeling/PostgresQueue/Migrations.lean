import Mathlib.Data.Fintype.OfMap
import Mathlib.Tactic.IntervalCases
import PostgresQueue.Library.Ddl
import PostgresQueue.Models

namespace PostgresQueue.Migrations

open Library.Ddl

inductive TableName
  | pqPeriodic
  | pqTasks
deriving DecidableEq

inductive ColumnName
  | id
  | clientId
  | name
  | key
  | payload
  | priority
  | status
  | runEvery
  | cron
  | runAt
  | nextRun
  | lastRun
  | createdAt
  | startedAt
  | completedAt
  | error
  | attempts
  | maxConcurrent
  | lockedUntil
  | active
  | maxRuntimeSeconds
  | requeue
deriving DecidableEq

inductive IndexName
  | pqPeriodicPkey
  | pqPeriodicNameKey
  | uqPqPeriodicNameKey
  | ixPqPeriodicPriorityNextRun
  | ixPqPeriodicClientId
  | pqTasksPkey
  | ixPqTasksStatusPriorityRunAt
  | ixPqTasksClientId
deriving DecidableEq

instance : Fintype TableName := Fintype.ofList [.pqPeriodic, .pqTasks] fun t => by cases t <;> decide

instance : Fintype ColumnName :=
  Fintype.ofList [.id, .clientId, .name, .key, .payload, .priority, .status, .runEvery, .cron, .runAt,
    .nextRun, .lastRun, .createdAt, .startedAt, .completedAt, .error, .attempts, .maxConcurrent,
    .lockedUntil, .active, .maxRuntimeSeconds, .requeue] fun c => by cases c <;> decide

instance : Fintype IndexName :=
  Fintype.ofList [.pqPeriodicPkey, .pqPeriodicNameKey, .uqPqPeriodicNameKey,
    .ixPqPeriodicPriorityNextRun, .ixPqPeriodicClientId, .pqTasksPkey, .ixPqTasksStatusPriorityRunAt,
    .ixPqTasksClientId] fun i => by cases i <;> decide

inductive SqlType
  | bigInteger
  | smallInteger
  | integer
  | string (length : ℕ)
  | text
  | boolean
  | float
  | interval
  | dateTime
  | jsonb
  | taskStatus

inductive SqlValue (P : Type)
  | int (n : ℤ)
  | text (s : String)
  | boolean (b : Bool)
  | float (x : PyFloat)
  | interval (microseconds : ℤ)
  | dateTime (t : Timestamptz)
  | payload (p : P)
  | requeue (version : JsonObject P)
  | status (s : TaskStatus)
deriving DecidableEq

variable {P : Type}

def fits : SqlType → SqlValue P → Prop
  | .bigInteger, .int n => -9223372036854775808 ≤ n ∧ n ≤ 9223372036854775807
  | .smallInteger, .int n => -32768 ≤ n ∧ n ≤ 32767
  | .integer, .int n => -2147483648 ≤ n ∧ n ≤ 2147483647
  | .string length, .text s => s.length ≤ length
  | .text, .text _ | .boolean, .boolean _ | .float, .float _ | .interval, .interval _
  | .dateTime, .dateTime _ | .jsonb, .payload _ | .jsonb, .requeue _ | .taskStatus, .status _ => True
  | _, _ => False

abbrev Operation (P : Type) := Op TableName ColumnName IndexName SqlType (SqlValue P)

abbrev Schema (P : Type) := Catalog TableName ColumnName IndexName SqlType (SqlValue P)

abbrev Db (P : Type) := Database TableName ColumnName IndexName SqlType (SqlValue P)

structure Revision (P : Type) where
  revision : String
  downRevision : Option String
  upgrade : List (Operation P)
  downgrade : List (Operation P)

def column (type : SqlType) (nullable : Bool) : Option (Column SqlType (SqlValue P)) :=
  some ⟨type, nullable, none⟩

def initialSchema : Revision P where
  revision := "476683af098d"
  downRevision := none
  upgrade := [
    .createTable .pqPeriodic {
      columns := fun
        | .id => column .bigInteger false
        | .name => column (.string 255) false
        | .payload => column .jsonb false
        | .priority => column .smallInteger false
        | .runEvery => column .interval true
        | .cron => column (.string 100) true
        | .nextRun => column .dateTime false
        | .lastRun => column .dateTime true
        | .createdAt => column .dateTime false
        | _ => none
      indexes := fun
        | .pqPeriodicPkey => some ⟨[.id], .constraint⟩
        | .pqPeriodicNameKey => some ⟨[.name], .constraint⟩
        | _ => none },
    .createIndex .pqPeriodic .ixPqPeriodicPriorityNextRun ⟨[.priority, .nextRun], .plain⟩,
    .createTable .pqTasks {
      columns := fun
        | .id => column .bigInteger false
        | .name => column (.string 255) false
        | .payload => column .jsonb false
        | .priority => column .smallInteger false
        | .status => column .taskStatus false
        | .runAt => column .dateTime false
        | .createdAt => column .dateTime false
        | .startedAt => column .dateTime true
        | .completedAt => column .dateTime true
        | .error => column .text true
        | .attempts => column .integer false
        | _ => none
      indexes := fun
        | .pqTasksPkey => some ⟨[.id], .constraint⟩
        | _ => none },
    .createIndex .pqTasks .ixPqTasksStatusPriorityRunAt ⟨[.status, .priority, .runAt], .plain⟩]
  downgrade := [
    .dropIndex .pqTasks .ixPqTasksStatusPriorityRunAt,
    .dropTable .pqTasks,
    .dropIndex .pqPeriodic .ixPqPeriodicPriorityNextRun,
    .dropTable .pqPeriodic]

def addClientId : Revision P where
  revision := "2483bec70083"
  downRevision := some "476683af098d"
  upgrade := [
    .addColumn .pqTasks .clientId ⟨.string 255, true, none⟩,
    .createIndex .pqTasks .ixPqTasksClientId ⟨[.clientId], .unique⟩,
    .addColumn .pqPeriodic .clientId ⟨.string 255, true, none⟩,
    .createIndex .pqPeriodic .ixPqPeriodicClientId ⟨[.clientId], .unique⟩]
  downgrade := [
    .dropIndex .pqPeriodic .ixPqPeriodicClientId,
    .dropColumn .pqPeriodic .clientId,
    .dropIndex .pqTasks .ixPqTasksClientId,
    .dropColumn .pqTasks .clientId]

def addMaxConcurrent : Revision P where
  revision := "a1b2c3d4e5f6"
  downRevision := some "2483bec70083"
  upgrade := [
    .addColumn .pqPeriodic .maxConcurrent ⟨.smallInteger, true, none⟩,
    .addColumn .pqPeriodic .lockedUntil ⟨.dateTime, true, none⟩,
    .fill .pqPeriodic .maxConcurrent (.int 1)]
  downgrade := [
    .dropColumn .pqPeriodic .lockedUntil,
    .dropColumn .pqPeriodic .maxConcurrent]

def addPeriodicKey : Revision P where
  revision := "b7c8d9e0f1a2"
  downRevision := some "a1b2c3d4e5f6"
  upgrade := [
    .addColumn .pqPeriodic .key ⟨.string 255, false, some (.text "")⟩,
    .dropConstraint .pqPeriodic .pqPeriodicNameKey,
    .createIndex .pqPeriodic .uqPqPeriodicNameKey ⟨[.name, .key], .constraint⟩]
  downgrade := [
    .dropConstraint .pqPeriodic .uqPqPeriodicNameKey,
    .dropColumn .pqPeriodic .key,
    .createIndex .pqPeriodic .pqPeriodicNameKey ⟨[.name], .constraint⟩]

def addPeriodicActive : Revision P where
  revision := "c3d4e5f6a7b8"
  downRevision := some "b7c8d9e0f1a2"
  upgrade := [.addColumn .pqPeriodic .active ⟨.boolean, false, some (.boolean true)⟩]
  downgrade := [.dropColumn .pqPeriodic .active]

def addTaskMaxRuntimeSeconds : Revision P where
  revision := "aee3e8e7e647"
  downRevision := some "c3d4e5f6a7b8"
  upgrade := [
    .addColumn .pqTasks .maxRuntimeSeconds ⟨.float, true, none⟩,
    .addColumn .pqPeriodic .maxRuntimeSeconds ⟨.float, true, none⟩]
  downgrade := [
    .dropColumn .pqPeriodic .maxRuntimeSeconds,
    .dropColumn .pqTasks .maxRuntimeSeconds]

def addTaskRequeue : Revision P where
  revision := "d4e5f6a7b8c9"
  downRevision := some "aee3e8e7e647"
  upgrade := [.addColumn .pqTasks .requeue ⟨.jsonb, true, none⟩]
  downgrade := [.dropColumn .pqTasks .requeue]

def versions : List (Revision P) :=
  [initialSchema, addClientId, addMaxConcurrent, addPeriodicKey, addPeriodicActive,
    addTaskMaxRuntimeSeconds, addTaskRequeue]

/-- The revision that adds the column, counted from 1, and what it adds. -/
def columnSince : TableName → ColumnName → Option (ℕ × Column SqlType (SqlValue P))
  | _, .id => some (1, ⟨.bigInteger, false, none⟩)
  | _, .clientId => some (2, ⟨.string 255, true, none⟩)
  | _, .name => some (1, ⟨.string 255, false, none⟩)
  | .pqPeriodic, .key => some (4, ⟨.string 255, false, some (.text "")⟩)
  | _, .payload => some (1, ⟨.jsonb, false, none⟩)
  | _, .priority => some (1, ⟨.smallInteger, false, none⟩)
  | .pqTasks, .status => some (1, ⟨.taskStatus, false, none⟩)
  | .pqPeriodic, .runEvery => some (1, ⟨.interval, true, none⟩)
  | .pqPeriodic, .cron => some (1, ⟨.string 100, true, none⟩)
  | .pqTasks, .runAt => some (1, ⟨.dateTime, false, none⟩)
  | .pqPeriodic, .nextRun => some (1, ⟨.dateTime, false, none⟩)
  | .pqPeriodic, .lastRun => some (1, ⟨.dateTime, true, none⟩)
  | _, .createdAt => some (1, ⟨.dateTime, false, none⟩)
  | .pqTasks, .startedAt => some (1, ⟨.dateTime, true, none⟩)
  | .pqTasks, .completedAt => some (1, ⟨.dateTime, true, none⟩)
  | .pqTasks, .error => some (1, ⟨.text, true, none⟩)
  | .pqTasks, .attempts => some (1, ⟨.integer, false, none⟩)
  | .pqPeriodic, .maxConcurrent => some (3, ⟨.smallInteger, true, none⟩)
  | .pqPeriodic, .lockedUntil => some (3, ⟨.dateTime, true, none⟩)
  | .pqPeriodic, .active => some (5, ⟨.boolean, false, some (.boolean true)⟩)
  | _, .maxRuntimeSeconds => some (6, ⟨.float, true, none⟩)
  | .pqTasks, .requeue => some (7, ⟨.jsonb, true, none⟩)
  | _, _ => none

def indexAt (k : ℕ) : TableName → IndexName → Option (Index ColumnName)
  | .pqPeriodic, .pqPeriodicPkey => some ⟨[.id], .constraint⟩
  | .pqPeriodic, .pqPeriodicNameKey => if k < 4 then some ⟨[.name], .constraint⟩ else none
  | .pqPeriodic, .uqPqPeriodicNameKey => if k < 4 then none else some ⟨[.name, .key], .constraint⟩
  | .pqPeriodic, .ixPqPeriodicPriorityNextRun => some ⟨[.priority, .nextRun], .plain⟩
  | .pqPeriodic, .ixPqPeriodicClientId => if k < 2 then none else some ⟨[.clientId], .unique⟩
  | .pqTasks, .pqTasksPkey => some ⟨[.id], .constraint⟩
  | .pqTasks, .ixPqTasksStatusPriorityRunAt => some ⟨[.status, .priority, .runAt], .plain⟩
  | .pqTasks, .ixPqTasksClientId => if k < 2 then none else some ⟨[.clientId], .unique⟩
  | _, _ => none

def schemaAt : ℕ → Schema P
  | 0, _ => none
  | k + 1, t => some {
      columns := fun c => ((columnSince t c).filter fun column => column.1 ≤ k + 1).map Prod.snd
      indexes := indexAt (k + 1) t }

theorem versions_forall {p : ℕ → Revision P → Prop} (h₀ : p 0 initialSchema) (h₁ : p 1 addClientId)
    (h₂ : p 2 addMaxConcurrent) (h₃ : p 3 addPeriodicKey) (h₄ : p 4 addPeriodicActive)
    (h₅ : p 5 addTaskMaxRuntimeSeconds) (h₆ : p 6 addTaskRequeue) {k : ℕ} {rev : Revision P}
    (h : versions[k]? = some rev) : p k rev := by
  obtain ⟨hk, he⟩ := List.getElem?_eq_some_iff.mp h
  subst he
  match k, hk with
  | 0, _ => exact h₀
  | 1, _ => exact h₁
  | 2, _ => exact h₂
  | 3, _ => exact h₃
  | 4, _ => exact h₄
  | 5, _ => exact h₅
  | 6, _ => exact h₆

theorem schema_ext {columns columns' : ColumnName → Option (Column SqlType (SqlValue P))}
    {indexes indexes' : IndexName → Option (Index ColumnName)} (hc : ∀ c, columns c = columns' c)
    (hi : ∀ i, indexes i = indexes' i) : some (Shape.mk columns indexes) = some ⟨columns', indexes'⟩ := by
  rw [funext hc, funext hi]

theorem upgrade_schema {k : ℕ} {rev : Revision P} (h : versions[k]? = some rev) :
    alterAll rev.upgrade (schemaAt k) = .ok (schemaAt (k + 1)) := by
  apply versions_forall (p := fun k rev => alterAll rev.upgrade (schemaAt k) = .ok (schemaAt (k + 1)))
    _ _ _ _ _ _ _ h <;>
  · refine congrArg Except.ok (funext fun t => ?_)
    cases t <;> refine schema_ext (fun c => ?_) fun i => ?_
    all_goals first | (cases c <;> rfl) | (cases i <;> rfl)

theorem downgrade_schema {k : ℕ} {rev : Revision P} (h : versions[k]? = some rev) :
    alterAll rev.downgrade (schemaAt (k + 1)) = .ok (schemaAt k) := by
  apply versions_forall
    (p := fun k rev => alterAll rev.downgrade (schemaAt (k + 1)) = .ok (schemaAt k))
    _ _ _ _ _ _ _ h
  · refine congrArg Except.ok (funext fun t => ?_)
    cases t <;> rfl
  all_goals
    refine congrArg Except.ok (funext fun t => ?_)
    cases t <;> refine schema_ext (fun c => ?_) fun i => ?_
    all_goals first | (cases c <;> rfl) | (cases i <;> rfl)

/-- The revision that adds the column; 8 where none does. -/
def since (t : TableName) (c : ColumnName) : ℕ := ((columnSince (P := Empty) t c).map Prod.fst).getD 8

/-- What a row gets that is older than the column. -/
def fresh : TableName → ColumnName → Option (SqlValue P)
  | .pqPeriodic, .maxConcurrent => some (.int 1)
  | .pqPeriodic, .key => some (.text "")
  | .pqPeriodic, .active => some (.boolean true)
  | _, _ => none

abbrev SqlRow (P : Type) := Row ColumnName (SqlValue P)

def grow (k : ℕ) (t : TableName) (r : SqlRow P) : SqlRow P := fun c =>
  if since t c = k + 1 then fresh t c else r c

def shrink (k : ℕ) (t : TableName) (r : SqlRow P) : SqlRow P := fun c =>
  if since t c = k + 1 then none else r c

theorem onAll_map {ops : List (Operation P)} {f : TableName → SqlRow P → SqlRow P}
    (h : (∀ op ∈ ops, op.keepsTables = true) ∧ ∀ t r c, rowAll ops t r c = f t r c)
    (rows : TableName → List (SqlRow P)) : onAll ops rows = fun t => (rows t).map (f t) := by
  funext t
  rw [onAll_eq h.1]
  apply List.map_congr_left
  intro r _
  exact funext (h.2 t r)

theorem onAll_grow {k : ℕ} {rev : Revision P} (hrev : versions[k]? = some rev) (hk : k ≠ 0)
    (rows : TableName → List (SqlRow P)) :
    onAll rev.upgrade rows = fun t => (rows t).map (grow k t) := by
  apply onAll_map
  revert hk
  apply versions_forall (p := fun k rev => k ≠ 0 → (∀ op ∈ rev.upgrade, op.keepsTables = true) ∧
    ∀ t (r : SqlRow P) c, rowAll rev.upgrade t r c = grow k t r c) (absurd rfl) _ _ _ _ _ _ hrev
  all_goals
    intro _
    refine ⟨List.all_eq_true.mp rfl, fun t r c => ?_⟩
    cases t <;> cases c <;> rfl

theorem onAll_shrink {k : ℕ} {rev : Revision P} (hrev : versions[k]? = some rev) (hk : k ≠ 0)
    (rows : TableName → List (SqlRow P)) :
    onAll rev.downgrade rows = fun t => (rows t).map (shrink k t) := by
  apply onAll_map
  revert hk
  apply versions_forall (p := fun k rev => k ≠ 0 → (∀ op ∈ rev.downgrade, op.keepsTables = true) ∧
    ∀ t (r : SqlRow P) c, rowAll rev.downgrade t r c = shrink k t r c) (absurd rfl) _ _ _ _ _ _ hrev
  all_goals
    intro _
    refine ⟨List.all_eq_true.mp rfl, fun t r c => ?_⟩
    cases t <;> cases c <;> rfl

section Ready

theorem no_clash_null (rows : List (SqlRow P)) (c : ColumnName) :
    (rows.map fun r => Function.update r c none).Pairwise fun r q => ¬Clash [c] r q := by
  apply List.pairwise_of_forall_mem_list
  intro r hr q _ hclash
  obtain ⟨r, -, rfl⟩ := List.mem_map.mp hr
  exact (hclash c List.mem_cons_self).1 (Function.update_self _ _ _)

variable {db : Db P}

def NamesDistinct (rows : List (SqlRow P)) : Prop := rows.Pairwise fun r q => ¬Clash [.name] r q

theorem Valid.names_distinct (hv : db.Valid fits) {k : ℕ} (hk : k < 3)
    (hc : db.catalog = schemaAt (k + 1)) : NamesDistinct (db.rows .pqPeriodic) := by
  have hs : db.catalog .pqPeriodic = schemaAt (k + 1) .pqPeriodic := congrFun hc _
  refine (hv.rows .pqPeriodic _ hs).unique .pqPeriodicNameKey ⟨[.name], .constraint⟩ ?_ (by decide)
  exact if_pos (by omega)

theorem fits_null {type : SqlType} : ∀ v ∈ (none : Option (SqlValue P)), fits type v := by
  intro v hv
  cases hv

theorem upgrade_ready {k : ℕ} {rev : Revision P} (hrev : versions[k]? = some rev)
    (hv : db.Valid fits) (hc : db.catalog = schemaAt k) :
    ReadyAll fits rev.upgrade (schemaAt k) db.rows := by
  revert hc
  apply versions_forall
    (p := fun k rev => db.catalog = schemaAt k → ReadyAll fits rev.upgrade (schemaAt k) db.rows)
    _ _ _ _ _ _ _ hrev
  · intro _
    refine ⟨?_, fun _ _ => trivial, fun _ _ => ⟨trivial, fun _ _ => .inl rfl, fun _ _ => ⟨?_,
      fun _ _ => trivial, fun _ _ => ⟨trivial, fun _ _ => .inl rfl, fun _ _ => trivial⟩⟩⟩⟩
    · intro i index hi c hcol
      cases i <;> cases hi
      all_goals
        simp only [List.mem_singleton] at hcol
        subst hcol
        exact Option.some_ne_none _
    · intro i index hi c hcol
      cases i <;> cases hi
      simp only [List.mem_singleton] at hcol
      subst hcol
      exact Option.some_ne_none _
  · intro _
    refine ⟨fits_null, fun _ _ => .inl rfl, fun _ _ => ⟨trivial, fun _ _ => .inr ?_, fun _ _ => ⟨fits_null,
      fun _ _ => .inl rfl, fun _ _ => ⟨trivial, fun _ _ => .inr ?_, fun _ _ => trivial⟩⟩⟩⟩
    · exact no_clash_null _ _
    · exact no_clash_null _ _
  · intro _
    refine ⟨fits_null, fun _ _ => .inl rfl, fun _ h => ⟨fits_null, fun _ _ => .inl rfl, fun _ h' => ⟨?_, ?_,
      fun _ _ => trivial⟩⟩⟩
    all_goals
      cases h
      cases h'
      intro s hs
      cases hs
    · intro column hcol
      cases hcol
      exact ⟨by decide, by decide⟩
    · intro i index hi hk
      cases i <;> cases hi <;> simp at hk ⊢
  · intro hc
    refine ⟨?_, fun _ _ => .inr (.inl (Option.some_ne_none _)), fun _ _ => ⟨trivial, fun _ _ => trivial,
      fun _ _ => ⟨trivial, fun _ _ => .inr ?_, fun _ _ => trivial⟩⟩⟩
    · rintro v ⟨⟩
      exact Nat.zero_le _
    · change ((db.rows .pqPeriodic).map fun r : SqlRow P =>
        Function.update r .key (some (.text ""))).Pairwise _
      rw [List.pairwise_map]
      refine (Valid.names_distinct hv (by decide) hc).imp fun hn hclash => hn ?_
      intro c hcol
      rw [List.mem_singleton.mp hcol]
      exact hclash .name List.mem_cons_self
  · intro _
    refine ⟨?_, fun _ _ => .inr (.inl (Option.some_ne_none _)), fun _ _ => trivial⟩
    rintro v ⟨⟩
    trivial
  · intro _
    exact ⟨fits_null, fun _ _ => .inl rfl, fun _ _ => ⟨fits_null, fun _ _ => .inl rfl, fun _ _ => trivial⟩⟩
  · intro _
    exact ⟨fits_null, fun _ _ => .inl rfl, fun _ _ => trivial⟩

theorem namesDistinct_map {rows : List (SqlRow P)} {f : SqlRow P → SqlRow P}
    (hf : ∀ r, f r .name = r .name) : NamesDistinct (rows.map f) ↔ NamesDistinct rows := by
  unfold NamesDistinct
  rw [List.pairwise_map]
  simp only [Clash, List.mem_singleton, forall_eq, hf]

theorem downgrade_ready {k : ℕ} {rev : Revision P} (hrev : versions[k]? = some rev) (hk : k ≠ 0)
    (hn : k = 3 → NamesDistinct (db.rows .pqPeriodic)) :
    ReadyAll fits rev.downgrade (schemaAt (k + 1)) db.rows := by
  revert hk hn
  apply versions_forall (p := fun k rev => k ≠ 0 → (k = 3 → NamesDistinct (db.rows .pqPeriodic)) →
    ReadyAll fits rev.downgrade (schemaAt (k + 1)) db.rows) (absurd rfl) _ _ _ _ _ _ hrev
  · intro _ _
    exact ⟨trivial, fun _ _ => trivial, fun _ _ => ⟨trivial, fun _ _ => trivial, fun _ _ => ⟨trivial,
      fun _ _ => trivial, fun _ _ => ⟨trivial, fun _ _ => trivial, fun _ _ => trivial⟩⟩⟩⟩
  · intro _ _
    exact ⟨trivial, fun _ _ => trivial, fun _ _ => ⟨trivial, fun _ _ => trivial, fun _ _ => trivial⟩⟩
  · intro _ hn
    refine ⟨trivial, fun _ _ => trivial, fun _ _ => ⟨trivial, fun _ _ => trivial,
      fun _ _ => ⟨trivial, fun _ _ => .inr ?_, fun _ _ => trivial⟩⟩⟩
    change NamesDistinct ((db.rows .pqPeriodic).map fun r : SqlRow P => Function.update r .key none)
    exact (namesDistinct_map (f := fun r => Function.update r .key none) fun _ => rfl).mpr (hn rfl)
  · intro _ _
    exact ⟨trivial, fun _ _ => trivial, fun _ _ => trivial⟩
  · intro _ _
    exact ⟨trivial, fun _ _ => trivial, fun _ _ => ⟨trivial, fun _ _ => trivial, fun _ _ => trivial⟩⟩
  · intro _ _
    exact ⟨trivial, fun _ _ => trivial, fun _ _ => trivial⟩

theorem names_of_downgrade [DecidableEq P] {db' : Db P} (hc : db.catalog = schemaAt 4)
    (h : applyAll (addPeriodicKey (P := P)).downgrade db = .ok db') :
    NamesDistinct (db.rows .pqPeriodic) := by
  simp only [applyAll, addPeriodicKey, List.foldlM_cons, Library.Ddl.bind_ok, apply_ok] at h
  obtain ⟨-, ⟨schema₁, h₁, -, rfl⟩, -, ⟨schema₂, h₂, -, rfl⟩, -, ⟨schema₃, h₃, hchecked, rfl⟩, -⟩ := h
  rw [hc] at h₁
  cases h₁
  cases h₂
  cases h₃
  obtain ⟨-, hunique⟩ := hchecked _ rfl
  have hdropped := hunique .pqPeriodicNameKey ⟨[.name], .constraint⟩ rfl (by decide)
  change NamesDistinct ((db.rows .pqPeriodic).map fun r : SqlRow P => Function.update r .key none)
    at hdropped
  exact (namesDistinct_map (f := fun r => Function.update r .key none) fun _ => rfl).mp hdropped

end Ready

structure Versioned (P : Type) where
  db : Db P
  version : Option String

def pending : Option String → List (Revision P)
  | none => versions
  | some version => (versions.dropWhile fun rev => rev.revision != version).tail

def applied : Option String → List (Revision P)
  | none => []
  | some version => versions.reverse.dropWhile fun rev => rev.revision != version

inductive MigrationError
  | valueError
  | ddl (e : Error)

/-- Alembic's `Config`, with the directory of the migrations and the engine's URL as it is
rendered with its password. -/
structure AlembicConfig where
  migrationsDir : String
  url : String
  setMainOption : String → String → Except MigrationError Unit

/-- A value is interpolated at its percent signs, and taken if it has none. -/
def AlembicConfig.TakesPlain (config : AlembicConfig) : Prop :=
  ∀ name value, '%' ∉ value.toList → config.setMainOption name value = .ok ()

section Alembic

variable [DecidableEq P]

def Versioned.upgrade (m : Versioned P) (rev : Revision P) : Except Error (Versioned P) := do
  let db ← applyAll rev.upgrade m.db
  return ⟨db, some rev.revision⟩

def Versioned.downgrade (m : Versioned P) (rev : Revision P) : Except Error (Versioned P) := do
  let db ← applyAll rev.downgrade m.db
  return ⟨db, rev.downRevision⟩

/-- `command.upgrade(cfg, "head")`: one transaction for all revisions. -/
def Versioned.upgradeToHead (m : Versioned P) : Except Error (Versioned P) :=
  (pending m.version).foldlM Versioned.upgrade m

def runDbMigrations (config : AlembicConfig) (m : Versioned P) :
    Except MigrationError (Versioned P) := do
  config.setMainOption "script_location" config.migrationsDir
  config.setMainOption "sqlalchemy.url" config.url
  m.upgradeToHead.mapError .ddl

def downgradeTo (target : Option String) (m : Versioned P) : Except Error (Versioned P) :=
  ((applied m.version).takeWhile fun rev => some rev.revision != target).foldlM
    Versioned.downgrade m

end Alembic

def versionAt : ℕ → Option String
  | 0 => none
  | k + 1 => ((versions (P := Empty))[k]?).map Revision.revision

theorem pending_versionAt {k : ℕ} (hk : k ≤ 7) : pending (P := P) (versionAt k) = versions.drop k := by
  match k, hk with
  | 0, _ | 1, _ | 2, _ | 3, _ | 4, _ | 5, _ | 6, _ | 7, _ => rfl

theorem undone_versionAt {j k : ℕ} (hj : j ≠ 0) (hjk : j ≤ k) (hk : k ≤ 7) :
    ((applied (P := P) (versionAt k)).takeWhile fun rev => some rev.revision != versionAt j) =
      ((versions.take k).drop j).reverse := by
  interval_cases k <;> interval_cases j <;> rfl

theorem versionAt_succ {k : ℕ} {rev : Revision P} (h : versions[k]? = some rev) :
    versionAt (k + 1) = some rev.revision ∧ rev.downRevision = versionAt k := by
  apply versions_forall
    (p := fun k rev => versionAt (k + 1) = some rev.revision ∧ rev.downRevision = versionAt k)
    _ _ _ _ _ _ _ h
  all_goals exact ⟨rfl, rfl⟩

end PostgresQueue.Migrations
