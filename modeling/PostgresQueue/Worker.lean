import PostgresQueue.Client
import PostgresQueue.ChildResult

namespace PostgresQueue

open Library

variable {P : Type}

def claimWhere (now : Timestamptz) (priorities : Option (List ℤ)) (t : Task P) : Bool :=
  t.status == .pending && decide (t.runAt ≤ now) &&
    match priorities with
    | none | some [] => true
    | some ps => ps.contains t.priority

def claimOrder (a b : Task P) : Prop :=
  b.priority < a.priority ∨ (a.priority = b.priority ∧ a.runAt ≤ b.runAt)

instance (a b : Task P) : Decidable (claimOrder a b) := by unfold claimOrder; infer_instance

structure Claim where
  now : Timestamptz
  priorities : Option (List ℤ)
  startedAt : Timestamptz
  skipLocked : List ℕ

namespace Claim

def select (c : Claim) (tasks : Tasks P) : Option (Task P) :=
  ((tasks.rows.filter fun t => claimWhere c.now c.priorities t && !c.skipLocked.contains t.id)
    |>.insertionSort claimOrder).head?

def markRunning (c : Claim) (t : Task P) : Task P :=
  { t with
    status := .running
    startedAt := some c.startedAt
    attempts := t.attempts + 1 }

def run (c : Claim) (tasks : Tasks P) : Option (Task P × Tasks P) :=
  match c.select tasks with
  | none => none
  | some t => some (c.markRunning t, flush (c.markRunning t) tasks)

theorem select_some {c : Claim} {tasks : Tasks P} {t : Task P} (h : c.select tasks = some t) :
    t ∈ tasks ∧ claimWhere c.now c.priorities t = true ∧ t.id ∉ c.skipLocked := by
  have hm := List.mem_of_mem_head? h
  rw [List.mem_insertionSort, List.mem_filter] at hm
  simpa using hm

theorem run_some {c : Claim} {tasks tasks' : Tasks P} {t' : Task P}
    (h : c.run tasks = some (t', tasks')) :
    ∃ t, claimWhere c.now c.priorities t = true ∧ t.id ∉ c.skipLocked ∧ t' = c.markRunning t ∧
      tasks.Replaces t t' tasks' := by
  unfold run at h
  split at h
  · cases h
  · rename_i t hs
    cases h
    obtain ⟨hm, hw, hl⟩ := select_some hs
    exact ⟨t, hw, hl, rfl, flush_replaces hm rfl rfl⟩

theorem claimWhere_pending {now : Timestamptz} {priorities : Option (List ℤ)} {t : Task P}
    (h : claimWhere now priorities t = true) : t.status = .pending := by
  simp only [claimWhere, Bool.and_eq_true, beq_iff_eq] at h
  exact h.1.1

end Claim

def processOneOffClaim (c : Claim) (tasks : Tasks P) : Option (Task P × Tasks P) := c.run tasks

def claimAndForkOneOffClaim (c : Claim) (tasks : Tasks P) : Option (Task P × Tasks P) := c.run tasks

def Mode.claim : Mode → Claim → Tasks P → Option (Task P × Tasks P)
  | .sequential => processOneOffClaim
  | .concurrent => claimAndForkOneOffClaim

theorem Mode.claim_eq (mode : Mode) (c : Claim) (tasks : Tasks P) :
    mode.claim c tasks = c.run tasks := by
  cases mode <;> rfl

/-- The driver refuses a text value that contains U+0000. -/
def storable (text : Option String) : Bool :=
  text.all fun s => !s.toList.contains '\x00'

def finishWhere (id : ℕ) (startedAt : Option Timestamptz) (t : Task P) : Bool :=
  t.id == id && t.status == .running && t.startedAt == startedAt

def recordOutcome (clock : Timestamptz) (o : Outcome) (t : Task P) : Task P :=
  { t with
    status := o.status
    completedAt := some clock
    error := match o.errorMsg with
      | some msg => if msg = "" then t.error else some msg
      | none => t.error }

def finishBlock (env : Env P) (clock : Timestamptz) (id : ℕ) (startedAt : Option Timestamptz)
    (o : Outcome) (tasks : Tasks P) : Except PyError (Unit × Tasks P) :=
  match tasks.find? (finishWhere id startedAt) with
  | none => .ok ((), tasks)
  | some t =>
    -- the outcome of the run is dropped
    if t.requeue ≠ none then do
      let fresh ← t.applyRequeue env
      return ((), flush fresh tasks)
    else if storable (recordOutcome clock o t).error then
      .ok ((), flush (recordOutcome clock o t) tasks)
    else .error .dataError

/-- Whatever is raised is logged, after the session has rolled back. -/
def finishOneOff (env : Env P) (clock : Timestamptz) (id : ℕ) (startedAt : Option Timestamptz)
    (o : Outcome) (tasks : Tasks P) : Tasks P :=
  (session tasks (finishBlock env clock id startedAt o)).2

section Finish

variable {env : Env P} {clock : Timestamptz} {id : ℕ} {startedAt : Option Timestamptz}
  {o : Outcome} {tasks : Tasks P}

theorem finishWhere_true {t : Task P} (h : finishWhere id startedAt t = true) :
    t.id = id ∧ t.status = .running ∧ t.startedAt = startedAt := by
  simpa [finishWhere, and_assoc] using h

theorem find?_running {t : Task P} (ht : t ∈ tasks) (hs : t.status = .running) :
    tasks.find? (finishWhere t.id t.startedAt) = some t := by
  have hw : finishWhere t.id t.startedAt t = true := by simp [finishWhere, hs]
  exact Table.find?_eq_some_of_key ht hw fun q _ hq => (finishWhere_true hq).1

theorem finishOneOff_miss (h : tasks.find? (finishWhere id startedAt) = none) :
    finishOneOff env clock id startedAt o tasks = tasks := by
  simp [finishOneOff, session, finishBlock, h]

theorem finishOneOff_requeue {t : Task P} (h : tasks.find? (finishWhere id startedAt) = some t)
    (hq : t.requeue ≠ none) : finishOneOff env clock id startedAt o tasks =
      match t.applyRequeue env with
      | .ok fresh => flush fresh tasks
      | .error _ => tasks := by
  simp only [finishOneOff, session, finishBlock, h, ne_eq, hq, not_false_eq_true, if_true]
  cases t.applyRequeue env <;> rfl

theorem finishOneOff_record {t : Task P} (h : tasks.find? (finishWhere id startedAt) = some t)
    (hq : t.requeue = none) : finishOneOff env clock id startedAt o tasks =
      if storable (recordOutcome clock o t).error then flush (recordOutcome clock o t) tasks
      else tasks := by
  simp only [finishOneOff, session, finishBlock, h, hq, ne_eq, not_true_eq_false, if_false]
  split_ifs <;> rfl

theorem finishOneOff_cases (env : Env P) (clock : Timestamptz) (id : ℕ)
    (startedAt : Option Timestamptz) (o : Outcome) (tasks : Tasks P) :
    finishOneOff env clock id startedAt o tasks = tasks ∨
      ∃ t, finishWhere id startedAt t = true ∧
        ((∃ q, t.applyRequeue env = .ok q ∧
            tasks.Replaces t q (finishOneOff env clock id startedAt o tasks)) ∨
          (t.requeue = none ∧ tasks.Replaces t (recordOutcome clock o t)
            (finishOneOff env clock id startedAt o tasks))) := by
  cases hf : tasks.find? (finishWhere id startedAt) with
  | none => exact .inl (finishOneOff_miss hf)
  | some t =>
    obtain ⟨hm, hw⟩ := Table.mem_of_find? hf
    by_cases hq : t.requeue = none
    · rw [finishOneOff_record hf hq]
      split_ifs
      · exact .inr ⟨t, hw, .inr ⟨hq, flush_replaces hm rfl rfl⟩⟩
      · exact .inl rfl
    · rw [finishOneOff_requeue hf hq]
      cases ha : t.applyRequeue env with
      | error e => exact .inl rfl
      | ok q =>
        obtain ⟨spec, v, -, -, rfl⟩ := Task.applyRequeue_ok.mp ha
        exact .inr ⟨t, hw, .inl ⟨t.fresh v, ha, flush_replaces hm rfl rfl⟩⟩

theorem finishOneOff_keep {t : Task P} (ht : t ∈ tasks)
    (hmiss : finishWhere id startedAt t ≠ true) : t ∈ finishOneOff env clock id startedAt o tasks := by
  rcases finishOneOff_cases env clock id startedAt o tasks with he | ⟨q, hw, hcase⟩
  · rwa [he]
  · have hother : ∀ {q' : Task P}, tasks.Replaces q q' (finishOneOff env clock id startedAt o tasks) →
        t ∈ finishOneOff env clock id startedAt o tasks := by
      intro q' hrep
      rcases hrep.fate ht with ⟨rfl, -⟩ | hm
      exacts [absurd hw hmiss, hm]
    rcases hcase with ⟨_, _, hrep⟩ | ⟨_, hrep⟩
    exacts [hother hrep, hother hrep]

end Finish

end PostgresQueue
