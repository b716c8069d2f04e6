import PostgresQueue.Library.ListAt
import PostgresQueue.Library.Transition
import PostgresQueue.Periodic
import PostgresQueue.TaskSystem

namespace PostgresQueue

open Library

variable {P : Type}

structure PeriodicRun (P : Type) where
  row : Periodic P
  worker : ℕ
  mode : Mode
  phase : Phase

namespace PeriodicRun

def Locked (r : PeriodicRun P) : Prop := r.row.maxConcurrent ≠ none

instance (r : PeriodicRun P) : Decidable r.Locked := by unfold Locked; infer_instance

end PeriodicRun

structure PeriodicState (P : Type) where
  rows : Periodics P
  runs : List (PeriodicRun P)
  dead : List ℕ
  now : Timestamptz

inductive PeriodicAction (P : Type)
  | schedule (conn : Conn) (c : Schedule P)
  | claim (worker : ℕ) (mode : Mode) (c : PeriodicClaim)
  | start (run : ℕ)
  | finishes (run : ℕ) (e : RunEnd)
  | release (run : ℕ)
  | releaseFails (run : ℕ)
  | dies (worker : ℕ)
  | tick (now : Timestamptz)

namespace PeriodicState

def setPhase (s : PeriodicState P) (i : ℕ) (phase : Phase) : PeriodicState P :=
  { s with runs := s.runs.modify i fun r => { r with phase := phase } }

def claim (croniter : Croniter) (s : PeriodicState P) (mode : Mode) (c : PeriodicClaim) :
    Option (Periodic P × Periodics P) :=
  mode.claimPeriodic croniter { c with conn := { c.conn with now := s.now } } s.rows

end PeriodicState

section Step

variable (croniter : Croniter) (repr : PyFloat → String)

def periodicStep (s : PeriodicState P) : PeriodicAction P → Option (PeriodicState P)
  | .schedule conn c =>
    match schedule croniter repr conn c s.rows with
    | .ok (_, rows) => some { s with rows := rows }
    | .error _ => some s
  | .claim worker mode c =>
    if s.dead.contains worker then none
    else match s.claim croniter mode c with
      | none => some s
      | some (row, rows) => some { s with
          rows := rows
          runs := s.runs ++ [⟨row, worker, mode, .claimed⟩] }
  | .start i =>
    match s.runs[i]? with
    | some r =>
      if r.phase = .claimed ∧ r.worker ∉ s.dead then some (s.setPhase i .alive) else none
    | none => none
  | .finishes i e =>
    match s.runs[i]?, e with
    | some r, .notStarted _ _ =>
      if r.phase = .claimed ∧ r.worker ∉ s.dead then some (s.setPhase i (.ended e)) else none
    | some r, .child _ _ => if r.phase = .alive then some (s.setPhase i (.ended e)) else none
    | none, _ => none
  | .release i =>
    match s.runs[i]? with
    | some r =>
      match r.phase with
      | .ended e =>
        if r.worker ∈ s.dead ∨ e.releases r.mode = false then none
        else some { s.setPhase i .recorded with
          rows := e.release r.mode r.row.maxConcurrent r.row.id s.rows }
      | _ => none
    | none => none
  | .releaseFails i =>
    match s.runs[i]? with
    | some r =>
      match r.phase with
      | .ended e =>
        if r.worker ∈ s.dead ∨ e.releases r.mode = false then none
        else some (s.setPhase i .recorded)
      | _ => none
    | none => none
  | .dies worker => some { s with dead := worker :: s.dead }
  | .tick now => if s.now ≤ now then some { s with now := now } else none

def periodicSystem (start : Timestamptz) : System (PeriodicState P) (PeriodicAction P) :=
  ⟨⟨Table.empty, [], [], start⟩, periodicStep croniter repr⟩

end Step

inductive PeriodicStep (s : PeriodicState P) : PeriodicAction P → PeriodicState P → Prop
  | idle (a : PeriodicAction P) : (∀ i, a ≠ .release i) → PeriodicStep s a s
  | added {conn : Conn} {c : Schedule P} {p : Periodic P} {rows : Periodics P} :
      p.lockedUntil = none → s.rows.Inserts p rows →
      PeriodicStep s (.schedule conn c) { s with rows := rows }
  | changed {conn : Conn} {c : Schedule P} {p q : Periodic P} {rows : Periodics P} :
      q.lockedUntil = p.lockedUntil → s.rows.Replaces p q rows →
      PeriodicStep s (.schedule conn c) { s with rows := rows }
  | claim {worker : ℕ} {mode : Mode} {c : PeriodicClaim} {p q : Periodic P} {rows : Periodics P} :
      q.maxConcurrent = p.maxConcurrent → q.id = p.id →
      (p.maxConcurrent = none → q.lockedUntil = p.lockedUntil) →
      (p.maxConcurrent ≠ none →
        q.lockedUntil ≠ none ∧ ∀ l, p.lockedUntil = some l → l ≤ s.now) →
      s.rows.Replaces p q rows → PeriodicStep s (.claim worker mode c) { s with
        rows := rows
        runs := s.runs ++ [⟨q, worker, mode, .claimed⟩] }
  | start {i : ℕ} {r : PeriodicRun P} : s.runs[i]? = some r → r.phase = .claimed →
      r.worker ∉ s.dead → PeriodicStep s (.start i) (s.setPhase i .alive)
  | finishes {i : ℕ} {r : PeriodicRun P} {e : RunEnd} : s.runs[i]? = some r →
      (r.phase = .claimed ∧ r.worker ∉ s.dead) ∨ r.phase = .alive →
      PeriodicStep s (.finishes i e) (s.setPhase i (.ended e))
  | release {i : ℕ} {r : PeriodicRun P} {e : RunEnd} : s.runs[i]? = some r → r.phase = .ended e →
      r.worker ∉ s.dead → PeriodicStep s (.release i) { s.setPhase i .recorded with
        rows := releaseIfLimited r.row.maxConcurrent r.row.id s.rows }
  | releaseFails {i : ℕ} {r : PeriodicRun P} {e : RunEnd} : s.runs[i]? = some r →
      r.phase = .ended e → PeriodicStep s (.releaseFails i) (s.setPhase i .recorded)
  | dies (worker : ℕ) : PeriodicStep s (.dies worker) { s with dead := worker :: s.dead }
  | tick {now : Timestamptz} : s.now ≤ now → PeriodicStep s (.tick now) { s with now := now }

section Cases

variable {croniter : Croniter} {repr : PyFloat → String} {s s' : PeriodicState P}

theorem periodicStep_schedule {conn : Conn} {c : Schedule P}
    (h : periodicStep croniter repr s (.schedule conn c) = some s') :
    PeriodicStep s (.schedule conn c) s' := by
  simp only [periodicStep] at h
  split at h
  · rename_i id rows hs
    cases h
    rcases schedule_ok hs with ⟨p, hl, hins⟩ | ⟨p, q, hl, hrep⟩
    exacts [.added hl hins, .changed hl hrep]
  · cases h
    exact .idle _ fun _ => nofun

theorem periodicStep_claim {worker : ℕ} {mode : Mode} {c : PeriodicClaim}
    (h : periodicStep croniter repr s (.claim worker mode c) = some s') :
    PeriodicStep s (.claim worker mode c) s' := by
  simp only [periodicStep] at h
  split_ifs at h
  split at h
  · cases h
    exact .idle _ fun _ => nofun
  · rename_i q rows hc
    cases h
    rw [PeriodicState.claim, Mode.claimPeriodic_eq] at hc
    obtain ⟨p, lock, hd, -, hl, hq, hid, hmc, -, hrep⟩ := PeriodicClaim.run_some hc
    obtain ⟨hfree, hlim⟩ := PeriodicClaim.lock_ok hl
    refine .claim hmc hid (fun hn => hq.trans (hfree hn)) (fun hn => ⟨hq ▸ hlim hn, ?_⟩) hrep
    exact fun l hl => PeriodicClaim.dueWhere_unlocked hd hn hl

theorem periodicStep_cases {a : PeriodicAction P} (h : periodicStep croniter repr s a = some s') :
    PeriodicStep s a s' := by
  cases a with
  | schedule => exact periodicStep_schedule h
  | claim => exact periodicStep_claim h
  | start i =>
    simp only [periodicStep] at h
    split at h
    · rename_i r hr
      split_ifs at h with hp
      cases h
      exact .start hr hp.1 hp.2
    · cases h
  | finishes i e =>
    simp only [periodicStep] at h
    split at h
    · rename_i r msg hr
      split_ifs at h with hp
      cases h
      exact .finishes hr (.inl hp)
    · rename_i r elapsed exit hr
      split_ifs at h with hp
      cases h
      exact .finishes hr (.inr hp)
    · cases h
  | release i =>
    simp only [periodicStep] at h
    split at h
    · rename_i r hr
      split at h
      · rename_i e hp
        split_ifs at h with hd
        cases h
        rw [RunEnd.release_eq]
        exact .release hr hp fun hdead => hd (.inl hdead)
      · cases h
    · cases h
  | releaseFails i =>
    simp only [periodicStep] at h
    split at h
    · rename_i r hr
      split at h
      · rename_i e hp
        split_ifs at h with hd
        cases h
        exact .releaseFails hr hp
      · cases h
    · cases h
  | dies worker =>
    cases h
    exact .dies worker
  | tick now =>
    simp only [periodicStep] at h
    split_ifs at h with hle
    cases h
    exact .tick hle

end Cases

section Sample

def sampleCroniter : Croniter := ⟨fun _ => none, fun _ t => .ok t⟩

def sampleSchedule (seconds : ℚ) (maxConcurrent : Option ℤ) : Schedule String where
  task := .ok "reports:sync"
  arguments := .ok "{}"
  runEvery := some 1000000
  cron := none
  priority := 0
  clientId := none
  maxConcurrent := maxConcurrent
  key := ""
  active := true
  maxRuntimeSeconds := some (.finite seconds)
  now := 0

def samplePeriodicClaim (worker : ℕ) (mode : Mode) : PeriodicAction String :=
  .claim worker mode ⟨sampleConn, none, .finite 1800, 0, []⟩

def samplePeriodicSystem : System (PeriodicState String) (PeriodicAction String) :=
  periodicSystem sampleCroniter (sampleEnv (P := String)).floatRepr 0

def sampleExit : RunEnd := .child "0.100" ⟨.exited exitSuccess, false, "", "", ""⟩

end Sample

end PostgresQueue
