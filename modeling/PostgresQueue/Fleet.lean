import Mathlib.Logic.Function.Basic
import PostgresQueue.PeriodicSystem
import PostgresQueue.PipeDescriptors
import PostgresQueue.RunIdentity

namespace PostgresQueue

open Library System

/-- A claim of one of the two tables, by its place among the claims of that table. -/
inductive RunRef
  | oneOff (i : ℕ)
  | periodic (i : ℕ)
deriving DecidableEq

/-- What a worker is at inside one step of its loop: between a claim and its fork, or between
the end of a run and the write that records it. -/
inductive Busy
  | idle
  | starting (ref : RunRef) (slot : ChildSlot)
  | writing (ref : RunRef)

/-- A worker and the runs behind its slots. `forked` has the run of each child in the order of
the forks, `unwritten` the runs whose last write failed. -/
structure Member (τ : Type) where
  worker : Worker τ
  busy : Busy
  forked : List RunRef
  unwritten : List RunRef

structure Fleet (P Q τ : Type) where
  tasks : State Q
  schedules : PeriodicState P
  members : ℕ → Member τ

inductive FleetAction (P τ : Type)
  | client (a : Action P)
  | scheduler (a : PeriodicAction P)
  | worker (w : ℕ) (e : WorkerEvent τ)
  | claim (w : ℕ) (c : Claim)
  | claimPeriodic (w : ℕ) (c : PeriodicClaim)
  | forks (w pid readFd : ℕ)
  | startFails (w : ℕ) (e : TaskError) (elapsed : String) (leaked : List ℕ)
  | reaps (w : ℕ) (texts : ChildTexts)
  | writes (w : ℕ) (clock : Timestamptz)
  | writeFails (w : ℕ)
  | dies (w : ℕ)
  | orphanEnds (ref : RunRef) (e : RunEnd)

variable {P Q τ : Type}

def Action.external : Action P → Bool
  | .claim .. | .start _ | .finishes .. | .record .. | .dies _ => false
  | _ => true

def PeriodicAction.external : PeriodicAction P → Bool
  | .schedule .. | .tick _ => true
  | _ => false

def Busy.isIdle : Busy → Bool
  | .idle => true
  | _ => false

def Pc.claimsPeriodic : Pc → Option Bool
  | .claimOneOff => some false
  | .claimPeriodic => some true
  | _ => none

/-- `wait4` finds the child of the slot that is waited for, and it has ended. -/
def Main.reaping (cfg : WorkerConfig) (m : Main τ) : Input → Option (LoopSlot × RunEnd)
  | .wait4 texts =>
    match m.pc with
    | .wait slot .poll killedByDrain _ =>
      match m.os.child? slot.pid with
      | some c => c.status.map fun status => (slot, .child texts.elapsed
          ⟨status, killedByDrain, cfg.drainTimeout, texts.maxRssKb, texts.errorText⟩)
      | none => none
    | _ => none
  | _ => none

namespace Fleet

variable (s : Fleet P Q τ)

def owner : RunRef → Option (ℕ × Phase)
  | .oneOff i => s.tasks.runs[i]?.map fun r => (r.worker, r.phase)
  | .periodic i => s.schedules.runs[i]?.map fun r => (r.worker, r.phase)

def refs : List RunRef :=
  (List.range s.tasks.runs.length).map .oneOff ++ (List.range s.schedules.runs.length).map .periodic

def inPhase (w : ℕ) (p : Phase → Bool) (ref : RunRef) : Bool :=
  (s.owner ref).any fun o => o.1 == w && p o.2

def held (w : ℕ) (p : Phase → Bool) : List RunRef := s.refs.filter (s.inPhase w p)

def setMember (w : ℕ) (m : Member τ) : Fleet P Q τ :=
  { s with members := Function.update s.members w m }

def idle (w : ℕ) : Bool := !s.tasks.dead.contains w && (s.members w).busy.isIdle

end Fleet

section Step

variable (stamp : P → ℕ → Q) (env : Env Q) (croniter : Croniter) (repr : PyFloat → String)

namespace Fleet

variable (s : Fleet P Q τ)

def taskStep (a : Action P) : Option (Fleet P Q τ) :=
  (step stamp env s.tasks a).map fun tasks => { s with tasks := tasks }

def scheduleStep (a : PeriodicAction P) : Option (Fleet P Q τ) :=
  (periodicStep croniter repr s.schedules a).map fun schedules => { s with schedules := schedules }

def startRun : RunRef → Option (Fleet P Q τ)
  | .oneOff i => s.taskStep stamp env (.start i)
  | .periodic i => s.scheduleStep croniter repr (.start i)

def endRun (e : RunEnd) : RunRef → Option (Fleet P Q τ)
  | .oneOff i => s.taskStep stamp env (.finishes i e)
  | .periodic i => s.scheduleStep croniter repr (.finishes i e)

def writeRun (clock : Timestamptz) : RunRef → Option (Fleet P Q τ)
  | .oneOff i => s.taskStep stamp env (.record i clock)
  | .periodic i => s.scheduleStep croniter repr (.release i)

def dropRun : RunRef → Option (Fleet P Q τ)
  | .oneOff _ => some s
  | .periodic i => s.scheduleStep croniter repr (.releaseFails i)

def commits (clock : Timestamptz) : RunRef → Bool
  | .oneOff i =>
    match s.tasks.runs[i]? with
    | some r =>
      match r.phase with
      | .ended e => (e.outcome r.mode).any fun o =>
          (finishBlock env clock r.task.id (some r.startedAt) o s.tasks.tasks).isOk
      | _ => false
    | none => false
  | .periodic _ => true

end Fleet

variable [LinearOrder τ] (cfg : ℕ → WorkerConfig) (drain : ℕ → DrainTimeout τ) (start : ℕ → τ)

def Fleet.workerStep (s : Fleet P Q τ) (w : ℕ) (e : WorkerEvent τ) : Option (Worker τ) :=
  (runWorker (cfg w) (drain w) (start w)).step (s.members w).worker e

def Fleet.ownStep (s : Fleet P Q τ) (w : ℕ) : WorkerEvent τ → Bool
  | .main i => (s.members w).busy.isIdle && !i.starts &&
      ((s.members w).worker.main.reaping (cfg w) i).isNone
  | _ => true

def fleetStep (s : Fleet P Q τ) : FleetAction P τ → Option (Fleet P Q τ)
  | .client a => if a.external then s.taskStep stamp env a else none
  | .scheduler a => if a.external then s.scheduleStep croniter repr a else none
  | .worker w e =>
    if w ∉ s.tasks.dead ∧ s.ownStep cfg w e then
      (s.workerStep cfg drain start w e).map fun x => s.setMember w { s.members w with worker := x }
    else none
  | .claim w c =>
    if s.idle w ∧ (s.members w).worker.main.pc.claimsPeriodic = some false then do
      let claimed ← s.tasks.claim (cfg w).mode c
      let s' ← s.taskStep stamp env (.claim w (cfg w).mode c)
      return s'.setMember w { s.members w with
        busy := .starting (.oneOff s.tasks.runs.length)
          ⟨claimed.1.id, false, claimed.1.startedAt, none⟩ }
    else none
  | .claimPeriodic w c =>
    if s.idle w ∧ (s.members w).worker.main.pc.claimsPeriodic = some true then do
      let claimed ← s.schedules.claim croniter (cfg w).mode c
      let s' ← s.scheduleStep croniter repr (.claim w (cfg w).mode c)
      return s'.setMember w { s.members w with
        busy := .starting (.periodic s.schedules.runs.length)
          ⟨claimed.1.id, true, none, claimed.1.maxConcurrent⟩ }
    else none
  | .forks w pid readFd =>
    match (s.members w).busy with
    | .starting ref slot =>
      if w ∈ s.tasks.dead then none
      else do
        let x ← s.workerStep cfg drain start w (.main (.claim (.forked slot pid readFd)))
        let s' ← s.startRun stamp env croniter repr ref
        return s'.setMember w
          ⟨x, .idle, (s.members w).forked ++ [ref], (s.members w).unwritten⟩
    | _ => none
  | .startFails w e elapsed leaked =>
    match (s.members w).busy with
    | .starting ref slot =>
      if w ∈ s.tasks.dead then none
      else do
        let x ← s.workerStep cfg drain start w (.main (.claim (.notStarted slot e elapsed leaked)))
        let s' ← s.endRun stamp env croniter repr (.notStarted e elapsed) ref
        return s'.setMember w { s.members w with worker := x, busy := .writing ref }
    | _ => none
  | .reaps w texts =>
    if s.idle w then do
      let (slot, e) ← (s.members w).worker.main.reaping (cfg w) (.wait4 texts)
      let ref ← (s.members w).forked[slot.child]?
      let x ← s.workerStep cfg drain start w (.main (.wait4 texts))
      let s' ← s.endRun stamp env croniter repr e ref
      return s'.setMember w { s.members w with worker := x, busy := .writing ref }
    else none
  | .writes w clock =>
    match (s.members w).busy with
    | .writing ref =>
      if w ∈ s.tasks.dead then none
      else do
        let s' ← s.writeRun stamp env croniter repr clock ref
        return s'.setMember w { s.members w with
          busy := .idle
          unwritten := if s.commits env clock ref then (s.members w).unwritten
            else ref :: (s.members w).unwritten }
    | _ => none
  | .writeFails w =>
    match (s.members w).busy with
    | .writing ref =>
      if w ∈ s.tasks.dead then none
      else do
        let s' ← s.dropRun croniter repr ref
        return s'.setMember w { s.members w with
          busy := .idle
          unwritten := ref :: (s.members w).unwritten }
    | _ => none
  | .dies w => do
    let s' ← s.taskStep stamp env (.dies w)
    s'.scheduleStep croniter repr (.dies w)
  -- nobody waits for the children of a dead worker
  | .orphanEnds ref e =>
    match s.owner ref with
    | some (w, .alive) => if w ∈ s.tasks.dead then s.endRun stamp env croniter repr e ref else none
    | _ => none

def fleet (now : Timestamptz) : System (Fleet P Q τ) (FleetAction P τ) where
  init := ⟨State.initial, (periodicSystem (P := P) croniter repr now).init,
    fun w => ⟨(runWorker (cfg w) (drain w) (start w)).init, .idle, [], []⟩⟩
  step := fleetStep stamp env croniter repr cfg drain start

end Step

section Phases

variable {stamp : P → ℕ → Q} {env : Env Q} {croniter : Croniter} {repr : PyFloat → String}

theorem step_external {s s' : State Q} {a : Action P} (ha : a.external)
    (h : step stamp env s a = some s') : s'.runs = s.runs ∧ s'.dead = s.dead := by
  cases a with
  | claim | start | finishes | record | dies => cases ha
  | reapBegin | clearCompleted | clearFailed => cases h; exact ⟨rfl, rfl⟩
  | enqueue =>
    simp only [step] at h
    split at h
    all_goals cases h; exact ⟨rfl, rfl⟩
  | upsert =>
    simp only [step] at h
    split_ifs at h
    split at h
    all_goals cases h; exact ⟨rfl, rfl⟩
  | upsertMany =>
    simp only [step] at h
    split_ifs at h
    split at h
    all_goals cases h; exact ⟨rfl, rfl⟩
  | reapSecond | reapAbort | cancel | clearAll =>
    simp only [step] at h
    split_ifs at h
    cases h
    exact ⟨rfl, rfl⟩
  | reapFail | reapRequeue =>
    simp only [step] at h
    split at h
    · split_ifs at h
      cases h
      exact ⟨rfl, rfl⟩
    · cases h
  | reapCommit =>
    simp only [step] at h
    split at h
    · split at h
      all_goals cases h; exact ⟨rfl, rfl⟩
    · cases h

theorem periodicStep_external {s s' : PeriodicState P} {a : PeriodicAction P} (ha : a.external)
    (h : periodicStep croniter repr s a = some s') : s'.runs = s.runs ∧ s'.dead = s.dead := by
  cases a with
  | claim | start | finishes | release | releaseFails | dies => cases ha
  | schedule =>
    simp only [periodicStep] at h
    split at h
    all_goals cases h; exact ⟨rfl, rfl⟩
  | tick =>
    simp only [periodicStep] at h
    split_ifs at h
    cases h
    exact ⟨rfl, rfl⟩

namespace Fleet

variable {s s' : Fleet P Q τ} {ref : RunRef} {w : ℕ}

structure Moves (s s' : Fleet P Q τ) (ref : RunRef) (w : ℕ) (phase : Phase) : Prop where
  owner : s'.owner = Function.update s.owner ref (some (w, phase))
  members : s'.members = s.members
  dead : s'.tasks.dead = s.tasks.dead

theorem owner_eq_oneOff {i : ℕ} {o : ℕ × Phase} (hi : s'.owner (.oneOff i) = some o)
    (hj : ∀ j, j ≠ i → s'.owner (.oneOff j) = s.owner (.oneOff j))
    (hp : s'.schedules = s.schedules) : s'.owner = Function.update s.owner (.oneOff i) (some o) := by
  funext ref
  cases ref with
  | oneOff j =>
    by_cases hij : j = i
    · rw [hij, hi, Function.update_self]
    · rw [hj j hij, Function.update_of_ne (by simpa using hij)]
  | periodic j => rw [owner, hp, Function.update_of_ne (by simp), owner]

theorem owner_eq_periodic {i : ℕ} {o : ℕ × Phase} (hi : s'.owner (.periodic i) = some o)
    (hj : ∀ j, j ≠ i → s'.owner (.periodic j) = s.owner (.periodic j))
    (ht : s'.tasks = s.tasks) : s'.owner = Function.update s.owner (.periodic i) (some o) := by
  funext ref
  cases ref with
  | periodic j =>
    by_cases hij : j = i
    · rw [hij, hi, Function.update_self]
    · rw [hj j hij, Function.update_of_ne (by simpa using hij)]
  | oneOff j => rw [owner, ht, Function.update_of_ne (by simp), owner]

theorem moves_task {i : ℕ} {r : Run Q} {tasks : State Q} {phase : Phase}
    (hr : s.tasks.runs[i]? = some r) (hd : tasks.dead = s.tasks.dead)
    (hruns : tasks.runs = s.tasks.runs.modify i fun r => { r with phase := phase }) :
    s.Moves { s with tasks := tasks } (.oneOff i) r.worker phase := by
  refine ⟨owner_eq_oneOff ?_ (fun j hj => ?_) rfl, rfl, hd⟩
  · simp [owner, hruns, hr]
  · simp [owner, hruns, Ne.symm hj]

theorem moves_schedule {i : ℕ} {r : PeriodicRun P} {schedules : PeriodicState P} {phase : Phase}
    (hr : s.schedules.runs[i]? = some r)
    (hruns : schedules.runs = s.schedules.runs.modify i fun r => { r with phase := phase }) :
    s.Moves { s with schedules := schedules } (.periodic i) r.worker phase := by
  refine ⟨owner_eq_periodic ?_ (fun j hj => ?_) rfl, rfl, rfl⟩
  · simp [owner, hruns, hr]
  · simp [owner, hruns, Ne.symm hj]

theorem startRun_moves (h : s.startRun stamp env croniter repr ref = some s') :
    ∃ w, s.owner ref = some (w, .claimed) ∧ s.Moves s' ref w .alive := by
  cases ref with
  | oneOff i =>
    obtain ⟨t, ht, rfl⟩ := Option.map_eq_some_iff.mp h
    simp only [step] at ht
    split at ht
    · rename_i r hr
      split_ifs at ht with hp
      cases ht
      exact ⟨r.worker, by simp [owner, hr, hp.1], moves_task hr rfl rfl⟩
    · cases ht
  | periodic i =>
    obtain ⟨t, ht, rfl⟩ := Option.map_eq_some_iff.mp h
    simp only [periodicStep] at ht
    split at ht
    · rename_i r hr
      split_ifs at ht with hp
      cases ht
      exact ⟨r.worker, by simp [owner, hr, hp.1], moves_schedule hr rfl⟩
    · cases ht

theorem endRun_moves {e : RunEnd} (h : s.endRun stamp env croniter repr e ref = some s') :
    ∃ w phase, s.owner ref = some (w, phase) ∧ (phase = .claimed ∨ phase = .alive) ∧
      s.Moves s' ref w (.ended e) := by
  cases ref with
  | oneOff i =>
    obtain ⟨t, ht, rfl⟩ := Option.map_eq_some_iff.mp h
    simp only [step] at ht
    split at ht
    · rename_i r e elapsed hr
      split_ifs at ht with hp
      cases ht
      exact ⟨_, _, by rw [owner, hr]; rfl, .inl hp.1, moves_task hr rfl rfl⟩
    · rename_i r elapsed exit hr
      split_ifs at ht with hp
      cases ht
      exact ⟨_, _, by rw [owner, hr]; rfl, .inr hp, moves_task hr rfl rfl⟩
    · cases ht
  | periodic i =>
    obtain ⟨t, ht, rfl⟩ := Option.map_eq_some_iff.mp h
    simp only [periodicStep] at ht
    split at ht
    · rename_i r e elapsed hr
      split_ifs at ht with hp
      cases ht
      exact ⟨_, _, by rw [owner, hr]; rfl, .inl hp.1, moves_schedule hr rfl⟩
    · rename_i r elapsed exit hr
      split_ifs at ht with hp
      cases ht
      exact ⟨_, _, by rw [owner, hr]; rfl, .inr hp, moves_schedule hr rfl⟩
    · cases ht

theorem writeRun_oneOff {clock : Timestamptz} {i : ℕ}
    (h : s.writeRun stamp env croniter repr clock (.oneOff i) = some s') :
    ∃ (r : Run Q) (e : RunEnd) (o : Outcome), s.tasks.runs[i]? = some r ∧ r.phase = .ended e ∧
      e.outcome r.mode = some o ∧ s' = { s with tasks := { s.tasks.setPhase i .recorded with
        tasks := finishOneOff env clock r.task.id (some r.startedAt) o s.tasks.tasks } } := by
  obtain ⟨t, ht, rfl⟩ := Option.map_eq_some_iff.mp h
  simp only [step] at ht
  split at ht
  · rename_i r hr
    split at ht
    · rename_i e hp
      split at ht
      · rename_i o ho
        split_ifs at ht
        cases ht
        exact ⟨r, e, o, hr, hp, ho, rfl⟩
      · cases ht
    · cases ht
  · cases ht

theorem writeRun_moves {clock : Timestamptz}
    (h : s.writeRun stamp env croniter repr clock ref = some s') :
    ∃ w e, s.owner ref = some (w, .ended e) ∧ s.Moves s' ref w .recorded := by
  cases ref with
  | oneOff i =>
    obtain ⟨r, e, o, hr, hp, -, rfl⟩ := writeRun_oneOff h
    exact ⟨_, e, by rw [owner, hr, ← hp]; rfl, moves_task hr rfl rfl⟩
  | periodic i =>
    obtain ⟨t, ht, rfl⟩ := Option.map_eq_some_iff.mp h
    simp only [periodicStep] at ht
    split at ht
    · rename_i r hr
      split at ht
      · rename_i e hp
        split_ifs at ht
        cases ht
        exact ⟨_, e, by rw [owner, hr, ← hp]; rfl, moves_schedule hr rfl⟩
      · cases ht
    · cases ht

theorem dropRun_moves (h : s.dropRun croniter repr ref = some s') :
    s' = s ∨ ∃ w e, s.owner ref = some (w, .ended e) ∧ s.Moves s' ref w .recorded := by
  cases ref with
  | oneOff i =>
    cases h
    exact .inl rfl
  | periodic i =>
    obtain ⟨t, ht, rfl⟩ := Option.map_eq_some_iff.mp h
    simp only [periodicStep] at ht
    split at ht
    · rename_i r hr
      split at ht
      · rename_i e hp
        split_ifs at ht
        cases ht
        exact .inr ⟨_, e, by rw [owner, hr, ← hp]; rfl, moves_schedule hr rfl⟩
      · cases ht
    · cases ht

theorem claim_moves {worker : ℕ} {mode : Mode} {c : Claim} {claimed : Task Q × Tasks Q}
    (hc : s.tasks.claim mode c = some claimed)
    (h : s.taskStep stamp env (.claim worker mode c) = some s') :
    s.owner (.oneOff s.tasks.runs.length) = none ∧
      s.Moves s' (.oneOff s.tasks.runs.length) worker .claimed := by
  obtain ⟨t, ht, rfl⟩ := Option.map_eq_some_iff.mp h
  simp only [step, hc] at ht
  split_ifs at ht
  cases ht
  refine ⟨by simp [owner], owner_eq_oneOff (by simp [owner]) (fun j hj => ?_) rfl, rfl, rfl⟩
  rw [owner, owner, getElem?_append_singleton_of_ne hj]

theorem claimPeriodic_moves {worker : ℕ} {mode : Mode} {c : PeriodicClaim}
    {claimed : Periodic P × Periodics P} (hc : s.schedules.claim croniter mode c = some claimed)
    (h : s.scheduleStep croniter repr (.claim worker mode c) = some s') :
    s.owner (.periodic s.schedules.runs.length) = none ∧
      s.Moves s' (.periodic s.schedules.runs.length) worker .claimed := by
  obtain ⟨t, ht, rfl⟩ := Option.map_eq_some_iff.mp h
  simp only [periodicStep, hc] at ht
  split_ifs at ht
  cases ht
  refine ⟨by simp [owner], owner_eq_periodic (by simp [owner]) (fun j hj => ?_) rfl, rfl, rfl⟩
  rw [owner, owner, getElem?_append_singleton_of_ne hj]

end Fleet

end Phases

theorem Busy.isIdle_iff {busy : Busy} : busy.isIdle ↔ busy = .idle := by
  cases busy <;> simp [isIdle]

theorem Pc.claiming_of_claimsPeriodic {pc : Pc} {isPeriodic : Bool}
    (h : pc.claimsPeriodic = some isPeriodic) : pc.claiming := by
  cases pc <;> first | rfl | cases h

section Cases

variable [LinearOrder τ] (stamp : P → ℕ → Q) (env : Env Q) (croniter : Croniter)
  (repr : PyFloat → String) (cfg : ℕ → WorkerConfig) (drain : ℕ → DrainTimeout τ) (start : ℕ → τ)

inductive FleetStep (s : Fleet P Q τ) : FleetAction P τ → Fleet P Q τ → Prop
  | client {tasks : State Q} {a : Action P} : a.external → step stamp env s.tasks a = some tasks →
      FleetStep s (.client a) { s with tasks := tasks }
  | scheduler {schedules : PeriodicState P} {a : PeriodicAction P} : a.external →
      periodicStep croniter repr s.schedules a = some schedules →
      FleetStep s (.scheduler a) { s with schedules := schedules }
  | worker {w : ℕ} {e : WorkerEvent τ} {x : Worker τ} : w ∉ s.tasks.dead → s.ownStep cfg w e →
      s.workerStep cfg drain start w e = some x →
      FleetStep s (.worker w e) (s.setMember w { s.members w with worker := x })
  | claim {w : ℕ} {c : Claim} {claimed : Task Q × Tasks Q} {s₁ : Fleet P Q τ} :
      w ∉ s.tasks.dead → (s.members w).busy = .idle → (s.members w).worker.main.pc.claiming →
      s.tasks.claim (cfg w).mode c = some claimed →
      s.taskStep stamp env (.claim w (cfg w).mode c) = some s₁ →
      FleetStep s (.claim w c) (s₁.setMember w { s.members w with
        busy := .starting (.oneOff s.tasks.runs.length)
          ⟨claimed.1.id, false, claimed.1.startedAt, none⟩ })
  | claimPeriodic {w : ℕ} {c : PeriodicClaim} {claimed : Periodic P × Periodics P}
      {s₁ : Fleet P Q τ} : w ∉ s.tasks.dead → (s.members w).busy = .idle →
      (s.members w).worker.main.pc.claiming →
      s.schedules.claim croniter (cfg w).mode c = some claimed →
      s.scheduleStep croniter repr (.claim w (cfg w).mode c) = some s₁ →
      FleetStep s (.claimPeriodic w c) (s₁.setMember w { s.members w with
        busy := .starting (.periodic s.schedules.runs.length)
          ⟨claimed.1.id, true, none, claimed.1.maxConcurrent⟩ })
  | forks {w pid readFd : ℕ} {ref : RunRef} {slot : ChildSlot} {x : Worker τ} {s₁ : Fleet P Q τ} :
      (s.members w).busy = .starting ref slot → w ∉ s.tasks.dead →
      s.workerStep cfg drain start w (.main (.claim (.forked slot pid readFd))) = some x →
      s.startRun stamp env croniter repr ref = some s₁ →
      FleetStep s (.forks w pid readFd) (s₁.setMember w
        ⟨x, .idle, (s.members w).forked ++ [ref], (s.members w).unwritten⟩)
  | startFails {w : ℕ} {e : TaskError} {elapsed : String} {leaked : List ℕ} {ref : RunRef}
      {slot : ChildSlot} {x : Worker τ} {s₁ : Fleet P Q τ} :
      (s.members w).busy = .starting ref slot → w ∉ s.tasks.dead →
      s.workerStep cfg drain start w (.main (.claim (.notStarted slot e elapsed leaked))) = some x →
      s.endRun stamp env croniter repr (.notStarted e elapsed) ref = some s₁ →
      FleetStep s (.startFails w e elapsed leaked) (s₁.setMember w { s.members w with
        worker := x
        busy := .writing ref })
  | reaps {w : ℕ} {texts : ChildTexts} {slot : LoopSlot} {e : RunEnd} {ref : RunRef}
      {x : Worker τ} {s₁ : Fleet P Q τ} : w ∉ s.tasks.dead → (s.members w).busy = .idle →
      (s.members w).worker.main.reaping (cfg w) (.wait4 texts) = some (slot, e) →
      (s.members w).forked[slot.child]? = some ref →
      s.workerStep cfg drain start w (.main (.wait4 texts)) = some x →
      s.endRun stamp env croniter repr e ref = some s₁ →
      FleetStep s (.reaps w texts) (s₁.setMember w { s.members w with
        worker := x
        busy := .writing ref })
  | writes {w : ℕ} {clock : Timestamptz} {ref : RunRef} {s₁ : Fleet P Q τ} :
      (s.members w).busy = .writing ref → w ∉ s.tasks.dead →
      s.writeRun stamp env croniter repr clock ref = some s₁ →
      FleetStep s (.writes w clock) (s₁.setMember w { s.members w with
        busy := .idle
        unwritten := if s.commits env clock ref then (s.members w).unwritten
          else ref :: (s.members w).unwritten })
  | writeFails {w : ℕ} {ref : RunRef} {s₁ : Fleet P Q τ} :
      (s.members w).busy = .writing ref → w ∉ s.tasks.dead →
      s.dropRun croniter repr ref = some s₁ →
      FleetStep s (.writeFails w) (s₁.setMember w { s.members w with
        busy := .idle
        unwritten := ref :: (s.members w).unwritten })
  | dies {w : ℕ} : FleetStep s (.dies w) { s with
      tasks := { s.tasks with dead := w :: s.tasks.dead }
      schedules := { s.schedules with dead := w :: s.schedules.dead } }
  | orphanEnds {ref : RunRef} {e : RunEnd} {w : ℕ} {s₁ : Fleet P Q τ} :
      s.owner ref = some (w, .alive) → w ∈ s.tasks.dead →
      s.endRun stamp env croniter repr e ref = some s₁ → FleetStep s (.orphanEnds ref e) s₁

variable {stamp env croniter repr cfg drain start} {s s' : Fleet P Q τ}

omit [LinearOrder τ] in
theorem Fleet.idle_iff {w : ℕ} :
    s.idle w ↔ w ∉ s.tasks.dead ∧ (s.members w).busy = .idle := by
  simp [idle, Busy.isIdle_iff]

theorem fleetStep_cases {a : FleetAction P τ}
    (h : fleetStep stamp env croniter repr cfg drain start s a = some s') :
    FleetStep stamp env croniter repr cfg drain start s a s' := by
  cases a with
  | client a =>
    simp only [fleetStep] at h
    split_ifs at h with ha
    obtain ⟨t, ht, rfl⟩ := Option.map_eq_some_iff.mp h
    exact .client ha ht
  | scheduler a =>
    simp only [fleetStep] at h
    split_ifs at h with ha
    obtain ⟨t, ht, rfl⟩ := Option.map_eq_some_iff.mp h
    exact .scheduler ha ht
  | worker w e =>
    simp only [fleetStep] at h
    split_ifs at h with ha
    obtain ⟨x, hx, rfl⟩ := Option.map_eq_some_iff.mp h
    exact .worker ha.1 ha.2 hx
  | claim w c =>
    simp only [fleetStep] at h
    split_ifs at h with ha
    obtain ⟨hw, hidle⟩ := Fleet.idle_iff.mp ha.1
    obtain ⟨claimed, hc, h⟩ := Option.bind_eq_some_iff.mp h
    obtain ⟨s₁, hs, h⟩ := Option.bind_eq_some_iff.mp h
    cases h
    exact .claim hw hidle (Pc.claiming_of_claimsPeriodic ha.2) hc hs
  | claimPeriodic w c =>
    simp only [fleetStep] at h
    split_ifs at h with ha
    obtain ⟨hw, hidle⟩ := Fleet.idle_iff.mp ha.1
    obtain ⟨claimed, hc, h⟩ := Option.bind_eq_some_iff.mp h
    obtain ⟨s₁, hs, h⟩ := Option.bind_eq_some_iff.mp h
    cases h
    exact .claimPeriodic hw hidle (Pc.claiming_of_claimsPeriodic ha.2) hc hs
  | forks w pid readFd =>
    simp only [fleetStep] at h
    split at h
    · rename_i ref slot hbusy
      split_ifs at h with hw
      obtain ⟨x, hx, h⟩ := Option.bind_eq_some_iff.mp h
      obtain ⟨s₁, hs, h⟩ := Option.bind_eq_some_iff.mp h
      cases h
      exact .forks hbusy hw hx hs
    · cases h
  | startFails w e elapsed leaked =>
    simp only [fleetStep] at h
    split at h
    · rename_i ref slot hbusy
      split_ifs at h with hw
      obtain ⟨x, hx, h⟩ := Option.bind_eq_some_iff.mp h
      obtain ⟨s₁, hs, h⟩ := Option.bind_eq_some_iff.mp h
      cases h
      exact .startFails hbusy hw hx hs
    · cases h
  | reaps w texts =>
    simp only [fleetStep] at h
    split_ifs at h with hidle
    obtain ⟨hw, hbusy⟩ := Fleet.idle_iff.mp hidle
    obtain ⟨⟨slot, e⟩, hr, h⟩ := Option.bind_eq_some_iff.mp h
    obtain ⟨ref, href, h⟩ := Option.bind_eq_some_iff.mp h
    obtain ⟨x, hx, h⟩ := Option.bind_eq_some_iff.mp h
    obtain ⟨s₁, hs, h⟩ := Option.bind_eq_some_iff.mp h
    cases h
    exact .reaps hw hbusy hr href hx hs
  | writes w clock =>
    simp only [fleetStep] at h
    split at h
    · rename_i ref hbusy
      by_cases hw : w ∈ s.tasks.dead
      · rw [if_pos hw] at h
        cases h
      · rw [if_neg hw] at h
        obtain ⟨s₁, hs, h⟩ := Option.bind_eq_some_iff.mp h
        cases h
        exact .writes hbusy hw hs
    · cases h
  | writeFails w =>
    simp only [fleetStep] at h
    split at h
    · rename_i ref hbusy
      split_ifs at h with hw
      obtain ⟨s₁, hs, h⟩ := Option.bind_eq_some_iff.mp h
      cases h
      exact .writeFails hbusy hw hs
    · cases h
  | dies w =>
    simp only [fleetStep] at h
    obtain ⟨s₁, hs, h⟩ := Option.bind_eq_some_iff.mp h
    obtain ⟨t, ht, rfl⟩ := Option.map_eq_some_iff.mp hs
    obtain ⟨p, hp, rfl⟩ := Option.map_eq_some_iff.mp h
    cases ht
    cases hp
    exact .dies
  | orphanEnds ref e =>
    simp only [fleetStep] at h
    split at h
    · rename_i w halive
      split_ifs at h with hw
      exact .orphanEnds halive hw h
    · cases h

end Cases

end PostgresQueue
