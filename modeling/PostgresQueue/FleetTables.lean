import PostgresQueue.FleetAccounts
import PostgresQueue.LiveRuns

namespace PostgresQueue

open Library System

variable {P Q τ : Type}

def tableGuard (cfg : ℕ → WorkerConfig) (G : State Q → Action P → Prop) (s : Fleet P Q τ) :
    FleetAction P τ → Prop
  | .client a => G s.tasks a
  | .claim w c => G s.tasks (.claim w (cfg w).mode c)
  | _ => True

instance (cfg : ℕ → WorkerConfig) (G : State Q → Action P → Prop) [∀ t b, Decidable (G t b)]
    (s : Fleet P Q τ) (a : FleetAction P τ) : Decidable (tableGuard cfg G s a) :=
  match a with
  | .client a => inferInstanceAs (Decidable (G s.tasks a))
  | .claim w c => inferInstanceAs (Decidable (G s.tasks (.claim w (cfg w).mode c)))
  | .scheduler _ | .worker .. | .claimPeriodic .. | .forks .. | .startFails .. | .reaps ..
  | .writes .. | .writeFails _ | .dies _ | .orphanEnds .. => isTrue trivial

def Action.ofLoop : Action P → Bool
  | .start _ | .finishes .. | .record .. | .dies _ => true
  | _ => false

theorem distinctClaims_ofLoop (t : State Q) (b : Action P) (hb : b.ofLoop) : distinctClaims t b := by
  cases b with
  | start | finishes | record | dies => trivial
  | _ => cases hb

theorem contract_ofLoop (t : State Q) (b : Action P) (hb : b.ofLoop) : contract t b := by
  cases b with
  | start | finishes | record | dies => exact ⟨trivial, trivial, trivial⟩
  | _ => cases hb

section Tasks

variable {stamp : P → ℕ → Q} {env : Env Q} {croniter : Croniter} {repr : PyFloat → String}
  {cfg : ℕ → WorkerConfig} {G : State Q → Action P → Prop}

namespace Fleet

variable {s s' : Fleet P Q τ} {ref : RunRef}

def OnTasks (stamp : P → ℕ → Q) (env : Env Q) (G : State Q → Action P → Prop)
    (s s' : Fleet P Q τ) : Prop :=
  s'.tasks = s.tasks ∨ ∃ b, step stamp env s.tasks b = some s'.tasks ∧ G s.tasks b

theorem onTasks_taskStep {b : Action P} (hb : G s.tasks b)
    (h : s.taskStep stamp env b = some s') : OnTasks stamp env G s s' := by
  obtain ⟨t, ht, rfl⟩ := Option.map_eq_some_iff.mp h
  exact .inr ⟨b, ht, hb⟩

theorem onTasks_scheduleStep {b : PeriodicAction P}
    (h : s.scheduleStep croniter repr b = some s') : OnTasks stamp env G s s' := by
  obtain ⟨t, ht, rfl⟩ := Option.map_eq_some_iff.mp h
  exact .inl rfl

theorem OnTasks.setMember (h : OnTasks stamp env G s s') (w : ℕ) (m : Member τ) :
    OnTasks stamp env G s (s'.setMember w m) := h

theorem onTasks_startRun (hloop : ∀ t b, b.ofLoop → G t b)
    (h : s.startRun stamp env croniter repr ref = some s') :
    OnTasks stamp env G s s' := by
  cases ref with
  | oneOff i => exact onTasks_taskStep (hloop _ (.start i) rfl) h
  | periodic i => exact onTasks_scheduleStep h

theorem onTasks_endRun (hloop : ∀ t b, b.ofLoop → G t b) {e : RunEnd}
    (h : s.endRun stamp env croniter repr e ref = some s') :
    OnTasks stamp env G s s' := by
  cases ref with
  | oneOff i => exact onTasks_taskStep (hloop _ (.finishes i e) rfl) h
  | periodic i => exact onTasks_scheduleStep h

theorem onTasks_writeRun (hloop : ∀ t b, b.ofLoop → G t b) {clock : Timestamptz}
    (h : s.writeRun stamp env croniter repr clock ref = some s') : OnTasks stamp env G s s' := by
  cases ref with
  | oneOff i => exact onTasks_taskStep (hloop _ (.record i clock) rfl) h
  | periodic i => exact onTasks_scheduleStep h

theorem onTasks_dropRun (h : s.dropRun croniter repr ref = some s') : OnTasks stamp env G s s' := by
  cases ref with
  | oneOff i =>
    cases h
    exact .inl rfl
  | periodic i => exact onTasks_scheduleStep h

end Fleet

variable [LinearOrder τ] {drain : ℕ → DrainTimeout τ} {start : ℕ → τ} {s s' : Fleet P Q τ}
  {a : FleetAction P τ}

theorem FleetStep.onTasks (hloop : ∀ t b, b.ofLoop → G t b) (hg : tableGuard cfg G s a)
    (h : FleetStep stamp env croniter repr cfg drain start s a s') :
    Fleet.OnTasks stamp env G s s' := by
  cases h with
  | client ha ht => exact .inr ⟨_, ht, hg⟩
  | scheduler => exact .inl rfl
  | worker => exact .inl rfl
  | claim _ _ _ _ hs => exact (Fleet.onTasks_taskStep hg hs).setMember _ _
  | claimPeriodic _ _ _ _ hs => exact (Fleet.onTasks_scheduleStep hs).setMember _ _
  | forks _ _ _ hs => exact (Fleet.onTasks_startRun hloop hs).setMember _ _
  | startFails _ _ _ hs => exact (Fleet.onTasks_endRun hloop hs).setMember _ _
  | reaps _ _ _ _ _ hs => exact (Fleet.onTasks_endRun hloop hs).setMember _ _
  | writes _ _ hs => exact (Fleet.onTasks_writeRun hloop hs).setMember _ _
  | writeFails _ _ hs => exact (Fleet.onTasks_dropRun hs).setMember _ _
  | @dies w => exact .inr ⟨.dies w, rfl, hloop _ _ rfl⟩
  | orphanEnds _ _ hs => exact Fleet.onTasks_endRun hloop hs

theorem fleet_tasks (hloop : ∀ t b, b.ofLoop → G t b) {now : Timestamptz}
    (h : (fleet stamp env croniter repr cfg drain start now).Reachable (tableGuard cfg G) s) :
    (taskSystem stamp env).Reachable G s.tasks := by
  refine h.invariant (I := fun s : Fleet P Q τ => (taskSystem stamp env).Reachable G s.tasks)
    .init fun s a s' hi hg he => ?_
  have hs : fleetStep stamp env croniter repr cfg drain start s a = some s' := he
  rcases (fleetStep_cases hs).onTasks hloop hg with hsame | ⟨b, hb, hd⟩
  · rw [hsame]
    exact hi
  · exact hi.step hd hb

end Tasks

section Sample

def sampleSpread : Fleet String String ℕ := sampleFleet.run (tableGuard sampleModes contract)
  sampleFleetRun

end Sample

end PostgresQueue
