import PostgresQueue.Consistency

namespace PostgresQueue

open Library

variable {τ : Type}

section Runs

variable [LinearOrder τ] {cfg : WorkerConfig} {drain : DrainTimeout τ} {start : τ} {w : Worker τ}

theorem Consistent.event {w' : Worker τ} {e : WorkerEvent τ} (h : Consistent cfg w.main)
    (he : (runWorker cfg drain start).step w e = some w') : Consistent cfg w'.main := by
  cases e with
  | signal e =>
    obtain ⟨s, -, rfl⟩ := Option.map_eq_some_iff.mp he
    exact h
  | childEnds pid status =>
    cases he
    exact h.ends pid status
  | main i =>
    simp only [runWorker] at he
    split_ifs at he
    obtain ⟨m, hm, rfl⟩ := Option.map_eq_some_iff.mp he
    exact h.step hm

theorem runWorker_consistent (h : (runWorker cfg drain start).Reachable System.free w) :
    Consistent cfg w.main := by
  apply h.invariant (I := fun w => Consistent cfg w.main) (Consistent.init cfg)
  intro w e w' hi _ he
  exact hi.event he

/-- In every state of `_run_concurrent`: no more live slots than `concurrency`, two dictionaries
that are inverse to each other, no error of the bookkeeping, no child handed over twice; and
nothing is left over when it returns. -/
theorem bookkeeping (hmode : cfg.mode = .concurrent)
    (h : (runWorker cfg drain start).Reachable System.free w) :
    w.main.live.length ≤ cfg.concurrency ∧
    (∀ fd pid, (fd, pid) ∈ w.main.fdToPid.entries ↔
      ∃ slot, (pid, slot) ∈ w.main.children.entries ∧ slot.readFd = fd ∧ slot.pid = pid) ∧
    w.main.pc ≠ .keyError ∧ w.main.pc ≠ .osError ∧
    w.main.log.handed.Nodup ∧
    (∀ child < w.main.os.forks, child ∈ w.main.log.handed ∨
      ∃ slot ∈ w.main.live, slot.child = child) ∧
    (w.main.pc = .returned → w.main.os.unreaped = [] ∧
      w.main.log.handed.Perm (List.range w.main.os.forks) ∧
      (w.main.log.reaped.map Prod.fst).Perm (List.range w.main.os.forks) ∧
      w.main.log.claimed.Perm (w.main.log.ended.map Prod.fst)) := by
  have hc := runWorker_consistent h
  have hroom := hc.room
  rw [WorkerConfig.capacity, hmode] at hroom
  refine ⟨hroom, fun fd pid => ?_, ?_, ?_, hc.handed_nodup, fun child => hc.handed_or_live,
    hc.returned⟩
  · rw [hc.indexed.mem_iff]
    constructor
    · rintro ⟨slot, hm, hfd⟩
      exact ⟨slot, hm, hfd, hc.keyed _ hm⟩
    · rintro ⟨slot, hm, hfd, -⟩
      exact ⟨slot, hm, hfd⟩
  · intro hpc
    have hok := hc.succeeds
    rw [hpc] at hok
    cases hok
  · intro hpc
    have hok := hc.succeeds
    rw [hpc] at hok
    cases hok

end Runs

section Sample

def sampleConfig (mode : Mode) : WorkerConfig where
  mode := mode
  concurrency := 2
  retentionDays := 7
  cleanupInterval := .finite 3600
  staleTaskTimeout := some 3600
  drainTimeout := "20"

def sampleDrain : DrainTimeout ℕ := ⟨fun t => t + 20, fun _ _ h => Nat.add_le_add_right h 20⟩

def sampleFork (taskId pid readFd : ℕ) : WorkerEvent ℕ :=
  .main (.claim (.forked ⟨taskId, false, some 10, none⟩ pid readFd))

def sampleSignal : List (WorkerEvent ℕ) :=
  [.signal (.arrives 15), .signal .runs, .signal .runs, .signal .runs, .signal .runs]

def sampleConcurrentRun : List (WorkerEvent ℕ) :=
  [.main .next, .main .next, sampleFork 1 500 7, .main .next, sampleFork 2 501 8, .main .next,
    .main (.ready [8]), .main .next, .childEnds 501 (.exited 0), .main (.wait4 ⟨"", "", ""⟩)] ++
  sampleSignal ++
  [.main .next, .main .next, .main .next, .main .next, .childEnds 500 (.exited 0),
    .main (.wait4 ⟨"", "", ""⟩), .main .next]

def sampleWorker : Worker ℕ :=
  (runWorker (sampleConfig .concurrent) sampleDrain 0).run System.free sampleConcurrentRun

theorem sampleConcurrentRun_reachable :
    (runWorker (sampleConfig .concurrent) sampleDrain 0).Reachable System.free sampleWorker :=
  .of_run (by decide +kernel)

theorem bookkeeping_drained : sampleWorker.main.os.unreaped = [] ∧
    sampleWorker.main.log.handed.Perm (List.range sampleWorker.main.os.forks) ∧
    (sampleWorker.main.log.reaped.map Prod.fst).Perm (List.range sampleWorker.main.os.forks) ∧
    sampleWorker.main.log.claimed.Perm (sampleWorker.main.log.ended.map Prod.fst) := by
  obtain ⟨-, -, -, -, -, -, hreturned⟩ := bookkeeping rfl sampleConcurrentRun_reachable
  exact hreturned (by rfl)

end Sample

end PostgresQueue
