import PostgresQueue.ShutdownSteps

namespace PostgresQueue

open Library System

variable {τ : Type}

section Shutdown

/-- A worker, and the children whose pipe is held open by a process that their task has forked. -/
structure HeldPipes (τ : Type) where
  worker : Worker τ
  held : List ℕ

inductive HeldEvent (τ : Type)
  | worker (e : WorkerEvent τ)
  | holds (child : ℕ)
  | closes (child : ℕ)

def Main.collects (m : Main τ) : Option ℕ :=
  match m.pc with
  | .wait slot .poll _ _ => do
    let c ← m.os.child? slot.pid
    let _ ← c.status
    return c.child
  | _ => none

/-- The pipe of the child that has ended is not at its end. -/
def HeldPipes.blocked (w : HeldPipes τ) : Bool := w.worker.main.collects.any w.held.contains

variable [LinearOrder τ]

/-- `run_worker`, where the reads that follow `wait4` return once the pipe of the child is held
by nobody. -/
def heldWorker (cfg : WorkerConfig) (drain : DrainTimeout τ) (start : τ) :
    System (HeldPipes τ) (HeldEvent τ) where
  init := ⟨(runWorker cfg drain start).init, []⟩
  step w
    | .worker (.main (.wait4 texts)) =>
      if w.blocked then none
      else ((runWorker cfg drain start).step w.worker (.main (.wait4 texts))).map fun x =>
        { w with worker := x }
    | .worker e => ((runWorker cfg drain start).step w.worker e).map fun x => { w with worker := x }
    | .holds child =>
      if child ∈ (w.worker.main.os.unreaped.filter fun c => c.status.isNone).map OsChild.child then
        some { w with held := child :: w.held }
      else none
    | .closes child => some { w with held := w.held.filter fun c => c ≠ child }

variable {cfg : WorkerConfig} {drain : DrainTimeout τ} {start : τ} {w w' : Worker τ}
  {h h' : HeldPipes τ}

def mainSteps (_ : HeldPipes τ) : HeldEvent τ → ℕ
  | .worker (.main _) => 1
  | _ => 0

def pollsInVain (h : HeldPipes τ) : HeldEvent τ → ℕ
  | .worker (.main _) => h.worker.main.pollsInVain.toNat
  | _ => 0

theorem requested_event {e : WorkerEvent τ} (hr : w.signals.requested)
    (he : (runWorker cfg drain start).step w e = some w') : w'.signals.requested := by
  cases e with
  | signal e =>
    obtain ⟨s, hs, rfl⟩ := Option.map_eq_some_iff.mp he
    exact Signals.requested_step hr hs
  | childEnds pid status =>
    cases he
    exact hr
  | main i =>
    simp only [runWorker] at he
    split_ifs at he
    obtain ⟨m, -, rfl⟩ := Option.map_eq_some_iff.mp he
    exact hr

theorem heldWorker_event {e : HeldEvent τ} (he : (heldWorker cfg drain start).step h e = some h') :
    (∃ e', e = .worker e' ∧ (runWorker cfg drain start).step h.worker e' = some h'.worker) ∨
      ((∀ e', e ≠ .worker e') ∧ h'.worker = h.worker) := by
  cases e with
  | worker e =>
    refine .inl ⟨e, rfl, ?_⟩
    simp only [heldWorker] at he
    split at he
    · rename_i heq
      cases heq
      split_ifs at he
      obtain ⟨x, hx, rfl⟩ := Option.map_eq_some_iff.mp he
      exact hx
    · rename_i heq
      cases heq
      obtain ⟨x, hx, rfl⟩ := Option.map_eq_some_iff.mp he
      exact hx
    all_goals
      rename_i heq
      cases heq
  | holds child =>
    simp only [heldWorker] at he
    split_ifs at he
    cases he
    exact .inr ⟨fun e' heq => (by cases heq), rfl⟩
  | closes child =>
    cases he
    exact .inr ⟨fun e' heq => (by cases heq), rfl⟩

theorem heldWorker_reachable (hr : (heldWorker cfg drain start).Reachable free h) :
    (runWorker cfg drain start).Reachable free h.worker := by
  refine hr.invariant (I := fun h => (runWorker cfg drain start).Reachable free h.worker) .init ?_
  intro h e h' hi _ he
  rcases heldWorker_event he with ⟨e', rfl, he'⟩ | ⟨-, hsame⟩
  · exact hi.step trivial he'
  · rw [hsame]
    exact hi

theorem held_left {e : HeldEvent τ} (hr : h.worker.signals.requested)
    (he : (heldWorker cfg drain start).step h e = some h') :
    mainSteps h e + h'.worker.main.stepsLeft ≤
      h.worker.main.stepsLeft + 5 * pollsInVain h e := by
  rcases heldWorker_event he with ⟨e, rfl, he'⟩ | ⟨hne, hsame⟩
  · cases e with
    | signal e =>
      obtain ⟨s, -, heq⟩ := Option.map_eq_some_iff.mp he'
      simp [mainSteps, pollsInVain, ← heq]
    | childEnds pid status =>
      have heq := Option.some.inj he'
      simp [mainSteps, pollsInVain, Main.stepsLeft, ← heq]
    | main i => exact Main.step_left hr (main_step he')
  · cases e with
    | worker e => exact absurd rfl (hne e)
    | holds child => simp [mainSteps, pollsInVain, hsame]
    | closes child => simp [mainSteps, pollsInVain, hsame]

theorem held_requested {e : HeldEvent τ} (hr : h.worker.signals.requested)
    (he : (heldWorker cfg drain start).step h e = some h') : h'.worker.signals.requested := by
  rcases heldWorker_event he with ⟨e, rfl, he'⟩ | ⟨-, hsame⟩
  · exact requested_event hr he'
  · rw [hsame]
    exact hr

end Shutdown

section Sample

def sampleSignalled : HeldPipes ℕ := (heldWorker (sampleConfig .concurrent) sampleDrain 0).run free
  ((sampleConcurrentRun.take 15).map .worker)

def sampleReturned : HeldPipes ℕ := (heldWorker (sampleConfig .concurrent) sampleDrain 0).run free
  (sampleConcurrentRun.map .worker)

end Sample

end PostgresQueue
