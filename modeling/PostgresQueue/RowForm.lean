import PostgresQueue.TaskSteps

namespace PostgresQueue

open Library System

variable {P Q : Type} {stamp : P → ℕ → Q} {env : Env Q}

structure Task.WellFormed (t : Task P) : Prop where
  pending : t.status = .pending → t.attempts = 0 ∧ t.startedAt = none ∧ t.completedAt = none ∧
    t.error = none ∧ t.requeue = none
  running : t.status = .running → t.attempts = 1 ∧ t.startedAt ≠ none ∧ t.completedAt = none ∧
    t.error = none
  completed : t.status = .completed → t.attempts = 1 ∧ t.startedAt ≠ none ∧
    t.completedAt ≠ none ∧ t.error = none ∧ t.requeue = none
  failed : t.status = .failed → t.attempts = 1 ∧ t.startedAt ≠ none ∧ t.completedAt ≠ none ∧
    t.requeue = none
  requeue : t.requeue ≠ none → t.status = .running

inductive Task.Becomes (env : Env P) (t : Task P) : Task P → Prop
  | same : Becomes env t t
  | requeued {q : Task P} : t.status = .running → t.applyRequeue env = .ok q → Becomes env t q
  | closed (clock : Timestamptz) {o : Outcome} : t.status = .running → t.requeue = none →
      o.Sound → Becomes env t (recordOutcome clock o t)
  | reaped (r : Reap) : t.status = .running → t.requeue = none → Becomes env t (r.fail env t)

theorem Task.Becomes.id_eq {t q : Task P} {env : Env P} (h : t.Becomes env q) : q.id = t.id := by
  cases h with
  | requeued _ ha =>
    obtain ⟨spec, v, -, -, rfl⟩ := Task.applyRequeue_ok.mp ha
    rfl
  | same | closed | reaped => rfl

namespace Task.WellFormed

variable {t : Task P}

theorem fresh (t : Task P) (v : Version P) : (t.fresh v).WellFormed := by
  constructor <;> simp [Task.fresh]

theorem markRunning (h : t.WellFormed) (hs : t.status = .pending) (c : Claim) :
    (c.markRunning t).WellFormed := by
  obtain ⟨ha, -, hc, he, hq⟩ := h.pending hs
  constructor <;> simp [Claim.markRunning, ha, hc, he, hq]

theorem onConflict (h : t.WellFormed) (conn : Conn) (new : NewTask P) :
    (new.onConflict conn t).WellFormed := by
  by_cases hs : t.status = .running
  · rw [new.onConflict_running conn hs]
    obtain ⟨ha, hst, hc, he⟩ := h.running hs
    constructor <;> simp [hs, ha, hst, hc, he]
  · rw [new.onConflict_idle conn hs]
    exact fresh t _

theorem recordOutcome (h : t.WellFormed) (hs : t.status = .running) (hq : t.requeue = none)
    {o : Outcome} (ho : o.Sound) (clock : Timestamptz) :
    (PostgresQueue.recordOutcome clock o t).WellFormed := by
  obtain ⟨ha, hst, -, he⟩ := h.running hs
  rcases ho with rfl | ho
  · constructor <;> simp [PostgresQueue.recordOutcome, ha, hst, he, hq]
  · constructor <;> simp [PostgresQueue.recordOutcome, ho, ha, hst, hq]

theorem fail (h : t.WellFormed) (hs : t.status = .running) (hq : t.requeue = none) (env : Env P)
    (r : Reap) : (r.fail env t).WellFormed := by
  obtain ⟨ha, hst, -, -⟩ := h.running hs
  constructor <;> simp [Reap.fail, ha, hst, hq]

theorem becomes {env : Env P} {q : Task P} (h : t.WellFormed) (hb : t.Becomes env q) :
    q.WellFormed := by
  cases hb with
  | same => exact h
  | requeued _ ha =>
    obtain ⟨spec, v, -, -, rfl⟩ := Task.applyRequeue_ok.mp ha
    exact fresh t v
  | closed clock hs hq ho => exact h.recordOutcome hs hq ho clock
  | reaped r hs hq => exact h.fail hs hq env r

end Task.WellFormed

theorem finishOneOff_becomes {clock : Timestamptz} {id : ℕ} {startedAt : Option Timestamptz}
    {o : Outcome} (ho : o.Sound) {tasks : Tasks P} {env : Env P} {q : Task P}
    (hq : q ∈ finishOneOff env clock id startedAt o tasks) : ∃ t ∈ tasks, t.Becomes env q := by
  rcases finishOneOff_cases env clock id startedAt o tasks with he | ⟨t, hw, hcase⟩
  · rw [he] at hq
    exact ⟨q, hq, .same⟩
  · obtain ⟨-, hs, -⟩ := finishWhere_true hw
    rcases hcase with ⟨t', ha, hrep⟩ | ⟨hn, hrep⟩
    · rcases hrep.origin hq with rfl | ⟨hq, -⟩
      exacts [⟨t, hrep.mem, .requeued hs ha⟩, ⟨q, hq, .same⟩]
    · rcases hrep.origin hq with rfl | ⟨hq, -⟩
      exacts [⟨t, hrep.mem, .closed clock hs hn ho⟩, ⟨q, hq, .same⟩]

theorem Accept.rows {s s' : State Q} {conn : Conn} {new : NewTask Q} (h : Accept s conn new s') :
    ∃ q, ((∃ id, q = new.row conn id) ∨ ∃ t ∈ s.tasks, q = new.onConflict conn t) ∧
      ∀ p ∈ s'.tasks, p = q ∨ p ∈ s.tasks := by
  cases h with
  | inserted hins => exact ⟨_, .inl ⟨_, rfl⟩, fun p hp => (hins.mem_iff p).mp hp⟩
  | conflicted _ _ _ hrep =>
    exact ⟨_, .inr ⟨_, hrep.mem, rfl⟩, fun p hp => (hrep.origin hp).imp_right And.left⟩

@[simp] theorem State.taken_setPhase (s : State Q) (i : ℕ) (phase : Phase) :
    (s.setPhase i phase).taken = s.taken := by
  simp only [State.taken, State.setPhase]
  refine List.ext_getElem? fun j => ?_
  rw [List.getElem?_map, List.getElem?_map, List.getElem?_modify]
  cases s.runs[j]? with
  | none => rfl
  | some r => simp only [Option.map_eq_map, Option.map_some]; split_ifs <;> rfl

theorem Quiet.rows {s s' : State Q} {a : Action P} (hl : LockInv s) (h : Quiet env s a s') :
    (∃ worker mode c t, a = .claim worker mode c ∧
      s.claim mode c = some (c.markRunning t, s'.tasks) ∧ t.status = .pending ∧
      s.tasks.Replaces t (c.markRunning t) s'.tasks ∧
      s'.runs = s.runs ++ [⟨c.markRunning t, c.startedAt, worker, mode, .claimed⟩]) ∨
    (s'.taken = s.taken ∧ ∀ q ∈ s'.tasks, ∃ t ∈ s.tasks, t.Becomes env q) := by
  have same : ∀ q ∈ s.tasks, ∃ t ∈ s.tasks, t.Becomes env q := fun q hq => ⟨q, hq, .same⟩
  cases h with
  | @claim worker mode c t tasks hc hs _ hrep =>
    exact .inl ⟨worker, mode, c, t, rfl, hc, hs, hrep, rfl⟩
  | record _ _ ho =>
    exact .inr ⟨s.taken_setPhase _ _,
      fun q hq => finishOneOff_becomes (RunEnd.outcome_sound ho) hq⟩
  | reapCommit hx hw =>
    refine .inr ⟨rfl, fun q hq => ?_⟩
    have hm := List.mem_of_getElem? hx
    rcases ((hl.write hx hw).2.2 q).mp hq with ⟨t, ht, rfl⟩ | ⟨t, ht, ha⟩ | ⟨hq, -⟩
    · obtain ⟨ht, hs, hn⟩ := hl.failing _ hm t ht
      exact ⟨t, ht, .reaped _ hs hn⟩
    · obtain ⟨ht, hs, -⟩ := hl.requeueing _ hm t ht
      exact ⟨t, ht, .requeued hs ha⟩
    · exact ⟨q, hq, .same⟩
  | cancel | clear | clearAll =>
    exact .inr ⟨rfl, fun q hq => ⟨q, (Table.mem_delete.mp hq).1, .same⟩⟩
  | start | finishes => exact .inr ⟨s.taken_setPhase _ _, same⟩
  | dies | reapBegin | reapFail | reapSecond | reapRequeue | reapDrop => exact .inr ⟨rfl, same⟩

theorem wellFormed_reachable {G : State Q → Action P → Prop} {s : State Q}
    (h : (taskSystem stamp env).Reachable G s) : ∀ t ∈ s.tasks, t.WellFormed := by
  refine reachable_invariant (I := fun s => ∀ t ∈ s.tasks, t.WellFormed) ?_ ?_ ?_ h
  · intro t ht
    exact absurd ht (Table.not_mem_empty t)
  · intro s conn new s' _ hi ha q hq
    obtain ⟨q', hq', hrows⟩ := ha.rows
    rcases hrows q hq with rfl | hq
    · rcases hq' with ⟨id, rfl⟩ | ⟨t, ht, rfl⟩
      · rw [NewTask.row_eq_fresh]
        exact .fresh _ _
      · exact (hi t ht).onConflict conn new
    · exact hi q hq
  · intro s a s' hl hi _ hq q hm
    rcases hq.rows hl with ⟨worker, mode, c, t, -, -, hs, hrep, -⟩ | ⟨-, hb⟩
    · rcases hrep.origin hm with rfl | ⟨hm, -⟩
      exacts [(hi t hrep.mem).markRunning hs c, hi q hm]
    · obtain ⟨t, ht, hb⟩ := hb q hm
      exact (hi t ht).becomes hb

theorem tasks_wellFormed {s : State Q} (h : (taskSystem stamp env).Reachable free s) :
    ∀ t ∈ s.tasks, t.WellFormed :=
  wellFormed_reachable h

def sampleParked : State String :=
  (taskSystem unlabelled sampleEnv).run free [.upsert sampleConn (sampleUpsert "a"),
    sampleClaim 0 10, .upsert sampleConn (sampleUpsert "b")]

theorem tasks_wellFormed_parked : ∃ t ∈ sampleParked.tasks, t.requeue ≠ none ∧ t.WellFormed := by
  have h : sampleParked.tasks.rows.any (fun t => t.requeue != none) = true := by decide +kernel
  obtain ⟨t, ht, hr⟩ := List.any_eq_true.mp h
  exact ⟨t, ht, by simpa using hr, tasks_wellFormed (.of_run (by decide +kernel)) t ht⟩

end PostgresQueue
