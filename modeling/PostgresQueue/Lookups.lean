import PostgresQueue.RowForm

namespace PostgresQueue

open Library System

section Lookups

variable {P : Type}

def getTask (id : ℕ) (tasks : Tasks P) : Option (Task P) := tasks.find? fun t => t.id == id

theorem getTask_eq_some {id : ℕ} {tasks : Tasks P} {t : Task P} :
    getTask id tasks = some t ↔ t ∈ tasks ∧ t.id = id := by
  constructor
  · intro h
    obtain ⟨hm, he⟩ := Table.mem_of_find? h
    exact ⟨hm, beq_iff_eq.mp he⟩
  · rintro ⟨hm, rfl⟩
    exact Table.find?_eq_some_of_key hm (beq_self_eq_true _) fun q _ he => beq_iff_eq.mp he

def TaskStatus.stage : TaskStatus → ℕ
  | .pending => 0
  | .running => 1
  | .completed | .failed => 2

structure Task.MovesTo (t q : Task P) : Prop where
  stage : t.status.stage < q.status.stage
  frame : q = { t with
    status := q.status
    startedAt := q.startedAt
    completedAt := q.completedAt
    error := q.error
    attempts := q.attempts }
  claim : t.status = .running → q.startedAt = t.startedAt ∧ q.attempts = t.attempts

/-- Only an upsert can rewrite a row, and it needs a `client_id` for that. -/
def Task.Plain (t : Task P) : Prop := t.clientId = none ∧ t.requeue = none

def Task.LeadsTo (t q : Task P) : Prop := t.Plain → q = t ∨ (q.Plain ∧ t.MovesTo q)

theorem Task.LeadsTo.refl (t : Task P) : t.LeadsTo t := fun _ => .inl rfl

theorem Task.MovesTo.trans {t q r : Task P} (h : t.MovesTo q) (h' : q.MovesTo r) : t.MovesTo r := by
  refine ⟨h.stage.trans h'.stage, ?_, fun hs => ?_⟩
  · have hframe := h'.frame
    rw [h.frame] at hframe
    exact hframe
  · have hq : q.status.stage = 2 := by
      have hlt := h.stage
      rw [hs] at hlt
      cases hqs : q.status <;> simp [hqs, TaskStatus.stage] at hlt ⊢
    have hlt := h'.stage
    rw [hq] at hlt
    cases hrs : r.status <;> simp [hrs, TaskStatus.stage] at hlt

theorem Task.LeadsTo.trans {t q r : Task P} (h : t.LeadsTo q) (h' : q.LeadsTo r) : t.LeadsTo r := by
  intro ht
  rcases h ht with rfl | ⟨hq, hmove⟩
  · exact h' ht
  · rcases h' hq with rfl | ⟨hr, hmove'⟩
    exacts [.inr ⟨hq, hmove⟩, .inr ⟨hr, hmove.trans hmove'⟩]

end Lookups

section Evolve

variable {P Q : Type} {stamp : P → ℕ → Q} {env : Env Q} {s s' : State Q}

theorem leadsTo_markRunning {t : Task Q} (hs : t.status = .pending) (c : Claim) :
    t.LeadsTo (c.markRunning t) := by
  refine fun ht => .inr ⟨ht, ?_, rfl, fun hrun => ?_⟩
  · rw [hs]
    exact Nat.zero_lt_one
  · cases hs.symm.trans hrun

theorem Task.Becomes.leadsTo {t q : Task Q} (h : t.Becomes env q) : t.LeadsTo q := by
  intro ht
  cases h with
  | same => exact .inl rfl
  | requeued hs ha =>
    obtain ⟨spec, v, hspec, -⟩ := Task.applyRequeue_ok.mp ha
    cases ht.2.symm.trans hspec
  | @closed clock o hs hq ho =>
    refine .inr ⟨ht, ?_, rfl, fun _ => ⟨rfl, rfl⟩⟩
    rw [hs]
    rcases ho with rfl | ho
    · exact Nat.one_lt_two
    · rw [recordOutcome, ho]
      exact Nat.one_lt_two
  | reaped r hs hq =>
    refine .inr ⟨ht, ?_, rfl, fun _ => ⟨rfl, rfl⟩⟩
    rw [hs]
    exact Nat.one_lt_two

abbrev Tasks.Evolve (tasks tasks' : Tasks Q) : Prop := tasks.Evolves Task.LeadsTo tasks'

theorem Accept.evolves {conn : Conn} {new : NewTask Q} (h : Accept s conn new s') :
    s.tasks.Evolve s'.tasks := by
  cases h with
  | inserted hins => exact .of_inserts Task.LeadsTo.refl hins
  | @conflicted tasks t hsome hc _ hrep =>
    refine .of_replaces Task.LeadsTo.refl hrep fun ht => ?_
    rw [← hc, ht.1] at hsome
    cases hsome

theorem finishOneOff_next {clock : Timestamptz} {id : ℕ} {startedAt : Option Timestamptz}
    {o : Outcome} {tasks : Tasks Q} :
    (finishOneOff env clock id startedAt o tasks).next = tasks.next := by
  rcases finishOneOff_cases env clock id startedAt o tasks with he | ⟨t, -, hcase⟩
  · rw [he]
  · rcases hcase with ⟨q, -, hrep⟩ | ⟨-, hrep⟩
    exacts [hrep.next_eq, hrep.next_eq]

theorem Quiet.next_eq {a : Action P} (hl : LockInv s) (h : Quiet env s a s') :
    s'.tasks.next = s.tasks.next := by
  cases h with
  | claim _ _ _ hrep => exact hrep.next_eq
  | record => exact finishOneOff_next
  | reapCommit hx hw => exact (hl.write hx hw).1
  | start | finishes | dies | reapBegin | reapFail | reapSecond | reapRequeue | reapDrop | cancel
  | clear | clearAll => rfl

theorem Quiet.evolves {a : Action P} (hl : LockInv s) (h : Quiet env s a s') :
    s.tasks.Evolve s'.tasks := by
  rcases h.rows hl with ⟨worker, mode, c, t, -, -, hs, hrep, -⟩ | ⟨-, hrows⟩
  · exact .of_replaces Task.LeadsTo.refl hrep (leadsTo_markRunning hs c)
  · refine ⟨(h.next_eq hl).ge, fun q hq => .inl ?_⟩
    obtain ⟨t, ht, hb⟩ := hrows q hq
    exact ⟨t, ht, hb.id_eq.symm, hb.leadsTo⟩

theorem Tasks.Evolve.trans {tasks mid tasks' : Tasks Q} (h : tasks.Evolve mid)
    (h' : mid.Evolve tasks') : tasks.Evolve tasks' :=
  Table.Evolves.trans (fun _ _ _ => Task.LeadsTo.trans) h h'

theorem Tasks.Evolve.refl (tasks : Tasks Q) : tasks.Evolve tasks :=
  .of_sublist Task.LeadsTo.refl rfl fun _ => id

theorem step_evolves {a : Action P} (hl : LockInv s) (he : step stamp env s a = some s') :
    s.tasks.Evolve s'.tasks := by
  rcases step_cases hl he with ⟨conn, news, ha, -⟩ | hq
  · clear he hl
    induction ha with
    | nil => exact Tasks.Evolve.refl _
    | cons ha _ ih => exact Tasks.Evolve.trans ha.evolves ih
  · exact hq.evolves hl

theorem steps_evolve {as : List (Action P)} (hr : (taskSystem stamp env).Reachable free s)
    (h : (taskSystem stamp env).Steps free s as s') : s.tasks.Evolve s'.tasks := by
  induction h with
  | nil => exact Tasks.Evolve.refl _
  | cons hg he _ ih =>
    exact Tasks.Evolve.trans (step_evolves (lockInv_reachable hr) he) (ih (hr.step hg he))

theorem parked_client (h : (taskSystem stamp env).Reachable free s) :
    ∀ t ∈ s.tasks, t.clientId = none → t.requeue = none := by
  refine reachable_invariant (I := fun s => ∀ t ∈ s.tasks, t.clientId = none → t.requeue = none)
    ?_ ?_ ?_ h
  · exact fun t ht => absurd ht (Table.not_mem_empty t)
  · intro s conn new s' _ hi ha q hq hc
    cases ha with
    | inserted hins =>
      rcases (hins.mem_iff q).mp hq with rfl | hq
      exacts [rfl, hi q hq hc]
    | @conflicted tasks t hsome ht _ hrep =>
      rcases hrep.origin hq with rfl | ⟨hq, -⟩
      · have hclient : t.clientId = none := hc
        rw [← ht, hclient] at hsome
        cases hsome
      · exact hi q hq hc
  · intro s a s' hl hi _ hq q hm hc
    rcases hq.rows hl with ⟨worker, mode, c, t, -, -, -, hrep, -⟩ | ⟨-, hrows⟩
    · rcases hrep.origin hm with rfl | ⟨hm, -⟩
      · exact hi t hrep.mem hc
      · exact hi q hm hc
    · obtain ⟨t, ht, hb⟩ := hrows q hm
      cases hb with
      | same => exact hi q ht hc
      | requeued _ ha =>
        obtain ⟨spec, v, -, -, rfl⟩ := Task.applyRequeue_ok.mp ha
        rfl
      | closed _ _ hq => exact hq
      | reaped _ _ hq => exact hq

/-- What `get_task` has once said about a task without a `client_id` stays true, but for the traces
of its one run: the row is left alone, moves on, or is gone for good. -/
theorem tasks_only_move_on (hr : (taskSystem stamp env).Reachable free s) {as : List (Action P)}
    (h : (taskSystem stamp env).Steps free s as s') {id : ℕ} (hid : id < s.tasks.next) {q : Task Q}
    (hq : getTask id s'.tasks = some q) :
    ∃ t, getTask id s.tasks = some t ∧ (t.clientId = none → q = t ∨ t.MovesTo q) := by
  obtain ⟨hm, rfl⟩ := getTask_eq_some.mp hq
  rcases (steps_evolve hr h).origin q hm with ⟨t, ht, hk, hlead⟩ | hle
  · refine ⟨t, getTask_eq_some.mpr ⟨ht, hk⟩, fun hc => ?_⟩
    exact (hlead ⟨hc, parked_client hr t ht hc⟩).imp_right And.right
  · exact absurd hid (not_lt.mpr hle)

def enqueued : State String := (taskSystem unlabelled sampleEnv).run free
  [.enqueue sampleConn (sampleUpsert "a").toCall none]

def enqueuedRun : List (Action String) :=
  [sampleClaim 0 10, .start 0, .finishes 0 (.child "0.1" ⟨.exited exitSuccess, false, "", "", ""⟩),
    .record 0 20]

def enqueuedReturned : State String :=
  ((taskSystem unlabelled sampleEnv).runFrom free enqueued enqueuedRun).getD enqueued

theorem tasks_only_move_on_returned : ∃ q, getTask 1 enqueuedReturned.tasks = some q ∧
    q.status = .completed ∧
    ∃ t, getTask 1 enqueued.tasks = some t ∧ (t.clientId = none → q = t ∨ t.MovesTo q) := by
  have hsome : (getTask 1 enqueuedReturned.tasks).map Task.status = some .completed := by
    decide +kernel
  obtain ⟨q, hq, hstatus⟩ := Option.map_eq_some_iff.mp hsome
  have hrun : ((taskSystem unlabelled sampleEnv).runFrom free enqueued enqueuedRun).isSome := by
    decide +kernel
  obtain ⟨s, hs⟩ := Option.isSome_iff_exists.mp hrun
  have he : enqueuedReturned = s := by rw [enqueuedReturned, hs, Option.getD_some]
  have hreached : (taskSystem unlabelled sampleEnv).Reachable free enqueued :=
    .of_run (by decide +kernel)
  exact ⟨q, hq, hstatus, tasks_only_move_on hreached (.of_runFrom (he ▸ hs)) (by decide +kernel) hq⟩

end Evolve

end PostgresQueue
