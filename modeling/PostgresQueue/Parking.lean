import Mathlib.Data.List.Induction
import PostgresQueue.Reaper
import PostgresQueue.Worker

namespace PostgresQueue

open Library

variable {P : Type} {env : Env P} {c : ClientId}

def upsertAll (env : Env P) (us : List (Conn × Upsert P)) (tasks : Tasks P) : Tasks P :=
  us.foldl (fun tasks u => (upsert env u.1 u.2 tasks).2) tasks

/-- An upsert for `c` that pq and the columns accept, whose `run_at` survives the ISO round trip. -/
structure Accepted (env : Env P) (c : ClientId) (u : Conn × Upsert P) (new : NewTask P) : Prop where
  client : u.2.clientId = c
  statement : upsertStatement env u.2 = .ok new
  columns : env.columnsOk new = true
  roundTrip : env.fromisoformat (u.1.isoformat (u.1.timestamptz new.runAt)) =
    some (u.1.timestamptz new.runAt)

/-- The run of the RUNNING row `t` ends: its worker records an outcome, or a reaper takes the row
for stale. -/
inductive EndsRun (env : Env P) (tasks : Tasks P) (t : Task P) : Option Outcome → Tasks P → Prop
  | finished (clock : Timestamptz) {mode : Mode} {e : RunEnd} {o : Outcome} :
      e.outcome mode = some o →
      EndsRun env tasks t (some o) (finishOneOff env clock t.id t.startedAt o tasks)
  | reaped {r : Reap} {n : ℕ} {tasks' : Tasks P} : r.isStale t = .ok true →
      reapStaleTasks env r tasks = (.ok n, tasks') → EndsRun env tasks t none tasks'

def Task.errorAfter (t : Task P) (o : Outcome) : Option String :=
  match o.errorMsg with
  | some msg => if msg = "" then t.error else some msg
  | none => t.error

/-- The row after the end of its run, with `before` parked by then: it is the row that closing first
and upserting directly gives, and up to `id` and `created_at` that of a fresh insert of `u`. -/
structure Invisible (env : Env P) (c : ClientId) (us after : List (Conn × Upsert P))
    (u : Conn × Upsert P) (tasks : Tasks P) (t : Task P) (o : Option Outcome) (tasks' : Tasks P)
    (row : Task P) : Prop where
  mem : row ∈ upsertAll env after tasks'
  id_eq : row.id = t.id
  direct : ∀ closed, EndsRun env tasks t o closed → row ∈ upsertAll env us closed
  fresh : ∀ others : Tasks P, (∀ r ∈ others, r.clientId ≠ some c) →
    ∃ r ∈ (upsert env u.1 u.2 others).2, { row with id := r.id, createdAt := r.createdAt } = r

theorem upsertAll_snoc (us : List (Conn × Upsert P)) (u : Conn × Upsert P) (tasks : Tasks P) :
    upsertAll env (us ++ [u]) tasks = (upsert env u.1 u.2 (upsertAll env us tasks)).2 := by
  rw [upsertAll, List.foldl_append]
  rfl

namespace Accepted

variable {u : Conn × Upsert P} {new : NewTask P} {tasks : Tasks P} {t : Task P}

theorem newClient (h : Accepted env c u new) : new.clientId = some c := by
  rw [(Call.newTask_ok h.statement).1, h.client]

theorem executed (h : Accepted env c u new) (tasks : Tasks P) : ∃ id,
    executeUpsert env u.1 new tasks = .ok (id, (upsert env u.1 u.2 tasks).2) := by
  have hex : ∃ id tasks', executeUpsert env u.1 new tasks = .ok (id, tasks') := by
    unfold executeUpsert
    rw [if_pos h.columns]
    split
    exacts [⟨_, _, rfl⟩, ⟨_, _, rfl⟩]
  obtain ⟨id, tasks', hx⟩ := hex
  refine ⟨id, ?_⟩
  simp only [upsert, h.statement, session, hx]

theorem replaces (h : Accepted env c u new) (ht : t ∈ tasks) (hc : t.clientId = some c) :
    tasks.Replaces t (new.onConflict u.1 t) (upsert env u.1 u.2 tasks).2 := by
  obtain ⟨id, hx⟩ := h.executed tasks
  have hnc := h.newClient
  rcases executeUpsert_ok hx with ⟨-, hins⟩ | ⟨q, -, -, hqc, hrep⟩
  · have hclash : sameClient (new.row u.1 tasks.next).clientId t.clientId = true := by
      simp [sameClient, NewTask.row, hnc, hc]
    have hkey := Table.clash_key _ _ hins.mem_new t (hins.keep ht) hclash
    exact absurd hkey.symm (hins.key_ne ht)
  · have hclash : sameClient q.clientId t.clientId = true := by
      simp [sameClient, hqc, hnc, hc]
    obtain rfl := tasks.eq_of_clash hrep.mem ht hclash
    exact hrep

theorem inserts (h : Accepted env c u new) (hnone : ∀ r ∈ tasks, r.clientId ≠ some c) :
    tasks.Inserts (new.row u.1 tasks.next) (upsert env u.1 u.2 tasks).2 := by
  obtain ⟨id, hx⟩ := h.executed tasks
  rcases executeUpsert_ok hx with ⟨-, hins⟩ | ⟨q, -, -, hqc, hrep⟩
  · exact hins
  · exact absurd (hqc.trans h.newClient) (hnone q hrep.mem)

theorem requeue_encodes (h : Accepted env c u new) :
    (new.requeue u.1).Encodes env (new.version u.1) :=
  (new.requeue_encodes u.1).mpr ⟨_, h.roundTrip, rfl⟩

end Accepted

structure SameRow (t q : Task P) : Prop where
  id_eq : q.id = t.id
  client : q.clientId = t.clientId
  created : q.createdAt = t.createdAt
  running : q.status = .running ↔ t.status = .running

theorem SameRow.fresh_eq {t q : Task P} (h : SameRow t q) (v : Version P) : q.fresh v = t.fresh v := by
  simp only [Task.fresh, h.id_eq, h.client, h.created]

theorem SameRow.onConflict {t q : Task P} (h : SameRow t q) (conn : Conn) (new : NewTask P) :
    SameRow t (new.onConflict conn q) := by
  by_cases hs : q.status = .running
  · rw [new.onConflict_running conn hs]
    exact ⟨h.id_eq, h.client, h.created, h.running⟩
  · rw [new.onConflict_idle conn hs]
    refine ⟨h.id_eq, h.client, h.created, ?_⟩
    simp [Task.fresh, ← h.running, hs]

theorem upsertAll_row {us : List (Conn × Upsert P)} (hus : ∀ u ∈ us, ∃ new, Accepted env c u new)
    {tasks : Tasks P} {t : Task P} (ht : t ∈ tasks) (hc : t.clientId = some c) :
    ∃ q ∈ upsertAll env us tasks, SameRow t q := by
  induction us using List.reverseRecOn with
  | nil => exact ⟨t, ht, rfl, rfl, rfl, Iff.rfl⟩
  | append_singleton us u ih =>
    obtain ⟨q, hq, hsame⟩ := ih fun x hx => hus x (by simp [hx])
    obtain ⟨new, hnew⟩ := hus u (by simp)
    have hrep := hnew.replaces hq (hsame.client.trans hc)
    rw [upsertAll_snoc]
    exact ⟨_, hrep.mem_new, hsame.onConflict u.1 new⟩

theorem upsertAll_last {us : List (Conn × Upsert P)} {u : Conn × Upsert P} {new : NewTask P}
    (hus : ∀ x ∈ us, ∃ new, Accepted env c x new) (hu : Accepted env c u new) {tasks : Tasks P}
    {t : Task P} (ht : t ∈ tasks) (hc : t.clientId = some c) :
    ∃ q, SameRow t q ∧ new.onConflict u.1 q ∈ upsertAll env (us ++ [u]) tasks := by
  obtain ⟨q, hq, hsame⟩ := upsertAll_row hus ht hc
  have hrep := hu.replaces hq (hsame.client.trans hc)
  refine ⟨q, hsame, ?_⟩
  rw [upsertAll_snoc]
  exact hrep.mem_new

structure Task.EndsAs (env : Env P) (t q : Task P) : Prop where
  fresh : ∀ v, q.fresh v = t.fresh v
  client : q.clientId = t.clientId
  idle : q.status ≠ .running
  requeued : ∀ spec v, t.requeue = some spec → spec.Encodes env v → q = t.fresh v

theorem Task.EndsAs.of_requeue {t q : Task P} (h : t.applyRequeue env = .ok q) : t.EndsAs env q := by
  have hdet : ∀ spec v, t.requeue = some spec → spec.Encodes env v → q = t.fresh v := by
    intro spec v hr hv
    exact Except.ok.inj (h.symm.trans (Task.applyRequeue_ok.mpr ⟨spec, v, hr, hv, rfl⟩))
  obtain ⟨spec, v, -, -, rfl⟩ := Task.applyRequeue_ok.mp h
  exact ⟨fun _ => rfl, rfl, by simp [Task.fresh], hdet⟩

theorem finishOneOff_endsAs {tasks : Tasks P} {t : Task P} (ht : t ∈ tasks) (hs : t.status = .running)
    (hspec : ∀ spec, t.requeue = some spec → ∃ v, spec.Encodes env v) (clock : Timestamptz)
    {o : Outcome} (ho : o.Sound)
    (hstore : t.requeue = none → storable (recordOutcome clock o t).error = true) :
    ∃ q ∈ finishOneOff env clock t.id t.startedAt o tasks, t.EndsAs env q := by
  have hf := find?_running ht hs
  cases hr : t.requeue with
  | none =>
    have hrep : tasks.Replaces t (recordOutcome clock o t) (flush (recordOutcome clock o t) tasks) :=
      flush_replaces ht rfl rfl
    have hidle : (recordOutcome clock o t).status ≠ .running := by
      rcases ho with ho | ho <;> simp [recordOutcome, ho]
    rw [finishOneOff_record hf hr, if_pos (hstore hr)]
    exact ⟨_, hrep.mem_new, fun _ => rfl, rfl, hidle, fun spec v he => by simp [hr] at he⟩
  | some spec =>
    obtain ⟨v, hv⟩ := hspec spec hr
    have ha := Task.applyRequeue_ok.mpr ⟨spec, v, hr, hv, rfl⟩
    have hrep : tasks.Replaces t (t.fresh v) (flush (t.fresh v) tasks) := flush_replaces ht rfl rfl
    rw [finishOneOff_requeue hf (by simp [hr]), ha]
    exact ⟨_, hrep.mem_new, .of_requeue ha⟩

theorem reapStaleTasks_endsAs {tasks tasks' : Tasks P} {t : Task P} (ht : t ∈ tasks)
    (hs : t.status = .running) {r : Reap} {n : ℕ} (hstale : r.isStale t = .ok true)
    (h : reapStaleTasks env r tasks = (.ok n, tasks')) : ∃ q ∈ tasks', t.EndsAs env q := by
  obtain ⟨failing, requeueing, hw, hfail, hreq, hids, -⟩ := reapStaleTasks_ok h
  have hmem : ∀ q ∈ failing ++ requeueing, q ∈ tasks := by
    intro q hq
    rcases List.mem_append.mp hq with hq | hq
    exacts [((hfail q).mp hq).1, ((hreq q).mp hq).1]
  obtain ⟨-, hall, hiff⟩ := Reap.write_ok hmem hids hw
  by_cases hr : t.requeue = none
  · have hin := (hfail t).mpr ⟨ht, by rw [Reap.failWhere, if_pos ⟨hs, hr⟩, hstale]⟩
    refine ⟨r.fail env t, (hiff _).mpr (.inl ⟨t, hin, rfl⟩), fun _ => rfl, rfl, by simp [Reap.fail],
      fun spec v he => ?_⟩
    rw [hr] at he
    cases he
  · have hin := (hreq t).mpr ⟨ht, by rw [Reap.requeueWhere, if_pos ⟨hs, hr⟩, hstale]⟩
    obtain ⟨q, ha⟩ := hall t hin
    exact ⟨q, (hiff q).mpr (.inr (.inl ⟨t, hin, ha⟩)), .of_requeue ha⟩

theorem recordOutcome_errorAfter (clock : Timestamptz) (o : Outcome) (t : Task P) :
    (recordOutcome clock o t).error = t.errorAfter o := rfl

theorem EndsRun.row {tasks tasks' : Tasks P} {t : Task P} {o : Option Outcome}
    (h : EndsRun env tasks t o tasks') (ht : t ∈ tasks) (hs : t.status = .running)
    (hspec : ∀ spec, t.requeue = some spec → ∃ v, spec.Encodes env v)
    (hstore : t.requeue = none → ∀ x, o = some x → storable (t.errorAfter x) = true) :
    ∃ q ∈ tasks', t.EndsAs env q := by
  cases h with
  | finished clock ho =>
    exact finishOneOff_endsAs ht hs hspec clock (RunEnd.outcome_sound ho) fun hr => hstore hr _ rfl
  | reaped hstale hok => exact reapStaleTasks_endsAs ht hs hstale hok

theorem EndsRun.refused {tasks : Tasks P} {t : Task P} (ht : t ∈ tasks) (hs : t.status = .running)
    (hr : t.requeue = none) {mode : Mode} {e : RunEnd} {o : Outcome} (ho : e.outcome mode = some o)
    (hno : storable (t.errorAfter o) = false) (clock : Timestamptz) :
    EndsRun env tasks t (some o) tasks := by
  have hsame : finishOneOff env clock t.id t.startedAt o tasks = tasks := by
    rw [finishOneOff_record (find?_running ht hs) hr, recordOutcome_errorAfter, hno]
    rfl
  have hends : EndsRun env tasks t (some o) (finishOneOff env clock t.id t.startedAt o tasks) :=
    .finished clock ho
  rwa [hsame] at hends

theorem upsertAll_running {us : List (Conn × Upsert P)} (hus : ∀ u ∈ us, ∃ new, Accepted env c u new)
    {tasks : Tasks P} {t q : Task P} (ht : t ∈ tasks) (hc : t.clientId = some c)
    (hs : t.status = .running) (hq : q ∈ upsertAll env us tasks) (hid : q.id = t.id) :
    SameRow t q ∧ (us = [] → q = t) ∧ ∀ u new, us.getLast? = some u → Accepted env c u new →
      q.requeue = some (new.requeue u.1) := by
  rcases List.eq_nil_or_concat us with rfl | ⟨us, u, rfl⟩
  · obtain rfl := tasks.eq_of_key hq ht hid
    exact ⟨⟨rfl, rfl, rfl, Iff.rfl⟩, fun _ => rfl, fun u new hu => by simp at hu⟩
  · rw [List.concat_eq_append] at hus hq ⊢
    have hbefore : ∀ x ∈ us, ∃ new, Accepted env c x new := fun x hx => hus x (by simp [hx])
    obtain ⟨new, hu⟩ := hus u (by simp)
    obtain ⟨p, hp, hm⟩ := upsertAll_last hbefore hu ht hc
    have hsame := hp.onConflict u.1 new
    obtain rfl := Table.eq_of_key _ hm hq (hsame.id_eq.trans hid.symm)
    refine ⟨hsame, fun he => by simp at he, fun u' new' hlast hu' => ?_⟩
    rw [List.getLast?_concat] at hlast
    obtain rfl := Option.some.inj hlast
    obtain rfl := Except.ok.inj (hu.statement.symm.trans hu'.statement)
    rw [new.onConflict_running u.1 (hp.running.mpr hs)]

section Ends

variable {before after : List (Conn × Upsert P)} {u : Conn × Upsert P} {new : NewTask P}
  {tasks tasks' : Tasks P} {t q : Task P} {o : Option Outcome}

theorem upsertAll_endsRun (hus : ∀ x ∈ before ++ after, ∃ new, Accepted env c x new)
    (hlast : (before ++ after).getLast? = some u) (hu : Accepted env c u new) (ht : t ∈ tasks)
    (hc : t.clientId = some c) (hs : t.status = .running)
    (hspec : ∀ spec, t.requeue = some spec → ∃ v, spec.Encodes env v)
    (hstore : t.requeue = none → ∀ x, o = some x → storable (t.errorAfter x) = true)
    (hq : q ∈ upsertAll env before tasks) (hid : q.id = t.id)
    (hend : EndsRun env (upsertAll env before tasks) q o tasks') :
    t.fresh (new.version u.1) ∈ upsertAll env after tasks' := by
  have hbefore : ∀ x ∈ before, ∃ new, Accepted env c x new := fun x hx => hus x (by simp [hx])
  obtain ⟨hsame, hnone, hparked⟩ := upsertAll_running hbefore ht hc hs hq hid
  have hlastParked : before ≠ [] → ∃ x n, Accepted env c x n ∧ q.requeue = some (n.requeue x.1) := by
    intro hne
    have hx := List.getLast?_eq_some_getLast hne
    obtain ⟨n, hn⟩ := hbefore _ (List.getLast_mem hne)
    exact ⟨_, n, hn, hparked _ n hx hn⟩
  have hreadable : ∀ spec, q.requeue = some spec → ∃ v, spec.Encodes env v := by
    intro spec hr
    by_cases he : before = []
    · exact hspec spec (hnone he ▸ hr)
    · obtain ⟨x, n, hn, hrequeue⟩ := hlastParked he
      obtain rfl := Option.some.inj (hr.symm.trans hrequeue)
      exact ⟨_, hn.requeue_encodes⟩
  have hstored : q.requeue = none → ∀ x, o = some x → storable (q.errorAfter x) = true := by
    intro hr x hx
    by_cases he : before = []
    · rw [hnone he] at hr ⊢
      exact hstore hr x hx
    · obtain ⟨y, n, -, hrequeue⟩ := hlastParked he
      cases hr.symm.trans hrequeue
  obtain ⟨p, hp, hends⟩ := hend.row hq (hsame.running.mpr hs) hreadable hstored
  rcases List.eq_nil_or_concat after with rfl | ⟨us, x, rfl⟩
  · rw [List.append_nil] at hlast
    have he := hends.requeued _ _ (hparked u new hlast hu) hu.requeue_encodes
    rw [hsame.fresh_eq] at he
    exact he ▸ hp
  · rw [List.concat_eq_append] at hus hlast ⊢
    rw [← List.append_assoc, List.getLast?_concat] at hlast
    obtain rfl := Option.some.inj hlast
    have hafter : ∀ y ∈ us, ∃ new, Accepted env c y new := fun y hy => hus y (by simp [hy])
    obtain ⟨r, hr, hm⟩ := upsertAll_last hafter hu hp (hends.client.trans (hsame.client.trans hc))
    rw [new.onConflict_idle x.1 (fun h => hends.idle (hr.running.mp h)), hr.fresh_eq, hends.fresh,
      hsame.fresh_eq] at hm
    exact hm

theorem not_invisible {row : Task P} (hus : ∀ x ∈ before ++ after, ∃ new, Accepted env c x new)
    (hu : Accepted env c u new) (ht : t ∈ tasks) (hc : t.clientId = some c)
    (hs : t.status = .running) (hopen : EndsRun env tasks t o tasks) :
    ¬Invisible env c (before ++ after) after u tasks t o tasks' row := by
  intro h
  have hrunning : row.status = .running :=
    (upsertAll_running hus ht hc hs (h.direct tasks hopen) h.id_eq).1.running.mpr hs
  obtain ⟨r, hr, heq⟩ := h.fresh Table.empty fun r hr => absurd hr (Table.not_mem_empty r)
  have hins := @Accepted.inserts _ _ _ _ _ Table.empty hu fun r hr => absurd hr (Table.not_mem_empty r)
  have hpending : r.status = .pending := by
    rcases (hins.mem_iff r).mp hr with rfl | hr
    · rfl
    · exact absurd hr (Table.not_mem_empty r)
  rw [← heq] at hpending
  cases hrunning.symm.trans hpending

end Ends

section Sample

def sampleRunning : Task String where
  id := 1
  clientId := some "report"
  name := "reports:build"
  payload := "a"
  priority := 0
  status := .running
  runAt := 0
  createdAt := 0
  startedAt := some 10
  completedAt := none
  error := none
  attempts := 1
  maxRuntimeSeconds := none
  requeue := none

def sampleTasks : Tasks String :=
  (Claim.run ⟨10, none, 10, []⟩ (upsert sampleEnv sampleConn (sampleUpsert "a") Table.empty).2).elim
    Table.empty Prod.snd

def timedOut : RunEnd := .child "60.000" ⟨.exited exitTimeout, false, "", "", ""⟩

theorem timedOut_outcome : timedOut.outcome .sequential =
    some ⟨.failed, some "Timed out after 60.000 s"⟩ := rfl

theorem sampleUpsert_accepted (arguments : String) :
    Accepted sampleEnv "report" (sampleConn, sampleUpsert arguments) (sampleNew arguments) :=
  ⟨rfl, rfl, rfl, rfl⟩

theorem sampleRunning_mem : sampleRunning ∈ sampleTasks.rows := by decide +kernel

theorem sampleUpserts_accepted : ∀ x ∈ [(sampleConn, sampleUpsert "b")],
    ∃ new, Accepted sampleEnv "report" x new := by
  intro x hx
  obtain rfl := List.mem_singleton.mp hx
  exact ⟨_, sampleUpsert_accepted "b"⟩

end Sample

end PostgresQueue
