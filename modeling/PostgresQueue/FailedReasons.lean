import PostgresQueue.Registry
import PostgresQueue.WorkerPaths

namespace PostgresQueue

open Library System

variable {P Q : Type} {stamp : P → ℕ → Q} {env : Env Q}

def Task.Explained (t : Task Q) : Prop := ∃ msg, t.error = some msg ∧ msg ≠ ""

def Explained (s : State Q) : Prop := ∀ t ∈ s.tasks, t.status = .failed → t.Explained

/-- The end of a run leaves a text: an exception whose text a clause takes over has one, and on the
concurrent path what a child reports is more than blanks. -/
def RunEnd.HasText (mode : Mode) : RunEnd → Prop
  | .notStarted e _ => e.Spoken mode → e.str ≠ some ""
  | .child _ e => mode = .concurrent → e.status.ReportsError → e.errorText ≠ "" →
      rstrip e.errorText ≠ ""

def SaysWhy (s : State Q) (a : Action P) : Prop :=
  ∀ i clock r e t, a = .record i clock → s.runs[i]? = some r → r.phase = .ended e → t ∈ s.tasks →
    finishWhere r.task.id (some r.startedAt) t = true → t.requeue = none → e.HasText r.mode

inductive FailedBy (env : Env Q) (s : State Q) : Action P → Task Q → Task Q → Prop
  | recorded {i : ℕ} {clock : Timestamptz} {r : Run Q} {e : RunEnd} {o : Outcome} {t : Task Q} :
      s.runs[i]? = some r → r.phase = .ended e → e.outcome r.mode = some o →
      finishWhere r.task.id (some r.startedAt) t = true → t.requeue = none → t.error = none →
      FailedBy env s (.record i clock) t (recordOutcome clock o t)
  | reaped {j : ℕ} {x : ReapTxn Q} {t : Task Q} : s.reaps[j]? = some x → t ∈ x.failing →
      FailedBy env s (.reapCommit j) t (x.reap.fail env t)

section Texts

theorem append_ne_empty {a b : String} (h : a ≠ "") : a ++ b ≠ "" :=
  fun heq => h (String.append_eq_empty_iff.mp heq).1

theorem orDefault_ne_empty (msg : Option String) {default : String} (h : default ≠ "") :
    orDefault msg default ≠ "" := by
  unfold orDefault
  split
  · split_ifs with hs
    · exact h
    · exact hs
  · exact h

theorem perRowError_ne_empty (env : Env Q) (r : Reap) (t : Task Q) : r.perRowError env t ≠ "" := by
  unfold Reap.perRowError
  simp only [String.append_assoc]
  exact append_ne_empty (by decide)

theorem concurrent_errorMsg (elapsed : String) (e : ChildExit) :
    (concurrentOutcome elapsed (waitResult e)).errorMsg ≠ some "" ↔
      (e.status.ReportsError → e.errorText ≠ "" → rstrip e.errorText ≠ "") := by
  obtain ⟨status, killed, drain, rss, text⟩ := e
  unfold waitResult concurrentOutcome WaitStatus.ReportsError
  cases status with
  | signaled signum =>
    refine iff_of_true ?_ fun h => h.elim
    dsimp only
    split_ifs <;> simp
  | other => exact iff_of_true (by simp) fun h => h.elim
  | exited code =>
    dsimp only
    split_ifs with hs ht hx
    all_goals simp_all

theorem outcome_errorMsg {mode : Mode} {e : RunEnd} {o : Outcome} (ho : e.outcome mode = some o) :
    o.errorMsg ≠ some "" ↔ e.HasText mode := by
  cases e with
  | notStarted e elapsed =>
    by_cases hs : e.Spoken mode
    · rw [startError_outcome mode e elapsed hs] at ho
      obtain ⟨msg, hmsg, rfl⟩ := Option.map_eq_some_iff.mp ho
      simp [RunEnd.HasText, hs, hmsg]
    · obtain ⟨rfl, str, rfl⟩ := not_spoken hs
      cases ho
      exact iff_of_true (by simp) fun h => h.elim
  | child elapsed e =>
    cases mode with
    | concurrent =>
      cases ho
      simpa [RunEnd.HasText] using concurrent_errorMsg elapsed e
    | sequential =>
      refine iff_of_true ?_ nofun
      change exceptOutcome elapsed (executeInFork (waitResult e)) = some o at ho
      generalize waitResult e = result at ho
      obtain ⟨status, msg, kind⟩ := result
      cases kind with
      | success =>
        cases ho
        exact nofun
      | timeout =>
        cases ho
        simp
      | oom | killed | shutdown | error =>
        cases ho
        simp only [ne_eq, Option.some.injEq]
        exact orDefault_ne_empty msg (by decide)

theorem ChildEnd.hasText (mode : Mode) (elapsed : String) (c : ChildEnd) :
    (RunEnd.child elapsed c.exit).HasText mode := by
  intro _ _ hne
  cases hsent : c.sent with
  | none => simp [ChildEnd.exit, hsent] at hne
  | some e => simpa [ChildEnd.exit, hsent] using e.rstrip_message

theorem waitResult_failed {e : ChildExit} (h : (waitResult e).taskStatus = .failed) :
    ∃ msg, (waitResult e).errorMsg = some msg := by
  obtain ⟨status, killed, drain, rss, text⟩ := e
  unfold waitResult at h ⊢
  cases status with
  | signaled signum =>
    dsimp only
    split_ifs <;> exact ⟨_, rfl⟩
  | other => exact ⟨_, rfl⟩
  | exited code =>
    dsimp only at h ⊢
    split_ifs at h ⊢ <;> exact ⟨_, rfl⟩

theorem outcome_failed {mode : Mode} {e : RunEnd} {o : Outcome} (ho : e.outcome mode = some o)
    (h : o.status = .failed) : ∃ msg, o.errorMsg = some msg := by
  have hclauses : ∀ {elapsed : String} {x : Except TaskError Unit},
      exceptOutcome elapsed x = some o → ∃ msg, o.errorMsg = some msg := by
    intro elapsed x hx
    cases x with
    | ok =>
      cases hx
      cases h
    | error err =>
      cases err with
      | timeout =>
        cases hx
        exact ⟨_, rfl⟩
      | oom | killed | interrupted | exception =>
        obtain ⟨msg, -, rfl⟩ := Option.map_eq_some_iff.mp hx
        exact ⟨msg, rfl⟩
      | baseException => cases hx
  cases e with
  | notStarted e elapsed =>
    cases mode with
    | sequential => exact hclauses ho
    | concurrent =>
      obtain ⟨msg, -, rfl⟩ := Option.map_eq_some_iff.mp ho
      exact ⟨msg, rfl⟩
  | child elapsed e =>
    cases mode with
    | sequential => exact hclauses ho
    | concurrent =>
      cases ho
      unfold concurrentOutcome at h ⊢
      split_ifs at h ⊢
      · exact ⟨_, rfl⟩
      · exact waitResult_failed h

theorem recordOutcome_error {t : Task Q} (ht : t.error = none) (clock : Timestamptz) {o : Outcome}
    {msg : String} (hmsg : o.errorMsg = some msg) :
    (recordOutcome clock o t).error = if msg = "" then none else some msg := by
  simp only [recordOutcome, hmsg, ht]

theorem FailedBy.explained {s : State Q} {a : Action P} {t q : Task Q} (h : FailedBy env s a t q)
    (hq : q.status = .failed) (ht : t ∈ s.tasks) (hwhy : SaysWhy s a) : q.Explained := by
  cases h with
  | @recorded i clock r e o _ hr hp ho hw hnone herror =>
    obtain ⟨msg, hmsg⟩ := outcome_failed ho hq
    have hne : msg ≠ "" := by
      rintro rfl
      exact (outcome_errorMsg ho).mpr (hwhy i clock r e t rfl hr hp ht hw hnone) hmsg
    exact ⟨msg, by rw [recordOutcome_error herror clock hmsg, if_neg hne], hne⟩
  | @reaped j x _ hx hin => exact ⟨_, rfl, perRowError_ne_empty env x.reap t⟩

end Texts

section Steps

variable {s s' : State Q} {a : Action P}

theorem Accept.failed {conn : Conn} {new : NewTask Q} (h : Accept s conn new s') {q : Task Q}
    (hq : q ∈ s'.tasks) (hs : q.status = .failed) : q ∈ s.tasks := by
  obtain ⟨p, hp, hrows⟩ := h.rows
  rcases hrows q hq with rfl | hq
  · rcases hp with ⟨id, rfl⟩ | ⟨t, -, rfl⟩
    · cases hs
    · by_cases hrun : t.status = .running
      · rw [new.onConflict_running conn hrun] at hs
        rw [show _ = TaskStatus.running from hrun] at hs
        cases hs
      · rw [new.onConflict_idle conn hrun] at hs
        cases hs
  · exact hq

theorem AcceptAll.failed {conn : Conn} {news : List (NewTask Q)} (h : AcceptAll conn s news s')
    {q : Task Q} (hq : q ∈ s'.tasks) (hs : q.status = .failed) : q ∈ s.tasks := by
  induction h with
  | nil => exact hq
  | cons ha _ ih => exact ha.failed (ih hq) hs

theorem Quiet.failed (hl : LockInv s) (hw : ∀ t ∈ s.tasks, t.WellFormed) (h : Quiet env s a s')
    {q : Task Q} (hq : q ∈ s'.tasks) (hs : q.status = .failed) :
    q ∈ s.tasks ∨ ∃ t ∈ s.tasks, FailedBy env s a t q := by
  cases h with
  | claim _ _ _ hrep =>
    rcases hrep.origin hq with rfl | ⟨hq, -⟩
    · cases hs
    · exact .inl hq
  | @record i r e o clock hr hp ho _ =>
    rcases finishOneOff_cases env clock r.task.id (some r.startedAt) o s.tasks with
      he | ⟨t, ht, ⟨p, hp', hrep⟩ | ⟨hnone, hrep⟩⟩
    · exact .inl (he ▸ hq)
    · rcases hrep.origin hq with rfl | ⟨hq, -⟩
      · obtain ⟨spec, v, -, -, rfl⟩ := Task.applyRequeue_ok.mp hp'
        cases hs
      · exact .inl hq
    · rcases hrep.origin hq with rfl | ⟨hq, -⟩
      · have hrunning := (hw t hrep.mem).running (finishWhere_true ht).2.1
        exact .inr ⟨t, hrep.mem, .recorded hr hp ho ht hnone hrunning.2.2.2⟩
      · exact .inl hq
  | @reapCommit j x tasks hx hwrite =>
    rcases ((hl.write hx hwrite).2.2 q).mp hq with ⟨t, ht, rfl⟩ | ⟨t, ht, hp⟩ | ⟨hq, -⟩
    · exact .inr ⟨t, (hl.failing x (List.mem_of_getElem? hx) t ht).1, .reaped hx ht⟩
    · obtain ⟨spec, v, -, -, rfl⟩ := Task.applyRequeue_ok.mp hp
      cases hs
    · exact .inl hq
  | cancel | clear | clearAll => exact .inl (Table.mem_delete.mp hq).1
  | start | finishes | dies | reapBegin | reapFail | reapSecond | reapRequeue | reapDrop =>
    exact .inl hq

theorem step_failed (hr : (taskSystem stamp env).Reachable free s)
    (h : step stamp env s a = some s') {q : Task Q} (hq : q ∈ s'.tasks) (hs : q.status = .failed) :
    q ∈ s.tasks ∨ ∃ t ∈ s.tasks, FailedBy env s a t q := by
  have hl := lockInv_reachable hr
  rcases step_cases hl h with ⟨conn, news, ha, -⟩ | hquiet
  · exact .inl (ha.failed hq hs)
  · exact hquiet.failed hl (wellFormed_reachable hr) hq hs

theorem record_silent (hr : (taskSystem stamp env).Reachable free s) {i : ℕ} {clock : Timestamptz}
    {r : Run Q} {e : RunEnd} {o : Outcome} {t : Task Q}
    (h : step stamp env s (.record i clock) = some s') (hrun : s.runs[i]? = some r)
    (hp : r.phase = .ended e) (ho : e.outcome r.mode = some o) (ht : t ∈ s.tasks)
    (hw : finishWhere r.task.id (some r.startedAt) t = true) (hnone : t.requeue = none)
    (hsilent : o.errorMsg = some "") : ¬Explained s' := by
  obtain ⟨hid, hs, hst⟩ := finishWhere_true hw
  have herror := ((wellFormed_reachable hr t ht).running hs).2.2.2
  have hfailed : o.status = .failed := by
    rcases RunEnd.outcome_sound ho with rfl | hfailed
    · cases hsilent
    · exact hfailed
  have hwritten : (recordOutcome clock o t).error = none := by
    rw [recordOutcome_error herror clock hsilent, if_pos rfl]
  have hstore : storable none = true := rfl
  have hrep : s.tasks.Replaces t (recordOutcome clock o t) s'.tasks := by
    simp only [step, hrun, hp, ho] at h
    split_ifs at h
    cases h
    dsimp only
    rw [← hid, ← hst, finishOneOff_record (find?_running ht hs) hnone, hwritten, if_pos hstore]
    exact flush_replaces ht rfl rfl
  intro hexplained
  obtain ⟨msg, hmsg, -⟩ := hexplained _ hrep.mem_new hfailed
  rw [hwritten] at hmsg
  cases hmsg

theorem record_outcome {i : ℕ} {clock : Timestamptz} {r : Run Q} {e : RunEnd}
    (h : step stamp env s (.record i clock : Action P) = some s') (hrun : s.runs[i]? = some r)
    (hp : r.phase = .ended e) : ∃ o, e.outcome r.mode = some o := by
  cases ho : e.outcome r.mode with
  | some o => exact ⟨o, rfl⟩
  | none => simp [step, hrun, hp, ho] at h

theorem explained_step (hr : (taskSystem stamp env).Reachable free s) (hs : Explained s)
    (h : step stamp env s a = some s') : Explained s' ↔ SaysWhy s a := by
  constructor
  · rintro hexplained i clock r e t rfl hrun hp ht hw hnone
    obtain ⟨o, ho⟩ := record_outcome h hrun hp
    rw [← outcome_errorMsg ho]
    exact fun hsilent => record_silent hr h hrun hp ho ht hw hnone hsilent hexplained
  · intro hwhy q hq hfailed
    rcases step_failed hr h hq hfailed with hq | ⟨t, ht, hby⟩
    · exact hs q hq hfailed
    · exact hby.explained hfailed ht hwhy

theorem fromImport_silent {α : Type} {modulePath funcName : String} {x : Except RegistryError α}
    {e : RegistryError} (h : fromImport modulePath funcName x = .error e) (he : e.str = "") :
    x = .error e := by
  cases x with
  | ok => cases h
  | error err =>
    cases err with
    | importError msg =>
      cases h
      simp only [RegistryError.str, String.append_assoc] at he
      exact absurd he (append_ne_empty (by decide))
    | attributeError msg =>
      cases h
      simp only [RegistryError.str, String.append_assoc] at he
      exact absurd he (append_ne_empty (by decide))
    | valueError | exception => exact h

theorem resolve_silent {F M : Type} {modules : ModuleEnv F M} {path : String} {e : RegistryError}
    (h : resolveFunctionPath modules path = .error e) (he : e.str = "") :
    (∃ name, modules.importModule name = .error e) ∨
      ∃ module name, modules.getattr module name = .error e := by
  unfold resolveFunctionPath at h
  split at h
  · cases h
    simp only [RegistryError.str, String.append_assoc] at he
    exact absurd he (append_ne_empty (by decide))
  · rename_i before after _
    have h := fromImport_silent h he
    dsimp only at h
    cases himport : modules.importModule (String.ofList before) with
    | error err =>
      rw [himport] at h
      cases h
      exact .inl ⟨_, himport⟩
    | ok module =>
      rw [himport] at h
      change (modules.getattr module (String.ofList after) >>= _) = _ at h
      cases hattr : modules.getattr module (String.ofList after) with
      | error err =>
        rw [hattr] at h
        cases h
        exact .inr ⟨module, _, hattr⟩
      | ok func =>
        rw [hattr] at h
        dsimp only [bind, Except.bind] at h
        cases hcallable : modules.callable func with
        | true =>
          rw [hcallable] at h
          cases h
        | false =>
          rw [hcallable] at h
          cases h
          exact absurd (String.append_eq_empty_iff.mp he).2 (by decide)

/-- Every failed row says why, in each state of a run, exactly if no start that fails and no child that
reports an error leaves a row without a text. A handler always leaves one, whatever it raises, and
so does the registry unless an import or a lookup raises without one. The text is that of the run
or of the reaper that failed the row. -/
theorem failures_explained :
    (∀ as : List (Action P), (taskSystem stamp env).Always Explained State.initial as ↔
      (taskSystem stamp env).EachStep SaysWhy State.initial as) ∧
    (∀ (mode : Mode) (elapsed : String) (c : ChildEnd), (RunEnd.child elapsed c.exit).HasText mode) ∧
    (∀ (F M : Type) (modules : ModuleEnv F M) (path : String) (e : RegistryError),
      resolveFunctionPath modules path = .error e → e.str = "" →
        (∃ name, modules.importModule name = .error e) ∨
          ∃ module name, modules.getattr module name = .error e) ∧
    ∀ (s s' : State Q) (a : Action P), (taskSystem stamp env).Reachable free s →
      step stamp env s a = some s' → ∀ q ∈ s'.tasks, q.status = .failed →
        q ∈ s.tasks ∨ ∃ t ∈ s.tasks, FailedBy env s a t q := by
  refine ⟨fun as => ?_, fun mode elapsed c => c.hasText mode elapsed,
    fun F M modules path e h he => resolve_silent h he,
    fun s s' a hr h q hq hs => step_failed hr h hq hs⟩
  refine always_iff_eachStep (I := (taskSystem stamp env).Reachable free) ?_ ?_ .init ?_ as
  · exact fun s a t hr h => hr.step trivial h
  · exact fun s a t hr hs h => explained_step hr hs h
  · exact fun t ht => absurd ht (Table.not_mem_empty t)

end Steps

section Sample

def assertingModules : ModuleEnv Unit Unit where
  attributes _ := ⟨none, none, none, "<function build>", "function"⟩
  callable _ := true
  importModule _ := .error (.exception "")
  getattr _ _ := .ok ()

def silentRun : List (Action String) :=
  [.upsert sampleConn (sampleUpsert "a"), sampleClaim 0 10, 
    .finishes 0 (.notStarted (.exception "") "0.001"), .record 0 20]

theorem failure_unexplained :
    resolveFunctionPath assertingModules "reports:build" = .error (.exception "") ∧
    ¬∀ as : List (Action String),
      (taskSystem unlabelled sampleEnv).Always Explained State.initial as := by
  refine ⟨by decide +kernel, fun h => ?_⟩
  have hexplained := (h silentRun).of_steps (Steps.of_run (G := free) (by decide +kernel))
  have hsilent : ∃ t ∈ ((taskSystem unlabelled sampleEnv).run free silentRun).tasks.rows,
      t.status = .failed ∧ t.error = none := by decide +kernel
  obtain ⟨t, ht, hfailed, hnone⟩ := hsilent
  obtain ⟨msg, hmsg, -⟩ := hexplained t (Table.mem_rows.mp ht) hfailed
  rw [hnone] at hmsg
  cases hmsg

end Sample

end PostgresQueue
