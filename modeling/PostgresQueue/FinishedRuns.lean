import Mathlib.Data.List.TakeWhile
import PostgresQueue.Parking
import PostgresQueue.RowForm

namespace PostgresQueue

open Library System

variable {P Q : Type} {stamp : P → ℕ → Q} {env : Env Q}

def NulFree (text : String) : Prop := '\x00' ∉ text.toList

instance (text : String) : Decidable (NulFree text) := by unfold NulFree; infer_instance

/-- A number as Python formats it. -/
def Figure (text : String) : Prop :=
  ∀ c ∈ text.toList, c.isDigit = true ∨ c ∈ ['.', '-', '+', 'e']

instance (text : String) : Decidable (Figure text) := by
  unfold Figure
  exact List.decidableBAll _ _

def RunEnd.Figures : RunEnd → Prop
  | .notStarted _ elapsed => Figure elapsed
  | .child elapsed e => Figure elapsed ∧ Figure e.drainTimeout ∧ Figure e.maxRssKb

def WaitStatus.ReportsError : WaitStatus → Prop
  | .exited code => code ≠ exitSuccess ∧ code ≠ exitTimeout
  | .signaled _ | .other => False

/-- The `except` clause that the error meets takes its text from it. -/
def TaskError.Spoken : Mode → TaskError → Prop
  | .sequential, .timeout _ => False
  | .sequential, _ | .concurrent, _ => True

/-- A call of `_finish_one_off` follows: the exception that met a clause of the worker is an
`Exception`, and `str` returns if the clause calls it. -/
def RunEnd.Followed (mode : Mode) : RunEnd → Prop
  | .notStarted e _ => e.Spoken mode → e.str ≠ none
  | .child _ _ => True

/-- No text that is taken over from an exception or from a child contains U+0000. Only a child that
reports an error has its text recorded. -/
def RunEnd.Clean (mode : Mode) : RunEnd → Prop
  | .notStarted e _ => e.Spoken mode → ∀ msg, e.str = some msg → NulFree msg
  | .child _ e => e.status.ReportsError → NulFree e.errorText

def ChildResult.Clean (r : ChildResult) : Prop := ∀ msg, r.errorMsg = some msg → NulFree msg

def Outcome.Clean (o : Outcome) : Prop := ∀ msg, o.errorMsg = some msg → NulFree msg

theorem nulFree_append {a b : String} : NulFree (a ++ b) ↔ NulFree a ∧ NulFree b := by
  simp [NulFree]

theorem Figure.nulFree {text : String} (h : Figure text) : NulFree text := by
  intro hc
  rcases h _ hc with hd | hm
  · exact absurd hd (by decide)
  · exact absurd hm (by decide)

theorem nulFree_toString (n : ℕ) : NulFree (toString n) := by
  have h : Figure (toString n) := by
    intro c hc
    rw [Nat.toString_eq_ofList_toDigits, String.toList_ofList] at hc
    exact .inl (Nat.isDigit_of_mem_toDigits (by decide) (by decide) hc)
  exact h.nulFree

theorem rstrip_nulFree (text : String) : NulFree (rstrip text) ↔ NulFree text := by
  unfold NulFree rstrip
  rw [String.toList_ofList, List.mem_reverse, not_iff_not]
  constructor
  · intro h
    exact List.mem_reverse.mp (List.dropWhile_subset _ h)
  · intro h
    have hsplit := List.takeWhile_append_dropWhile (p := isSpace) (l := text.toList.reverse)
    rw [← List.mem_reverse, ← hsplit, List.mem_append] at h
    rcases h with h | h
    · exact absurd (List.mem_takeWhile_imp h) (by decide)
    · exact h

theorem orDefault_nulFree {msg : Option String} {default : String} (hd : NulFree default) :
    NulFree (orDefault msg default) ↔ ∀ text, msg = some text → NulFree text := by
  cases msg with
  | none => simpa [orDefault] using hd
  | some text =>
    by_cases h : text = ""
    · simpa [orDefault, h, NulFree] using hd
    · simp [orDefault, h]

@[simp] theorem ChildResult.clean_some (status : TaskStatus) (msg : String) (kind : ExitKind) :
    (⟨status, some msg, kind⟩ : ChildResult).Clean ↔ NulFree msg := by
  simp [ChildResult.Clean]

@[simp] theorem Outcome.clean_some (status : TaskStatus) (msg : String) :
    (⟨status, some msg⟩ : Outcome).Clean ↔ NulFree msg := by
  simp [Outcome.Clean]

@[simp] theorem Outcome.clean_none (status : TaskStatus) : (⟨status, none⟩ : Outcome).Clean :=
  nofun

theorem waitResult_clean {e : ChildExit} (hd : Figure e.drainTimeout) (hr : Figure e.maxRssKb) :
    (waitResult e).Clean ↔ (e.status.ReportsError → NulFree e.errorText) := by
  unfold waitResult WaitStatus.ReportsError
  cases e.status with
  | exited code =>
    dsimp only
    split_ifs with hs ht hx
    · exact iff_of_true nofun fun h => absurd hs h.1
    · rw [ChildResult.clean_some]
      exact iff_of_true (by decide) fun h => absurd ht h.2
    · rw [ChildResult.clean_some, rstrip_nulFree]
      exact ⟨fun h _ => h, fun h => h ⟨hs, ht⟩⟩
    · rw [ChildResult.clean_some, nulFree_append, not_not.mp hx]
      exact iff_of_true ⟨by decide, nulFree_toString code⟩ fun _ => by decide
  | signaled signum =>
    simp only [false_imp_iff, iff_true]
    split_ifs
    · rw [ChildResult.clean_some, nulFree_append, nulFree_append]
      exact ⟨⟨by decide, hd.nulFree⟩, by decide⟩
    · rw [ChildResult.clean_some, nulFree_append, nulFree_append]
      exact ⟨⟨by decide, hr.nulFree⟩, by decide⟩
    · rw [ChildResult.clean_some, nulFree_append]
      exact ⟨by decide, nulFree_toString signum⟩
  | other =>
    have hfixed : NulFree "Unknown child exit status" := by decide
    simp [hfixed]

theorem timedOut_clean {elapsed : String} (he : Figure elapsed) :
    (⟨.failed, some ("Timed out after " ++ elapsed ++ " s")⟩ : Outcome).Clean := by
  rw [Outcome.clean_some, nulFree_append, nulFree_append]
  exact ⟨⟨by decide, he.nulFree⟩, by decide⟩

theorem exceptOutcome_clean {elapsed : String} (he : Figure elapsed) {r : ChildResult}
    (hr : r.Sound) (ht : r.exitKind = .timeout → r.Clean) {o : Outcome}
    (ho : exceptOutcome elapsed (executeInFork r) = some o) : o.Clean ↔ r.Clean := by
  obtain ⟨status, msg, kind⟩ := r
  rcases hr with hr | ⟨-, hs⟩
  · cases hr
    cases ho
    simp [ChildResult.Clean]
  · cases kind with
    | success => exact absurd rfl hs
    | timeout =>
      cases ho
      exact iff_of_true (timedOut_clean he) (ht rfl)
    | oom | killed | shutdown | error =>
      cases ho
      rw [Outcome.clean_some]
      exact orDefault_nulFree (by decide)

theorem startError_outcome (mode : Mode) (e : TaskError) (elapsed : String) (hs : e.Spoken mode) :
    (RunEnd.notStarted e elapsed).outcome mode = startOutcome e := by
  cases mode with
  | concurrent => rfl
  | sequential =>
    cases e with
    | timeout => exact hs.elim
    | oom | killed | interrupted | exception | baseException => rfl

theorem not_spoken {mode : Mode} {e : TaskError} (hs : ¬e.Spoken mode) :
    mode = .sequential ∧ ∃ str, e = .timeout str := by
  cases mode with
  | concurrent => cases e <;> exact absurd trivial hs
  | sequential =>
    cases e with
    | timeout str => exact ⟨rfl, str, rfl⟩
    | oom | killed | interrupted | exception | baseException => exact absurd trivial hs

theorem RunEnd.followed_iff {mode : Mode} {e : RunEnd} :
    e.Followed mode ↔ ∃ o, e.outcome mode = some o := by
  cases e with
  | child elapsed e => exact iff_of_true trivial (RunEnd.outcome_child mode elapsed e)
  | notStarted e elapsed =>
    by_cases hs : e.Spoken mode
    · rw [startError_outcome mode e elapsed hs]
      simp only [Followed, hs, forall_const, startOutcome, Option.map_eq_some_iff,
        Option.ne_none_iff_exists']
      exact ⟨fun ⟨msg, h⟩ => ⟨_, msg, h, rfl⟩, fun ⟨_, msg, h, _⟩ => ⟨msg, h⟩⟩
    · obtain ⟨rfl, str, rfl⟩ := not_spoken hs
      exact iff_of_true (fun h => h.elim) ⟨_, rfl⟩

theorem concurrentOutcome_clean {elapsed : String} (he : Figure elapsed) {r : ChildResult}
    (ht : r.exitKind = .timeout → r.Clean) : (concurrentOutcome elapsed r).Clean ↔ r.Clean := by
  unfold concurrentOutcome
  split_ifs with hk
  · exact iff_of_true (timedOut_clean he) (ht hk)
  · exact Iff.rfl

theorem waitResult_timeout {e : ChildExit} (h : (waitResult e).exitKind = .timeout) :
    (waitResult e).Clean := by
  unfold waitResult at h ⊢
  cases hs : e.status with
  | exited code =>
    simp only [hs] at h ⊢
    split_ifs at h ⊢
    rw [ChildResult.clean_some]
    decide
  | signaled signum =>
    simp only [hs] at h
    split_ifs at h
  | other =>
    simp only [hs] at h
    cases h

theorem startError_clean {mode : Mode} {e : TaskError} {elapsed : String} (he : Figure elapsed)
    {o : Outcome} (ho : (RunEnd.notStarted e elapsed).outcome mode = some o) :
    o.Clean ↔ (RunEnd.notStarted e elapsed).Clean mode := by
  by_cases hs : e.Spoken mode
  · rw [startError_outcome mode e elapsed hs] at ho
    obtain ⟨msg, hmsg, rfl⟩ := Option.map_eq_some_iff.mp ho
    simp [RunEnd.Clean, hs, hmsg]
  · obtain ⟨rfl, str, rfl⟩ := not_spoken hs
    cases ho
    exact iff_of_true (timedOut_clean he) fun h => h.elim

theorem outcome_clean {mode : Mode} {e : RunEnd} (h : e.Figures) {o : Outcome}
    (ho : e.outcome mode = some o) : o.Clean ↔ e.Clean mode := by
  cases e with
  | notStarted e elapsed => exact startError_clean h ho
  | child elapsed e =>
    obtain ⟨he, hd, hr⟩ := h
    have ht := waitResult_timeout (e := e)
    cases mode with
    | sequential =>
      exact (exceptOutcome_clean he (waitResult_sound e) ht ho).trans (waitResult_clean hd hr)
    | concurrent =>
      cases ho
      exact (concurrentOutcome_clean he ht).trans (waitResult_clean hd hr)

def LeavesRunning (t : Task Q) (tasks : Tasks Q) : Prop :=
  ∃ q ∈ tasks, q.id = t.id ∧
    ((t.requeue = none ∧ (q.status = .completed ∨ q.status = .failed)) ∨
      (t.requeue ≠ none ∧ q.status = .pending))

def Task.Readable (env : Env Q) (t : Task Q) : Prop :=
  ∀ spec, t.requeue = some spec → ∃ v, spec.Encodes env v

theorem storable_recordOutcome {t : Task Q} (h : t.error = none) (clock : Timestamptz)
    (o : Outcome) : storable (recordOutcome clock o t).error = true ↔ o.Clean := by
  obtain ⟨status, msg⟩ := o
  cases msg with
  | none => simp [recordOutcome, storable, h]
  | some text =>
    by_cases hx : text = ""
    · simp [recordOutcome, storable, h, hx, NulFree]
    · simp [recordOutcome, storable, hx, NulFree]

section Finish

variable {tasks : Tasks Q} {t : Task Q} {clock : Timestamptz} {o : Outcome}

theorem not_leavesRunning (ht : t ∈ tasks) (hs : t.status = .running) :
    ¬LeavesRunning t tasks := by
  rintro ⟨q, hq, hid, hstatus⟩
  obtain rfl := tasks.eq_of_key hq ht hid
  simp [hs] at hstatus

theorem finishOneOff_leaves_unparked (ht : t ∈ tasks) (hs : t.status = .running)
    (hq : t.requeue = none) (he : t.error = none) (ho : o.Sound) :
    LeavesRunning t (finishOneOff env clock t.id t.startedAt o tasks) ↔ o.Clean := by
  have hf := find?_running ht hs
  rw [finishOneOff_record hf hq, ← storable_recordOutcome he clock]
  split_ifs with hstore
  · have hrep : tasks.Replaces t (recordOutcome clock o t) (flush (recordOutcome clock o t) tasks) :=
      flush_replaces ht rfl rfl
    have hclosed : o.status = .completed ∨ o.status = .failed := by
      rcases ho with rfl | ho
      exacts [.inl rfl, .inr ho]
    exact iff_of_true ⟨_, hrep.mem_new, rfl, .inl ⟨hq, hclosed⟩⟩ hstore
  · exact iff_of_false (not_leavesRunning ht hs) hstore

theorem finishOneOff_leaves_parked (ht : t ∈ tasks) (hs : t.status = .running)
    (hq : t.requeue ≠ none) :
    LeavesRunning t (finishOneOff env clock t.id t.startedAt o tasks) ↔ t.Readable env := by
  have hf := find?_running ht hs
  rw [finishOneOff_requeue hf hq]
  cases ha : t.applyRequeue env with
  | ok q =>
    obtain ⟨spec, v, hr, hv, rfl⟩ := Task.applyRequeue_ok.mp ha
    have hrep : tasks.Replaces t (t.fresh v) (flush (t.fresh v) tasks) := flush_replaces ht rfl rfl
    refine iff_of_true ⟨_, hrep.mem_new, rfl, .inr ⟨hq, rfl⟩⟩ fun spec' hr' => ?_
    rw [hr] at hr'
    exact ⟨v, Option.some.inj hr' ▸ hv⟩
  | error e =>
    refine iff_of_false (not_leavesRunning ht hs) fun h => ?_
    obtain ⟨spec, hr⟩ := Option.ne_none_iff_exists'.mp hq
    obtain ⟨v, hv⟩ := h spec hr
    have hok := Task.applyRequeue_ok.mpr ⟨spec, v, hr, hv, rfl⟩
    rw [ha] at hok
    cases hok

theorem readable_unparked (hq : t.requeue = none) : t.Readable env := fun spec hspec => by
  simp [hq] at hspec

theorem finishOneOff_leaves (ht : t ∈ tasks) (hs : t.status = .running) (he : t.error = none)
    (ho : o.Sound) : LeavesRunning t (finishOneOff env clock t.id t.startedAt o tasks) ↔
      (t.requeue = none → o.Clean) ∧ t.Readable env := by
  by_cases hq : t.requeue = none
  · rw [finishOneOff_leaves_unparked ht hs hq he ho]
    exact ⟨fun hc => ⟨fun _ => hc, readable_unparked hq⟩, fun hc => hc.1 hq⟩
  · rw [finishOneOff_leaves_parked ht hs hq]
    exact ⟨fun hr => ⟨fun hn => absurd hn hq, hr⟩, fun hr => hr.2⟩

theorem finishOneOff_stuck (ht : t ∈ tasks) (hs : t.status = .running) (he : t.error = none)
    (hno : ¬((t.requeue = none → o.Clean) ∧ t.Readable env)) :
    finishOneOff env clock t.id t.startedAt o tasks = tasks := by
  have hf := find?_running ht hs
  by_cases hq : t.requeue = none
  · have hdirty : ¬o.Clean := fun hc => hno ⟨fun _ => hc, readable_unparked hq⟩
    rw [finishOneOff_record hf hq, if_neg fun hstore => hdirty ((storable_recordOutcome he clock o).mp hstore)]
  · rw [finishOneOff_requeue hf hq]
    cases ha : t.applyRequeue env with
    | error e => rfl
    | ok q =>
      obtain ⟨spec, v, hspec, hv, -⟩ := Task.applyRequeue_ok.mp ha
      refine absurd ⟨fun hn => absurd hn hq, fun spec' hspec' => ⟨v, ?_⟩⟩ hno
      obtain rfl := Option.some.inj (hspec.symm.trans hspec')
      exact hv

theorem LeavesRunning.not_running (h : LeavesRunning t tasks) {q : Task Q} (hq : q ∈ tasks)
    (hid : q.id = t.id) : q.status ≠ .running := by
  obtain ⟨q', hq', hid', hstatus⟩ := h
  obtain rfl := tasks.eq_of_key hq hq' (hid.trans hid'.symm)
  rcases hstatus with ⟨-, hs | hs⟩ | ⟨-, hs⟩
  all_goals
    rw [hs]
    exact TaskStatus.noConfusion

end Finish

section Sample

def failing (text : String) : RunEnd :=
  .child "0.100" ⟨.exited exitFailure, false, "", "", text⟩

def finished (text : String) : State String :=
  (taskSystem unlabelled sampleEnv).run free [.upsert sampleConn (sampleUpsert "a"),
    sampleClaim 0 10, .start 0, .finishes 0 (failing text)]

theorem finished_reachable (text : String) :
    (taskSystem unlabelled sampleEnv).Reachable free (finished text) :=
  .of_run (by rfl)

theorem finished_runs (text : String) : (finished text).runs =
    [⟨sampleRunning, 10, 0, .sequential, .ended (failing text)⟩] := rfl

theorem mem_finished (text : String) : sampleRunning ∈ (finished text).tasks :=
  List.mem_singleton_self sampleRunning

theorem failing_figures (text : String) : (failing text).Figures :=
  ⟨(by decide : Figure "0.100"), (by decide : Figure ""), (by decide : Figure "")⟩

end Sample

end PostgresQueue
