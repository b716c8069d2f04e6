import PostgresQueue.ClosedRows
import PostgresQueue.RecordedOutcome

namespace PostgresQueue

open Library System

section Endings

theorem notStarted_text {x : TaskError} {elapsed : String} {mode : Mode} {o : Outcome}
    (h : (RunEnd.notStarted x elapsed).outcome mode = some o) : ∃ msg, o = ⟨.failed, some msg⟩ ∧
      (x.str = some msg ∨ (∃ str, x = .timeout str) ∧ msg = "Timed out after " ++ elapsed ++ " s") := by
  by_cases hs : x.Spoken mode
  · rw [startError_outcome mode x elapsed hs] at h
    obtain ⟨msg, hmsg, rfl⟩ := Option.map_eq_some_iff.mp h
    exact ⟨msg, rfl, .inl hmsg⟩
  · obtain ⟨rfl, str, rfl⟩ := not_spoken hs
    cases h
    exact ⟨_, rfl, .inr ⟨⟨str, rfl⟩, rfl⟩⟩

namespace TaskRun

variable (c : TaskRun)

/-- How the calls of a child end that are not code of the worker, but for `format_exc`. -/
def callEndings : List Called :=
  [c.workEnding, c.postEnding none, c.postEnding (some .timeoutError),
    c.postEnding (some .exception), c.write, c.closePools]

def formatEnding (e : Thrown) : Called := (c.formatted e).map id id fun _ => ()

def EndedByCall (e : Thrown) (status : WaitStatus) : Prop :=
  ∃ o, (o ∈ c.callEndings ∧ cutsOff o = true ∨ o = c.formatEnding e ∧ o ≠ .returns ()) ∧
    (c.run e).ending = o ∧ c.statusAfter o = status

structure Returns : Prop where
  work : c.workEnding = .returns ()
  post : cutsOff (c.postEnding none) = false
  closePools : cutsOff c.closePools = false

variable {c} {e : Thrown} {w : Waited}

theorem handler_returns (h : c.workEnding = .returns ()) : c.handler.call = .returns () := by
  unfold workEnding at h
  cases hpre : c.preExecute with
  | none => rwa [hpre] at h
  | some pre =>
    rw [hpre] at h
    cases pre with
    | returns => exact h
    | raises | exits => cases h

theorem lastCalls_subset (h : c.workEnding ≠ .raises .exception) :
    ∀ o ∈ c.lastCalls, o ∈ c.callEndings := by
  intro o ho
  unfold lastCalls at ho
  unfold callEndings
  cases hw : c.workEnding with
  | returns | exits =>
    rw [hw] at ho
    simp only [List.mem_cons, List.not_mem_nil, or_false] at ho ⊢
    tauto
  | raises x =>
    cases x with
    | exception => exact absurd hw h
    | timeoutError | baseException =>
      rw [hw] at ho
      simp only [List.mem_cons, List.not_mem_nil, or_false] at ho ⊢
      tauto

theorem report_ending (e : Thrown) (errorTb : PyText) (f : ℕ → Called) :
    (c.report e (some .exception) errorTb >>= fun code => (⟨[], f code⟩ : TaskProc Unit)).ending =
      if cutsOff c.write then c.write else f exitFailure := by
  unfold report
  cases c.write with
  | returns | exits => rfl
  | raises x => cases x <;> rfl

theorem run_ending_exception (hx : c.workEnding = .raises .exception) (e : Thrown) :
    (∃ o, (o ∈ c.callEndings ∧ cutsOff o = true ∨ o = c.formatEnding e ∧ o ≠ .returns ()) ∧
      (c.run e).ending = o) ∨ (c.run e).ending = .exits (.exit exitFailure) := by
  have hat := c.errorAtFinally_exception hx
  have hpost : c.postEnding (some .exception) ∈ c.callEndings := by simp [callEndings]
  cases hf : c.formatted e with
  | returns errorTb =>
    have htry : c.tryEnding e = .returns (some .exception, errorTb) := by
      rw [c.tryEnding_exception hx, hf]
      rfl
    have hrun := c.run_of_error htry hat
    by_cases hp : cutsOff (c.postEnding (some .exception)) = true
    · rw [if_pos hp] at hrun
      exact .inl ⟨_, .inl ⟨hpost, hp⟩, congrArg Proc.ending hrun⟩
    · rw [if_neg hp] at hrun
      rw [hrun, c.report_ending e]
      split_ifs with hw hpool
      · exact .inl ⟨_, .inl ⟨by simp [callEndings], hw⟩, rfl⟩
      · exact .inl ⟨_, .inl ⟨by simp [callEndings], hpool⟩, rfl⟩
      · exact .inr rfl
  | raises x =>
    have htry : c.tryEnding e = .raises x := by
      rw [c.tryEnding_exception hx, hf]
      rfl
    rw [c.run_of_escape htry, hat]
    split_ifs with hp
    · exact .inl ⟨_, .inl ⟨hpost, hp⟩, rfl⟩
    · refine .inl ⟨.raises x, .inr ⟨?_, by simp⟩, rfl⟩
      rw [formatEnding, hf]
      rfl
  | exits d =>
    have htry : c.tryEnding e = .exits d := by
      rw [c.tryEnding_exception hx, hf]
      rfl
    rw [c.run_of_exit htry]
    refine .inl ⟨.exits d, .inr ⟨?_, by simp⟩, rfl⟩
    rw [formatEnding, hf]
    rfl

theorem run_ending (c : TaskRun) (e : Thrown) :
    (∃ o, (o ∈ c.callEndings ∧ cutsOff o = true ∨ o = c.formatEnding e ∧ o ≠ .returns ()) ∧
      (c.run e).ending = o) ∨ ∃ code, (c.run e).ending = .exits (.exit code) ∧
        (code % 256 = exitSuccess → c.workEnding = .returns ()) := by
  by_cases hx : c.workEnding = .raises .exception
  · rcases run_ending_exception hx e with h | h
    · exact .inl h
    · exact .inr ⟨exitFailure, h, fun hcode => by cases hcode⟩
  · rw [c.run_silent hx e]
    cases hlast : c.lastCall with
    | some o =>
      have hmem := lastCalls_subset hx o (List.mem_of_find?_eq_some hlast)
      exact .inl ⟨o, .inl ⟨hmem, List.find?_some hlast⟩, rfl⟩
    | none =>
      refine .inr ⟨c.exitCode, rfl, fun hcode => ?_⟩
      unfold exitCode at hcode
      cases hw : c.workEnding with
      | returns => rfl
      | raises | exits =>
        rw [hw] at hcode
        cases hcode

theorem childEnd_completed {r : ChildEnd} {elapsed : String} :
    (r.outcome elapsed).status = .completed ↔ r.status = .exited exitSuccess := by
  refine ⟨fun h => ?_, fun h => by rw [outcome_success h]⟩
  by_contra hs
  by_cases ht : r.status = .exited exitTimeout
  · rw [outcome_timeout ht] at h
    cases h
  · cases hsent : r.sent with
    | none =>
      obtain ⟨text, ho, -⟩ := outcome_unsent hs ht hsent
      rw [ho] at h
      cases h
    | some raised =>
      by_cases hr : r.status.ReportsError
      · rw [outcome_reported hr hsent] at h
        cases h
      · obtain ⟨text, ho, -⟩ := outcome_unsent (r := { r with sent := none }) hs ht rfl
        rw [outcome_of_not_reportsError hr _ _ _ _ none, ho] at h
        cases h

theorem status_of_completed {mode : Mode} {maxRuntime : PyFloat} {o : Outcome}
    (ho : (c.runEnd mode maxRuntime e w).outcome mode = some o) (h : o.status = .completed) :
    c.status e = .exited exitSuccess := by
  have hnot : ∀ x, (RunEnd.notStarted x w.elapsed).outcome mode ≠ some o := by
    intro x hx
    obtain ⟨msg, rfl, -⟩ := notStarted_text hx
    cases h
  have hchild : (RunEnd.child w.elapsed (c.childEnd e w).exit).outcome mode = some o →
      c.status e = .exited exitSuccess := by
    intro hchild
    rw [child_outcome] at hchild
    cases hchild
    exact childEnd_completed.mp h
  unfold runEnd at ho
  cases halarm : alarmSeconds maxRuntime with
  | error x =>
    rw [halarm] at ho
    exact absurd ho (hnot _)
  | ok n =>
    rw [halarm] at ho
    dsimp only at ho
    cases hleft : c.left e with
    | none =>
      rw [hleft] at ho
      exact hchild ho
    | some x =>
      rw [hleft] at ho
      dsimp only at ho
      split_ifs at ho
      exacts [absurd ho (hnot x), hchild ho]

theorem work_of_completed (h : c.status e = .exited exitSuccess) :
    c.workEnding = .returns () ∨ c.EndedByCall e (.exited exitSuccess) := by
  unfold status at h
  rcases c.run_ending e with ⟨o, ho, hend⟩ | ⟨code, hend, hcode⟩
  · rw [hend] at h
    exact .inr ⟨o, ho, hend, h⟩
  · rw [hend] at h
    exact .inl (hcode (WaitStatus.exited.inj h))

theorem completed_of_returns {mode : Mode} {maxRuntime : PyFloat} (h : c.Returns)
    (hfits : FitsAlarm maxRuntime) :
    (c.runEnd mode maxRuntime e w).outcome mode = some ⟨.completed, none⟩ := by
  have hx : c.workEnding ≠ .raises .exception := by simp [h.work]
  have hlast : c.lastCall = none := by
    unfold lastCall lastCalls
    rw [h.work]
    simp [h.post, h.closePools]
  have hrun := c.run_silent hx e
  rw [hlast] at hrun
  have hleft : c.left e = none := by
    apply c.left_eq_none
    rw [hrun]
    exact nofun
  rw [outcome_of_fits hfits hleft, childEnd_eq hrun]
  refine congrArg some (outcome_success ?_)
  change (WaitStatus.exited (c.exitCode % 256)) = _
  unfold exitCode
  rw [h.work]
  rfl

end TaskRun

end Endings

section Told

variable {F M O : Type} (modules : ModuleEnv F M) (p : Pickling O)
  (does : F → List (PyValue O) → List (PyKey O × PyValue O) → TaskHandler → Prop)

/-- What becomes of a claimed run: an exception comes up before there is a child, or a child is
forked. -/
inductive RunLife
  | unstarted (x : TaskError) (elapsed : String)
  | forked (c : TaskRun) (maxRuntime : PyFloat) (e : Thrown) (w : Waited)

/-- The child calls the function of the row, where `does` says how a call may end. -/
def Task.CalledBy (t : Task (CallPayload F O × ℕ)) (c : TaskRun) : Prop :=
  ∃ func args kwargs, handlerCall modules p t.name t.payload.1.json = .ok (func, args, kwargs) ∧
    does func args kwargs c.handler

def RunLife.Ends (life : RunLife) (mode : Mode) (t : Task (CallPayload F O × ℕ)) (x : RunEnd) :
    Prop :=
  match life with
  | .unstarted e elapsed => x = .notStarted e elapsed
  | .forked c maxRuntime e w => t.CalledBy modules p does c ∧
      x = c.runEnd mode (t.maxRuntimeSeconds.getD maxRuntime) e w

/-- What the status and the error of a row say about the life of its last run. -/
inductive Task.Told (env : Env (CallPayload F O × ℕ)) (t : Task (CallPayload F O × ℕ)) :
    RunLife → Prop
  | completed {c : TaskRun} {maxRuntime : PyFloat} {e : Thrown} {w : Waited} :
      t.status = .completed → t.error = none → t.CalledBy modules p does c →
      c.handler.call = .returns () ∧ c.workEnding = .returns () ∨
        c.EndedByCall e (.exited exitSuccess) → Told env t (.forked c maxRuntime e w)
  | failed {c : TaskRun} {maxRuntime : PyFloat} {e : Thrown} {w : Waited} :
      t.status = .failed → t.CalledBy modules p does c →
      ¬(FitsAlarm (t.maxRuntimeSeconds.getD maxRuntime) ∧ c.Returns) →
      (FitsAlarm (t.maxRuntimeSeconds.getD maxRuntime) → c.Delivers → ∃ text,
        t.error = some text ∧ Contains text (utf8Replaced e.typeName) ∧
          Contains text (utf8Replaced e.text)) → Told env t (.forked c maxRuntime e w)
  | unstarted {x : TaskError} {elapsed : String} (msg : String) : t.status = .failed →
      t.error = (some msg).filter (· ≠ "") →
      x.str = some msg ∨ (∃ str, x = .timeout str) ∧ msg = "Timed out after " ++ elapsed ++ " s" →
      Told env t (.unstarted x elapsed)
  | reaped {life : RunLife} (x : Reap) : t.status = .failed →
      t.error = some (x.perRowError env t) → Told env t life

variable {modules p does} {floatRepr : PyFloat → String} {column : JsonbColumn}
  {env : Env (CallPayload F O × ℕ)} {s : State (CallPayload F O × ℕ)}
  {t : Task (CallPayload F O × ℕ)} {lives : ℕ → RunLife}

theorem Run.IsOf.calledBy {r : Run (CallPayload F O × ℕ)} (h : r.IsOf t) {c : TaskRun}
    (hc : r.task.CalledBy modules p does c) : t.CalledBy modules p does c := by
  have hname : r.task.name = t.name := congrArg Version.name h.version
  have hpayload : r.task.payload = t.payload := congrArg Version.payload h.version
  unfold Task.CalledBy at hc ⊢
  rwa [← hname, ← hpayload]

theorem told_of_forked {mode : Mode} {c : TaskRun} {maxRuntime : PyFloat} {e : Thrown} {w : Waited}
    {o : Outcome} (hc : t.CalledBy modules p does c)
    (ho : (c.runEnd mode (t.maxRuntimeSeconds.getD maxRuntime) e w).outcome mode = some o)
    (hst : t.status = o.status) (herr : t.error = o.errorMsg.filter (· ≠ "")) :
    t.Told modules p does env (.forked c maxRuntime e w) := by
  rcases RunEnd.outcome_sound ho with rfl | hfailed
  · refine .completed hst herr hc ?_
    refine (TaskRun.work_of_completed (TaskRun.status_of_completed ho rfl)).imp_left fun h => ?_
    exact ⟨TaskRun.handler_returns h, h⟩
  · refine .failed (hst.trans hfailed) hc ?_ ?_
    · rintro ⟨hfits, hreturns⟩
      cases (TaskRun.completed_of_returns hreturns hfits).symm.trans ho
      cases hfailed
    · intro hfits hdel
      obtain ⟨errorTb, hf, hout⟩ : ∃ errorTb, c.formatExc = .returns errorTb ∧
          (c.runEnd mode (t.maxRuntimeSeconds.getD maxRuntime) e w).outcome mode =
            some ⟨.failed, some (rstrip (e.raised (errorTb e)).message)⟩ :=
        outcome_of_delivers hfits hdel e
      cases hout.symm.trans ho
      refine ⟨_, ?_, message_contains hf e⟩
      rw [herr]
      simp [Option.filter, (e.raised (errorTb e)).rstrip_message]

theorem Task.ClosedBy.told
    (h : t.ClosedBy env (fun i => (lives i).Ends modules p does) s) : ∃ i r,
      s.runs[i]? = some r ∧ r.IsOf t ∧ t.Told modules p does env (lives i) := by
  cases h with
  | @reaped i r x hr hof hst herr => exact ⟨i, r, hr, hof, .reaped x hst herr⟩
  | @recorded i r e o hr hof hp he ho hst herr =>
    refine ⟨i, r, hr, hof, ?_⟩
    cases hlife : lives i with
    | unstarted x elapsed =>
      rw [hlife] at he
      obtain rfl : e = .notStarted x elapsed := he
      obtain ⟨msg, rfl, hmsg⟩ := notStarted_text ho
      exact .unstarted msg hst herr hmsg
    | forked c maxRuntime x w =>
      rw [hlife] at he
      obtain ⟨hc, rfl⟩ := he
      have hlimit : r.task.maxRuntimeSeconds = t.maxRuntimeSeconds :=
        congrArg Version.maxRuntimeSeconds hof.version
      rw [hlimit] at ho
      exact told_of_forked (hof.calledBy hc) ho hst herr

def sampleReturning : TaskRun := { raising .exception with handler := .function (.returns ()) }

def sampleThrown : Thrown := ⟨pyText "ValueError", pyText "no", by decide⟩

def anyEnding (_ : SampleCallable) (_ : List (PyValue Unit))
    (_ : List (PyKey Unit × PyValue Unit)) (_ : TaskHandler) : Prop := True

def sampleLives (i : ℕ) : RunLife :=
  .forked (if i = 0 then sampleReturning else raising .exception) (.finite 1800) sampleThrown
    sampleWaited

def reportedTwice : List (Action (CallPayload SampleCallable Unit)) :=
  [.enqueue sampleConn sampleCall none, .upsert sampleConn ⟨sampleCall, "report"⟩,
    .claim 0 .sequential ⟨10, none, 10, []⟩, .claim 1 .concurrent ⟨10, none, 20, []⟩,
    .start 0, .start 1,
    .finishes 0 (sampleReturning.runEnd .sequential (.finite 1800) sampleThrown sampleWaited),
    .record 0 30,
    .finishes 1 ((raising .exception).runEnd .concurrent (.finite 1800) sampleThrown sampleWaited),
    .record 1 40]

def startsSample (s : State (CallPayload SampleCallable Unit × ℕ)) :
    Action (CallPayload SampleCallable Unit) → Bool
  | .finishes i _ => s.runs[i]?.all fun r => r.task.maxRuntimeSeconds.isNone &&
      r.mode == (if i = 0 then Mode.sequential else Mode.concurrent) &&
      (handlerCall sampleModules samplePickling r.task.name r.task.payload.1.json).isOk
  | _ => true

def told : State (CallPayload SampleCallable Unit × ℕ) :=
  (taskSystem Prod.mk sampleEnv).run (fun s a => distinctClaims s a ∧ startsSample s a = true)
    reportedTwice

theorem startsSample_finishes {s : State (CallPayload SampleCallable Unit × ℕ)}
    {a : Action (CallPayload SampleCallable Unit)} (h : startsSample s a = true)
    (ha : a ∈ reportedTwice) :
    finishesAs (fun i => (sampleLives i).Ends sampleModules samplePickling anyEnding) s a := by
  cases a with
  | finishes i e =>
    intro r hr
    simp only [startsSample, hr, Option.all_some, Bool.and_eq_true, Option.isNone_iff_eq_none,
      beq_iff_eq] at h
    obtain ⟨⟨hlimit, hmode⟩, hcall⟩ := h
    have hc : ∀ c : TaskRun, r.task.CalledBy sampleModules samplePickling anyEnding c := by
      intro c
      unfold Task.CalledBy
      cases hok : handlerCall sampleModules samplePickling r.task.name r.task.payload.1.json with
      | error x =>
        rw [hok] at hcall
        cases hcall
      | ok call => exact ⟨call.1, call.2.1, call.2.2, rfl, trivial⟩
    refine ⟨hc _, ?_⟩
    rw [hlimit, hmode]
    simp only [reportedTwice, List.mem_cons, List.not_mem_nil, or_false, reduceCtorEq,
      false_or, Action.finishes.injEq] at ha
    rcases ha with ⟨rfl, rfl⟩ | ⟨rfl, rfl⟩ <;> rfl
  | _ => trivial

theorem reportedTwice_storesCalls : ∀ a ∈ reportedTwice,
    storesCalls sampleModules (fun _ => "") samplePickling sampleColumn a := by
  have hcall : ∀ a ∈ reportedTwice, ∀ c ∈ a.calls, c.2 = sampleCall := by
    simp [reportedTwice, Action.calls]
  exact fun a ha => sampleCall_storesCalls (hcall a ha)

theorem told_reachable : (taskSystem Prod.mk sampleEnv).Reachable (fun s a => distinctClaims s a ∧
    storesCalls sampleModules (fun _ => "") samplePickling sampleColumn a ∧
    finishesAs (fun i => (sampleLives i).Ends sampleModules samplePickling anyEnding) s a) told := by
  have hrun : (taskSystem Prod.mk sampleEnv).Steps (fun s a => distinctClaims s a ∧
      startsSample s a = true) State.initial reportedTwice told := .of_run (by decide +kernel)
  refine ⟨_, (hrun.and_forall_mem fun a ha => And.intro ha (reportedTwice_storesCalls a ha)).mono ?_⟩
  rintro s a ⟨⟨hdistinct, hstarts⟩, ha, hstores⟩
  exact ⟨hdistinct, hstores, startsSample_finishes hstarts ha⟩

end Told

end PostgresQueue
