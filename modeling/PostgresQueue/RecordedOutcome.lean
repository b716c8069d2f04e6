import PostgresQueue.OutcomeTexts

namespace PostgresQueue

open Library System

section Told

variable {P Q : Type} (env : Env Q) (clock : Timestamptz) (maxRuntime : PyFloat) (mode : Mode)
  (w : Waited) (tasks : Tasks Q) (t : Task Q)

namespace TaskRun

variable (c : TaskRun)

def recorded (e : Thrown) : Tasks Q :=
  recordedRows env clock t tasks ((c.runEnd mode maxRuntime e w).outcome mode)

def Told : Prop := ∀ e : Thrown, NulFree (utf8Replaced e.text) →
  ∀ q ∈ c.recorded env clock maxRuntime mode w tasks t e, q.id = t.id → c.Tells maxRuntime e q

end TaskRun

theorem alarmSeconds_error {maxRuntime : PyFloat} {x : BaseException}
    (h : alarmSeconds maxRuntime = .error x) : ¬TimedOut x.str := by
  intro htimed
  have hsecond := htimed.second
  cases maxRuntime with
  | nan | inf =>
    cases h
    exact absurd hsecond (by decide)
  | finite q =>
    rw [alarmSeconds_finite q _ rfl] at h
    generalize (if 0 ≤ q then ⌊q⌋ else ⌈q⌉) = n at h
    split_ifs at h
    cases h
    exact absurd hsecond (by decide)

variable {env clock maxRuntime mode w tasks t} {c : TaskRun}

theorem runEnd_outcome (mode : Mode) (maxRuntime : PyFloat) (e : Thrown) (w : Waited) :
    ∃ o, (c.runEnd mode maxRuntime e w).outcome mode = some o := by
  unfold TaskRun.runEnd
  cases alarmSeconds maxRuntime with
  | error x => cases mode <;> exact ⟨_, rfl⟩
  | ok =>
    cases c.left e with
    | none => exact RunEnd.outcome_child mode w.elapsed _
    | some x =>
      dsimp only
      split_ifs with hsome
      · exact Option.isSome_iff_exists.mp hsome
      · exact RunEnd.outcome_child mode w.elapsed _

theorem outcome_of_fits (hfits : FitsAlarm maxRuntime) {e : Thrown} (hleft : c.left e = none) :
    (c.runEnd mode maxRuntime e w).outcome mode = some ((c.childEnd e w).outcome w.elapsed) := by
  obtain ⟨n, hn⟩ := (alarmSeconds_ok maxRuntime).mpr hfits
  unfold TaskRun.runEnd
  rw [hn, hleft]
  exact child_outcome w.elapsed (c.childEnd e w) mode

theorem recorded_eq {e : Thrown} {o : Outcome}
    (h : (c.runEnd mode maxRuntime e w).outcome mode = some o) :
    c.recorded env clock maxRuntime mode w tasks t e =
      finishOneOff env clock t.id t.startedAt o tasks := by
  unfold TaskRun.recorded
  rw [h]
  rfl

theorem told_of_not_fits (ht : t ∈ tasks) (hs : t.status = .running) (hq : t.requeue = none)
    (he : t.error = none) (hfits : ¬FitsAlarm maxRuntime) :
    c.Told env clock maxRuntime mode w tasks t := by
  intro e _ q hm hid
  obtain ⟨x, hx⟩ : ∃ x, alarmSeconds maxRuntime = .error x := by
    cases hx : alarmSeconds maxRuntime with
    | ok n => exact absurd ((alarmSeconds_ok maxRuntime).mp ⟨n, hx⟩) hfits
    | error x => exact ⟨x, rfl⟩
  have ho : (c.runEnd mode maxRuntime e w).outcome mode = some ⟨.failed, some x.str⟩ := by
    unfold TaskRun.runEnd
    rw [hx]
    cases mode <;> rfl
  rw [recorded_eq ho] at hm
  refine ⟨fun hfits' => absurd hfits' hfits, fun text htext htimed => ?_, fun hdone => ?_⟩
  · rcases recorded_row ht hs hq he hm hid with ⟨-, rfl⟩ | ⟨-, rfl⟩
    · have hstr : text = x.str := by
        simp only [recordOutcome, he] at htext
        split_ifs at htext
        exact (Option.some.inj htext).symm
      exact absurd (hstr ▸ htimed) (alarmSeconds_error hx)
    · rw [he] at htext
      cases htext
  · rcases recorded_row ht hs hq he hm hid with ⟨-, rfl⟩ | ⟨-, rfl⟩
    · cases hdone
    · rw [hs] at hdone
      cases hdone

def Thrown.ofText (text : PyText) : Thrown := ⟨[], text, by decide⟩

theorem recorded_exists (ht : t ∈ tasks) (hs : t.status = .running) (hq : t.requeue = none)
    (he : t.error = none) (e : Thrown) :
    ∃ q ∈ c.recorded env clock maxRuntime mode w tasks t e, q.id = t.id := by
  obtain ⟨o, ho⟩ := runEnd_outcome (c := c) mode maxRuntime e w
  rw [recorded_eq ho]
  by_cases hclean : o.Clean
  · exact ⟨_, recorded_mem ht hs hq he hclean, rfl⟩
  · exact ⟨t, recorded_same ht hs hq he hclean, rfl⟩

theorem not_told_of_same (ht : t ∈ tasks) (hs : t.status = .running) (hq : t.requeue = none)
    (he : t.error = none) (hfits : FitsAlarm maxRuntime) (hraises : c.RaisesBeforeLimit)
    (hsame : ∀ e e', (c.runEnd mode maxRuntime e w).outcome mode =
      (c.runEnd mode maxRuntime e' w).outcome mode) :
    ¬c.Told env clock maxRuntime mode w tasks t := by
  intro htold
  have hclean : ∀ n, NulFree (utf8Replaced (List.replicate n (.inl 'x'))) := by
    intro n h
    simp [utf8Replaced] at h
  obtain ⟨q, hm, hid⟩ : ∃ q ∈ c.recorded env clock maxRuntime mode w tasks t (.ofText []),
      q.id = t.id := recorded_exists ht hs hq he _
  obtain ⟨-, text, htext, -, -⟩ := (htold (.ofText []) (hclean 0) q hm hid).raised hfits hraises
  let long : PyText := List.replicate (text.length + 1) (.inl 'x')
  have hm' : q ∈ c.recorded env clock maxRuntime mode w tasks t (.ofText long) := by
    unfold TaskRun.recorded at hm ⊢
    rwa [hsame _ (.ofText [])]
  obtain ⟨-, text', htext', -, hlong⟩ :=
    (htold (.ofText long) (hclean _) q hm' hid).raised hfits hraises
  obtain rfl : text = text' := Option.some.inj (htext.symm.trans htext')
  have := contains_length hlong
  simp [Thrown.ofText, utf8Replaced, long] at this

theorem childEnd_eq {o : Called} {e : Thrown} {sent : List Raised} (h : c.run e = ⟨sent, o⟩) :
    c.childEnd e w =
      ⟨c.statusAfter o, w.killedByDrain, w.drainTimeout, w.maxRssKb, sent.head?⟩ := by
  have hst : c.status e = c.statusAfter o := by
    unfold TaskRun.status TaskRun.statusAfter
    rw [h]
    cases o <;> rfl
  unfold TaskRun.childEnd
  rw [hst, h]

theorem runEnd_same {o : Called} (hrun : ∀ e, c.run e = ⟨[], o⟩) (e e' : Thrown) :
    c.runEnd mode maxRuntime e w = c.runEnd mode maxRuntime e' w := by
  have hleft : c.left e = c.left e' := by
    unfold TaskRun.left
    rw [hrun e, hrun e']
  have hend : c.childEnd e w = c.childEnd e' w := by
    rw [childEnd_eq (hrun e), childEnd_eq (hrun e')]
  unfold TaskRun.runEnd
  rw [hleft, hend]

theorem left_of_delivers {sent : List Raised} {e : Thrown} (hrun : c.run e = ⟨sent,
    if cutsOff c.closePools then c.closePools else .exits (.exit exitFailure)⟩) : c.left e = none := by
  apply c.left_eq_none
  rw [hrun]
  dsimp only
  split_ifs with hcut
  · intro hraises
    rw [hraises] at hcut
    cases hcut
  · exact nofun

theorem outcome_of_delivers (hfits : FitsAlarm maxRuntime) (hdel : c.Delivers) (e : Thrown) :
    ∃ errorTb, c.formatExc = .returns errorTb ∧ (c.runEnd mode maxRuntime e w).outcome mode =
      some ⟨.failed, some (rstrip (e.raised (errorTb e)).message)⟩ := by
  have hreports : (c.statusAfter (if cutsOff c.closePools then c.closePools
      else .exits (.exit exitFailure))).ReportsError := by
    split_ifs with hcut
    · exact hdel.closePools hcut
    · exact ⟨by decide, by decide⟩
  rcases c.run_exception hdel.exception with ⟨errorTb, hf, -, -, hrun⟩ | ⟨hnot, -⟩
  · refine ⟨errorTb, hf, ?_⟩
    rw [outcome_of_fits hfits (left_of_delivers (hrun e)), childEnd_eq (hrun e)]
    exact congrArg some (outcome_reported hreports rfl)
  · obtain ⟨errorTb, hf, -⟩ := hdel.traceback
    exact absurd ⟨errorTb, hf, hdel.post, hdel.write⟩ hnot

theorem message_contains {errorTb : Thrown → PyText} (hf : c.formatExc = .returns errorTb)
    (e : Thrown) : Contains (rstrip (e.raised (errorTb e)).message) (utf8Replaced e.typeName) ∧
      Contains (rstrip (e.raised (errorTb e)).message) (utf8Replaced e.text) := by
  rw [c.rstrip_message hf]
  constructor
  · exact ⟨"", ": " ++ utf8Replaced e.text ++ "\n" ++ rstrip (utf8Replaced (errorTb e)),
      by simp [String.append_assoc]⟩
  · exact ⟨utf8Replaced e.typeName ++ ": ", "\n" ++ rstrip (utf8Replaced (errorTb e)),
      by simp [String.append_assoc]⟩

theorem told_of_delivers (ht : t ∈ tasks) (hs : t.status = .running) (hq : t.requeue = none)
    (he : t.error = none) (hfits : FitsAlarm maxRuntime) (hdel : c.Delivers) :
    c.Told env clock maxRuntime mode w tasks t := by
  intro e hclean q hm hid
  obtain ⟨errorTb, hf, ho⟩ : ∃ errorTb, c.formatExc = .returns errorTb ∧
      (c.runEnd mode maxRuntime e w).outcome mode =
        some ⟨.failed, some (rstrip (e.raised (errorTb e)).message)⟩ :=
    outcome_of_delivers hfits hdel e
  have hnul : NulFree (utf8Replaced (errorTb e)) := by
    obtain ⟨errorTb', hf', hnul⟩ := hdel.traceback
    obtain rfl : errorTb' = errorTb := Ending.returns.inj (hf'.symm.trans hf)
    exact hnul e hclean
  have hmessage : (⟨.failed, some (rstrip (e.raised (errorTb e)).message)⟩ : Outcome).Clean := by
    rw [Outcome.clean_some, rstrip_nulFree]
    unfold Raised.message
    simp only [nulFree_append]
    exact ⟨⟨⟨⟨e.typeName_nulFree, by decide⟩, hclean⟩, by decide⟩, hnul⟩
  rw [recorded_eq ho] at hm
  obtain rfl : q = recordOutcome clock ⟨.failed, some (rstrip (e.raised (errorTb e)).message)⟩ t := by
    rcases recorded_row ht hs hq he hm hid with ⟨-, h⟩ | ⟨h, -⟩
    · exact h
    · exact absurd hmessage h
  have herror : (recordOutcome clock ⟨.failed, some (rstrip (e.raised (errorTb e)).message)⟩ t).error =
      some (rstrip (e.raised (errorTb e)).message) := by
    simp [recordOutcome, (e.raised (errorTb e)).rstrip_message]
  refine ⟨fun _ _ => ⟨rfl, _, herror, message_contains hf e⟩, fun text htext htimed => ?_,
    fun hdone => ?_⟩
  · rw [herror, Option.some.injEq] at htext
    exact absurd (htext ▸ htimed) (c.message_not_timedOut hf e)
  · cases hdone

theorem delivers_of_told (ht : t ∈ tasks) (hs : t.status = .running) (hq : t.requeue = none)
    (he : t.error = none) (hfits : FitsAlarm maxRuntime) (hraises : c.RaisesBeforeLimit)
    (htold : c.Told env clock maxRuntime mode w tasks t) : c.Delivers := by
  have hdiffer := fun hsame => not_told_of_same ht hs hq he hfits hraises hsame htold
  obtain ⟨⟨x, hx, hexc⟩, hlimit⟩ := hraises
  have hexception : c.workEnding = .raises .exception := by
    by_contra hne
    exact hdiffer fun e e' =>
      congrArg (RunEnd.outcome mode) (runEnd_same (c.run_silent hne) e e')
  rcases c.run_exception hexception with ⟨errorTb, hf, hpost, hwrite, hrun⟩ | ⟨-, o, hrun⟩
  · have hends : ∀ e, (c.runEnd mode maxRuntime e w).outcome mode =
        some ((c.childEnd e w).outcome w.elapsed) := fun e =>
      outcome_of_fits hfits (left_of_delivers (hrun e))
    have hreports : (c.statusAfter (if cutsOff c.closePools then c.closePools
        else .exits (.exit exitFailure))).ReportsError := by
      by_contra hnot
      refine hdiffer fun e e' => ?_
      rw [hends, hends, childEnd_eq (hrun e), childEnd_eq (hrun e')]
      exact congrArg some (outcome_of_not_reportsError hnot _ _ _ _ _)
    refine ⟨hexception, ⟨errorTb, hf, fun e hclean => ?_⟩, hpost, hwrite, fun hcut => ?_⟩
    · obtain ⟨q, hm, hid⟩ : ∃ q ∈ c.recorded env clock maxRuntime mode w tasks t e, q.id = t.id :=
        recorded_exists ht hs hq he e
      have hfailed := ((htold e hclean q hm hid).raised hfits ⟨⟨x, hx, hexc⟩, hlimit⟩).1
      have ho : (c.runEnd mode maxRuntime e w).outcome mode =
          some ⟨.failed, some (rstrip (e.raised (errorTb e)).message)⟩ := by
        rw [hends, childEnd_eq (hrun e)]
        exact congrArg some (outcome_reported hreports rfl)
      rw [recorded_eq ho] at hm
      rcases recorded_row ht hs hq he hm hid with ⟨hmessage, -⟩ | ⟨-, rfl⟩
      · rw [Outcome.clean_some, rstrip_nulFree] at hmessage
        exact (nulFree_append.mp hmessage).2
      · rw [hs] at hfailed
        cases hfailed
    · rwa [if_pos hcut] at hreports
  · exact absurd (fun e e' => congrArg (RunEnd.outcome mode) (runEnd_same hrun e e')) hdiffer

theorem status_after_exitCode :
    c.statusAfter (.exits (.exit c.exitCode)) = .exited c.exitCode := by
  unfold TaskRun.statusAfter Death.status TaskRun.exitCode
  cases c.workEnding <;> rfl

theorem quiet_ne_exception (hquiet : ¬c.RaisesBeforeLimit) : c.workEnding ≠ .raises .exception := by
  intro hx
  refine hquiet ⟨⟨_, hx, rfl⟩, fun ⟨hpre, hlimit⟩ => ?_⟩
  have htimeout : c.workEnding = .raises .timeoutError := by
    unfold TaskRun.workEnding
    rcases hpre with hpre | hpre <;> rw [hpre, hlimit] <;> rfl
  rw [hx] at htimeout
  cases htimeout

theorem quiet_lastCall_none (hquiet : ¬c.RaisesBeforeLimit) (hnone : c.lastCall = none) :
    c.workEnding = .returns () ∧ c.exitCode = exitSuccess ∨
      c.ReachesLimit ∧ c.exitCode = exitTimeout := by
  unfold TaskRun.lastCall TaskRun.lastCalls at hnone
  unfold TaskRun.exitCode
  cases hw : c.workEnding with
  | returns => exact .inl ⟨rfl, rfl⟩
  | exits d =>
    rw [hw] at hnone
    cases hnone
  | raises x =>
    cases x with
    | baseException =>
      rw [hw] at hnone
      have := List.find?_eq_none.mp hnone (.raises .baseException) (by simp)
      exact absurd rfl this
    | timeoutError | exception =>
      refine .inr ⟨?_, rfl⟩
      by_contra hlimit
      exact hquiet ⟨⟨_, hw, rfl⟩, hlimit⟩

theorem timedOut_status {r : ChildEnd} (hsent : r.sent = none) {text : String}
    (h : (r.outcome w.elapsed).errorMsg = some text) (htimed : TimedOut text) :
    r.status = .exited exitTimeout := by
  by_contra ht
  by_cases hs : r.status = .exited exitSuccess
  · rw [outcome_success hs] at h
    cases h
  · obtain ⟨text', ho, hnot⟩ := outcome_unsent hs ht hsent
    rw [ho] at h
    cases h
    exact hnot htimed

theorem completed_status {r : ChildEnd} (hsent : r.sent = none)
    (h : (r.outcome w.elapsed).status = .completed) : r.status = .exited exitSuccess := by
  by_contra hs
  by_cases ht : r.status = .exited exitTimeout
  · rw [outcome_timeout ht] at h
    cases h
  · obtain ⟨text', ho, -⟩ := outcome_unsent hs ht hsent
    rw [ho] at h
    cases h

theorem left_of_quiet (hquiet : ¬c.RaisesBeforeLimit) (e : Thrown) : c.left e = none := by
  apply c.left_eq_none
  rw [c.run_silent (quiet_ne_exception hquiet) e]
  intro hraises
  cases hlast : c.lastCall with
  | none =>
    rw [hlast] at hraises
    cases hraises
  | some o =>
    have hcut : cutsOff o = true := List.find?_some hlast
    rw [hlast] at hraises
    rw [show o = .raises .exception from hraises] at hcut
    cases hcut

theorem stopped_of_timedOut (hquiet : ¬c.RaisesBeforeLimit) (h : c.Tellable) (e : Thrown)
    {text : String} (hmsg : ((c.childEnd e w).outcome w.elapsed).errorMsg = some text)
    (htimed : TimedOut text) : c.StoppedByLimit e := by
  have hrun := c.run_silent (quiet_ne_exception hquiet) e
  rw [childEnd_eq hrun] at hmsg
  have hst := timedOut_status rfl hmsg htimed
  cases hlast : c.lastCall with
  | some o =>
    rw [hlast] at hst hrun
    rcases h.timeout hquiet o hlast hst with rfl | hlimit
    · exact .inr (congrArg Proc.ending hrun)
    · exact .inl hlimit
  | none =>
    rw [hlast] at hst
    rcases quiet_lastCall_none hquiet hlast with ⟨-, hcode⟩ | ⟨hlimit, -⟩
    · rw [Option.getD_none, status_after_exitCode, hcode] at hst
      cases hst
    · exact .inl hlimit

theorem returns_of_completed (hquiet : ¬c.RaisesBeforeLimit) (h : c.Tellable) (e : Thrown)
    (hcompleted : ((c.childEnd e w).outcome w.elapsed).status = .completed) :
    c.workEnding = .returns () := by
  rw [childEnd_eq (c.run_silent (quiet_ne_exception hquiet) e)] at hcompleted
  have hst := completed_status rfl hcompleted
  cases hlast : c.lastCall with
  | some o =>
    rw [hlast] at hst
    exact h.success hquiet o hlast hst
  | none =>
    rw [hlast] at hst
    rcases quiet_lastCall_none hquiet hlast with ⟨hreturns, -⟩ | ⟨-, hcode⟩
    · exact hreturns
    · rw [Option.getD_none, status_after_exitCode, hcode] at hst
      cases hst

theorem errorMsg_of_recorded (he : t.error = none) {o : Outcome} {text : String}
    (h : (recordOutcome clock o t).error = some text) : o.errorMsg = some text := by
  simp only [recordOutcome, he] at h
  split at h
  · rename_i hmsg
    split_ifs at h
    cases h
    exact hmsg
  · cases h

theorem told_of_tellable (ht : t ∈ tasks) (hs : t.status = .running) (hq : t.requeue = none)
    (he : t.error = none) (hfits : FitsAlarm maxRuntime) (hquiet : ¬c.RaisesBeforeLimit)
    (h : c.Tellable) : c.Told env clock maxRuntime mode w tasks t := by
  intro e _ q hm hid
  rw [recorded_eq (outcome_of_fits hfits (left_of_quiet hquiet e))] at hm
  refine ⟨fun _ hraises => absurd hraises hquiet, fun text htext htimed => ?_, fun hdone => ?_⟩
  · rcases recorded_row ht hs hq he hm hid with ⟨-, rfl⟩ | ⟨-, rfl⟩
    · exact stopped_of_timedOut hquiet h e (errorMsg_of_recorded he htext) htimed
    · rw [he] at htext
      cases htext
  · rcases recorded_row ht hs hq he hm hid with ⟨-, rfl⟩ | ⟨-, rfl⟩
    · exact returns_of_completed hquiet h e hdone
    · rw [hs] at hdone
      cases hdone

theorem tells_of_told (ht : t ∈ tasks) (hs : t.status = .running) (hq : t.requeue = none)
    (he : t.error = none) (hfits : FitsAlarm maxRuntime) (hquiet : ¬c.RaisesBeforeLimit)
    (htold : c.Told env clock maxRuntime mode w tasks t) {e : Thrown}
    (hclean : NulFree (utf8Replaced e.text)) {o : Called} (hrun : c.run e = ⟨[], o⟩) {out : Outcome}
    (hout : (⟨c.statusAfter o, w.killedByDrain, w.drainTimeout, w.maxRssKb, none⟩ :
      ChildEnd).outcome w.elapsed = out) (hmsg : out.Clean) :
    c.Tells maxRuntime e (recordOutcome clock out t) := by
  have ho : (c.runEnd mode maxRuntime e w).outcome mode = some out := by
    rw [outcome_of_fits hfits (left_of_quiet hquiet e), childEnd_eq hrun]
    exact congrArg some hout
  refine htold e hclean _ ?_ rfl
  rw [recorded_eq ho]
  exact recorded_mem ht hs hq he hmsg

theorem tellable_of_told (ht : t ∈ tasks) (hs : t.status = .running) (hq : t.requeue = none)
    (he : t.error = none) (hw : w.Figures) (hfits : FitsAlarm maxRuntime)
    (hquiet : ¬c.RaisesBeforeLimit) (htold : c.Told env clock maxRuntime mode w tasks t) :
    c.Tellable := by
  let e : Thrown := .ofText []
  have hclean : NulFree (utf8Replaced e.text) := (by decide : NulFree (utf8Replaced []))
  have hrun := c.run_silent (quiet_ne_exception hquiet) e
  refine ⟨fun hraises => absurd hraises hquiet, fun _ o hlast hst => ?_, fun _ o hlast hst => ?_⟩
  · rw [hlast] at hrun
    have hmsg : (⟨.failed, some ("Timed out after " ++ w.elapsed ++ " s")⟩ : Outcome).Clean := by
      exact timedOut_clean hw.elapsed
    have htells := tells_of_told ht hs hq he hfits hquiet htold hclean hrun (outcome_timeout hst) hmsg
    rcases htells.timedOut _ (by simp [recordOutcome]) ⟨_, hw.elapsed, rfl⟩ with hlimit | halarm
    · exact .inr hlimit
    · rw [hrun] at halarm
      exact .inl halarm
  · rw [hlast] at hrun
    exact (tells_of_told ht hs hq he hfits hquiet htold hclean hrun (outcome_success hst)
      (Outcome.clean_none _)).completed rfl

end Told

section Paths

variable {Q : Type} {env : Env Q} {clock : Timestamptz} {maxRuntime : PyFloat} {calls : StartCalls}
  {claim : Claim} {db : Database Q} {t : Task Q} {tasks : Tasks Q}

theorem processOneOffTask_recorded (c : TaskRun) {e : Thrown} (w : Waited)
    (hstart : calls.start = .ok ()) (hclaim : claim.run db.tasks = some (t, tasks))
    (hfits : FitsAlarm (taskMaxRuntime maxRuntime t)) (hleft : c.left e = none) :
    (processOneOffTask calls (c.childEnd e w) env maxRuntime claim w.elapsed clock db).db.tasks =
      c.recorded env clock (taskMaxRuntime maxRuntime t) .sequential w tasks t e := by
  unfold processOneOffTask
  rw [recorded_eq (outcome_of_fits hfits hleft), ← Mode.claim, Mode.claim_eq, hclaim,
    executeClaimed_ok _ hstart, exceptOutcome_child]
  rfl

theorem claimAndForkOneOff_recorded (c : TaskRun) {e : Thrown} (w : Waited)
    (hstart : calls.start = .ok ()) (hclaim : claim.run db.tasks = some (t, tasks))
    (hfits : FitsAlarm (taskMaxRuntime maxRuntime t)) (hleft : c.left e = none) :
    ((claimAndForkOneOff calls env maxRuntime claim clock db).reap env (c.childEnd e w) w.elapsed
        clock).db.tasks =
      c.recorded env clock (taskMaxRuntime maxRuntime t) .concurrent w tasks t e := by
  rw [← oneOffPaths_agree_ok hstart, processOneOffTask_recorded c w hstart hclaim hfits hleft,
    recorded_eq (outcome_of_fits hfits hleft), recorded_eq (outcome_of_fits hfits hleft)]

end Paths

namespace TaskRun

variable (c : TaskRun)

def withoutPost : TaskRun := { c with postExecute := none }

def PostRaises : Prop := ∀ error, ∃ x, c.postEnding error = .raises x ∧ x.isException = true

theorem run_withoutPost (h : c.PostRaises) (e : Thrown) : c.withoutPost.run e = c.run e := by
  have hpost : c.withoutPost.post = c.post := by
    funext error
    obtain ⟨x, hx, hexc⟩ := h error
    rw [c.post_eq, hx]
    cases x with
    | baseException => cases hexc
    | timeoutError | exception => rfl
  unfold run
  rw [hpost]
  rfl

theorem runEnd_withoutPost (h : c.PostRaises) (mode : Mode) (maxRuntime : PyFloat) (e : Thrown)
    (w : Waited) : c.withoutPost.runEnd mode maxRuntime e w = c.runEnd mode maxRuntime e w := by
  have hleft : c.withoutPost.left e = c.left e := by
    unfold left
    rw [c.run_withoutPost h]
    rfl
  unfold runEnd childEnd status
  rw [hleft, c.run_withoutPost h]
  rfl

end TaskRun

section Outcomes

variable {P Q : Type} {stamp : P → ℕ → Q} {env : Env Q}

end Outcomes

section Sample

def raising (x : ExceptionClass) : TaskRun where
  preExecute := none
  handler := .function (.raises x)
  formatExc := .returns fun e => pyText "Traceback (most recent call last):\n" ++ e.typeName ++
    pyText ": " ++ e.text
  formatExc_header := by
    rintro _ ⟨⟩ e
    exact ⟨[], e.typeName ++ pyText ": " ++ e.text, by simp⟩
  postExecute := none
  write := .returns ()
  closePools := .returns ()
  escaped := .exited exitSuccess

def sampleWaited : Waited := ⟨"0.100", false, "20.0", "9000"⟩

theorem sampleWaited_figures : sampleWaited.Figures :=
  ⟨(by decide : Figure "0.100"), (by decide : Figure "20.0"), (by decide : Figure "9000")⟩

end Sample

end PostgresQueue
