import PostgresQueue.RunRefinement

namespace PostgresQueue

open Library System

def Contains (text part : String) : Prop := ∃ before after, text = before ++ part ++ after

def TimedOut (text : String) : Prop :=
  ∃ figure, Figure figure ∧ text = "Timed out after " ++ figure ++ " s"

structure TaskRun.Tells (c : TaskRun) (maxRuntime : PyFloat) (e : Thrown) {Q : Type} (q : Task Q) :
    Prop where
  raised : FitsAlarm maxRuntime → c.RaisesBeforeLimit → q.status = .failed ∧
    ∃ text, q.error = some text ∧ Contains text (utf8Replaced e.typeName) ∧
      Contains text (utf8Replaced e.text)
  timedOut : ∀ text, q.error = some text → TimedOut text → c.StoppedByLimit e
  completed : q.status = .completed → c.workEnding = .returns ()

structure TaskRun.Delivers (c : TaskRun) : Prop where
  exception : c.workEnding = .raises .exception
  traceback : ∃ errorTb, c.formatExc = .returns errorTb ∧
    ∀ e : Thrown, NulFree (utf8Replaced e.text) → NulFree (utf8Replaced (errorTb e))
  post : cutsOff (c.postEnding (some .exception)) = false
  write : c.write = .returns ()
  closePools : cutsOff c.closePools = true → (c.statusAfter c.closePools).ReportsError

structure TaskRun.Tellable (c : TaskRun) : Prop where
  raised : c.RaisesBeforeLimit → c.Delivers
  timeout : ¬c.RaisesBeforeLimit → ∀ o, c.lastCall = some o →
    c.statusAfter o = .exited exitTimeout → o = .exits .alarm ∨ c.ReachesLimit
  success : ¬c.RaisesBeforeLimit → ∀ o, c.lastCall = some o →
    c.statusAfter o = .exited exitSuccess → c.workEnding = .returns ()

section Text

theorem utf8Replaced_append (a b : PyText) :
    utf8Replaced (a ++ b) = utf8Replaced a ++ utf8Replaced b := by
  unfold utf8Replaced
  rw [List.map_append, String.ofList_append]

theorem utf8Replaced_pyText (s : String) : utf8Replaced (pyText s) = s := by
  unfold utf8Replaced pyText
  rw [List.map_map, Sum.elim_comp_inl, List.map_id, String.ofList_toList]

theorem rstrip_append (a : String) {b : String} {c : Char} (hc : c ∈ b.toList)
    (hs : isSpace c = false) : rstrip (a ++ b) = a ++ rstrip b := by
  have hne : (b.toList.reverse.dropWhile isSpace).isEmpty = false := by
    rw [List.isEmpty_eq_false_iff, ne_eq, List.dropWhile_eq_nil_iff]
    intro h
    have := h c (List.mem_reverse.mpr hc)
    simp [hs] at this
  unfold rstrip
  rw [String.toList_append, List.reverse_append, List.dropWhile_append, if_neg (by simp [hne]),
    List.reverse_append, List.reverse_reverse, String.ofList_append, String.ofList_toList]

theorem TaskRun.rstrip_message (c : TaskRun) {errorTb : Thrown → PyText}
    (h : c.formatExc = .returns errorTb) (e : Thrown) : rstrip (e.raised (errorTb e)).message =
      utf8Replaced e.typeName ++ ": " ++ utf8Replaced e.text ++ "\n" ++
        rstrip (utf8Replaced (errorTb e)) := by
  have ht : 'T' ∈ (utf8Replaced (errorTb e)).toList := by
    obtain ⟨before, after, h⟩ := c.formatExc_header errorTb h e
    rw [h, utf8Replaced_append, utf8Replaced_append, utf8Replaced_pyText]
    simp
  exact rstrip_append (utf8Replaced e.typeName ++ ": " ++ utf8Replaced e.text ++ "\n") ht (by decide)

theorem TimedOut.colon {text : String} (h : TimedOut text) : ':' ∉ text.toList := by
  obtain ⟨figure, hf, rfl⟩ := h
  have hcolon : ':' ∉ figure.toList := by
    intro hc
    rcases hf _ hc with hd | hm
    · exact absurd hd (by decide)
    · exact absurd hm (by decide)
  simp [hcolon]

theorem TimedOut.second {text : String} (h : TimedOut text) : text.toList[1]? = some 'i' := by
  obtain ⟨figure, hf, rfl⟩ := h
  simp

theorem TaskRun.message_not_timedOut (c : TaskRun) {errorTb : Thrown → PyText}
    (h : c.formatExc = .returns errorTb) (e : Thrown) :
    ¬TimedOut (rstrip (e.raised (errorTb e)).message) := by
  intro htimed
  have hcolon := htimed.colon
  rw [c.rstrip_message h e] at hcolon
  simp at hcolon

theorem contains_length {text part : String} (h : Contains text part) : part.length ≤ text.length := by
  obtain ⟨before, after, rfl⟩ := h
  simp only [String.length_append]
  omega

end Text

section Outcome

variable (elapsed : String) (r : ChildEnd)

def ChildEnd.outcome : Outcome := concurrentOutcome elapsed (waitResult r.exit)

theorem child_outcome (mode : Mode) :
    (RunEnd.child elapsed r.exit).outcome mode = some (r.outcome elapsed) := by
  cases mode with
  | sequential => exact exceptOutcome_child elapsed r
  | concurrent => rfl

variable {elapsed r}

theorem outcome_success (h : r.status = .exited exitSuccess) : r.outcome elapsed = ⟨.completed, none⟩ := by
  unfold ChildEnd.outcome waitResult ChildEnd.exit
  rw [h]
  rfl

theorem outcome_timeout (h : r.status = .exited exitTimeout) :
    r.outcome elapsed = ⟨.failed, some ("Timed out after " ++ elapsed ++ " s")⟩ := by
  unfold ChildEnd.outcome waitResult ChildEnd.exit
  rw [h]
  rfl

theorem outcome_reported {e : Raised} (h : r.status.ReportsError) (hsent : r.sent = some e) :
    r.outcome elapsed = ⟨.failed, some (rstrip e.message)⟩ := by
  have hne : e.message ≠ "" := by
    intro hm
    have hc : ':' ∈ e.message.toList := by simp [Raised.message]
    simp [hm] at hc
  unfold ChildEnd.outcome waitResult ChildEnd.exit
  cases hst : r.status with
  | signaled | other =>
    rw [hst] at h
    exact h.elim
  | exited code =>
    rw [hst] at h
    simp only [hsent, Option.elim_some, if_neg h.1, if_neg h.2, ne_eq, hne, not_false_eq_true,
      if_true]
    rfl

theorem outcome_unsent (hs : r.status ≠ .exited exitSuccess) (ht : r.status ≠ .exited exitTimeout)
    (hsent : r.sent = none) : ∃ text, r.outcome elapsed = ⟨.failed, some text⟩ ∧ ¬TimedOut text := by
  unfold ChildEnd.outcome waitResult ChildEnd.exit
  cases hst : r.status with
  | signaled signum =>
    dsimp only
    split_ifs
    · refine ⟨_, rfl, fun h => ?_⟩
      simpa using h.second
    · refine ⟨_, rfl, fun h => ?_⟩
      simpa using h.second
    · refine ⟨_, rfl, fun h => ?_⟩
      simpa using h.second
  | other =>
    refine ⟨_, rfl, fun h => ?_⟩
    simpa using h.second
  | exited code =>
    rw [hst] at hs ht
    have hs' : code ≠ exitSuccess := fun h => hs (congrArg _ h)
    have ht' : code ≠ exitTimeout := fun h => ht (congrArg _ h)
    simp only [hsent, Option.elim_none, if_neg hs', if_neg ht', ne_eq, not_true_eq_false, if_false]
    refine ⟨_, rfl, fun h => ?_⟩
    simpa using h.second

theorem outcome_of_not_reportsError {status : WaitStatus} (h : ¬status.ReportsError)
    (killedByDrain : Bool) (drainTimeout maxRssKb : String) (sent sent' : Option Raised) :
    (⟨status, killedByDrain, drainTimeout, maxRssKb, sent⟩ : ChildEnd).outcome elapsed =
      (⟨status, killedByDrain, drainTimeout, maxRssKb, sent'⟩ : ChildEnd).outcome elapsed := by
  unfold ChildEnd.outcome waitResult ChildEnd.exit
  cases status with
  | signaled | other => rfl
  | exited code =>
    dsimp only
    by_cases hs : code = exitSuccess
    · rw [if_pos hs, if_pos hs]
    · have ht : code = exitTimeout := by
        by_contra ht
        exact h ⟨hs, ht⟩
      rw [if_neg hs, if_neg hs, if_pos ht, if_pos ht]

end Outcome

section Row

variable {P Q : Type} {env : Env Q} {clock : Timestamptz} {o : Outcome} {tasks : Tasks Q} {t : Task Q}

theorem recorded_row (ht : t ∈ tasks) (hs : t.status = .running) (hq : t.requeue = none)
    (he : t.error = none) {q : Task Q}
    (hm : q ∈ finishOneOff env clock t.id t.startedAt o tasks) (hid : q.id = t.id) :
    (o.Clean ∧ q = recordOutcome clock o t) ∨ (¬o.Clean ∧ q = t) := by
  have hclean := storable_recordOutcome he clock o
  rw [finishOneOff_record (find?_running ht hs) hq] at hm
  split_ifs at hm with hstore
  · have hrep : tasks.Replaces t (recordOutcome clock o t) (flush (recordOutcome clock o t) tasks) :=
      flush_replaces ht rfl rfl
    exact .inl ⟨hclean.mp hstore, Table.eq_of_key _ hm hrep.mem_new hid⟩
  · exact .inr ⟨fun h => hstore (hclean.mpr h), tasks.eq_of_key hm ht hid⟩

theorem recorded_mem (ht : t ∈ tasks) (hs : t.status = .running) (hq : t.requeue = none)
    (he : t.error = none) (ho : o.Clean) :
    recordOutcome clock o t ∈ finishOneOff env clock t.id t.startedAt o tasks := by
  rw [finishOneOff_record (find?_running ht hs) hq,
    if_pos ((storable_recordOutcome he clock o).mpr ho)]
  have hrep : tasks.Replaces t (recordOutcome clock o t) (flush (recordOutcome clock o t) tasks) :=
    flush_replaces ht rfl rfl
  exact hrep.mem_new

theorem recorded_same (ht : t ∈ tasks) (hs : t.status = .running) (hq : t.requeue = none)
    (he : t.error = none) (ho : ¬o.Clean) :
    t ∈ finishOneOff env clock t.id t.startedAt o tasks := by
  rw [finishOneOff_record (find?_running ht hs) hq,
    if_neg (fun h => ho ((storable_recordOutcome he clock o).mp h))]
  exact ht

end Row

end PostgresQueue
