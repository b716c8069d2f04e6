import PostgresQueue.ErrorPipe
import PostgresQueue.RecordedOutcome

namespace PostgresQueue

open Library

namespace ChildWait

def Alone (_ : ChildWait) : WaitEvent → Prop
  | .inherits _ => False
  | _ => True

instance (s : ChildWait) (e : WaitEvent) : Decidable (s.Alone e) := by
  cases e <;> unfold Alone <;> infer_instance

structure Intact (message : List UInt8) (s : ChildWait) : Prop where
  alone : s.others = []
  sent : s.sent ++ s.unwritten = message
  finished : ∀ code, s.child = .finished code → s.unwritten = []
  carries : s.pipe.Carries s.sent s.errorBytes

variable {drain : DrainTimeout ℚ} {message : List UInt8} {s t : ChildWait} {e : WaitEvent}

theorem Intact.childWrites {n : ℕ} (h : s.Intact message) (he : s.childWrites n = some t) :
    t.Intact message := by
  unfold ChildWait.childWrites at he
  split_ifs at he with hn
  obtain ⟨pipe, hpipe, rfl⟩ := Option.map_eq_some_iff.mp he
  refine ⟨h.alone, ?_, fun code hcode => ?_, h.carries.write hpipe⟩
  · rw [List.append_assoc, List.take_append_drop, h.sent]
  · rw [hcode] at hn
    cases hn.1

theorem Intact.osRead {limit n : ℕ} {more atEnd : ReadPc} (h : s.Intact message)
    (he : s.osRead limit n more atEnd = some t) : t.Intact message := by
  rcases osRead_cases he with ⟨-, -, rfl⟩ | ⟨-, -, -, rfl⟩
  · exact ⟨h.alone, h.sent, h.finished, h.carries⟩
  · exact ⟨h.alone, h.sent, h.finished, h.carries.read n⟩

theorem Intact.step (h : s.Intact message) (hg : s.Alone e) (he : s.step drain e = some t) :
    t.Intact message := by
  cases e with
  | signal e =>
    obtain ⟨signals, -, rfl⟩ := Option.map_eq_some_iff.mp he
    exact ⟨h.alone, h.sent, h.finished, h.carries⟩
  | childWrites n => exact h.childWrites he
  | childCloses =>
    simp only [ChildWait.step] at he
    split_ifs at he
    cases he
    refine ⟨h.alone, h.sent, fun code hcode => ?_, h.carries⟩
    cases hcode
  | childFinishes code =>
    simp only [ChildWait.step] at he
    split_ifs at he with hn
    cases he
    exact ⟨h.alone, h.sent, fun _ _ => hn.2, h.carries⟩
  | childDies status =>
    simp only [ChildWait.step] at he
    split_ifs at he
    cases he
    refine ⟨h.alone, h.sent, fun code hcode => ?_, h.carries⟩
    cases hcode
  | inherits pid => cases hg
  | closes pid =>
    cases he
    exact ⟨by simp [h.alone], h.sent, h.finished, h.carries⟩
  | otherWrites bytes =>
    simp only [ChildWait.step] at he
    split_ifs at he with hn
    exact absurd h.alone hn
  | next =>
    obtain ⟨pc, killed, rfl⟩ := next_cases (own_next he).2
    exact ⟨h.alone, h.sent, h.finished, h.carries⟩
  | reads n =>
    rcases reads_cases (own_reads he).2 with ⟨-, he⟩ | ⟨-, he⟩
    · exact h.osRead he
    · exact h.osRead he

theorem Intact.init (capacity : ℕ) (pos : 0 < capacity) (message : List UInt8) (start : ℚ) :
    (ChildWait.init capacity pos message start).Intact message :=
  ⟨rfl, rfl, nofun, Pipe.Carries.init capacity pos⟩

def Blocked (s : ChildWait) : Prop := s.child.writes = true ∧ s.unwritten ≠ [] ∧ s.pipe.room = 0

def ComesToRead (drain : DrainTimeout ℚ) (s : ChildWait) : Prop :=
  ∃ t, Relation.ReflTransGen (Proceeds drain) s t ∧ t.pc = .read ∧ t.pipe = s.pipe ∧
    t.signals.handlers = []

structure Fed (s : ChildWait) : Prop where
  handlers : s.signals.handlers = []
  running : s.child.status = none
  content : s.pipe.content ≠ []

theorem Fed.comes (h : s.Fed) (pc : ReadPc) (killed : Bool)
    (he : s.next = some { s with pc := pc, killedByDrain := killed })
    (hnext : Fed { s with pc := pc, killedByDrain := killed } →
      ComesToRead drain { s with pc := pc, killedByDrain := killed }) : s.ComesToRead drain := by
  obtain ⟨t, hsteps, hpc, hpipe, hhandlers⟩ := hnext ⟨h.handlers, h.running, h.content⟩
  refine ⟨t, hsteps.head (.inr ?_), hpc, hpipe, hhandlers⟩
  simp only [step, h.handlers, List.isEmpty_nil, if_true]
  exact he

theorem Fed.select {timeout : ℚ} (h : s.Fed) (hpc : s.pc = .select timeout) :
    s.ComesToRead drain := by
  refine h.comes .read s.killedByDrain ?_ fun hfed =>
    ⟨_, .refl, rfl, rfl, hfed.handlers⟩
  have hr : s.Readable := .inl h.content
  simp only [next, hpc, hr, if_true]

theorem Fed.timeout (h : s.Fed) (hpc : s.pc = .timeout) : s.ComesToRead drain := by
  refine h.comes (.select (selectTimeout s.signals)) s.killedByDrain ?_
    fun hfed => hfed.select rfl
  simp only [next, hpc]

theorem Fed.kill (h : s.Fed) (hpc : s.pc = .kill) : s.ComesToRead drain := by
  refine h.comes .timeout true ?_ fun hfed => hfed.timeout rfl
  simp only [next, hpc]

theorem Fed.deadline (h : s.Fed) (hpc : s.pc = .deadline) : s.ComesToRead drain := by
  by_cases hpassed : Main.deadlinePassed s.signals = true
  · refine h.comes .kill s.killedByDrain ?_ fun hfed => hfed.kill rfl
    simp only [next, hpc, hpassed, if_true]
  · refine h.comes .timeout s.killedByDrain ?_ fun hfed => hfed.timeout rfl
    simp [next, hpc, hpassed]

theorem Fed.requested (h : s.Fed) (hpc : s.pc = .requested) : s.ComesToRead drain := by
  by_cases hr : (!s.killedByDrain && s.signals.requested) = true
  · refine h.comes .deadline s.killedByDrain ?_ fun hfed => hfed.deadline rfl
    simp only [next, hpc, hr, if_true]
  · refine h.comes .timeout s.killedByDrain ?_ fun hfed => hfed.timeout rfl
    simp [next, hpc, hr]

theorem Fed.poll (h : s.Fed) (hpc : s.pc = .poll) : s.ComesToRead drain := by
  refine h.comes .requested s.killedByDrain ?_ fun hfed => hfed.requested rfl
  simp [next, hpc, h.running]

theorem Fed.comesToRead (drain : DrainTimeout ℚ) (h : s.Fed) (hw : s.Waits) : s.ComesToRead drain := by
  have hrunning : ¬s.child.status.isSome := by simp [h.running]
  cases hpc : s.pc with
  | poll => exact h.poll hpc
  | requested => exact h.requested hpc
  | deadline => exact h.deadline hpc
  | kill => exact h.kill hpc
  | timeout => exact h.timeout hpc
  | select timeout => exact h.select hpc
  | read => exact ⟨s, .refl, hpc, rfl, h.handlers⟩
  | drain => exact absurd (hw.ended (.inl hpc)) hrunning
  | returned => exact absurd (hw.ended (.inr hpc)) hrunning

theorem comesToRead (drain : DrainTimeout ℚ) (hw : s.Waits) (hrunning : s.child.status = none)
    (hcontent : s.pipe.content ≠ []) : s.ComesToRead drain := by
  obtain ⟨signals, hruns, hnil⟩ := s.signals.handlers_end drain
  have hfed : Fed { s with signals := signals } := ⟨hnil, hrunning, hcontent⟩
  obtain ⟨t, hsteps, ht⟩ := hfed.comesToRead drain
    ⟨hw.ended, hw.readable, hw.selects, hw.drained⟩
  exact ⟨t, (proceeds_handlers hruns).trans hsteps, ht⟩

theorem read_makes_room {n : ℕ} (hpc : s.pc = .read) (hhandlers : s.signals.handlers = [])
    (hn : 1 ≤ n) (hlimit : n ≤ 65536) (hlength : n ≤ s.pipe.content.length) :
    ∃ t, s.step drain (.reads n) = some t ∧ n ≤ t.pipe.room := by
  have hfits := s.pipe.fits
  have he : s.step drain (.reads n) = s.osRead 65536 n .poll .poll := by
    simp only [step, hhandlers, List.isEmpty_nil, if_true, reads, hpc]
  refine ⟨_, he.trans (osRead_some hn hlimit hlength), ?_⟩
  simp only [Pipe.room, Pipe.read, List.length_drop]
  omega

def NextPollReads (drain : DrainTimeout ℚ) (s : ChildWait) : Prop :=
  ∃ t, Relation.ReflTransGen (Proceeds drain) s t ∧ t.pc = .read ∧ t.pipe = s.pipe ∧
    t.pipe.content ≠ [] ∧ ∀ n, 1 ≤ n → n ≤ 65536 → n ≤ t.pipe.content.length →
      ∃ u, t.step drain (.reads n) = some u ∧ n ≤ u.pipe.room

theorem Blocked.nextPollReads (h : s.Blocked) (hw : s.Waits) : s.NextPollReads drain := by
  have hcontent := Pipe.content_ne_nil h.2.2
  obtain ⟨t, hsteps, hpc, hpipe, hhandlers⟩ :=
    comesToRead drain hw (writes_running h.1) hcontent
  refine ⟨t, hsteps, hpc, hpipe, by rwa [hpipe], fun n hn hlimit hlength => ?_⟩
  exact read_makes_room hpc hhandlers hn hlimit hlength

def Stores (s : ChildWait) (text : String) : Prop :=
  ∀ mode elapsed drainTimeout maxRssKb code, s.child = .finished code → code ≠ exitSuccess →
    code ≠ exitTimeout → (RunEnd.child elapsed
      ⟨.exited code, s.killedByDrain, drainTimeout, maxRssKb, s.errorText⟩).outcome mode =
        some ⟨.failed, some text⟩

end ChildWait

/-- `text.encode("utf-8", errors="replace")`. -/
def encodeReplace (text : PyText) : List UInt8 :=
  Utf8.encode (text.map (Sum.elim id fun _ => '?'))

/-- `error_msg` of `_run_in_child`. -/
def Thrown.errorMsg (e : Thrown) (errorTb : PyText) : PyText :=
  e.typeName ++ pyText ": " ++ e.text ++ pyText "\n" ++ errorTb

theorem decodeReplace_encodeReplace (text : PyText) :
    Utf8.decodeReplace (encodeReplace text) = utf8Replaced text :=
  Utf8.decodeReplace_encode _

theorem Thrown.errorMsg_crosses (e : Thrown) (errorTb : PyText) :
    Utf8.decodeReplace (encodeReplace (e.errorMsg errorTb)) = (e.raised errorTb).message := by
  simp only [decodeReplace_encodeReplace, errorMsg, utf8Replaced_append, utf8Replaced_pyText]
  rfl

theorem waitResult_error {code : ℕ} (hsuccess : code ≠ exitSuccess) (htimeout : code ≠ exitTimeout)
    {text : String} (htext : text ≠ "") (killed : Bool) (drainTimeout maxRssKb : String) :
    waitResult ⟨.exited code, killed, drainTimeout, maxRssKb, text⟩ =
      ⟨.failed, some (rstrip text), .error⟩ := by
  simp only [waitResult, hsuccess, htimeout, if_false, htext, ne_eq, not_false_eq_true, if_true]

theorem reported_outcome (mode : Mode) (elapsed : String) {e : ChildExit} {text : String}
    (h : waitResult e = ⟨.failed, some text, .error⟩) (htext : text ≠ "") :
    (RunEnd.child elapsed e).outcome mode = some ⟨.failed, some text⟩ := by
  cases mode with
  | sequential =>
    change exceptOutcome elapsed (executeInFork (waitResult e)) = _
    rw [h]
    simp [executeInFork, orDefault, htext, exceptOutcome]
  | concurrent =>
    change some (concurrentOutcome elapsed (waitResult e)) = _
    rw [h]
    rfl

section Transfer

variable {drain : DrainTimeout ℚ} {capacity : ℕ} {pos : 0 < capacity} {message : List UInt8}
  {start : ℚ} {s : ChildWait}

theorem childWait_intact
    (h : (childWait drain capacity pos message start).Reachable ChildWait.Alone s) :
    s.Intact message := by
  apply h.invariant (ChildWait.Intact.init capacity pos message start)
  intro s e t hi hg he
  exact hi.step hg he

theorem returned_complete
    (h : (childWait drain capacity pos message start).Reachable ChildWait.Alone s)
    (hpc : s.pc = .returned) : s.errorBytes = s.sent :=
  (childWait_intact h).carries.complete ((childWait_waits h).drained hpc).1

theorem finished_complete
    (h : (childWait drain capacity pos message start).Reachable ChildWait.Alone s)
    (hpc : s.pc = .returned) {code : ℕ} (hcode : s.child = .finished code) :
    s.errorBytes = message := by
  have hi := childWait_intact h
  rw [returned_complete h hpc, ← hi.sent, hi.finished code hcode, List.append_nil]

theorem finished_stores
    (h : (childWait drain capacity pos message start).Reachable ChildWait.Alone s)
    (hpc : s.pc = .returned) {e : Thrown} {errorTb : PyText}
    (hmessage : message = encodeReplace (e.errorMsg errorTb)) :
    s.Stores (rstrip (e.raised errorTb).message) := by
  intro mode elapsed drainTimeout maxRssKb code hcode hsuccess htimeout
  have htext : s.errorText = (e.raised errorTb).message := by
    rw [ChildWait.errorText, finished_complete h hpc hcode, hmessage, e.errorMsg_crosses errorTb]
  have hstripped := (e.raised errorTb).rstrip_message
  have hne : s.errorText ≠ "" := by
    rw [htext]
    exact fun hempty => hstripped (by rw [hempty]; rfl)
  refine reported_outcome mode elapsed ?_ hstripped
  rw [waitResult_error hsuccess htimeout hne, htext]

/-- Whatever the capacity, the chunks and the schedule: what is collected, in the pipe and not yet
written make up the message; a wait that returns has collected all that the child wrote, and its
result is the decoded message; a child that is stuck in its write is read from. -/
theorem error_text_intact
    (h : (childWait drain capacity pos message start).Reachable ChildWait.Alone s) :
    s.errorBytes ++ s.pipe.content = s.sent ∧ s.sent ++ s.unwritten = message ∧
    (s.pc = .returned → s.errorBytes = s.sent) ∧
    (∀ code, s.pc = .returned → s.child = .finished code → s.errorBytes = message ∧
      (message ≠ [] → code ≠ exitSuccess → code ≠ exitTimeout → ∀ drainTimeout maxRssKb,
        waitResult ⟨.exited code, s.killedByDrain, drainTimeout, maxRssKb, s.errorText⟩ =
          ⟨.failed, some (rstrip (Utf8.decodeReplace message)), .error⟩)) ∧
    (∀ e errorTb, s.pc = .returned → message = encodeReplace (Thrown.errorMsg e errorTb) →
      s.Stores (rstrip (e.raised errorTb).message)) ∧
    (s.Blocked → s.NextPollReads drain) := by
  have hi := childWait_intact h
  refine ⟨hi.carries, hi.sent, returned_complete h, ?_, ?_, ?_⟩
  · intro code hpc hcode
    have hbytes := finished_complete h hpc hcode
    refine ⟨hbytes, fun hne hsuccess htimeout drainTimeout maxRssKb => ?_⟩
    have htext : s.errorText = Utf8.decodeReplace message := by rw [ChildWait.errorText, hbytes]
    rw [htext]
    exact waitResult_error hsuccess htimeout (Utf8.decodeReplace_ne_empty hne) _ _ _
  · intro e errorTb hpc hmessage
    exact finished_stores h hpc hmessage
  · intro hblocked
    exact hblocked.nextPollReads (childWait_waits h)

end Transfer

section Sample

/-- `"Eé: €"`. -/
def sampleMessage : List UInt8 := [0x45, 0xC3, 0xA9, 0x3A, 0x20, 0xE2, 0x82, 0xAC]

def sampleTransfer : List WaitEvent :=
  [.childWrites 4, .next, .next, .next, .next, .reads 2, .childWrites 2, .next, .next, .next, .next,
    .reads 4, .childWrites 2, .childFinishes 1, .next, .reads 1, .reads 1, .reads 0]

def sampleWait : ChildWait :=
  (childWait idleDrain 4 (by decide) sampleMessage 0).run ChildWait.Alone sampleTransfer

theorem error_text_intact_split : sampleWait.pc = .returned ∧ sampleWait.child = .finished 1 ∧
    sampleWait.errorBytes = sampleMessage ∧
    waitResult ⟨.exited 1, sampleWait.killedByDrain, "20", "9000", sampleWait.errorText⟩ =
      ⟨.failed, some "Eé: €", .error⟩ := by
  have hreached : (childWait idleDrain 4 (by decide) sampleMessage 0).Reachable ChildWait.Alone
      sampleWait := .of_run (by decide +kernel)
  have hpc : sampleWait.pc = .returned := by decide +kernel
  have hchild : sampleWait.child = .finished 1 := by decide +kernel
  obtain ⟨-, -, -, hfinished, -, -⟩ := error_text_intact hreached
  obtain ⟨hbytes, hresult⟩ := hfinished 1 hpc hchild
  refine ⟨hpc, hchild, hbytes, ?_⟩
  rw [hresult (by decide) (by decide) (by decide)]
  decide +kernel

end Sample

end PostgresQueue
