import PostgresQueue.ErrorPipe

namespace PostgresQueue

open Library

/-- Where the wait stands in the loops of the worker, which leave out the reads. -/
def ReadPc.inLoop : ReadPc → Option WaitPc
  | .poll | .drain => some .poll
  | .requested => some .requested
  | .deadline => some .deadline
  | .kill => some .kill
  | .timeout | .select _ | .read => some .select
  | .returned => none

structure Waiting (slot : LoopSlot) (after : After) (s : ChildWait) (w : Worker ℚ) : Prop where
  signals : w.signals = s.signals
  pc : ∃ wpc, s.pc.inLoop = some wpc ∧ w.main.pc = .wait slot wpc s.killedByDrain after
  child : ∃ c, w.main.os.child? slot.pid = some c ∧ c.status = s.child.status
  opened : slot.readFd ∈ w.main.os.openFds

structure HandedBack (after : After) (s : ChildWait) (w : Worker ℚ) : Prop where
  pc : s.pc = .returned
  resumes : w.main.pc = After.pc after
  reaped : ∃ earlier child exit, w.main.log.reaped = earlier ++ [(child, exit)] ∧
    s.child.status = some exit.status ∧ exit.killedByDrain = s.killedByDrain ∧
    exit.errorText = s.errorText

section Steps

variable {cfg : WorkerConfig} {drain : DrainTimeout ℚ} {start : ℚ} {slot : LoopSlot} {after : After}
  {capacity : ℕ} {message : List UInt8} {started : ℚ} {s t : ChildWait} {w : Worker ℚ}

theorem wait_step {m m' : Main ℚ} {signals : Signals ℚ} {wpc : WaitPc} {killed : Bool} {i : Input}
    (hpc : m.pc = .wait slot wpc killed after)
    (he : m.waitForChild cfg signals slot killed after wpc i = some m') :
    m.step cfg signals i = some m' := by
  unfold Main.step Main.sequentialStep Main.concurrentStep
  cases cfg.mode with
  | sequential => simpa only [Main.onceStep, hpc] using he
  | concurrent => simpa only [hpc] using he

theorem Waiting.main_step (h : Waiting slot after s w) (hhandlers : s.signals.handlers.isEmpty)
    {wpc : WaitPc} (hpc : w.main.pc = .wait slot wpc s.killedByDrain after) {i : Input} {m : Main ℚ}
    (he : w.main.waitForChild cfg s.signals slot s.killedByDrain after wpc i = some m) :
    (runWorker cfg drain start).step w (.main i) = some { w with main := m } := by
  have hstep := wait_step hpc he
  rw [← h.signals] at hhandlers hstep
  simp only [runWorker, hhandlers, if_true, hstep, Option.map_some]

theorem Waiting.of_step (h : Waiting slot after s w) (hhandlers : s.signals.handlers.isEmpty)
    {wpc wpc' : WaitPc} (hw : w.main.pc = .wait slot wpc s.killedByDrain after) {i : Input}
    {m : Main ℚ} (he : w.main.waitForChild cfg s.signals slot s.killedByDrain after wpc i = some m)
    {pc : ReadPc} (hpc : pc.inLoop = some wpc') {killed : Bool}
    (hm : m.pc = .wait slot wpc' killed after) (hos : m.os = w.main.os) :
    ∃ es w', (runWorker cfg drain start).Steps System.free w es w' ∧
      Waiting slot after { s with pc := pc, killedByDrain := killed } w' := by
  refine ⟨[.main i], { w with main := m }, .cons trivial (h.main_step hhandlers hw he) (.nil _), ?_⟩
  refine ⟨h.signals, ⟨wpc', hpc, hm⟩, ?_, ?_⟩
  · rw [hos]
    exact h.child
  · rw [hos]
    exact h.opened

theorem Waiting.of_same (h : Waiting slot after s w) {pc : ReadPc} (hpc : pc.inLoop = s.pc.inLoop) :
    ∃ es w', (runWorker cfg drain start).Steps System.free w es w' ∧
      Waiting slot after { s with pc := pc } w' := by
  obtain ⟨wpc, hwpc, hw⟩ := h.pc
  exact ⟨[], w, .nil w, h.signals, ⟨wpc, hpc.trans hwpc, hw⟩, h.child, h.opened⟩

theorem Waiting.at_pc (h : Waiting slot after s w) (wpc : WaitPc) (hpc : s.pc.inLoop = some wpc) :
    w.main.pc = .wait slot wpc s.killedByDrain after := by
  obtain ⟨wpc', hwpc, hw⟩ := h.pc
  rw [hpc, Option.some.injEq] at hwpc
  subst hwpc
  exact hw

theorem Waiting.next (h : Waiting slot after s w) (hhandlers : s.signals.handlers.isEmpty)
    (he : s.next = some t) :
    ∃ es w', (runWorker cfg drain start).Steps System.free w es w' ∧ Waiting slot after t w' := by
  unfold ChildWait.next at he
  split at he
  · rename_i hpc
    have hw := h.at_pc .poll (by rw [hpc]; rfl)
    obtain ⟨c, hc, hstatus⟩ := h.child
    cases he
    cases hended : s.child.status with
    | some status => exact h.of_same (by rw [hpc]; rfl)
    | none =>
      have hrun : w.main.waitForChild cfg s.signals slot s.killedByDrain after .poll
          (.wait4 ⟨"", "", ""⟩) = some (w.main.goto (.wait slot .requested s.killedByDrain after)) := by
        simp only [Main.waitForChild, hc, hstatus, hended]
      exact h.of_step hhandlers hw hrun rfl rfl rfl
  · rename_i hpc
    have hw := h.at_pc .requested (by rw [hpc]; rfl)
    cases he
    refine h.of_step hhandlers hw (i := .next) rfl ?_ rfl rfl
    split_ifs <;> rfl
  · rename_i hpc
    have hw := h.at_pc .deadline (by rw [hpc]; rfl)
    cases he
    refine h.of_step hhandlers hw (i := .next) rfl ?_ rfl rfl
    split_ifs <;> rfl
  · rename_i hpc
    have hw := h.at_pc .kill (by rw [hpc]; rfl)
    cases he
    exact h.of_step hhandlers hw (i := .next) rfl rfl rfl rfl
  · rename_i hpc
    cases he
    exact h.of_same (by rw [hpc]; rfl)
  · rename_i hpc
    have hw := h.at_pc .select (by rw [hpc]; rfl)
    cases he
    split_ifs
    · exact h.of_same (by rw [hpc]; rfl)
    · exact h.of_step hhandlers hw (i := .next) rfl rfl rfl rfl
  all_goals cases he

theorem Waiting.of_pipe (h : Waiting slot after s w) (pipe : Pipe UInt8) (errorBytes : List UInt8) :
    Waiting slot after { s with pipe := pipe, errorBytes := errorBytes } w :=
  ⟨h.signals, h.pc, h.child, h.opened⟩

theorem Waiting.read (h : Waiting slot after s w) (hhandlers : s.signals.handlers.isEmpty)
    (hpc : s.pc = .read) (pipe : Pipe UInt8) (errorBytes : List UInt8) :
    ∃ es w', (runWorker cfg drain start).Steps System.free w es w' ∧
      Waiting slot after { s with pipe := pipe, errorBytes := errorBytes, pc := .poll } w' := by
  have hw := h.at_pc .select (by rw [hpc]; rfl)
  have hrun : w.main.waitForChild cfg s.signals slot s.killedByDrain after .select .next =
      some (w.main.goto (.wait slot .poll s.killedByDrain after)) := rfl
  obtain ⟨es, w', hes, hw'⟩ := h.of_step hhandlers hw hrun
    (show ReadPc.poll.inLoop = some .poll from rfl) rfl rfl
  exact ⟨es, w', hes, hw'.of_pipe pipe errorBytes⟩

theorem Waiting.returns (h : Waiting slot after s w) (hw : s.Waits)
    (hhandlers : s.signals.handlers.isEmpty) (hpc : s.pc = .drain) :
    ∃ es w', (runWorker cfg drain start).Steps System.free w es w' ∧
      HandedBack after { s with pc := .returned } w' := by
  have hmain := h.at_pc .poll (by rw [hpc]; rfl)
  obtain ⟨c, hc, hstatus⟩ := h.child
  obtain ⟨status, hended⟩ := Option.isSome_iff_exists.mp (hw.ended (.inl hpc))
  have hrun : w.main.waitForChild cfg s.signals slot s.killedByDrain after .poll
      (.wait4 ⟨"", s.errorText, ""⟩) = some ((w.main.reap cfg slot c status s.killedByDrain
        ⟨"", s.errorText, ""⟩).goto (After.pc after)) := by
    simp only [Main.waitForChild, hc, hstatus, hended, h.opened, if_true]
  refine ⟨_, _, .cons trivial (h.main_step hhandlers hmain hrun) (.nil _), rfl, rfl, ?_⟩
  exact ⟨w.main.log.reaped, c.child, _, rfl, hended, rfl, rfl⟩

theorem Waiting.reads (h : Waiting slot after s w) (hw : s.Waits)
    (hhandlers : s.signals.handlers.isEmpty) {n : ℕ} (he : s.reads n = some t) :
    ∃ es w', (runWorker cfg drain start).Steps System.free w es w' ∧
      (Waiting slot after t w' ∨ HandedBack after t w') := by
  rcases ChildWait.reads_cases he with ⟨hpc, he⟩ | ⟨hpc, he⟩
  · rcases ChildWait.osRead_cases he with ⟨-, -, rfl⟩ | ⟨-, -, -, rfl⟩
    · obtain ⟨es, w', hes, hw'⟩ := h.read hhandlers hpc s.pipe s.errorBytes
      exact ⟨es, w', hes, .inl hw'⟩
    · obtain ⟨es, w', hes, hw'⟩ := h.read hhandlers hpc (s.pipe.read n).2
        (s.errorBytes ++ (s.pipe.read n).1)
      exact ⟨es, w', hes, .inl hw'⟩
  · rcases ChildWait.osRead_cases he with ⟨-, -, rfl⟩ | ⟨-, -, -, rfl⟩
    · obtain ⟨es, w', hes, hw'⟩ := h.returns hw hhandlers hpc
      exact ⟨es, w', hes, .inr hw'⟩
    · obtain ⟨es, w', hes, hw'⟩ := h.of_same
        (show ReadPc.drain.inLoop = s.pc.inLoop by rw [hpc])
      exact ⟨es, w', hes, .inl (hw'.of_pipe (s.pipe.read n).2 (s.errorBytes ++ (s.pipe.read n).1))⟩

theorem child?_ends (os : Os) (pid : ℕ) (status : WaitStatus) :
    (os.ends pid status).child? pid = (os.child? pid).map fun c =>
      if c.pid = pid ∧ c.status = none then { c with status := some status } else c := by
  unfold Os.child? Os.ends
  rw [List.find?_map]
  congr 2
  funext c
  simp only [Function.comp_apply]
  split_ifs <;> rfl

theorem Waiting.ends (h : Waiting slot after s w) (hrunning : s.child.status = none)
    {child : PipeChild} {status : WaitStatus} (hchild : child.status = some status) :
    Waiting slot after { s with child := child }
      { w with main.os := w.main.os.ends slot.pid status } := by
  obtain ⟨c, hc, hstatus⟩ := h.child
  have hpid : c.pid = slot.pid := by simpa using List.find?_some hc
  refine ⟨h.signals, h.pc, ⟨{ c with status := some status }, ?_, hchild.symm⟩, h.opened⟩
  rw [child?_ends, hc, Option.map_some, if_pos ⟨hpid, hstatus.trans hrunning⟩]

theorem Waiting.of_hidden (h : Waiting slot after s w) (hsignals : t.signals = s.signals)
    (hpc : t.pc = s.pc) (hkilled : t.killedByDrain = s.killedByDrain)
    (hstatus : t.child.status = s.child.status) :
    ∃ es w', (runWorker cfg drain start).Steps System.free w es w' ∧ Waiting slot after t w' := by
  refine ⟨[], w, .nil w, h.signals.trans hsignals.symm, ?_, ?_, h.opened⟩
  · rw [hpc, hkilled]
    exact h.pc
  · rw [hstatus]
    exact h.child

theorem Waiting.outside {e : WaitEvent} (h : Waiting slot after s w)
    (he : s.step drain e = some t) (hown : e.own = false) :
    ∃ es w', (runWorker cfg drain start).Steps System.free w es w' ∧ Waiting slot after t w' := by
  cases e with
  | signal e =>
    obtain ⟨signals, hsignals, rfl⟩ := Option.map_eq_some_iff.mp he
    have hstep : (runWorker cfg drain start).step w (.signal e) =
        some { w with signals := signals } := by
      simp only [runWorker, h.signals, hsignals, Option.map_some]
    exact ⟨[.signal e], _, .cons trivial hstep (.nil _), rfl, h.pc, h.child, h.opened⟩
  | childWrites n =>
    simp only [ChildWait.step, ChildWait.childWrites] at he
    split_ifs at he
    obtain ⟨pipe, -, rfl⟩ := Option.map_eq_some_iff.mp he
    exact h.of_hidden rfl rfl rfl rfl
  | childCloses =>
    simp only [ChildWait.step] at he
    split_ifs at he with hc
    cases he
    exact h.of_hidden rfl rfl rfl (ChildWait.writes_running hc.1).symm
  | childFinishes code =>
    simp only [ChildWait.step] at he
    split_ifs at he with hc
    cases he
    exact ⟨[.childEnds slot.pid (.exited code)], _, .cons trivial rfl (.nil _), h.ends hc.1 rfl⟩
  | childDies status =>
    simp only [ChildWait.step] at he
    split_ifs at he with hc
    cases he
    exact ⟨[.childEnds slot.pid status], _, .cons trivial rfl (.nil _), h.ends hc rfl⟩
  | inherits pid =>
    simp only [ChildWait.step] at he
    split_ifs at he
    cases he
    exact h.of_hidden rfl rfl rfl rfl
  | closes pid =>
    cases he
    exact h.of_hidden rfl rfl rfl rfl
  | otherWrites bytes =>
    simp only [ChildWait.step] at he
    split_ifs at he
    obtain ⟨pipe, -, rfl⟩ := Option.map_eq_some_iff.mp he
    exact h.of_hidden rfl rfl rfl rfl
  | next => cases hown
  | reads n => cases hown

theorem Waiting.step {e : WaitEvent} (h : Waiting slot after s w) (hw : s.Waits)
    (he : s.step drain e = some t) :
    ∃ es w', (runWorker cfg drain start).Steps System.free w es w' ∧
      (Waiting slot after t w' ∨ HandedBack after t w') := by
  rcases ChildWait.step_cases he with ⟨hown, -⟩ | ⟨hhandlers, ⟨-, hnext⟩ | ⟨n, -, hreads⟩⟩
  · obtain ⟨es, w', hes, hw'⟩ := h.outside he hown
    exact ⟨es, w', hes, .inl hw'⟩
  · obtain ⟨es, w', hes, hw'⟩ := h.next hhandlers hnext
    exact ⟨es, w', hes, .inl hw'⟩
  · exact h.reads hw hhandlers hreads

theorem HandedBack.step {e : WaitEvent} (h : HandedBack after s w) (hw : s.Waits)
    (he : s.step drain e = some t) : HandedBack after t w := by
  have ho : ChildWait.Outside s t := by
    rcases ChildWait.step_cases he with ⟨-, ho⟩ | ⟨-, ⟨-, hnext⟩ | ⟨n, -, hreads⟩⟩
    · exact ho
    · simp only [ChildWait.next, h.pc] at hnext
      cases hnext
    · simp only [ChildWait.reads, h.pc] at hreads
      cases hreads
  obtain ⟨earlier, child, exit, hreaped, hstatus, hkilled, htext⟩ := h.reaped
  refine ⟨ho.pc.trans h.pc, h.resumes, earlier, child, exit, hreaped, ?_, ?_, ?_⟩
  · rw [ho.ended (hw.ended (.inr h.pc)), hstatus]
  · rw [ho.killedByDrain, hkilled]
  · rw [htext, ChildWait.errorText, ChildWait.errorText, ho.errorBytes]

/-- Every run of a wait with its pipe is a run of the worker that leaves the pipe out, where
`wait4` comes with the text that was read. -/
theorem wait_refines (pos : 0 < capacity) {es : List WaitEvent} (hw : s.Waits)
    (h : Waiting slot after s w)
    (hsteps : (childWait drain capacity pos message started).Steps System.free s es t) :
    ∃ es' w', (runWorker cfg drain start).Steps System.free w es' w' ∧
      (Waiting slot after t w' ∨ HandedBack after t w') := by
  have hmatch : ∀ s e t w, (s.Waits ∧ (Waiting slot after s w ∨ HandedBack after s w)) →
      System.free s e → (childWait drain capacity pos message started).step s e = some t →
      ∃ es w', (runWorker cfg drain start).Steps System.free w es w' ∧
        (t.Waits ∧ (Waiting slot after t w' ∨ HandedBack after t w')) := by
    rintro s e t w ⟨hw, h | h⟩ - he
    · obtain ⟨es, w', hes, hw'⟩ := h.step hw he
      exact ⟨es, w', hes, hw.step he, hw'⟩
    · exact ⟨[], w, .nil w, hw.step he, .inr (h.step hw he)⟩
  obtain ⟨es', w', hes, -, hw'⟩ := hsteps.simulates hmatch ⟨hw, .inl h⟩
  exact ⟨es', w', hes, hw'⟩

end Steps

end PostgresQueue
