import PostgresQueue.Bookkeeping

namespace PostgresQueue

open Library

variable {τ : Type} [LinearOrder τ] {cfg : WorkerConfig} {drain : DrainTimeout τ} {start : τ}
  {w w' : Worker τ} {e : WorkerEvent τ}

structure WaitSound (drain : DrainTimeout τ) (signals : Signals τ) (log : Log τ) (slot : LoopSlot)
    (wpc : WaitPc) (killed : Bool) : Prop where
  atDeadline : wpc = .deadline → signals.requested ∧ killed = false
  atKill : wpc = .kill → signals.requested ∧ killed = false ∧ signals.Late drain signals.now
  flagged : killed = true ↔ slot.child ∈ log.kills.map Prod.fst

structure KillsSound (drain : DrainTimeout τ) (signals : Signals τ) (m : Main τ) : Prop where
  late : ∀ k ∈ m.log.kills, signals.requested ∧ signals.Late drain k.2
  once : (m.log.kills.map Prod.fst).Nodup
  killed : ∀ c ∈ m.log.kills.map Prod.fst, c ∈ m.log.reaped.map Prod.fst ∨
    c ∈ m.pc.waiting.map LoopSlot.child
  waits : ∀ slot wpc killed after, m.pc = .wait slot wpc killed after →
    WaitSound drain signals m.log slot wpc killed
  reaped : ∀ r ∈ m.log.reaped, r.2.killedByDrain = true ↔ r.1 ∈ m.log.kills.map Prod.fst

namespace KillsSound

variable {signals signals' : Signals τ} {m m' : Main τ} {i : Input}

theorem init (signals : Signals τ) : KillsSound drain signals (Main.init : Main τ) := by
  constructor <;> simp [Main.init]

theorem signal (h : KillsSound drain signals m) {e : Signals.Event τ}
    (he : signals.step drain e = some signals') : KillsSound drain signals' m := by
  refine ⟨fun k hk => ?_, h.once, h.killed, fun slot wpc killed after hpc => ?_, h.reaped⟩
  · obtain ⟨hr, hlate⟩ := h.late k hk
    exact ⟨Signals.requested_step hr he, hlate.step he⟩
  · have hw := h.waits slot wpc killed after hpc
    refine ⟨fun hd => ?_, fun hk => ?_, hw.flagged⟩
    · obtain ⟨hr, hk⟩ := hw.atDeadline hd
      exact ⟨Signals.requested_step hr he, hk⟩
    · obtain ⟨hr, hk, hlate⟩ := hw.atKill hk
      exact ⟨Signals.requested_step hr he, hk, (hlate.step he).mono (Signals.now_step he)⟩

theorem quiet (h : KillsSound drain signals m) (hc : Consistent cfg m')
    (hwait : m.pc.waits = false) (hq : Main.Quiet cfg signals m i m') :
    KillsSound drain signals m' := by
  have hwaiting : m.pc.waiting = [] := by
    cases hpc : m.pc with
    | wait slot wpc killed after =>
      rw [hpc] at hwait
      cases hwait
    | _ => rfl
  have hkilled : ∀ c ∈ m.log.kills.map Prod.fst, c ∈ m.log.reaped.map Prod.fst := by
    intro c hm
    have hm := h.killed c hm
    rw [hwaiting] at hm
    simpa using hm
  refine ⟨?_, ?_, ?_, ?_, ?_⟩
  · rw [hq.kills]
    exact h.late
  · rw [hq.kills]
    exact h.once
  · rw [hq.kills, hq.reaped]
    exact fun c hm => .inl (hkilled c hm)
  · intro slot wpc killed after hpc
    obtain ⟨rfl, rfl⟩ := hq.enters slot wpc killed after hpc
    refine ⟨nofun, nofun, ?_⟩
    rw [hq.kills]
    have hnot := hc.waiting_not_reaped hpc
    rw [hq.reaped] at hnot
    exact iff_of_false Bool.false_ne_true fun hm => hnot (hkilled _ hm)
  · rw [hq.kills, hq.reaped]
    exact h.reaped

theorem goto (h : KillsSound drain signals m) {slot : LoopSlot} {wpc wpc' : WaitPc} {killed : Bool}
    {after : After} (hpc : m.pc = .wait slot wpc killed after)
    (hdeadline : wpc' = .deadline → signals.requested ∧ killed = false)
    (hkill : wpc' = .kill → signals.requested ∧ killed = false ∧ signals.Late drain signals.now) :
    KillsSound drain signals (m.goto (.wait slot wpc' killed after)) := by
  refine ⟨h.late, h.once, fun c hm => ?_, fun slot' wpc'' killed' after' hpc' => ?_, h.reaped⟩
  · have hm := h.killed c hm
    rw [hpc] at hm
    exact hm
  · cases hpc'
    exact ⟨hdeadline, hkill, (h.waits slot wpc killed after hpc).flagged⟩

theorem kill (h : KillsSound drain signals m) (hc : Consistent cfg m) {slot : LoopSlot}
    {killed : Bool} {after : After} (hpc : m.pc = .wait slot .kill killed after)
    (he : m.waitForChild cfg signals slot killed after .kill .next = some m') :
    KillsSound drain signals m' := by
  obtain ⟨⟨c, hchild?, hchild⟩, -⟩ := hc.waited hpc
  have hw := h.waits slot _ killed after hpc
  obtain ⟨hr, hk, hlate⟩ := hw.atKill rfl
  have hnot : slot.child ∉ m.log.kills.map Prod.fst := fun hm => by
    rw [hw.flagged.mpr hm] at hk
    cases hk
  simp only [Main.waitForChild, hchild?, Option.toList_some, List.map_cons, List.map_nil, hchild,
    Option.some.injEq] at he
  subst he
  have hkills : ((m.log.kills ++ [(slot.child, signals.now)]).map Prod.fst) =
      m.log.kills.map Prod.fst ++ [slot.child] := by simp
  refine ⟨?_, ?_, ?_, ?_, ?_⟩
  · intro k hm
    rcases List.mem_append.mp hm with hm | hm
    · exact h.late k hm
    · rw [List.mem_singleton.mp hm]
      exact ⟨hr, hlate⟩
  · dsimp only
    rw [hkills, List.nodup_append]
    refine ⟨h.once, by simp, fun a ha b hb => ?_⟩
    rw [List.mem_singleton.mp hb]
    rintro rfl
    exact hnot ha
  · intro a ha
    dsimp only at ha
    rw [hkills] at ha
    rcases List.mem_append.mp ha with ha | ha
    · have ha := h.killed a ha
      rw [hpc] at ha
      exact ha
    · exact .inr (by simpa [Pc.waiting] using ha)
  · intro slot' wpc' killed' after' hpc'
    cases hpc'
    refine ⟨fun hw => ?_, fun hw => ?_, iff_of_true rfl ?_⟩
    · cases hw
    · cases hw
    · simp
  · intro r hm
    dsimp only
    have hne : r.1 ≠ slot.child := fun he =>
      hc.waiting_not_reaped hpc (he ▸ List.mem_map_of_mem hm)
    rw [h.reaped r hm, hkills]
    simp [hne]

theorem reap (h : KillsSound drain signals m) {slot : LoopSlot}
    {wpc : WaitPc} {killed : Bool} {after : After} (hpc : m.pc = .wait slot wpc killed after)
    {c : OsChild} (hchild : c.child = slot.child) (status : WaitStatus) (texts : ChildTexts) :
    KillsSound drain signals ((m.reap cfg slot c status killed texts).goto (After.pc after)) := by
  have hw := h.waits slot wpc killed after hpc
  refine ⟨h.late, h.once, fun a ha => ?_, fun slot' wpc' killed' after' hpc' => ?_, fun r hm => ?_⟩
  · have ha := h.killed a ha
    rw [hpc] at ha
    simp only [Main.goto, Main.reap, List.map_append, List.map_singleton, hchild]
    rcases ha with ha | ha
    · exact .inl (List.mem_append_left _ ha)
    · exact .inl (List.mem_append_right _ ha)
  · cases after <;> cases hpc'
  · simp only [Main.goto, Main.reap, List.mem_append, List.mem_singleton] at hm ⊢
    rcases hm with hm | rfl
    · exact h.reaped r hm
    · rw [hchild]
      exact hw.flagged

theorem waitForChild (h : KillsSound drain signals m) (hc : Consistent cfg m)
    (hs : signals.Sound drain) (hh : signals.handlers = []) {slot : LoopSlot} {wpc : WaitPc}
    {killed : Bool} {after : After} (hpc : m.pc = .wait slot wpc killed after)
    (he : m.waitForChild cfg signals slot killed after wpc i = some m') :
    KillsSound drain signals m' := by
  obtain ⟨⟨c, hchild?, hchild⟩, hfd⟩ := hc.waited hpc
  have hkept := he
  unfold Main.waitForChild at he
  split at he
  · rw [hchild?] at he
    dsimp only at he
    split at he
    · cases he
      exact h.goto hpc nofun nofun
    · rw [if_pos hfd] at he
      cases he
      exact h.reap hpc hchild _ _
  · cases he
    refine h.goto hpc (fun hd => ?_) (fun hk => ?_)
    · split_ifs at hd with hcheck
      simpa [and_comm] using hcheck
    · split_ifs at hk
  · cases he
    obtain ⟨hr, hk⟩ := (h.waits slot _ killed after hpc).atDeadline rfl
    obtain ⟨d, hsettled, hlate⟩ := hs.settled hr hh
    refine h.goto hpc (fun hd => ?_) (fun hkill => ?_)
    · split_ifs at hd
    · split_ifs at hkill with hpassed
      rw [Main.deadlinePassed, hsettled.deadline, decide_eq_true_eq] at hpassed
      exact ⟨hr, hk, hlate.mono hpassed⟩
  · exact h.kill hc hpc hkept
  · cases he
    exact h.goto hpc nofun nofun
  · cases he

theorem step (h : KillsSound drain signals m) (hc : Consistent cfg m) (hs : signals.Sound drain)
    (hh : signals.handlers = []) (he : m.step cfg signals i = some m') :
    KillsSound drain signals m' := by
  rcases Main.step_cases he with ⟨slot, wpc, killed, after, hpc, hw⟩ | ⟨hwait, hquiet⟩
  · exact h.waitForChild hc hs hh hpc hw
  · exact h.quiet (hc.step he) hwait hquiet

end KillsSound

structure DrainSound (cfg : WorkerConfig) (drain : DrainTimeout τ) (w : Worker τ) : Prop where
  signals : w.signals.Sound drain
  consistent : Consistent cfg w.main
  kills : KillsSound drain w.signals w.main

theorem runWorker_drainSound (h : (runWorker cfg drain start).Reachable System.free w) :
    DrainSound cfg drain w := by
  apply h.invariant (I := DrainSound cfg drain)
  · exact ⟨Signals.installed_sound start, Consistent.init cfg, KillsSound.init _⟩
  · intro w e w' hi _ he
    cases e with
    | signal e =>
      obtain ⟨s, hs, rfl⟩ := Option.map_eq_some_iff.mp he
      exact ⟨hi.signals.step hs, hi.consistent, hi.kills.signal hs⟩
    | childEnds pid status =>
      cases he
      exact ⟨hi.signals, hi.consistent.ends pid status, ⟨hi.kills.late, hi.kills.once,
        hi.kills.killed, hi.kills.waits, hi.kills.reaped⟩⟩
    | main i =>
      simp only [runWorker] at he
      split_ifs at he with hh
      obtain ⟨m, hm, rfl⟩ := Option.map_eq_some_iff.mp he
      have hempty : w.signals.handlers = [] := List.isEmpty_iff.mp hh
      exact ⟨hi.signals, hi.consistent.step hm, hi.kills.step hi.consistent hi.signals hempty hm⟩

theorem settled_steps {deadline : τ} (hs : w.signals.Settled deadline) {events : List (WorkerEvent τ)}
    (h : (runWorker cfg drain start).Steps System.free w events w') :
    w'.signals.Settled deadline := by
  refine h.preserves (I := fun w => w.signals.Settled deadline) (fun w e w' hi _ he => ?_) hs
  cases e with
  | signal e =>
    obtain ⟨s, hs, rfl⟩ := Option.map_eq_some_iff.mp he
    exact hi.step hs
  | childEnds pid status =>
    cases he
    exact hi
  | main i =>
    simp only [runWorker] at he
    split_ifs at he
    obtain ⟨m, -, rfl⟩ := Option.map_eq_some_iff.mp he
    exact hi

theorem shutdown_iff (e : ChildExit) : (waitResult e).exitKind = .shutdown ↔
    e.killedByDrain = true ∧ e.status = .signaled sigkill := by
  unfold waitResult
  cases hst : e.status with
  | exited code =>
    dsimp only
    split_ifs <;> simp
  | signaled signum =>
    dsimp only
    split_ifs with hk hs
    · simp only [Bool.and_eq_true, beq_iff_eq] at hk
      simp [hk]
    · simp only [Bool.and_eq_true, beq_iff_eq, not_and] at hk hs
      simpa [hs] using hk
    · simp only [beq_iff_eq] at hs
      simp [hs]
  | other => simp

theorem waitResult_without_drain {e : ChildExit}
    (h : ¬(e.killedByDrain = true ∧ e.status = .signaled sigkill)) :
    waitResult e = waitResult { e with killedByDrain := false } := by
  unfold waitResult
  cases hst : e.status with
  | exited code => rfl
  | signaled signum =>
    have hnot : (e.killedByDrain && signum == sigkill) = false := by
      simpa [hst] using h
    simp [hnot]
  | other => rfl

/-- In every run of the worker: it kills a child only past the drain timeout of the first
signal, no later signal moves the deadline, it kills no child twice, and the shutdown result is
that of a child it has killed and that died of SIGKILL; every other child gets its own result. -/
theorem drain_safety (h : (runWorker cfg drain start).Reachable System.free w) :
    (∀ k ∈ w.main.log.kills, w.signals.requested ∧
      ∃ t, w.signals.first = some t ∧ drain.after t ≤ k.2) ∧
    (w.signals.requested → w.signals.handlers = [] → ∃ deadline, ∀ events w',
      (runWorker cfg drain start).Steps System.free w events w' →
        w'.signals.shutdown.deadline = some deadline) ∧
    (w.main.log.kills.map Prod.fst).Nodup ∧
    ∀ r ∈ w.main.log.reaped,
      ((waitResult r.2).exitKind = .shutdown ↔
        r.1 ∈ w.main.log.kills.map Prod.fst ∧ r.2.status = .signaled sigkill) ∧
      (¬(r.1 ∈ w.main.log.kills.map Prod.fst ∧ r.2.status = .signaled sigkill) →
        waitResult r.2 = waitResult { r.2 with killedByDrain := false }) := by
  have hs := runWorker_drainSound h
  refine ⟨hs.kills.late, fun hr hh => ?_, hs.kills.once, fun r hm => ?_⟩
  · obtain ⟨d, hsettled, -⟩ := hs.signals.settled hr hh
    exact ⟨d, fun events w' hsteps => (settled_steps hsettled hsteps).deadline⟩
  · rw [← hs.kills.reaped r hm]
    exact ⟨shutdown_iff r.2, waitResult_without_drain⟩

section Sample

def sampleDrainRun : List (WorkerEvent ℕ) :=
  [.main .next, sampleFork 1 500 7] ++ sampleSignal ++
  [.main (.wait4 ⟨"", "", ""⟩), .main .next, .main .next, .main .next, .signal (.ticks 25),
    .main (.wait4 ⟨"", "", ""⟩), .main .next, .main .next, .main .next, .main .next,
    .childEnds 500 (.signaled 9), .main (.wait4 ⟨"", "", ""⟩), .main .next, .main .next]

def sampleDrained : Worker ℕ :=
  (runWorker (sampleConfig .sequential) sampleDrain 0).run System.free sampleDrainRun

theorem drain_safety_killed :
    sampleDrained.main.log.kills = [(0, 25)] ∧ sampleDrained.signals.first = some 0 ∧
    ∀ r ∈ sampleDrained.main.log.reaped,
      (waitResult r.2).exitKind = .shutdown ↔
        r.1 ∈ sampleDrained.main.log.kills.map Prod.fst ∧ r.2.status = .signaled sigkill := by
  refine ⟨by decide +kernel, by decide +kernel, fun r hm => ?_⟩
  have hreached : (runWorker (sampleConfig .sequential) sampleDrain 0).Reachable System.free
      sampleDrained := .of_run (by decide +kernel)
  obtain ⟨-, -, -, hresults⟩ := drain_safety hreached
  exact (hresults r hm).1

end Sample

end PostgresQueue
