import PostgresQueue.RowHolders

namespace PostgresQueue

open Library System

section Cleanup

variable {cfg : WorkerConfig} {calls : CleanupCalls} {lastCleanup : ℚ}

def CleanupDue (cfg : WorkerConfig) (calls : CleanupCalls) (lastCleanup : ℚ) : Prop :=
  0 < cfg.retentionDays ∧ intervalPassed calls.time lastCleanup cfg.cleanupInterval = true

/-- Python can hold the cutoff, and both deletes return. -/
structure CleanupCalls.Return (cfg : WorkerConfig) (calls : CleanupCalls) : Prop where
  days : cfg.retentionDays ≤ 999999999
  cutoff : datetimeMin ≤ calls.now - cfg.retentionDays * 86400000000
  completed : ∃ n, calls.clearCompleted (calls.now - cfg.retentionDays * 86400000000) = .ok n
  failed : ∃ n, calls.clearFailed (calls.now - cfg.retentionDays * 86400000000) = .ok n

theorem retentionCutoff_ok {now cutoff : Timestamptz} {days : ℤ} :
    retentionCutoff now days = .ok cutoff ↔
      days ≤ 999999999 ∧ datetimeMin ≤ now - days * 86400000000 ∧
        cutoff = now - days * 86400000000 := by
  unfold retentionCutoff
  split_ifs with hdays hmin
  · simp [hdays]
  · simp [hmin]
  · simp only [Except.ok.injEq]
    exact ⟨fun h => ⟨not_lt.mp hdays, not_lt.mp hmin, h.symm⟩, fun h => h.2.2.symm⟩

theorem maybeRunCleanup_ok_iff : (∃ t, maybeRunCleanup cfg calls lastCleanup = .ok t) ↔
    (CleanupDue cfg calls lastCleanup → calls.Return cfg) := by
  unfold maybeRunCleanup CleanupDue
  by_cases hdays : cfg.retentionDays ≤ 0
  · rw [if_pos hdays]
    exact iff_of_true ⟨_, rfl⟩ fun h => absurd h.1 (not_lt.mpr hdays)
  · rw [if_neg hdays]
    cases hpassed : intervalPassed calls.time lastCleanup cfg.cleanupInterval with
    | false => exact iff_of_true ⟨_, rfl⟩ fun h => by cases h.2
    | true =>
      simp only [Bool.not_true, Bool.false_eq_true, if_false, bind_ok, retentionCutoff_ok]
      constructor
      · rintro ⟨t, cutoff, ⟨hd, hmin, rfl⟩, n, hn, k, hk, -⟩ -
        exact ⟨hd, hmin, ⟨n, hn⟩, ⟨k, hk⟩⟩
      · intro h
        obtain ⟨hd, hmin, ⟨n, hn⟩, ⟨k, hk⟩⟩ := h ⟨not_le.mp hdays, trivial⟩
        exact ⟨calls.time, _, ⟨hd, hmin, rfl⟩, n, hn, k, hk, rfl⟩

end Cleanup

section Loop

variable {τ : Type} [LinearOrder τ] {cfg : WorkerConfig} {w : Worker τ} {drain : DrainTimeout τ}
  {start : τ}

theorem Main.stops {m m' : Main τ} {signals : Signals τ} {i : Input}
    (he : m.step cfg signals i = some m') (hs : m'.pc.stopping) :
    m.pc.stopping ∨ signals.requested := by
  rcases Main.step_cases he with ⟨slot, wpc, killed, after, hpc, hw⟩ | ⟨-, hquiet⟩
  · have hafter : after.draining := by
      rcases Main.waitForChild_pc hw with hpc' | hpc' | ⟨wpc', killed', hpc'⟩
      · rw [hpc'] at hs
        cases hs
      · rw [hpc'] at hs
        cases after <;> first | rfl | cases hs
      · rw [hpc'] at hs
        cases after <;> first | rfl | cases hs
    rw [hpc]
    cases after with
    | drain rest => exact .inl rfl
    | batch fds => cases hafter
    | once => cases hafter
  · exact hquiet.stops hs

theorem stopping_requested (h : (runWorker cfg drain start).Reachable free w)
    (hs : w.main.pc.stopping) : w.signals.requested := by
  refine h.invariant (I := fun w => w.main.pc.stopping → w.signals.requested)
    (fun hs => by cases hs) (fun w e w' hi _ he hs => ?_) hs
  cases e with
  | signal e =>
    obtain ⟨signals, hsignal, rfl⟩ := Option.map_eq_some_iff.mp he
    exact Signals.requested_step (hi hs) hsignal
  | childEnds pid status =>
    cases he
    exact hi hs
  | main i =>
    simp only [runWorker] at he
    split_ifs at he
    obtain ⟨m, hm, rfl⟩ := Option.map_eq_some_iff.mp he
    exact (Main.stops hm hs).elim hi id

theorem step_cleanup {m m' : Main τ} {signals : Signals τ} {calls : CleanupCalls}
    (he : m.step cfg signals (.cleanup calls) = some m') :
    m.pc.waits = false ∧ m.cleanUp cfg (.cleanup calls) = some m' := by
  unfold Main.step Main.sequentialStep Main.onceStep Main.concurrentStep at he
  cases hpc : m.pc with
  | cleanup =>
    rw [hpc] at he
    split at he <;> exact ⟨rfl, he⟩
  | wait slot wpc killed after =>
    rw [hpc] at he
    cases wpc <;> split at he <;> cases he
  | batch ready =>
    rw [hpc] at he
    cases ready <;> split at he <;> cases he
  | drain rest =>
    rw [hpc] at he
    cases rest <;> split at he <;> cases he
  | _ =>
    rw [hpc] at he
    split at he <;> cases he

theorem loop_goesOn_iff {m m' : Main τ} {signals : Signals τ} {i : Input}
    (he : m.step cfg signals i = some m') : (∀ e, m'.pc ≠ .escaped e) ↔
      ∀ calls, i = .cleanup calls → ∃ t, maybeRunCleanup cfg calls m.lastCleanup = .ok t := by
  constructor
  · rintro hgo calls rfl
    obtain ⟨-, hc⟩ := step_cleanup he
    cases hrun : maybeRunCleanup cfg calls m.lastCleanup with
    | ok t => exact ⟨t, rfl⟩
    | error e =>
      simp only [Main.cleanUp, hrun, Option.some.injEq] at hc
      exact absurd (hc ▸ rfl) (hgo e)
  · intro hok e hpc
    rcases Main.step_cases he with ⟨slot, wpc, killed, after, -, hw⟩ | ⟨-, hquiet⟩
    · rcases Main.waitForChild_pc hw with hpc' | hpc' | ⟨wpc', killed', hpc'⟩
      · cases hpc.symm.trans hpc'
      · cases after <;> cases hpc.symm.trans hpc'
      · cases hpc.symm.trans hpc'
    · obtain ⟨calls, rfl, herr⟩ := hquiet.escapes e hpc
      obtain ⟨t, ht⟩ := hok calls rfl
      cases herr.symm.trans ht

end Loop

/-- The fleet, and the workers that an exception has taken out of their loop elsewhere than in a
cleanup. -/
structure Crew (P Q τ : Type) where
  fleet : Fleet P Q τ
  left : List ℕ

inductive CrewAction (P τ : Type)
  | fleet (a : FleetAction P τ)
  | startEscapes (w : ℕ) (e : TaskError) (elapsed : String)
  | callRaises (w : ℕ)

variable {P Q τ : Type}

def FleetAction.looping : FleetAction P τ → Option ℕ
  | .worker w (.main _) | .claim w _ | .claimPeriodic w _ | .forks w _ _ | .startFails w _ _ _
  | .reaps w _ | .writes w _ | .writeFails w => some w
  | .worker _ (.signal _) | .worker _ (.childEnds ..) | .client _ | .scheduler _ | .dies _
  | .orphanEnds .. => none

/-- A start that no `except` clause of the worker turns into an outcome. -/
def FleetAction.escapes (cfg : ℕ → WorkerConfig) : FleetAction P τ → Bool
  | .startFails w e elapsed _ => ((RunEnd.notStarted e elapsed).outcome (cfg w).mode).isNone
  | _ => false

def Pc.callsSystem : Pc → Bool
  | .select | .sleep | .wait .. => true
  | _ => false

section Crew

variable [LinearOrder τ] (stamp : P → ℕ → Q) (env : Env Q) (croniter : Croniter)
  (repr : PyFloat → String) (cfg : ℕ → WorkerConfig) (drain : ℕ → DrainTimeout τ) (start : ℕ → τ)

/-- The fleet with the exceptions that no clause of a loop catches: of a start whose exception is
no `Exception` or has no text, and of the system calls. -/
def crew (now : Timestamptz) : System (Crew P Q τ) (CrewAction P τ) where
  init := ⟨(fleet stamp env croniter repr cfg drain start now).init, []⟩
  step s
    | .fleet a =>
      if a.looping.any s.left.contains || a.escapes cfg then none
      else ((fleet stamp env croniter repr cfg drain start now).step s.fleet a).map fun f =>
        { s with fleet := f }
    | .startEscapes w e elapsed =>
      match (s.fleet.members w).busy with
      | .starting _ _ =>
        if w ∉ s.fleet.tasks.dead ∧ w ∉ s.left ∧
            (RunEnd.notStarted e elapsed).outcome (cfg w).mode = none then
          some { s with left := w :: s.left }
        else none
      | _ => none
    | .callRaises w =>
      if s.fleet.idle w ∧ w ∉ s.left ∧ (s.fleet.members w).worker.main.pc.callsSystem then
        some { s with left := w :: s.left }
      else none

end Crew

def Crew.GoesOn (s : Crew P Q τ) : Prop :=
  ∀ w, w ∉ s.fleet.tasks.dead → w ∉ s.left ∧ ∀ e, (s.fleet.members w).worker.main.pc ≠ .escaped e

def Crew.HasReturned (s : Crew P Q τ) (w : ℕ) : Prop :=
  w ∉ s.fleet.tasks.dead ∧ (s.fleet.members w).worker.main.pc = .returned

/-- No worker has left its loop but at a shutdown request, with all its children waited for and
its runs ended; and every row that is RUNNING has a run that is still to end it. -/
structure Crew.Survives (s : Crew P Q τ) : Prop where
  goesOn : s.GoesOn
  requested : ∀ w, s.HasReturned w → (s.fleet.members w).worker.signals.requested
  reaped : ∀ w, s.HasReturned w → (s.fleet.members w).worker.main.os.unreaped = []
  ended : ∀ w, s.HasReturned w → ∀ ref, ¬s.fleet.Unfinished ref w
  finished : s.fleet.NoOrphans

def Fleet.CleanupReturns (cfg : ℕ → WorkerConfig) (s : Fleet P Q τ) : FleetAction P τ → Prop
  | .worker w (.main (.cleanup calls)) =>
    CleanupDue (cfg w) calls (s.members w).worker.main.lastCleanup → calls.Return (cfg w)
  | _ => True

def Crew.Contained (env : Env Q) (cfg : ℕ → WorkerConfig) (s : Crew P Q τ) : CrewAction P τ → Prop
  | .fleet a => s.fleet.CleanupReturns cfg a ∧ s.fleet.WritesThrough env a
  | .startEscapes .. | .callRaises _ => False

section Runs

variable [LinearOrder τ] {stamp : P → ℕ → Q} {env : Env Q} {croniter : Croniter}
  {repr : PyFloat → String} {cfg : ℕ → WorkerConfig} {drain : ℕ → DrainTimeout τ} {start : ℕ → τ}
  {now : Timestamptz} {s s' : Fleet P Q τ} {a : FleetAction P τ}

inductive WorkerMoves (cfg : ℕ → WorkerConfig) (drain : ℕ → DrainTimeout τ) (start : ℕ → τ)
    (s : Fleet P Q τ) (a : FleetAction P τ) (v : ℕ) : Worker τ → Prop
  | same {x : Worker τ} : x = (s.members v).worker → WorkerMoves cfg drain start s a v x
  | step {e : WorkerEvent τ} {x : Worker τ} : s.workerStep cfg drain start v e = some x →
      (∀ calls, e = .main (.cleanup calls) → a = .worker v e) → WorkerMoves cfg drain start s a v x

theorem WorkerMoves.setMember {s₁ : Fleet P Q τ} {w : ℕ} {m : Member τ}
    (hm : WorkerMoves cfg drain start s a w m.worker) (hmembers : s₁.members = s.members) (v : ℕ) :
    WorkerMoves cfg drain start s a v ((s₁.setMember w m).members v).worker := by
  by_cases hv : v = w
  · rw [hv, Fleet.setMember_self]
    exact hm
  · have hother : ((s₁.setMember w m).members v).worker = (s.members v).worker := by
      rw [← hmembers]
      exact congrArg Member.worker (Function.update_of_ne hv ..)
    exact .same hother

theorem FleetStep.worker_moves (hstep : FleetStep stamp env croniter repr cfg drain start s a s')
    (v : ℕ) : WorkerMoves cfg drain start s a v (s'.members v).worker := by
  cases hstep with
  | client | scheduler | dies => exact .same rfl
  | worker hw hown hx =>
    refine WorkerMoves.setMember (.step hx ?_) rfl v
    exact fun _ _ => rfl
  | claim hw hidle hpc hc hs =>
    refine .setMember (.same ?_) (Fleet.claim_moves hc hs).2.members v
    rfl
  | claimPeriodic hw hidle hpc hc hs =>
    refine .setMember (.same ?_) (Fleet.claimPeriodic_moves hc hs).2.members v
    rfl
  | forks hbusy hw hx hs =>
    obtain ⟨u, hu, hm⟩ := Fleet.startRun_moves hs
    exact .setMember (.step hx fun calls he => by cases he) hm.members v
  | startFails hbusy hw hx hs =>
    obtain ⟨u, ph, hu, -, hm⟩ := Fleet.endRun_moves hs
    exact .setMember (.step hx fun calls he => by cases he) hm.members v
  | reaps hw hidle hr href hx hs =>
    obtain ⟨u, ph, hu, -, hm⟩ := Fleet.endRun_moves hs
    exact .setMember (.step hx fun calls he => by cases he) hm.members v
  | writes hbusy hw hs =>
    obtain ⟨u, e, hu, hm⟩ := Fleet.writeRun_moves hs
    refine .setMember (.same ?_) hm.members v
    rfl
  | writeFails hbusy hw hs =>
    rcases Fleet.dropRun_moves hs with rfl | ⟨u, e, hu, hm⟩
    · refine .setMember (.same ?_) rfl v
      rfl
    · refine .setMember (.same ?_) hm.members v
      rfl
  | orphanEnds halive hw hs =>
    obtain ⟨u, ph, hu, -, hm⟩ := Fleet.endRun_moves hs
    exact .same (by rw [hm.members])

theorem FleetStep.dead (hstep : FleetStep stamp env croniter repr cfg drain start s a s') :
    ∀ w ∈ s.tasks.dead, w ∈ s'.tasks.dead := by
  intro w hw
  cases hstep with
  | client ha ht => exact (step_external ha ht).2 ▸ hw
  | scheduler | worker => exact hw
  | claim _ _ _ hc hs => exact (Fleet.claim_moves hc hs).2.dead ▸ hw
  | claimPeriodic _ _ _ hc hs => exact (Fleet.claimPeriodic_moves hc hs).2.dead ▸ hw
  | forks _ _ _ hs =>
    obtain ⟨u, hu, hm⟩ := Fleet.startRun_moves hs
    exact hm.dead ▸ hw
  | startFails _ _ _ hs | reaps _ _ _ _ _ hs | orphanEnds _ _ hs =>
    obtain ⟨u, ph, hu, -, hm⟩ := Fleet.endRun_moves hs
    exact hm.dead ▸ hw
  | writes _ _ hs =>
    obtain ⟨u, e, hu, hm⟩ := Fleet.writeRun_moves hs
    exact hm.dead ▸ hw
  | writeFails _ _ hs =>
    rcases Fleet.dropRun_moves hs with rfl | ⟨u, e, hu, hm⟩
    · exact hw
    · exact hm.dead ▸ hw
  | dies => exact List.mem_cons_of_mem _ hw

theorem fleet_workers (h : (fleet stamp env croniter repr cfg drain start now).Reachable free s)
    (v : ℕ) : (runWorker (cfg v) (drain v) (start v)).Reachable free (s.members v).worker := by
  refine h.invariant (I := fun s : Fleet P Q τ =>
    (runWorker (cfg v) (drain v) (start v)).Reachable free (s.members v).worker) .init ?_
  intro s a s' hi _ he
  have hs : fleetStep stamp env croniter repr cfg drain start s a = some s' := he
  cases (fleetStep_cases hs).worker_moves v with
  | same hsame =>
    rw [hsame]
    exact hi
  | step hx => exact hi.step trivial hx

theorem workerStep_goes_on {w : ℕ} {e : WorkerEvent τ} {x : Worker τ}
    (hx : s.workerStep cfg drain start w e = some x)
    (hgo : ∀ e, (s.members w).worker.main.pc ≠ .escaped e)
    (hno : ∀ calls, e ≠ .main (.cleanup calls)) : ∀ e, x.main.pc ≠ .escaped e := by
  cases e with
  | signal e =>
    obtain ⟨signals, -, rfl⟩ := Option.map_eq_some_iff.mp hx
    exact hgo
  | childEnds pid status =>
    cases hx
    exact hgo
  | main i =>
    refine (loop_goesOn_iff (Fleet.workerStep_main hx)).mpr fun calls hi => ?_
    exact absurd (congrArg WorkerEvent.main hi) (hno calls)

theorem FleetStep.goesOn_iff (hstep : FleetStep stamp env croniter repr cfg drain start s a s')
    (hgo : ∀ w, w ∉ s.tasks.dead → ∀ e, (s.members w).worker.main.pc ≠ .escaped e) :
    (∀ w, w ∉ s'.tasks.dead → ∀ e, (s'.members w).worker.main.pc ≠ .escaped e) ↔
      s.CleanupReturns cfg a := by
  have hdead := hstep.dead
  have hmoves := hstep.worker_moves
  have hother : (∀ w calls, a ≠ .worker w (.main (.cleanup calls))) →
      ∀ w, w ∉ s'.tasks.dead → ∀ e, (s'.members w).worker.main.pc ≠ .escaped e := by
    intro hno w hw
    have hgo := hgo w fun hd => hw (hdead w hd)
    cases hmoves w with
    | same hsame =>
      rw [hsame]
      exact hgo
    | step hx hclean =>
      refine workerStep_goes_on hx hgo ?_
      rintro calls rfl
      exact hno w calls (hclean calls rfl)
  by_cases hclean : ∃ w calls, a = .worker w (.main (.cleanup calls))
  · obtain ⟨w, calls, rfl⟩ := hclean
    cases hstep with
    | @worker w e x hw hown hx =>
      have hself : ((s.setMember w { s.members w with worker := x }).members w).worker = x := by
        rw [Fleet.setMember_self]
      have hreturns : (∀ e, x.main.pc ≠ .escaped e) ↔ s.CleanupReturns cfg
          (.worker w (.main (.cleanup calls))) := by
        rw [loop_goesOn_iff (Fleet.workerStep_main hx)]
        exact ⟨fun h => maybeRunCleanup_ok_iff.mp (h calls rfl), fun h calls' hi => by
          cases hi
          exact maybeRunCleanup_ok_iff.mpr h⟩
      rw [← hreturns]
      constructor
      · intro h
        rw [← hself]
        exact h w hw
      · intro h v hv
        by_cases hvw : v = w
        · rw [hvw, hself]
          exact h
        · have hother : (s.setMember w { s.members w with worker := x }).members v = s.members v :=
            Function.update_of_ne hvw ..
          rw [hother]
          exact hgo v hv
  · have hno : ∀ w calls, a ≠ .worker w (.main (.cleanup calls)) := fun w calls ha =>
      hclean ⟨w, calls, ha⟩
    refine iff_of_true (hother hno) ?_
    unfold Fleet.CleanupReturns
    split
    · exact absurd rfl (hno _ _)
    · trivial

theorem survives_iff {s : Crew P Q τ}
    (h : (fleet stamp env croniter repr cfg drain start now).Reachable free s.fleet) :
    s.Survives ↔ s.GoesOn ∧ s.fleet.NoOrphans := by
  constructor
  · exact fun hs => ⟨hs.goesOn, hs.finished⟩
  · rintro ⟨hgo, hno⟩
    have hacc := Fleet.accounts_reachable h
    refine ⟨hgo, fun w hw => ?_, fun w hw => ?_, fun w hw ref hu => ?_, hno⟩
    · exact stopping_requested (fleet_workers h w) (by rw [hw.2]; rfl)
    · exact ((hacc w hw.1).consistent.returned hw.2).1
    · have hret : (s.fleet.members w).HasReturned (cfg w) := .loop hw.2
      obtain ⟨hlive, hnoclaim, hnowrite⟩ := hret.quiet (hacc w hw.1).consistent
      cases hu with
      | claimed ho =>
        obtain ⟨slot, hb⟩ := ((hacc w hw.1).claimed ref).mp ho
        exact absurd ((hacc w hw.1).starting ref slot hb) (by simp [hnoclaim])
      | alive ho =>
        have hperm := hacc.alive_perm hw.1
        rw [hlive, List.map_nil, List.perm_nil, List.map_eq_nil_iff] at hperm
        have hm : ref ∈ s.fleet.held w Phase.isAlive := Fleet.mem_held.mpr ⟨.alive, ho, rfl⟩
        rw [hperm] at hm
        cases hm
      | ended ho hkeep =>
        rcases hkeep with hb | hd
        · exact ((hacc w hw.1).writing ref hb).2.2 hw.2
        · exact hw.1 hd

theorem survives_step_iff {s s' : Crew P Q τ} {a : CrewAction P τ}
    (h : (fleet stamp env croniter repr cfg drain start now).Reachable free s.fleet)
    (hs : s.Survives) (he : (crew stamp env croniter repr cfg drain start now).step s a = some s') :
    s'.Survives ↔ s.Contained env cfg a := by
  have hleaves : ∀ w, w ∉ s.fleet.tasks.dead → s' = { s with left := w :: s.left } →
      ¬s'.Survives := by
    rintro w hw rfl hs'
    exact (hs'.goesOn w hw).1 List.mem_cons_self
  cases a with
  | fleet a =>
    simp only [crew] at he
    split_ifs at he
    obtain ⟨f, hf, rfl⟩ := Option.map_eq_some_iff.mp he
    have hstep := fleetStep_cases hf
    have hgo := hstep.goesOn_iff fun w hw => (hs.goesOn w hw).2
    have htasks : (taskSystem stamp env).Reachable free s.fleet.tasks :=
      fleet_tasks (fun _ _ _ => trivial) (h.mono fun _ a _ => by cases a <;> trivial)
    have herr : ∀ t ∈ s.fleet.tasks.tasks, t.status = .running → t.error = none := by
      intro t ht hrun
      obtain ⟨-, -, -, herror⟩ := (wellFormed_reachable htasks t ht).running hrun
      exact herror
    have hno := hstep.noOrphans_iff (Fleet.accounts_reachable h) (lockInv_reachable htasks) herr
      hs.finished
    rw [survives_iff (h.step trivial hf), hno]
    refine and_congr_left fun _ => ?_
    rw [← hgo]
    constructor
    · exact fun h w hw => (h w hw).2
    · intro h w hw
      exact ⟨(hs.goesOn w fun hd => hw (hstep.dead w hd)).1, h w hw⟩
  | startEscapes w e elapsed =>
    simp only [crew] at he
    split at he
    · split_ifs at he with hc
      cases he
      exact iff_of_false (hleaves w hc.1 rfl) id
    · cases he
  | callRaises w =>
    simp only [crew] at he
    split_ifs at he with hc
    cases he
    exact iff_of_false (hleaves w (Fleet.idle_iff.mp hc.1).1 rfl) id

theorem crew_fleet {s s' : Crew P Q τ} {a : CrewAction P τ}
    (h : (fleet stamp env croniter repr cfg drain start now).Reachable free s.fleet)
    (he : (crew stamp env croniter repr cfg drain start now).step s a = some s') :
    (fleet stamp env croniter repr cfg drain start now).Reachable free s'.fleet := by
  cases a with
  | fleet a =>
    simp only [crew] at he
    split_ifs at he
    obtain ⟨f, hf, rfl⟩ := Option.map_eq_some_iff.mp he
    exact h.step trivial hf
  | startEscapes w e elapsed =>
    simp only [crew] at he
    split at he
    · split_ifs at he
      cases he
      exact h
    · cases he
  | callRaises w =>
    simp only [crew] at he
    split_ifs at he
    cases he
    exact h

/-- In every run of any workers, of either loop, with any maintenance failing: no worker leaves its
loop and no task is orphaned exactly as long as every cleanup that is due returns, every exception
of a start and every system call is contained, and every write that only its run makes goes
through. -/
theorem maintenance_survived (stamp : P → ℕ → Q) (env : Env Q) (croniter : Croniter)
    (repr : PyFloat → String) (cfg : ℕ → WorkerConfig) (drain : ℕ → DrainTimeout τ) (start : ℕ → τ)
    (now : Timestamptz) (events : List (CrewAction P τ)) :
    (crew stamp env croniter repr cfg drain start now).Always Crew.Survives
        (crew stamp env croniter repr cfg drain start now).init events ↔
      (crew stamp env croniter repr cfg drain start now).EachStep (Crew.Contained env cfg)
        (crew stamp env croniter repr cfg drain start now).init events := by
  have hinit : (fleet stamp env croniter repr cfg drain start now).Reachable free
      (crew stamp env croniter repr cfg drain start now).init.fleet := .init
  apply System.always_iff_eachStep (I := fun s : Crew P Q τ =>
    (fleet stamp env croniter repr cfg drain start now).Reachable free s.fleet)
  · exact fun s a s' hi he => crew_fleet hi he
  · exact fun s a s' hi hs he => survives_step_iff hi hs he
  · exact hinit
  · refine (survives_iff hinit).mpr ⟨fun w _ => ⟨List.not_mem_nil, fun e he => by cases he⟩, ?_⟩
    exact fun t ht => absurd ht (Table.not_mem_empty t)

end Runs

section Sample

def sampleCrew : System (Crew String String ℕ) (CrewAction String ℕ) :=
  crew unlabelled sampleEnv sampleCroniter (sampleEnv (P := String)).floatRepr sampleModes
    (fun _ => sampleDrain) (fun _ => 0) 0

def sampleAway : CleanupCalls := ⟨1800000000, 1800000000000000, fun _ => .error .dataError,
  fun _ => .error .dataError⟩

def sampleCleanupSteps : List (FleetAction String ℕ) :=
  [.client (.upsert sampleConn (sampleUpsert "a"))] ++ loops 0 2 ++
  [.claim 0 ⟨10, none, 10, []⟩, .forks 0 500 7] ++ loops 0 1 ++
  [.worker 0 (.main (.claim .nothing)), .worker 0 (.main (.claim .nothing)),
    .worker 0 (.main (.ready []))] ++ loops 0 2 ++ [.worker 0 (.main (.cleanup sampleAway))]

def sampleCleanupRun : List (CrewAction String ℕ) := sampleCleanupSteps.map .fleet

def sampleOrphaned : Crew String String ℕ := sampleCrew.run free sampleCleanupRun

theorem cleanup_orphans :
    (sampleOrphaned.fleet.members 0).worker.main.pc.escapes = true ∧
    (sampleOrphaned.fleet.members 0).worker.signals.requested = false ∧
    (sampleOrphaned.fleet.members 0).worker.main.os.unreaped.map OsChild.pid = [500] ∧
    sampleOrphaned.fleet.tasks.tasks.rows.map Task.status = [.running] ∧
    ¬∀ events, sampleCrew.Always Crew.Survives sampleCrew.init events := by
  have hescapes : (sampleOrphaned.fleet.members 0).worker.main.pc.escapes = true := by
    decide +kernel
  refine ⟨hescapes, by decide +kernel, by decide +kernel, by decide +kernel, fun h => ?_⟩
  have hsteps : sampleCrew.Steps free sampleCrew.init sampleCleanupRun sampleOrphaned :=
    .of_run (by decide +kernel)
  obtain ⟨-, hgo⟩ := ((h sampleCleanupRun).of_steps hsteps).goesOn 0 (by decide +kernel)
  cases hpc : (sampleOrphaned.fleet.members 0).worker.main.pc with
  | escaped e => exact hgo e hpc
  | _ =>
    rw [hpc] at hescapes
    cases hescapes

end Sample

end PostgresQueue
