import PostgresQueue.FleetTables

namespace PostgresQueue

open Library System

variable {P Q τ : Type}

section Rows

variable {stamp : P → ℕ → Q} {env : Env Q} {s s' : State Q}

structure Carries (s s' : State Q) : Prop where
  taken : ∀ (i : ℕ) c, s.taken[i]? = some c → s'.taken[i]? = some c
  rows : ∀ q ∈ s'.tasks, q.status = .running →
    (∃ t ∈ s.tasks, t.status = .running ∧ q.id = t.id ∧ q.startedAt = t.startedAt) ∨
    ∃ startedAt, q.startedAt = some startedAt ∧ (q.id, startedAt) ∉ s.claims

theorem Carries.refl (s : State Q) : Carries s s :=
  ⟨fun _ _ h => h, fun q hq hs => .inl ⟨q, hq, hs, rfl, rfl⟩⟩

theorem Accept.running {conn : Conn} {new : NewTask Q} (h : Accept s conn new s') :
    ∀ q ∈ s'.tasks, q.status = .running →
      ∃ t ∈ s.tasks, t.status = .running ∧ q.id = t.id ∧ q.startedAt = t.startedAt := by
  intro q hq hs
  obtain ⟨q', hq', hrows⟩ := h.rows
  rcases hrows q hq with rfl | hq
  · rcases hq' with ⟨id, rfl⟩ | ⟨t, ht, rfl⟩
    · cases hs
    · obtain ⟨hts, he⟩ := NewTask.onConflict_of_running hs
      exact ⟨t, ht, hts, by rw [he], by rw [he]⟩
  · exact ⟨q, hq, hs, rfl, rfl⟩

theorem AcceptAll.running {conn : Conn} {news : List (NewTask Q)} (h : AcceptAll conn s news s') :
    ∀ q ∈ s'.tasks, q.status = .running →
      ∃ t ∈ s.tasks, t.status = .running ∧ q.id = t.id ∧ q.startedAt = t.startedAt := by
  induction h with
  | nil => exact fun q hq hs => ⟨q, hq, hs, rfl, rfl⟩
  | cons ha _ ih =>
    intro q hq hs
    obtain ⟨t, ht, hts, hid, hst⟩ := ih q hq hs
    obtain ⟨u, hu, hus, hid', hst'⟩ := ha.running t ht hts
    exact ⟨u, hu, hus, hid.trans hid', hst.trans hst'⟩

theorem AcceptAll.taken_eq {conn : Conn} {news : List (NewTask Q)} (h : AcceptAll conn s news s') :
    s'.taken = s.taken := by
  induction h with
  | nil => rfl
  | cons ha _ ih => exact ih.trans (congrArg (List.map _) ha.eq.1)

theorem step_taken {a : Action P} (hl : LockInv s) (he : step stamp env s a = some s') {i : ℕ}
    {claimed : Task Q × Timestamptz} (hi : s.taken[i]? = some claimed) :
    s'.taken[i]? = some claimed := by
  rcases step_cases hl he with ⟨conn, news, ha, -⟩ | hq
  · rw [ha.taken_eq]
    exact hi
  · rcases hq.rows hl with ⟨worker, mode, c, t, -, -, -, -, hr⟩ | ⟨ht, -⟩
    · have htaken : s'.taken = s.taken ++ [(c.markRunning t, c.startedAt)] := by
        rw [State.taken, hr, List.map_append]
        rfl
      rw [htaken, List.getElem?_append_left (List.getElem?_eq_some_iff.mp hi).1]
      exact hi
    · rw [ht]
      exact hi

theorem step_running {a : Action P} (hl : LockInv s) (he : step stamp env s a = some s') {q : Task Q}
    (hq : q ∈ s'.tasks) (hs : q.status = .running) :
    (∃ t ∈ s.tasks, t.status = .running ∧ q.id = t.id ∧ q.startedAt = t.startedAt) ∨
    ∃ worker mode c claimed, a = .claim worker mode c ∧ s.claim mode c = some claimed ∧
      q = claimed.1 ∧ q.startedAt = some c.startedAt := by
  rcases step_cases hl he with ⟨conn, news, ha, -⟩ | hquiet
  · exact .inl (ha.running q hq hs)
  · rcases hquiet.rows hl with ⟨worker, mode, c, t, ha, hc, -, hrep, -⟩ | ⟨-, hb⟩
    · rcases hrep.origin hq with rfl | ⟨hq, -⟩
      · exact .inr ⟨worker, mode, c, _, ha, hc, rfl, rfl⟩
      · exact .inl ⟨q, hq, hs, rfl, rfl⟩
    · obtain ⟨t, ht, hb⟩ := hb q hq
      obtain ⟨hts, hid, hst⟩ := hb.running hs
      exact .inl ⟨t, ht, hts, hid, hst⟩

theorem step_carries {a : Action P} (hl : LockInv s) (hg : distinctClaims s a)
    (he : step stamp env s a = some s') : Carries s s' := by
  refine ⟨fun i c hi => step_taken hl he hi, fun q hq hs => ?_⟩
  rcases step_running hl he hq hs with hold | ⟨worker, mode, c, claimed, rfl, hc, rfl, hst⟩
  · exact .inl hold
  · exact .inr ⟨c.startedAt, hst, hg _ hc⟩

theorem finishBlock_closes {clock : Timestamptz} {id : ℕ} {startedAt : Option Timestamptz}
    {o : Outcome} (ho : o.Sound) {tasks : Tasks Q}
    (h : (finishBlock env clock id startedAt o tasks).isOk) :
    ∀ q ∈ finishOneOff env clock id startedAt o tasks, finishWhere id startedAt q ≠ true := by
  intro q hq hw
  obtain ⟨hid, hs, hst⟩ := finishWhere_true hw
  cases hf : tasks.find? (finishWhere id startedAt) with
  | none =>
    rw [finishOneOff_miss hf] at hq
    simpa [hw] using Table.find?_eq_none.mp hf q hq
  | some t =>
    obtain ⟨hm, ht⟩ := Table.mem_of_find? hf
    obtain ⟨htid, hts, htst⟩ := finishWhere_true ht
    have hrow : ∀ q' : Task Q, q'.status ≠ .running →
        ¬tasks.Replaces t q' (finishOneOff env clock id startedAt o tasks) := by
      intro q' hne hrep
      rcases hrep.origin hq with rfl | ⟨-, hother⟩
      · exact hne hs
      · exact hother (hid.trans htid.symm)
    by_cases hr : t.requeue = none
    · by_cases hstore : storable (recordOutcome clock o t).error
      · rw [finishOneOff_record hf hr, if_pos hstore] at hrow
        refine hrow (recordOutcome clock o t) ?_ (flush_replaces hm rfl rfl)
        rcases ho with rfl | ho
        · exact TaskStatus.noConfusion
        · change o.status ≠ .running
          rw [ho]
          exact TaskStatus.noConfusion
      · simp [finishBlock, hf, hr, hstore, Except.isOk, Except.toBool] at h
    · rw [finishOneOff_requeue hf hr] at hrow
      cases ha : t.applyRequeue env with
      | error e => simp [finishBlock, hf, hr, ha, bind, Except.bind, Except.isOk, Except.toBool] at h
      | ok q' =>
        obtain ⟨spec, v, -, -, rfl⟩ := Task.applyRequeue_ok.mp ha
        rw [ha] at hrow
        exact hrow (t.fresh v) TaskStatus.noConfusion (flush_replaces hm rfl rfl)

end Rows

section Closing

variable {stamp : P → ℕ → Q} {env : Env Q} {croniter : Croniter} {repr : PyFloat → String}
  {cfg : ℕ → WorkerConfig} {s s' : Fleet P Q τ}

namespace Fleet

theorem owner_oneOff {i : ℕ} {r : Run Q} (hr : s.tasks.runs[i]? = some r) :
    s.owner (.oneOff i) = some (r.worker, r.phase) := by
  rw [owner, hr]
  rfl

def Closed (s : Fleet P Q τ) : Prop :=
  ∀ i r, s.tasks.runs[i]? = some r → r.phase = .recorded →
    .oneOff i ∉ (s.members r.worker).unwritten →
    ∀ t ∈ s.tasks.tasks, finishWhere r.task.id (some r.startedAt) t ≠ true

theorem Closed.move (hc : s.Closed) (ht : Carries s.tasks s'.tasks)
    (hu : ∀ w, ∀ r ∈ (s.members w).unwritten, r ∈ (s'.members w).unwritten)
    (hrec : ∀ i r, s'.tasks.runs[i]? = some r → r.phase = .recorded →
      .oneOff i ∉ (s'.members r.worker).unwritten →
      s.owner (.oneOff i) = some (r.worker, .recorded) ∨
        ∀ t ∈ s'.tasks.tasks, finishWhere r.task.id (some r.startedAt) t ≠ true) : s'.Closed := by
  intro i r' hr' hp' hn
  rcases hrec i r' hr' hp' hn with ho | hclosed
  · obtain ⟨r, hr, he⟩ := Option.map_eq_some_iff.mp ho
    obtain ⟨hworker, hphase⟩ := Prod.mk.inj he
    have htaken : s.tasks.taken[i]? = some (r.task, r.startedAt) := by
      rw [State.taken, List.getElem?_map, hr]
      rfl
    have htaken' : s'.tasks.taken[i]? = some (r'.task, r'.startedAt) := by
      rw [State.taken, List.getElem?_map, hr']
      rfl
    obtain ⟨htask, hstart⟩ :=
      Prod.mk.inj (Option.some.inj ((ht.taken i _ htaken).symm.trans htaken'))
    have hold := hc i r hr hphase fun hm => hn (hworker ▸ hu _ _ hm)
    intro q hq hw
    obtain ⟨hid, hs, hst⟩ := finishWhere_true hw
    rcases ht.rows q hq hs with ⟨t, hm, hts, hqid, hqst⟩ | ⟨startedAt, hqst, hnew⟩
    · refine hold t hm ?_
      simp [finishWhere, hts, ← hqid, hid, ← hqst, hst, htask, hstart]
    · obtain rfl : r'.startedAt = startedAt := Option.some.inj (hst.symm.trans hqst)
      refine hnew (List.mem_of_getElem? ((State.claims_getElem? hr).trans ?_))
      rw [hid, htask, hstart]
  · exact hclosed

theorem Moves.recorded {ref : RunRef} {w v i : ℕ} {phase : Phase} (hm : s.Moves s' ref w phase)
    (hp : phase ≠ .recorded) (ho : s'.owner (.oneOff i) = some (v, .recorded)) :
    s.owner (.oneOff i) = some (v, .recorded) := by
  rw [hm.owner] at ho
  by_cases hr : RunRef.oneOff i = ref
  · rw [hr, Function.update_self] at ho
    exact absurd (Prod.mk.inj (Option.some.inj ho)).2 hp
  · rw [Function.update_of_ne hr] at ho
    exact ho

theorem Moves.closed {ref : RunRef} {w : ℕ} {phase : Phase} {m : Member τ}
    (hm : s.Moves s' ref w phase)
    (hrec : phase = .recorded → ∀ i r, .oneOff i = ref → s'.tasks.runs[i]? = some r →
      ref ∉ m.unwritten → ∀ t ∈ s'.tasks.tasks, finishWhere r.task.id (some r.startedAt) t ≠ true)
    (hc : s.Closed) (ht : Carries s.tasks s'.tasks)
    (hu : ∀ r ∈ (s.members w).unwritten, r ∈ m.unwritten) : (s'.setMember w m).Closed := by
  refine hc.move ht ?_ fun i r hr hrp hn => ?_
  · intro v r hr
    change r ∈ (Function.update s'.members w m v).unwritten
    by_cases hv : v = w
    · rw [hv, Function.update_self]
      exact hu r (hv ▸ hr)
    · rw [Function.update_of_ne hv, hm.members]
      exact hr
  · have ho := owner_oneOff (s := s') hr
    rw [hm.owner] at ho
    by_cases href : RunRef.oneOff i = ref
    · rw [href, Function.update_self] at ho
      obtain ⟨hworker, hphase⟩ := Prod.mk.inj (Option.some.inj ho)
      change .oneOff i ∉ (Function.update s'.members w m r.worker).unwritten at hn
      rw [← hworker, Function.update_self, href] at hn
      exact .inr (hrec (hphase.trans hrp) i r href hr hn)
    · rw [Function.update_of_ne href, hrp] at ho
      exact .inl ho

theorem record_closes {i : ℕ} {clock : Timestamptz} {r : Run Q}
    (h : s.writeRun stamp env croniter repr clock (.oneOff i) = some s')
    (hc : s.commits env clock (.oneOff i)) (hr : s'.tasks.runs[i]? = some r) :
    ∀ t ∈ s'.tasks.tasks, finishWhere r.task.id (some r.startedAt) t ≠ true := by
  obtain ⟨r₀, e, o, hr₀, hp, ho, rfl⟩ := writeRun_oneOff h
  simp only [commits, hr₀, hp, ho, Option.any_some] at hc
  have hsame : r = { r₀ with phase := .recorded } := by
    simpa [State.setPhase, hr₀] using hr.symm
  rw [hsame]
  exact finishBlock_closes (RunEnd.outcome_sound ho) hc

variable [LinearOrder τ] {drain : ℕ → DrainTimeout τ} {start : ℕ → τ} {a : FleetAction P τ}

theorem closed_step (hacc : s.Accounts cfg) (hl : LockInv s.tasks) (hc : s.Closed)
    (hg : tableGuard cfg distinctClaims s a)
    (he : fleetStep stamp env croniter repr cfg drain start s a = some s') : s'.Closed := by
  have hstep := fleetStep_cases he
  have hcarries : Carries s.tasks s'.tasks := by
    rcases hstep.onTasks distinctClaims_ofLoop hg with hsame | ⟨b, hb, hd⟩
    · rw [hsame]
      exact .refl s.tasks
    · exact step_carries hl hd hb
  have hkeep : ∀ w, ∀ r ∈ (s.members w).unwritten, r ∈ (s.members w).unwritten := fun _ _ h => h
  cases hstep with
  | client ha ht =>
    refine hc.move hcarries hkeep fun i r hr hp _ => .inl ?_
    rw [← hp]
    exact owner_oneOff ((step_external ha ht).1 ▸ hr)
  | scheduler =>
    refine hc.move hcarries hkeep fun i r hr hp _ => .inl ?_
    rw [← hp]
    exact owner_oneOff hr
  | @worker w e x =>
    refine hc.move hcarries (fun v r hr => ?_) fun i r hr hp _ => .inl ?_
    · change r ∈ (Function.update s.members w { s.members w with worker := x } v).unwritten
      by_cases hv : v = w
      · rw [hv, Function.update_self]
        exact hv ▸ hr
      · rw [Function.update_of_ne hv]
        exact hr
    · rw [← hp]
      exact owner_oneOff hr
  | claim _ _ _ hclaim hs => exact (claim_moves hclaim hs).2.closed (fun h => by cases h) hc hcarries (hkeep _)
  | claimPeriodic _ _ _ hclaim hs =>
    exact (claimPeriodic_moves hclaim hs).2.closed (fun h => by cases h) hc hcarries (hkeep _)
  | forks hbusy hw _ hs =>
    obtain ⟨-, hm⟩ := hacc.forks_moves hw hbusy hs
    exact hm.closed (fun h => by cases h) hc hcarries (hkeep _)
  | startFails hbusy hw _ hs =>
    obtain ⟨-, hm⟩ := hacc.startFails_moves hw hbusy hs
    exact hm.closed (fun h => by cases h) hc hcarries (hkeep _)
  | reaps hw _ _ href _ hs =>
    obtain ⟨_, -, hm⟩ := hacc.reaps_moves hw (List.mem_of_getElem? href) hs
    exact hm.closed (fun h => by cases h) hc hcarries (hkeep _)
  | @writes w clock ref s₁ hbusy hw hs =>
    obtain ⟨_, -, hm⟩ := hacc.writes_moves hw hbusy hs
    refine hm.closed (fun _ i r href hr hn => ?_) hc hcarries fun r hr => ?_
    · have hcommits : s.commits env clock ref := by
        by_contra hno
        rw [if_neg hno] at hn
        exact hn List.mem_cons_self
      rw [← href] at hs hcommits
      exact record_closes hs hcommits hr
    · split_ifs
      exacts [hr, List.mem_cons_of_mem _ hr]
  | @writeFails w ref s₁ hbusy hw hs =>
    rcases hacc.drops_moves hw hbusy hs with rfl | ⟨_, -, hm⟩
    · refine hc.move hcarries (fun v r hr => ?_) fun i r hr hp _ => .inl ?_
      · change r ∈ (Function.update s₁.members w _ v).unwritten
        by_cases hv : v = w
        · rw [hv, Function.update_self]
          exact List.mem_cons_of_mem _ (hv ▸ hr)
        · rw [Function.update_of_ne hv]
          exact hr
      · rw [← hp]
        exact owner_oneOff hr
    · refine hm.closed (fun _ i r _ _ hn => absurd List.mem_cons_self hn) hc hcarries fun r hr => ?_
      exact List.mem_cons_of_mem _ hr
  | dies =>
    refine hc.move hcarries hkeep fun i r hr hp _ => .inl ?_
    rw [← hp]
    exact owner_oneOff hr
  | orphanEnds halive hw hs =>
    obtain ⟨v, phase, hv, -, hm⟩ := endRun_moves hs
    refine hc.move hcarries (fun u r hr => ?_) fun i r hr hp _ => .inl ?_
    · rw [hm.members]
      exact hr
    · have ho := owner_oneOff hr
      rw [hp] at ho
      exact hm.recorded Phase.noConfusion ho

theorem closed_reachable {now : Timestamptz}
    (h : (fleet stamp env croniter repr cfg drain start now).Reachable (tableGuard cfg distinctClaims) s) :
    s.Closed := by
  refine h.invariant_of_reachable (fun i r hr => ?_) fun s a s' hr hi hg he => ?_
  · cases hr
  · have hs : fleetStep stamp env croniter repr cfg drain start s a = some s' := he
    exact closed_step (accounts_reachable hr) (lockInv_reachable (fleet_tasks distinctClaims_ofLoop hr)) hi hg hs

end Fleet

variable [LinearOrder τ] {drain : ℕ → DrainTimeout τ} {start : ℕ → τ}

/-- The loop of the worker has returned, or a call of `run_worker_once` has. -/
inductive Member.HasReturned (cfg : WorkerConfig) (m : Member τ) : Prop
  | loop : m.worker.main.pc = .returned → HasReturned cfg m
  | once {processed : Bool} : cfg.mode = .sequential →
      m.worker.main.pc = .onceReturned processed → m.busy = .idle → HasReturned cfg m

omit [LinearOrder τ] in
theorem Member.HasReturned.quiet {m : Member τ} {c : WorkerConfig} (h : m.HasReturned c)
    (hm : Consistent c m.worker.main) : m.worker.main.live = [] ∧
      m.worker.main.pc.claiming = false ∧ ∀ ref, m.busy = .writing ref → m.worker.main.pc = .returned := by
  cases h with
  | loop hpc => exact ⟨by simp [Main.live, hpc, Pc.draining, Pc.held], by rw [hpc]; rfl, fun _ _ => hpc⟩
  | once hmode hpc hidle =>
    have hempty : m.worker.main.children.values = [] := by
      rw [OrderedDict.values, hm.sequential hmode, List.map_nil]
    refine ⟨?_, by rw [hpc]; rfl, fun ref hb => ?_⟩
    · simp [Main.live, hpc, Pc.draining, Pc.held, hempty]
    · cases hidle.symm.trans hb

/-- When the loop of a worker has returned, or its `run_worker_once`, every run it claimed from
either table has been recorded, and no row is RUNNING under a claim of it, but for the runs whose
write failed. -/
theorem graceful_exit {now : Timestamptz}
    (h : (fleet stamp env croniter repr cfg drain start now).Reachable (tableGuard cfg distinctClaims) s)
    {w : ℕ} (hw : w ∉ s.tasks.dead) (hret : (s.members w).HasReturned (cfg w)) :
    (∀ ref phase, s.owner ref = some (w, phase) →
      phase = .recorded ∨ ref ∈ (s.members w).unwritten) ∧
    ∀ i r, s.tasks.runs[i]? = some r → r.worker = w → ∀ t ∈ s.tasks.tasks, t.id = r.task.id →
      t.startedAt = some r.startedAt → t.status = .running →
      .oneOff i ∈ (s.members w).unwritten := by
  have hall := Fleet.accounts_reachable h
  have hacc := hall w hw
  obtain ⟨hlive, hnoclaim, hnowrite⟩ := hret.quiet hacc.consistent
  have hrecorded : ∀ ref phase, s.owner ref = some (w, phase) →
      phase = .recorded ∨ ref ∈ (s.members w).unwritten := by
    intro ref phase ho
    cases phase with
    | claimed =>
      obtain ⟨slot, hb⟩ := (hacc.claimed ref).mp ho
      have hclaiming := hacc.starting ref slot hb
      rw [hnoclaim] at hclaiming
      cases hclaiming
    | alive =>
      have hperm := hall.alive_perm hw
      rw [hlive, List.map_nil, List.perm_nil, List.map_eq_nil_iff] at hperm
      have hm : ref ∈ s.held w Phase.isAlive := Fleet.mem_held.mpr ⟨.alive, ho, rfl⟩
      rw [hperm] at hm
      cases hm
    | ended e =>
      rcases hacc.ended ref e ho with hb | hu
      · exact absurd (hnowrite ref hb) (hacc.writing ref hb).2.2
      · exact .inr hu
    | recorded => exact .inl rfl
  refine ⟨hrecorded, fun i r hr hworker t ht hid hst hs => ?_⟩
  by_contra hn
  have ho := Fleet.owner_oneOff hr
  rw [hworker] at ho
  have hp := (hrecorded _ _ ho).resolve_right hn
  refine Fleet.closed_reachable h i r hr hp (hworker ▸ hn) t ht ?_
  simp [finishWhere, hid, hs, hst]

end Closing

section Sample

def sampleExitRun : List (FleetAction String ℕ) :=
  sampleFleetRun ++ sampleSignal.map (.worker 0) ++
  [.worker 0 (.main (.claim .nothing)), .worker 0 (.main (.claim .nothing)),
    .worker 0 (.main (.ready []))] ++ loops 0 4 ++
  [.worker 0 (.childEnds 500 (.exited 0)), .reaps 0 ⟨"", "", ""⟩, .writes 0 20] ++ loops 0 1

def sampleExited : Fleet String String ℕ :=
  sampleFleet.run (tableGuard sampleModes distinctClaims) sampleExitRun

theorem graceful_exit_drained :
    sampleExited.owner (.oneOff 0) = some (0, .recorded) ∧
    (∀ ref phase, sampleExited.owner ref = some (0, phase) →
      phase = .recorded ∨ ref ∈ (sampleExited.members 0).unwritten) ∧
    ∀ i r, sampleExited.tasks.runs[i]? = some r → r.worker = 0 → ∀ t ∈ sampleExited.tasks.tasks,
      t.id = r.task.id → t.startedAt = some r.startedAt → t.status = .running →
      .oneOff i ∈ (sampleExited.members 0).unwritten := by
  have hreach : sampleFleet.Reachable (tableGuard sampleModes distinctClaims) sampleExited :=
    .of_run (by decide +kernel)
  exact ⟨by decide +kernel, graceful_exit hreach (by decide +kernel) (.loop rfl)⟩

end Sample

end PostgresQueue
