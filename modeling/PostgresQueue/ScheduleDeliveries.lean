import PostgresQueue.Deliveries
import PostgresQueue.ScheduleRemoval

namespace PostgresQueue

open Library System PeriodicClaim

section Replay

variable {P : Type}

theorem scheduled_of_replay {slot : Slot} {calls : List (BookCall P)} {e : Entry P}
    (h : replay slot calls = some e) :
    ∃ new, .scheduled slot new ∈ calls ∧ e.definition = new.definition := by
  induction calls using List.reverseRecOn generalizing e with
  | nil => cases h
  | append_singleton calls call ih =>
    have hearlier : ∀ e, replay slot calls = some e →
        ∃ new, .scheduled slot new ∈ calls ++ [call] ∧ e.definition = new.definition := by
      intro e he
      obtain ⟨new, hm, hd⟩ := ih he
      exact ⟨new, List.mem_append_left _ hm, hd⟩
    rw [replay, replayFrom_append] at h
    cases call with
    | scheduled place new =>
      rw [replayFrom_scheduled] at h
      split_ifs at h with hplace
      · subst hplace
        cases h
        exact ⟨new, List.mem_append_right _ (List.mem_singleton_self _), rfl⟩
      · exact hearlier e h
    | unscheduled place =>
      rw [replayFrom_unscheduled] at h
      split_ifs at h
      exact hearlier e h
    | cleared => cases h

theorem PeriodicClaim.run_active {croniter : Croniter} {c : PeriodicClaim} {rows rows' : Periodics P}
    {q : Periodic P} (h : c.run croniter rows = some (q, rows')) : q.active = true := by
  unfold PeriodicClaim.run at h
  split at h
  · cases h
  · rename_i p hs
    split at h
    · rename_i q' hw
      cases h
      simp only [written, bind_ok] at hw
      obtain ⟨lock, -, next, -, he⟩ := hw
      cases he
      obtain ⟨-, hdue, -⟩ := select_some hs
      simp only [dueWhere, Bool.and_eq_true] at hdue
      exact hdue.1.1.1
    · cases h

theorem accepted_some {croniter : Croniter} {repr : PyFloat → String} {s : PeriodicState P}
    {a : PeriodicAction P} {call : BookCall P} (h : s.accepted croniter repr a = some call) :
    ∃ conn c id, a = .schedule conn c ∧ c.announced croniter conn id = .ok call := by
  cases a with
  | schedule conn c =>
    rw [PeriodicState.accepted] at h
    split at h
    · rename_i id rows hs
      refine ⟨conn, c, id, rfl, ?_⟩
      cases hc : c.announced croniter conn id with
      | error e =>
        rw [hc] at h
        cases h
      | ok made =>
        rw [hc] at h
        cases h
        rfl
    · cases h
  | claim | start | finishes | release | releaseFails | dies | tick => cases h

theorem bookStep_claim {croniter : Croniter} {repr : PyFloat → String} {s t : Scheduling P}
    {worker : ℕ} {mode : Mode} {c : PeriodicClaim}
    (h : bookStep croniter repr s (.own (.claim worker mode c)) = some t) :
    t.calls = s.calls ∧ ∀ r ∈ t.tables.runs, r ∈ s.tables.runs ∨
      (r.row.active = true ∧ r.row ∈ t.tables.rows) := by
  obtain ⟨tables, ht, rfl⟩ := Option.map_eq_some_iff.mp h
  refine ⟨List.append_nil _, fun r hr => ?_⟩
  simp only [periodicStep] at ht
  split_ifs at ht
  split at ht
  · cases ht
    exact .inl hr
  · rename_i q rows hc
    cases ht
    rw [PeriodicState.claim, Mode.claimPeriodic_eq] at hc
    rcases List.mem_append.mp hr with hr | hr
    · exact .inl hr
    · obtain rfl := List.mem_singleton.mp hr
      obtain ⟨p, hrep, -⟩ := PeriodicClaim.run_entry hc
      exact .inr ⟨PeriodicClaim.run_active hc, hrep.mem_new⟩

end Replay

section Delivered

variable {F M O : Type}

/-- What a client schedules is made by `get_function_path` and `serialize` from one call. -/
def schedulesCalls (modules : ModuleEnv F M) (floatRepr : PyFloat → String) (p : Pickling O)
    (column : JsonbColumn) : BookAction (CallPayload F O) → Prop
  | .own (.schedule _ c) => ∀ path payload, c.task = .ok path → c.arguments = .ok payload →
      payload.call.StoredAs modules floatRepr p column path payload.json
  | _ => True

variable {modules : ModuleEnv F M} {floatRepr : PyFloat → String} {p : Pickling O}
  {column : JsonbColumn} {croniter : Croniter} {start : Timestamptz} {s : Scheduling (CallPayload F O)}

theorem announced_stored {conn : Conn} {c : Schedule (CallPayload F O)} {id : ℕ} {slot : Slot}
    {new : Entry (CallPayload F O)}
    (h : c.announced croniter conn id = .ok (.scheduled slot new)) :
    c.task = .ok slot.1 ∧ c.arguments = .ok new.definition.payload := by
  simp only [Schedule.announced, bind_ok] at h
  obtain ⟨cron, -, name, hname, payload, hpayload, he⟩ := h
  cases he
  exact ⟨hname, hpayload⟩

theorem calls_stored
    (h : (bookSystem croniter floatRepr start).Reachable
      (fun _ a => schedulesCalls modules floatRepr p column a) s)
    {slot : Slot} {new : Entry (CallPayload F O)} (hm : .scheduled slot new ∈ s.calls) :
    new.definition.payload.call.StoredAs modules floatRepr p column slot.1 new.definition.payload.json := by
  refine Reachable.invariant (I := fun s => ∀ slot new, .scheduled slot new ∈ s.calls →
    new.definition.payload.call.StoredAs modules floatRepr p column slot.1 new.definition.payload.json)
    ?_ ?_ h slot new hm
  · exact fun slot new hm => absurd hm List.not_mem_nil
  · intro s a t hi hg he slot new hm
    change bookStep croniter floatRepr s a = some t at he
    cases a with
    | own a =>
      obtain ⟨tables, -, rfl⟩ := Option.map_eq_some_iff.mp he
      rcases List.mem_append.mp hm with hm | hm
      · exact hi slot new hm
      · obtain ⟨conn, c, id, rfl, hannounced⟩ := accepted_some (Option.mem_toList.mp hm)
        obtain ⟨htask, harguments⟩ := announced_stored hannounced
        exact hg _ _ htask harguments
    | unschedule task key =>
      simp only [bookStep] at he
      split at he
      · rename_i name found rows hu
        cases he
        rcases List.mem_append.mp hm with hm | hm
        · exact hi slot new hm
        · cases found with
          | true => cases List.mem_singleton.mp hm
          | false => cases hm
      · cases he
        exact hi slot new hm
    | clearAll =>
      cases he
      rcases List.mem_append.mp hm with hm | hm
      · exact hi slot new hm
      · cases List.mem_singleton.mp hm

theorem rows_stored
    (h : (bookSystem croniter floatRepr start).Reachable
      (fun _ a => schedulesCalls modules floatRepr p column a) s)
    {row : Periodic (CallPayload F O)} (hm : row ∈ s.tables.rows) :
    row.payload.call.StoredAs modules floatRepr p column row.name row.payload.json := by
  have hreplay := replayed (h.mono fun _ _ _ => trivial) row.slot
  rw [held_of_mem hm] at hreplay
  obtain ⟨new, hnew, hdefinition⟩ := scheduled_of_replay hreplay.symm
  have hpayload : row.payload = new.definition.payload := congrArg Definition.payload hdefinition
  rw [hpayload]
  exact calls_stored h hnew

theorem periodicRuns_stored
    (h : (bookSystem croniter floatRepr start).Reachable
      (fun _ a => schedulesCalls modules floatRepr p column a) s)
    {r : PeriodicRun (CallPayload F O)} (hm : r ∈ s.tables.runs) :
    r.row.payload.call.StoredAs modules floatRepr p column r.row.name r.row.payload.json := by
  refine Reachable.invariant_of_reachable (I := fun s => ∀ r ∈ s.tables.runs,
    r.row.payload.call.StoredAs modules floatRepr p column r.row.name r.row.payload.json) ?_ ?_ h r hm
  · exact fun r hr => absurd hr List.not_mem_nil
  · intro s a t hs hi hg he r hr
    rcases (succeeds_step he).2 r hr with ⟨r', hr', hrow⟩ | hrow
    · exact hrow ▸ hi r' hr'
    · exact rows_stored (hs.step hg he) hrow

/-- A run of a schedule calls what the last `schedule()` before its claim asked for. -/
theorem ticks_deliver_calls (hp : p.Inverts) (hcolumn : column.Keeps floatRepr)
    (h : (bookSystem croniter floatRepr start).Reachable
      (fun _ a => schedulesCalls modules floatRepr p column a) s) :
    (∀ r ∈ s.tables.runs, LeadsBack modules r.row.payload.call.func →
      (∀ k ∈ r.row.payload.call.kwargs.keys, NoPair k) →
      r.row.payload.call.DeliveredBy modules floatRepr p r.row.name r.row.payload.json) ∧
    ∀ worker mode c t, bookStep croniter floatRepr s (.own (.claim worker mode c)) = some t →
      ∀ r ∈ t.tables.runs, r ∈ s.tables.runs ∨
        (r.row.active = true ∧ replay r.row.slot s.calls = some r.row.entry) := by
  refine ⟨fun r hr hback hnames => (periodicRuns_stored h hr).deliveredBy hp hcolumn hback hnames, ?_⟩
  intro worker mode c t he r hr
  obtain ⟨hcalls, hruns⟩ := bookStep_claim he
  rcases hruns r hr with hr | ⟨hactive, hrow⟩
  · exact .inl hr
  · have hstep : (bookSystem croniter floatRepr start).step s (.own (.claim worker mode c)) =
        some t := he
    have hreach : (bookSystem croniter floatRepr start).Reachable free t :=
      (h.mono fun _ _ _ => trivial).step trivial hstep
    refine .inr ⟨hactive, ?_⟩
    rw [← hcalls, ← replayed hreach, held_of_mem hrow]

def scheduledCall (every : ℤ) : Schedule (CallPayload SampleCallable Unit) where
  task := .ok "jobs:handler"
  arguments := .ok sampleCallPayload
  runEvery := some every
  cron := none
  priority := 0
  clientId := none
  maxConcurrent := some 1
  key := ""
  active := true
  maxRuntimeSeconds := none
  now := 0

def scheduledTwice : List (BookAction (CallPayload SampleCallable Unit)) :=
  [.own (.schedule sampleConn (scheduledCall 1000000)),
    .own (.schedule sampleConn (scheduledCall 2000000)),
    .own (.claim 0 .sequential ⟨sampleConn, none, .finite 1800, 0, []⟩)]

def ticked : Scheduling (CallPayload SampleCallable Unit) :=
  (bookSystem sampleCroniter (fun _ => "") 0).run free scheduledTwice

theorem scheduledTwice_schedulesCalls : ∀ a ∈ scheduledTwice,
    schedulesCalls sampleModules (fun _ => "") samplePickling sampleColumn a := by
  have hstored : ∀ every path payload, (scheduledCall every).task = .ok path →
      (scheduledCall every).arguments = .ok payload →
      payload.call.StoredAs sampleModules (fun _ => "") samplePickling sampleColumn path payload.json := by
    rintro every path payload ⟨⟩ ⟨⟩
    exact ⟨rfl, _, _, rfl, rfl, rfl⟩
  simp only [scheduledTwice, List.forall_mem_cons]
  exact ⟨hstored _, hstored _, trivial, fun a ha => absurd ha List.not_mem_nil⟩

theorem ticks_deliver_calls_rescheduled : ticked.tables.runs.length = 1 ∧
    (∀ r ∈ ticked.tables.runs, LeadsBack sampleModules r.row.payload.call.func →
      (∀ k ∈ r.row.payload.call.kwargs.keys, NoPair k) →
      r.row.payload.call.DeliveredBy sampleModules (fun _ => "") samplePickling r.row.name
        r.row.payload.json) ∧
    ∀ worker mode c t,
      bookStep sampleCroniter (fun _ => "") ticked (.own (.claim worker mode c)) = some t →
      ∀ r ∈ t.tables.runs, r ∈ ticked.tables.runs ∨
        (r.row.active = true ∧ replay r.row.slot ticked.calls = some r.row.entry) :=
  ⟨by decide +kernel, ticks_deliver_calls samplePickling_inverts (sampleColumn_keeps _)
    ⟨_, (Steps.of_run (by decide +kernel)).of_forall_mem scheduledTwice_schedulesCalls⟩⟩

end Delivered

end PostgresQueue
