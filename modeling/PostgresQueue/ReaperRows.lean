import PostgresQueue.RowForm

namespace PostgresQueue

open Library

variable {P : Type}

namespace Reap

variable (r : Reap)

/-- `max(T, 2m)`, and `T` alone without an `m`. -/
def windowSeconds (t : Task P) : ℚ :=
  match t.maxRuntimeSeconds with
  | some (.finite q) => max r.threshold (2 * q)
  | _ => r.threshold

def window (t : Task P) : ℤ := roundHalfEven (r.windowSeconds t * 1000000)

def Stale (t : Task P) : Prop :=
  t.status = .running ∧ ∃ s ∈ t.startedAt, s < r.now - r.window t

instance (t : Task P) : Decidable (r.Stale t) := by unfold Stale; infer_instance

inductive Reaped (env : Env P) (t : Task P) : Task P → Prop
  | failed : r.Stale t → t.requeue = none → Reaped env t (r.fail env t)
  | requeued {spec : JsonObject P} {v : Version P} : r.Stale t → t.requeue = some spec →
      spec.Encodes env v → Reaped env t (t.fresh v)
  | kept : ¬r.Stale t → Reaped env t t

structure Measurable (t : Task P) : Prop where
  twice : ∀ q, t.maxRuntimeSeconds = some (.finite q) → 2 * q ≤ float8Max
  interval : r.window t < 2 ^ 63
  cutoff : timestamptzInRange (r.now - r.window t) = true

def Reads (env : Env P) (t : Task P) : Prop :=
  ∀ spec, t.requeue = some spec → ∃ v, spec.Encodes env v

def ReapsEach (env : Env P) (tasks : Tasks P) : Prop :=
  ∃ tasks', reapStaleTasks env r tasks = (.ok (tasks.rows.countP fun t => r.Stale t), tasks') ∧
    tasks'.next = tasks.next ∧ (∀ t ∈ tasks, ∃ q ∈ tasks', r.Reaped env t q) ∧ ∀ q ∈ tasks', ∃ t ∈ tasks, r.Reaped env t q

end Reap

section Measure

variable {r : Reap} {t : Task P}

theorem validated_maxRuntime {repr : PyFloat → String}
    (h : validateMaxRuntime repr t.maxRuntimeSeconds = .ok ()) :
    t.maxRuntimeSeconds = none ∨ ∃ q, 0 < q ∧ t.maxRuntimeSeconds = some (.finite q) := by
  cases hm : t.maxRuntimeSeconds with
  | none => exact .inl rfl
  | some x =>
    obtain ⟨q, hq, rfl⟩ := validateMaxRuntime_ok.mp h x hm
    exact .inr ⟨q, hq, rfl⟩

theorem greatest_finite (a b : ℚ) :
    PyFloat.greatest (.finite a) (.finite b) = .finite (max a b) := by
  unfold PyFloat.greatest PyFloat.le
  rw [max_def]
  simp only [decide_eq_true_eq]
  split_ifs <;> rfl

theorem effectiveThreshold_ok {repr : PyFloat → String}
    (h : validateMaxRuntime repr t.maxRuntimeSeconds = .ok ()) (x : PyFloat) :
    effectiveThreshold r.threshold t.maxRuntimeSeconds = .ok x ↔
      (∀ q, t.maxRuntimeSeconds = some (.finite q) → 2 * q ≤ float8Max) ∧
        x = .finite (r.windowSeconds t) := by
  unfold Reap.windowSeconds
  rcases validated_maxRuntime h with hm | ⟨q, hq, hm⟩
  · rw [hm]
    simp [effectiveThreshold, greatest_finite, bind, Except.bind, pure, Except.pure, eq_comm]
  · have habs : |2 * q| = 2 * q := abs_of_pos (by linarith)
    simp only [hm, effectiveThreshold, PyFloat.double, habs, Option.some.injEq,
      PyFloat.finite.injEq, forall_eq']
    split_ifs with hle
    · simp [hle, greatest_finite, bind, Except.bind, pure, Except.pure, eq_comm]
    · simp [hle, bind, Except.bind]

theorem staleCutoff_ok {repr : PyFloat → String} (h0 : 0 ≤ r.threshold)
    (h : validateMaxRuntime repr t.maxRuntimeSeconds = .ok ()) (cutoff : Timestamptz) :
    r.staleCutoff t = .ok cutoff ↔ r.Measurable t ∧ cutoff = r.now - r.window t := by
  have hsecs : 0 ≤ r.windowSeconds t := by
    unfold Reap.windowSeconds
    split
    · exact h0.trans (le_max_left _ _)
    · exact h0
  have hlow : 0 ≤ r.window t := le_roundHalfEven (by push_cast; positivity)
  have hinterval : ∀ i, (PyFloat.finite (r.windowSeconds t)).makeInterval = .ok i ↔
      r.window t < 2 ^ 63 ∧ i = r.window t := by
    intro i
    unfold PyFloat.makeInterval
    change (if -2 ^ 63 ≤ r.window t ∧ r.window t < 2 ^ 63 then Except.ok (r.window t) else _) = _ ↔ _
    by_cases hlt : r.window t < 2 ^ 63
    · rw [if_pos ⟨by omega, hlt⟩, and_iff_right hlt, Except.ok.injEq, eq_comm]
    · rw [if_neg fun hand => hlt hand.2]
      exact iff_of_false (fun h => nomatch h) fun hand => hlt hand.1
  have htimestamp : timestamptz (r.now - r.window t) = .ok cutoff ↔
      timestamptzInRange (r.now - r.window t) = true ∧ cutoff = r.now - r.window t := by
    unfold timestamptz
    split_ifs with hr <;> simp [hr, eq_comm]
  unfold Reap.staleCutoff
  simp only [bind_ok, effectiveThreshold_ok h]
  constructor
  · rintro ⟨_, ⟨htwice, rfl⟩, i, hi, hc⟩
    obtain ⟨hlt, rfl⟩ := (hinterval i).mp hi
    obtain ⟨hrange, rfl⟩ := htimestamp.mp hc
    exact ⟨⟨htwice, hlt, hrange⟩, rfl⟩
  · rintro ⟨⟨htwice, hlt, hrange⟩, rfl⟩
    exact ⟨_, ⟨htwice, rfl⟩, _, (hinterval _).mpr ⟨hlt, rfl⟩, htimestamp.mpr ⟨hrange, rfl⟩⟩

theorem isStale_ok {repr : PyFloat → String} (h0 : 0 ≤ r.threshold)
    (h : validateMaxRuntime repr t.maxRuntimeSeconds = .ok ()) (hit : Bool) :
    r.isStale t = .ok hit ↔ r.Measurable t ∧
      hit = decide (∃ s ∈ t.startedAt, s < r.now - r.window t) := by
  have hany : (t.startedAt.any fun s => decide (s < r.now - r.window t)) =
      decide (∃ s ∈ t.startedAt, s < r.now - r.window t) := by
    cases t.startedAt <;> simp
  unfold Reap.isStale
  simp only [bind_ok, staleCutoff_ok h0 h]
  constructor
  · rintro ⟨_, ⟨hm, rfl⟩, heq⟩
    rw [← hany]
    exact ⟨hm, (Except.ok.inj heq).symm⟩
  · rintro ⟨hm, rfl⟩
    exact ⟨_, ⟨hm, rfl⟩, congrArg Except.ok hany⟩

theorem failWhere_ok {repr : PyFloat → String} (h0 : 0 ≤ r.threshold)
    (h : validateMaxRuntime repr t.maxRuntimeSeconds = .ok ()) :
    ((∃ hit, r.failWhere t = .ok hit) ↔ (t.status = .running → t.requeue = none → r.Measurable t)) ∧
    (r.failWhere t = .ok true ↔ r.Measurable t ∧ r.Stale t ∧ t.requeue = none) := by
  unfold Reap.failWhere Reap.Stale
  by_cases hc : t.status = .running ∧ t.requeue = none
  · simp [hc, isStale_ok h0 h]
  · rw [if_neg hc]
    rw [not_and] at hc
    refine ⟨iff_of_true ⟨_, rfl⟩ fun hs hn => absurd hn (hc hs), iff_of_false (fun h => nomatch h) ?_⟩
    rintro ⟨-, ⟨hs, -⟩, hn⟩
    exact hc hs hn

theorem requeueWhere_ok {repr : PyFloat → String} (h0 : 0 ≤ r.threshold)
    (h : validateMaxRuntime repr t.maxRuntimeSeconds = .ok ()) :
    ((∃ hit, r.requeueWhere t = .ok hit) ↔
      (t.status = .running → t.requeue ≠ none → r.Measurable t)) ∧
    (r.requeueWhere t = .ok true ↔ r.Measurable t ∧ r.Stale t ∧ t.requeue ≠ none) := by
  unfold Reap.requeueWhere Reap.Stale
  by_cases hc : t.status = .running ∧ t.requeue ≠ none
  · simp [hc, isStale_ok h0 h]
  · rw [if_neg hc]
    rw [not_and] at hc
    refine ⟨iff_of_true ⟨_, rfl⟩ fun hs hn => absurd hn (hc hs), iff_of_false (fun h => nomatch h) ?_⟩
    rintro ⟨-, ⟨hs, -⟩, hn⟩
    exact hc hs hn

end Measure

section Reap

variable {env : Env P} {r : Reap} {tasks : Tasks P}

theorem requeueAll_isOk {ts : List (Task P)} (h : ∀ t ∈ ts, ∃ q, t.applyRequeue env = .ok q)
    (tasks : Tasks P) : ∃ tasks', requeueAll env ts tasks = .ok tasks' := by
  induction ts generalizing tasks with
  | nil => exact ⟨tasks, rfl⟩
  | cons t ts ih =>
    obtain ⟨fresh, hf⟩ := h t List.mem_cons_self
    obtain ⟨tasks', hrest⟩ := ih (fun q hq => h q (List.mem_cons_of_mem _ hq)) (flush fresh tasks)
    exact ⟨tasks', bind_ok.mpr ⟨fresh, hf, hrest⟩⟩

theorem mem_of_reaped {failing requeueing : List (Task P)}
    (hfail : ∀ t, t ∈ failing ↔ t ∈ tasks ∧ r.failWhere t = .ok true)
    (hreq : ∀ t, t ∈ requeueing ↔ t ∈ tasks ∧ r.requeueWhere t = .ok true) :
    ∀ t ∈ failing ++ requeueing, t ∈ tasks := by
  intro t ht
  rcases List.mem_append.mp ht with ht | ht
  · exact ((hfail t).mp ht).1
  · exact ((hreq t).mp ht).1

theorem selects_isOk {n : ℕ} {tasks' : Tasks P}
    (h : reapStaleTasks env r tasks = (.ok n, tasks')) :
    (∀ t ∈ tasks, ∃ hit, r.failWhere t = .ok hit) ∧
      ∀ t ∈ tasks, t.requeue ≠ none → ∃ hit, r.requeueWhere t = .ok hit := by
  have h := session_ok.mp h
  simp only [bind_ok] at h
  obtain ⟨failing, hf, requeueing, hr, -⟩ := h
  have hfail := fun t => Table.mem_select hf (r := t)
  refine ⟨Table.select_isOk.mp ⟨failing, hf⟩, fun t ht hne => ?_⟩
  apply Table.select_isOk.mp ⟨requeueing, hr⟩
  rw [Table.mem_rows, mem_update_fail env r fun p hp => ((hfail p).mp hp).1]
  refine .inr ⟨ht, fun p hp he => ?_⟩
  obtain ⟨hpm, hpw⟩ := (hfail p).mp hp
  rw [← tasks.eq_of_key ht hpm he] at hpw
  exact hne (Reap.failWhere_true hpw).2.1

theorem reapStaleTasks_of_measurable (h0 : 0 ≤ r.threshold)
    (hvalid : ∀ t ∈ tasks, validateMaxRuntime env.floatRepr t.maxRuntimeSeconds = .ok ())
    (hmeasurable : ∀ t ∈ tasks, t.status = .running → r.Measurable t)
    (hreads : ∀ t ∈ tasks, r.Stale t → t.requeue ≠ none → ∃ q, t.applyRequeue env = .ok q) :
    ∃ n tasks', reapStaleTasks env r tasks = (.ok n, tasks') := by
  obtain ⟨failing, hf⟩ := Table.select_isOk.mpr fun t ht =>
    (failWhere_ok h0 (hvalid t ht)).1.mpr fun hs _ => hmeasurable t ht hs
  have hupd := mem_update_fail env r fun t ht => ((Table.mem_select hf (r := t)).mp ht).1
  have hrows : ∀ q ∈ (tasks.update (fun t => (failing.map Task.id).contains t.id) (r.fail env)).rows,
      q.status ≠ .running ∨ q ∈ tasks := by
    intro q hq
    rcases (hupd q).mp hq with ⟨t, -, rfl⟩ | ⟨hq, -⟩
    · exact .inl nofun
    · exact .inr hq
  have hrequeue : ∀ q ∈ (tasks.update (fun t => (failing.map Task.id).contains t.id)
      (r.fail env)).rows, ∃ hit, r.requeueWhere q = .ok hit := by
    intro q hq
    rcases hrows q hq with hs | ht
    · have hnot : ¬(q.status = .running ∧ q.requeue ≠ none) := fun hand => hs hand.1
      exact ⟨false, if_neg hnot⟩
    · exact (requeueWhere_ok h0 (hvalid q ht)).1.mpr fun hs _ => hmeasurable q ht hs
  obtain ⟨requeueing, hr⟩ := Table.select_isOk.mpr hrequeue
  have hparked : ∀ t ∈ requeueing, ∃ q, t.applyRequeue env = .ok q := by
    intro t ht
    obtain ⟨hm, htrue⟩ := (Table.mem_select hr (r := t)).mp ht
    have ht' := (hrows t hm).resolve_left fun hs => hs (Reap.requeueWhere_true htrue).1
    obtain ⟨-, hstale, hne⟩ := (requeueWhere_ok h0 (hvalid t ht')).2.mp htrue
    exact hreads t ht' hstale hne
  obtain ⟨tasks', hw⟩ := requeueAll_isOk hparked
    (tasks.update (fun t => (failing.map Task.id).contains t.id) (r.fail env))
  exact ⟨_, _, session_ok.mpr (bind_ok.mpr ⟨failing, hf, bind_ok.mpr ⟨requeueing, hr,
    bind_ok.mpr ⟨tasks', hw, rfl⟩⟩⟩)⟩

theorem reapStaleTasks_isOk (h0 : 0 ≤ r.threshold)
    (hvalid : ∀ t ∈ tasks, validateMaxRuntime env.floatRepr t.maxRuntimeSeconds = .ok ()) :
    (∃ n tasks', reapStaleTasks env r tasks = (.ok n, tasks')) ↔
      (∀ t ∈ tasks, t.status = .running → r.Measurable t) ∧
        ∀ t ∈ tasks, r.Stale t → t.requeue ≠ none → ∃ q, t.applyRequeue env = .ok q := by
  constructor
  · rintro ⟨n, tasks', h⟩
    obtain ⟨hfailOk, hreqOk⟩ := selects_isOk h
    have hmeasurable : ∀ t ∈ tasks, t.status = .running → r.Measurable t := by
      intro t ht hs
      by_cases hq : t.requeue = none
      · exact (failWhere_ok h0 (hvalid t ht)).1.mp (hfailOk t ht) hs hq
      · exact (requeueWhere_ok h0 (hvalid t ht)).1.mp (hreqOk t ht hq) hs hq
    refine ⟨hmeasurable, fun t ht hstale hne => ?_⟩
    obtain ⟨failing, requeueing, hw, hfail, hreq, hids, -⟩ := reapStaleTasks_ok h
    obtain ⟨-, hall, -⟩ := Reap.write_ok (mem_of_reaped hfail hreq) hids hw
    exact hall t ((hreq t).mpr ⟨ht, (requeueWhere_ok h0 (hvalid t ht)).2.mpr
      ⟨hmeasurable t ht hstale.1, hstale, hne⟩⟩)
  · rintro ⟨hmeasurable, hreads⟩
    exact reapStaleTasks_of_measurable h0 hvalid hmeasurable hreads

theorem reaped_length {failing requeueing : List (Task P)}
    (hids : ((failing ++ requeueing).map Task.id).Nodup)
    (hmem : ∀ t, t ∈ failing ++ requeueing ↔ t ∈ tasks ∧ r.Stale t) :
    (failing ++ requeueing).length = tasks.rows.countP fun t => r.Stale t := by
  have hnodup : (tasks.rows.filter fun t => r.Stale t).Nodup :=
    List.Nodup.filter _ (List.Nodup.of_map _ tasks.key_nodup)
  rw [List.countP_eq_length_filter]
  apply List.Perm.length_eq
  rw [List.perm_ext_iff_of_nodup (List.Nodup.of_map _ hids) hnodup]
  intro t
  rw [hmem, List.mem_filter, decide_eq_true_eq, Table.mem_rows]

theorem reapsEach_of_ok (h0 : 0 ≤ r.threshold)
    (hvalid : ∀ t ∈ tasks, validateMaxRuntime env.floatRepr t.maxRuntimeSeconds = .ok ())
    (hmeasurable : ∀ t ∈ tasks, t.status = .running → r.Measurable t) {n : ℕ} {tasks' : Tasks P}
    (h : reapStaleTasks env r tasks = (.ok n, tasks')) : r.ReapsEach env tasks := by
  obtain ⟨failing, requeueing, hw, hfail, hreq, hids, rfl⟩ := reapStaleTasks_ok h
  obtain ⟨hnext, hall, hiff⟩ := Reap.write_ok (mem_of_reaped hfail hreq) hids hw
  have hfailing : ∀ t, t ∈ failing ↔ t ∈ tasks ∧ r.Stale t ∧ t.requeue = none := by
    intro t
    rw [hfail]
    refine and_congr_right fun ht => ?_
    rw [(failWhere_ok h0 (hvalid t ht)).2]
    exact and_iff_right_of_imp fun hand => hmeasurable t ht hand.1.1
  have hrequeueing : ∀ t, t ∈ requeueing ↔ t ∈ tasks ∧ r.Stale t ∧ t.requeue ≠ none := by
    intro t
    rw [hreq]
    refine and_congr_right fun ht => ?_
    rw [(requeueWhere_ok h0 (hvalid t ht)).2]
    exact and_iff_right_of_imp fun hand => hmeasurable t ht hand.1.1
  have hmem : ∀ t, t ∈ failing ++ requeueing ↔ t ∈ tasks ∧ r.Stale t := by
    intro t
    rw [List.mem_append, hfailing, hrequeueing]
    tauto
  have hrequeued : ∀ t q, t ∈ requeueing → t.applyRequeue env = .ok q → r.Reaped env t q := by
    intro t q ht hq
    obtain ⟨spec, v, hspec, hv, rfl⟩ := Task.applyRequeue_ok.mp hq
    exact .requeued ((hrequeueing t).mp ht).2.1 hspec hv
  refine ⟨tasks', by rw [h, reaped_length hids hmem], hnext, fun t ht => ?_, fun q hq => ?_⟩
  · by_cases hstale : r.Stale t
    · by_cases hr : t.requeue = none
      · exact ⟨r.fail env t, (hiff _).mpr (.inl ⟨t, (hfailing t).mpr ⟨ht, hstale, hr⟩, rfl⟩),
          .failed hstale hr⟩
      · have hin := (hrequeueing t).mpr ⟨ht, hstale, hr⟩
        obtain ⟨q, hq⟩ := hall t hin
        exact ⟨q, (hiff q).mpr (.inr (.inl ⟨t, hin, hq⟩)), hrequeued t q hin hq⟩
    · refine ⟨t, (hiff t).mpr (.inr (.inr ⟨ht, fun p hp he => ?_⟩)), .kept hstale⟩
      obtain ⟨hpm, hps⟩ := (hmem p).mp hp
      rw [tasks.eq_of_key ht hpm he] at hstale
      exact hstale hps
  · rcases (hiff q).mp hq with ⟨t, ht, rfl⟩ | ⟨t, ht, hr⟩ | ⟨ht, hne⟩
    · obtain ⟨hm, hstale, hr⟩ := (hfailing t).mp ht
      exact ⟨t, hm, .failed hstale hr⟩
    · exact ⟨t, ((hrequeueing t).mp ht).1, hrequeued t q ht hr⟩
    · exact ⟨q, ht, .kept fun hstale => hne q ((hmem q).mpr ⟨ht, hstale⟩) rfl⟩

/-- Each row is reaped on its own unless one row that runs has a limit that Postgres cannot turn into
a cutoff, or one that is to be re-queued has no version to go back to. -/
theorem rows_reaped_alone (h0 : 0 ≤ r.threshold)
    (hvalid : ∀ t ∈ tasks, validateMaxRuntime env.floatRepr t.maxRuntimeSeconds = .ok ()) :
    r.ReapsEach env tasks ↔ (∀ t ∈ tasks, t.status = .running → r.Measurable t) ∧
      ∀ t ∈ tasks, r.Stale t → Reap.Reads env t := by
  have hreads : (∀ t ∈ tasks, r.Stale t → t.requeue ≠ none → ∃ q, t.applyRequeue env = .ok q) ↔
      ∀ t ∈ tasks, r.Stale t → Reap.Reads env t := by
    refine forall₃_congr fun t _ _ => ?_
    unfold Reap.Reads
    cases hq : t.requeue with
    | none => simp
    | some spec => simp [Task.applyRequeue_ok, hq]
  rw [← hreads, ← reapStaleTasks_isOk h0 hvalid]
  constructor
  · rintro ⟨tasks', h, -⟩
    exact ⟨_, tasks', h⟩
  · rintro ⟨n, tasks', h⟩
    exact reapsEach_of_ok h0 hvalid ((reapStaleTasks_isOk h0 hvalid).mp ⟨n, tasks', h⟩).1 h

end Reap

section Sample

def sampleLimited (maxRuntimeSeconds : PyFloat) : Tasks String :=
  let claim (tasks : Tasks String) := (Claim.run ⟨10, none, 10, []⟩ tasks).elim tasks Prod.snd
  let limited := { sampleUpsert "b" with
    clientId := "limited"
    maxRuntimeSeconds := some maxRuntimeSeconds }
  claim (claim (upsert sampleEnv sampleConn limited
    (upsert sampleEnv sampleConn (sampleUpsert "a") Table.empty).2).2)

def hourlyReap : Reap := ⟨3600, 10 ^ 11, 10 ^ 11⟩

theorem rows_reaped_alone_day : hourlyReap.ReapsEach sampleEnv (sampleLimited (.finite 86400)) ↔
    (∀ t ∈ sampleLimited (.finite 86400), t.status = .running → hourlyReap.Measurable t) ∧
      ∀ t ∈ sampleLimited (.finite 86400), hourlyReap.Stale t → Reap.Reads sampleEnv t := by
  have hvalid : ∀ t ∈ (sampleLimited (.finite 86400)).rows,
      validateMaxRuntime (sampleEnv : Env String).floatRepr t.maxRuntimeSeconds = .ok () := by
    decide +kernel
  exact rows_reaped_alone (by decide +kernel) hvalid

/-- `enqueue` takes `10 ^ 12` seconds. Twice that is before what Postgres has a date for. -/
theorem limit_blocks_reap : ¬∀ (r : Reap) (tasks : Tasks String), 0 ≤ r.threshold →
    (∀ t ∈ tasks, validateMaxRuntime (sampleEnv : Env String).floatRepr t.maxRuntimeSeconds =
      .ok ()) → r.ReapsEach sampleEnv tasks := by
  intro h
  have hvalid : ∀ t ∈ (sampleLimited (.finite (10 ^ 12))).rows,
      validateMaxRuntime (sampleEnv : Env String).floatRepr t.maxRuntimeSeconds = .ok () := by
    decide +kernel
  have hraises : (reapStaleTasks sampleEnv hourlyReap (sampleLimited (.finite (10 ^ 12)))).1 =
      .error .dataError := by
    decide +kernel
  obtain ⟨tasks', hreap, -⟩ := h hourlyReap _ (by decide +kernel) hvalid
  rw [hreap] at hraises
  cases hraises

end Sample

end PostgresQueue
