import PostgresQueue.Client
import PostgresQueue.Library.Rounding

namespace PostgresQueue

open Library

variable {P : Type}

def float8Max : ℚ := (2 ^ 53 - 1) * 2 ^ 971

namespace PyFloat

def double : PyFloat → Except PyError PyFloat
  | .finite q => if |2 * q| ≤ float8Max then .ok (.finite (2 * q)) else .error .dataError
  | x => .ok x

/-- The order of `float8` in Postgres: NaN is above everything. -/
def le : PyFloat → PyFloat → Bool
  | _, .nan => true
  | .nan, _ => false
  | _, .inf false => true
  | .inf false, _ => false
  | .inf true, _ => true
  | _, .inf true => false
  | .finite a, .finite b => decide (a ≤ b)

def greatest (a b : PyFloat) : PyFloat := if a.le b then b else a

/-- `make_interval(secs => x)` in microseconds. -/
def makeInterval : PyFloat → Except PyError ℤ
  | .finite q =>
    if -2 ^ 63 ≤ roundHalfEven (q * 1000000) ∧ roundHalfEven (q * 1000000) < 2 ^ 63 then
      .ok (roundHalfEven (q * 1000000))
    else .error .dataError
  | _ => .error .dataError

end PyFloat

def effectiveThreshold (threshold : ℚ) (maxRuntimeSeconds : Option PyFloat) :
    Except PyError PyFloat := do
  let twice ← match maxRuntimeSeconds with
    | some m => m.double
    | none => .ok (.finite threshold)
  return PyFloat.greatest (.finite threshold) twice

structure Reap where
  threshold : ℚ
  clock : Timestamptz
  now : Timestamptz

namespace Reap

def staleCutoff (r : Reap) (t : Task P) : Except PyError Timestamptz := do
  let seconds ← effectiveThreshold r.threshold t.maxRuntimeSeconds
  let interval ← seconds.makeInterval
  timestamptz (r.now - interval)

def isStale (r : Reap) (t : Task P) : Except PyError Bool := do
  let cutoff ← r.staleCutoff t
  return t.startedAt.any fun s => decide (s < cutoff)

def failWhere (r : Reap) (t : Task P) : Except PyError Bool :=
  if t.status = .running ∧ t.requeue = none then r.isStale t else .ok false

def requeueWhere (r : Reap) (t : Task P) : Except PyError Bool :=
  if t.status = .running ∧ t.requeue ≠ none then r.isStale t else .ok false

def perRowError (env : Env P) (r : Reap) (t : Task P) : String :=
  "Reaped: task still RUNNING past its stale window (default threshold=" ++
    env.floatText (.finite r.threshold) ++ " s, per-task max_runtime_seconds=" ++
    (t.maxRuntimeSeconds.elim "NULL" env.floatText) ++ ", effective threshold=" ++
    ((effectiveThreshold r.threshold t.maxRuntimeSeconds).toOption.elim "" env.floatText) ++
    " s). Worker likely died."

def fail (env : Env P) (r : Reap) (t : Task P) : Task P :=
  { t with
    status := .failed
    completedAt := some r.clock
    error := some (r.perRowError env t) }

theorem failWhere_true {r : Reap} {t : Task P} (h : r.failWhere t = .ok true) :
    t.status = .running ∧ t.requeue = none ∧ r.isStale t = .ok true := by
  unfold failWhere at h
  split_ifs at h with hc
  · exact ⟨hc.1, hc.2, h⟩
  · cases h

theorem requeueWhere_true {r : Reap} {t : Task P} (h : r.requeueWhere t = .ok true) :
    t.status = .running ∧ t.requeue ≠ none ∧ r.isStale t = .ok true := by
  unfold requeueWhere at h
  split_ifs at h with hc
  · exact ⟨hc.1, hc.2, h⟩
  · cases h

end Reap

def requeueAll (env : Env P) : List (Task P) → Tasks P → Except PyError (Tasks P)
  | [], tasks => .ok tasks
  | t :: ts, tasks => do
    let fresh ← t.applyRequeue env
    requeueAll env ts (flush fresh tasks)

def Reap.write (env : Env P) (r : Reap) (failing requeueing : List (Task P)) (tasks : Tasks P) :
    Except PyError (Tasks P) :=
  requeueAll env requeueing (tasks.update (fun t => (failing.map Task.id).contains t.id) (r.fail env))

theorem requeueAll_ok {env : Env P} {ts : List (Task P)} {tasks tasks' : Tasks P}
    (hmem : ∀ t ∈ ts, t ∈ tasks) (hids : (ts.map Task.id).Nodup)
    (h : requeueAll env ts tasks = .ok tasks') :
    tasks'.next = tasks.next ∧ (∀ t ∈ ts, ∃ q, t.applyRequeue env = .ok q) ∧
      ∀ q, q ∈ tasks' ↔ (∃ t ∈ ts, t.applyRequeue env = .ok q) ∨
        (q ∈ tasks ∧ ∀ t ∈ ts, q.id ≠ t.id) := by
  induction ts generalizing tasks with
  | nil => cases h; simp
  | cons t ts ih =>
    simp only [requeueAll, bind_ok] at h
    obtain ⟨fresh, hf, h⟩ := h
    obtain ⟨spec, v, -, -, rfl⟩ := Task.applyRequeue_ok.mp hf
    have hrep : tasks.Replaces t (t.fresh v) (flush (t.fresh v) tasks) :=
      flush_replaces (hmem t (by simp)) rfl rfl
    simp only [List.map_cons, List.nodup_cons, List.mem_map, not_exists, not_and] at hids
    have hkeep : ∀ q ∈ ts, q ∈ flush (t.fresh v) tasks := fun q hq =>
      hrep.keep (hmem q (by simp [hq])) (hids.1 q hq)
    obtain ⟨hn, hok, hiff⟩ := ih hkeep hids.2 h
    refine ⟨hn.trans hrep.next_eq, ?_, fun q => ?_⟩
    · intro q hq
      rcases List.mem_cons.mp hq with rfl | hq
      exacts [⟨_, hf⟩, hok q hq]
    · rw [hiff, hrep.mem_iff]
      constructor
      · rintro (⟨p, hp, hq⟩ | ⟨rfl | ⟨hq, hne⟩, hall⟩)
        · exact .inl ⟨p, by simp [hp], hq⟩
        · exact .inl ⟨t, by simp, hf⟩
        · exact .inr ⟨hq, by simpa using ⟨hne, hall⟩⟩
      · rintro (⟨p, hp, hq⟩ | ⟨hq, hall⟩)
        · rcases List.mem_cons.mp hp with rfl | hp
          · rw [hf] at hq
            cases hq
            exact .inr ⟨.inl rfl, fun p hp he => hids.1 p hp he.symm⟩
          · exact .inl ⟨p, hp, hq⟩
        · simp only [List.mem_cons, forall_eq_or_imp] at hall
          exact .inr ⟨.inr ⟨hq, hall.1⟩, hall.2⟩

theorem mem_update_fail (env : Env P) (r : Reap) {failing : List (Task P)} {tasks : Tasks P}
    (hmem : ∀ t ∈ failing, t ∈ tasks) (q : Task P) :
    q ∈ tasks.update (fun t => (failing.map Task.id).contains t.id) (r.fail env) ↔
      (∃ t ∈ failing, q = r.fail env t) ∨ (q ∈ tasks ∧ ∀ t ∈ failing, q.id ≠ t.id) := by
  simp only [Table.mem_update, List.contains_eq_mem, List.mem_map, decide_eq_true_eq,
    decide_eq_false_iff_not, not_exists, not_and]
  constructor
  · rintro ⟨p, hp, ⟨⟨t, ht, he⟩, rfl⟩ | ⟨hne, rfl⟩⟩
    · exact .inl ⟨t, ht, by rw [tasks.eq_of_key (hmem t ht) hp he]⟩
    · exact .inr ⟨hp, fun t ht he => hne t ht he.symm⟩
  · rintro (⟨t, ht, rfl⟩ | ⟨hq, hne⟩)
    · exact ⟨t, hmem t ht, .inl ⟨⟨t, ht, rfl⟩, rfl⟩⟩
    · exact ⟨q, hq, .inr ⟨fun t ht he => hne t ht he.symm, rfl⟩⟩

theorem Reap.write_ok {env : Env P} {r : Reap} {failing requeueing : List (Task P)}
    {tasks tasks' : Tasks P} (hmem : ∀ t ∈ failing ++ requeueing, t ∈ tasks)
    (hids : ((failing ++ requeueing).map Task.id).Nodup)
    (h : r.write env failing requeueing tasks = .ok tasks') :
    tasks'.next = tasks.next ∧ (∀ t ∈ requeueing, ∃ q, t.applyRequeue env = .ok q) ∧
      ∀ q, q ∈ tasks' ↔ (∃ t ∈ failing, q = r.fail env t) ∨
        (∃ t ∈ requeueing, t.applyRequeue env = .ok q) ∨
        (q ∈ tasks ∧ ∀ t ∈ failing ++ requeueing, q.id ≠ t.id) := by
  have hfail := mem_update_fail env r fun t ht => hmem t (List.mem_append_left requeueing ht)
  rw [List.map_append, List.nodup_append] at hids
  have hne : ∀ t ∈ requeueing, ∀ p ∈ failing, t.id ≠ p.id := fun t ht p hp he =>
    hids.2.2 _ (List.mem_map_of_mem hp) _ (List.mem_map_of_mem ht) he.symm
  have hkeep : ∀ t ∈ requeueing,
      t ∈ tasks.update (fun t => (failing.map Task.id).contains t.id) (r.fail env) := fun t ht =>
    (hfail t).mpr (.inr ⟨hmem t (by simp [ht]), hne t ht⟩)
  obtain ⟨hn, hok, hiff⟩ := requeueAll_ok hkeep hids.2.1 h
  refine ⟨hn, hok, fun q => ?_⟩
  rw [hiff, hfail]
  simp only [List.mem_append, or_imp, forall_and]
  constructor
  · rintro (hq | ⟨⟨t, ht, rfl⟩ | ⟨hq, hf⟩, hr⟩)
    exacts [.inr (.inl hq), .inl ⟨t, ht, rfl⟩, .inr (.inr ⟨hq, hf, hr⟩)]
  · rintro (⟨t, ht, rfl⟩ | hq | ⟨hq, hf, hr⟩)
    · exact .inr ⟨.inl ⟨t, ht, rfl⟩, fun p hp he => hne p hp t ht he.symm⟩
    · exact .inl hq
    · exact .inr ⟨.inr ⟨hq, hf⟩, hr⟩

def reapStaleTasks (env : Env P) (r : Reap) (tasks : Tasks P) : Except PyError ℕ × Tasks P :=
  session tasks fun tasks => do
    let reaped ← Table.select r.failWhere tasks.rows
    let updated := tasks.update (fun t => (reaped.map Task.id).contains t.id) (r.fail env)
    let requeued ← Table.select r.requeueWhere updated.rows
    let tasks ← requeueAll env requeued updated
    return (reaped.length + requeued.length, tasks)

theorem reapStaleTasks_ok {env : Env P} {r : Reap} {tasks tasks' : Tasks P} {n : ℕ}
    (h : reapStaleTasks env r tasks = (.ok n, tasks')) :
    ∃ failing requeueing, r.write env failing requeueing tasks = .ok tasks' ∧
      (∀ t, t ∈ failing ↔ t ∈ tasks ∧ r.failWhere t = .ok true) ∧
      (∀ t, t ∈ requeueing ↔ t ∈ tasks ∧ r.requeueWhere t = .ok true) ∧
      ((failing ++ requeueing).map Task.id).Nodup ∧ n = (failing ++ requeueing).length := by
  have h := session_ok.mp h
  simp only [bind_ok] at h
  obtain ⟨failing, hf, requeueing, hr, last, hw, he⟩ := h
  cases he
  have hfail := fun t => Table.mem_select hf (r := t)
  have hupd := mem_update_fail env r fun t ht => ((hfail t).mp ht).1
  have hreq : ∀ t, t ∈ requeueing ↔ t ∈ tasks ∧ r.requeueWhere t = .ok true := by
    intro t
    rw [Table.mem_select hr]
    apply and_congr_left
    intro ht
    obtain ⟨hs, hq, -⟩ := Reap.requeueWhere_true ht
    rw [Table.mem_rows, hupd]
    constructor
    · rintro (⟨p, -, rfl⟩ | ⟨hm, -⟩)
      · cases hs
      · exact hm
    · refine fun hm => .inr ⟨hm, fun p hp he => ?_⟩
      obtain ⟨hpm, hpw⟩ := (hfail p).mp hp
      rw [← tasks.eq_of_key hm hpm he] at hpw
      exact hq (Reap.failWhere_true hpw).2.1
  refine ⟨failing, requeueing, hw, hfail, hreq, ?_, List.length_append.symm⟩
  rw [List.map_append, List.nodup_append]
  refine ⟨((Table.select_sublist hf).map _).nodup tasks.key_nodup,
    ((Table.select_sublist hr).map _).nodup (Table.key_nodup _), fun a ha b hb => ?_⟩
  obtain ⟨p, hp, rfl⟩ := List.mem_map.mp ha
  obtain ⟨q, hq, rfl⟩ := List.mem_map.mp hb
  intro he
  obtain ⟨hpm, hpw⟩ := (hfail p).mp hp
  obtain ⟨hqm, hqw⟩ := (hreq q).mp hq
  rw [tasks.eq_of_key hpm hqm he] at hpw
  exact (Reap.requeueWhere_true hqw).2.1 (Reap.failWhere_true hpw).2.1

end PostgresQueue
