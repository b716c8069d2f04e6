import PostgresQueue.Library.KeyedWrites
import PostgresQueue.PeriodicSystem

namespace PostgresQueue

open Library

variable {P : Type}

def Conn.Reaches (conn : Conn) (d : ℤ) : Prop :=
  timestamptzInRange (conn.addDays (d / 86400000000) conn.now + d % 86400000000) = true

namespace PeriodicClaim

def due (c : PeriodicClaim) (p : Periodic P) : Bool := c.dueWhere p && !c.skipLocked.contains p.id

def First (c : PeriodicClaim) (rows : Periodics P) (p : Periodic P) : Prop :=
  IsFirst order (rows.rows.filter c.due) p

structure Dated (croniter : Croniter) (c : PeriodicClaim) (p : Periodic P) : Prop where
  lock : p.maxConcurrent ≠ none → ∃ q, lockDuration (effectiveMaxRuntime c.maxRuntime p) = .finite q ∧
    roundHalfEven (q * 1000000) < 86400000000000000000 ∧
    c.conn.Reaches (roundHalfEven (q * 1000000))
  cron : ∀ expr, truthy p.cron = some expr → ∃ next, croniter.getNext expr c.clock = .ok next
  every : truthy p.cron = none → ∃ d, p.runEvery = some d ∧ c.conn.Reaches d

def Blocked (croniter : Croniter) (c : PeriodicClaim) (rows : Periodics P) : Prop :=
  ∃ p, c.First rows p ∧ ¬c.Dated croniter p ∧ ∃ q ∈ rows, c.due q = true ∧ c.Dated croniter q

/-- The claim when all other rows are locked. -/
def alone (c : PeriodicClaim) (rows : Periodics P) (p : Periodic P) : PeriodicClaim :=
  { c with skipLocked := c.skipLocked ++ (rows.rows.map Periodic.id).filter (· ≠ p.id) }

/-- If some row would be claimed on its own, then some row is claimed. -/
def Serves (croniter : Croniter) (mode : Mode) (c : PeriodicClaim) (rows : Periodics P) : Prop :=
  (∃ p ∈ rows, (mode.claimPeriodic croniter (c.alone rows p) rows).isSome) →
    (mode.claimPeriodic croniter c rows).isSome

instance : Std.Total (order (P := P)) where
  total a b := by
    rcases lt_trichotomy a.priority b.priority with h | h | h
    · exact .inr (.inl h)
    · exact (le_total a.nextRun b.nextRun).imp (fun hle => .inr ⟨h, hle⟩) fun hle => .inr ⟨h.symm, hle⟩
    · exact .inl (.inl h)

instance : IsTrans (Periodic P) order where
  trans a b d hab hbd := by
    rcases hab with hab | ⟨hab, hle⟩
    · rcases hbd with hbd | ⟨hbd, -⟩
      · exact .inl (hbd.trans hab)
      · exact .inl (hbd ▸ hab)
    · rcases hbd with hbd | ⟨hbd, hle'⟩
      · exact .inl (hab ▸ hbd)
      · exact .inr ⟨hab.trans hbd, hle.trans hle'⟩

end PeriodicClaim

theorem Conn.plus_ok {conn : Conn} {d : ℤ} :
    (∃ t, conn.plus conn.now d = .ok t) ↔ conn.Reaches d := by
  unfold Conn.plus PostgresQueue.timestamptz Conn.Reaches
  split_ifs with h <;> simp [h]

theorem timedelta_finite {q : ℚ} (hq : 0 < q) {d : ℤ} : timedelta (.finite q) = .ok d ↔
    d = roundHalfEven (q * 1000000) ∧ roundHalfEven (q * 1000000) < 86400000000000000000 := by
  have hlow : 0 ≤ roundHalfEven (q * 1000000) := le_roundHalfEven (by push_cast; positivity)
  simp only [timedelta]
  split_ifs with h
  · simp [h.2, eq_comm]
  · simp only [false_iff, not_and]
    omega

theorem lockDuration_positive {m : PyFloat} {q : ℚ} (h : lockDuration m = .finite q) : 0 < q := by
  unfold lockDuration at h
  split_ifs at h with hm
  · rw [h] at hm
    exact of_decide_eq_true hm
  · cases h
    norm_num

namespace PeriodicClaim

section Claim

variable {croniter : Croniter} {c : PeriodicClaim} {rows : Periodics P} {p : Periodic P}

theorem select_eq_some : c.select rows = some p ↔ c.First rows p := head?_insertionSort

theorem lock_isOk : (∃ l, c.lock p = .ok l) ↔ (p.maxConcurrent ≠ none → ∃ q,
    lockDuration (effectiveMaxRuntime c.maxRuntime p) = .finite q ∧
    roundHalfEven (q * 1000000) < 86400000000000000000 ∧
    c.conn.Reaches (roundHalfEven (q * 1000000))) := by
  unfold lock
  cases hc : p.maxConcurrent with
  | none => simp
  | some k =>
    simp only [bind_ok, ne_eq, reduceCtorEq, not_false_eq_true, forall_const]
    constructor
    · rintro ⟨l, d, hd, t, ht, -⟩
      cases hm : lockDuration (effectiveMaxRuntime c.maxRuntime p) with
      | finite q =>
        rw [hm, timedelta_finite (lockDuration_positive hm)] at hd
        obtain ⟨rfl, hlt⟩ := hd
        exact ⟨q, rfl, hlt, Conn.plus_ok.mp ⟨t, ht⟩⟩
      | inf negative =>
        rw [hm] at hd
        cases hd
      | nan =>
        rw [hm] at hd
        cases hd
    · rintro ⟨q, hm, hlt, hr⟩
      obtain ⟨t, ht⟩ := Conn.plus_ok.mpr hr
      refine ⟨some t, _, ?_, t, ht, rfl⟩
      rw [hm, timedelta_finite (lockDuration_positive hm)]
      exact ⟨rfl, hlt⟩

theorem advance_isOk : (∃ t, c.advance croniter p = .ok t) ↔
    (∀ expr, truthy p.cron = some expr → ∃ next, croniter.getNext expr c.clock = .ok next) ∧
    (truthy p.cron = none → ∃ d, p.runEvery = some d ∧ c.conn.Reaches d) := by
  unfold advance
  cases hcron : truthy p.cron with
  | some expr => simp
  | none =>
    cases hevery : p.runEvery with
    | none => simp
    | some d => simp [Conn.plus_ok]

theorem written_isOk : (∃ q, c.written croniter p = .ok q) ↔ c.Dated croniter p := by
  simp only [written, bind_ok]
  constructor
  · rintro ⟨q, l, hl, t, ht, -⟩
    obtain ⟨hcron, hevery⟩ := advance_isOk.mp ⟨t, ht⟩
    exact ⟨lock_isOk.mp ⟨l, hl⟩, hcron, hevery⟩
  · intro h
    obtain ⟨l, hl⟩ := lock_isOk.mpr h.lock
    obtain ⟨t, ht⟩ := advance_isOk.mpr ⟨h.cron, h.every⟩
    exact ⟨_, l, hl, t, ht, rfl⟩

theorem run_isSome : (c.run croniter rows).isSome ↔ ∃ p, c.First rows p ∧ c.Dated croniter p := by
  unfold run
  constructor
  · intro h
    split at h
    · cases h
    · rename_i p hs
      split at h
      · rename_i q hw
        exact ⟨p, select_eq_some.mp hs, written_isOk.mp ⟨q, hw⟩⟩
      · cases h
  · rintro ⟨p, hp, hd⟩
    obtain ⟨q, hq⟩ := written_isOk.mpr hd
    rw [select_eq_some.mpr hp]
    simp only [hq, Option.isSome_some]

theorem First.eq {q : Periodic P} (hp : c.First rows p) (hq : c.First rows q) : p = q :=
  Option.some.inj ((select_eq_some.mpr hp).symm.trans (select_eq_some.mpr hq))

theorem First.due (h : c.First rows p) : p ∈ rows ∧ c.due p = true := List.mem_filter.mp h.mem

theorem exists_first (hp : p ∈ rows) (hd : c.due p = true) : ∃ q, c.First rows q := by
  have hm : p ∈ (rows.rows.filter c.due).insertionSort order :=
    (List.mem_insertionSort _).mpr (List.mem_filter.mpr ⟨hp, hd⟩)
  obtain ⟨q, hq⟩ := Option.isSome_iff_exists.mp (List.isSome_head?.mpr (List.ne_nil_of_mem hm))
  exact ⟨q, head?_insertionSort.mp hq⟩

theorem alone_due (hp : p ∈ rows) {q : Periodic P} (hq : q ∈ rows) :
    (c.alone rows p).due q = true ↔ q = p ∧ c.due p = true := by
  have hother : q.id ∈ (rows.rows.map Periodic.id).filter (· ≠ p.id) ↔ q.id ≠ p.id := by
    rw [List.mem_filter, decide_eq_true_eq]
    exact and_iff_right (List.mem_map_of_mem hq)
  simp only [PeriodicClaim.due, alone, Bool.and_eq_true, Bool.not_eq_true',
    List.contains_eq_mem, decide_eq_false_iff_not, List.mem_append, not_or, hother, not_not]
  constructor
  · rintro ⟨hd, hfree, hid⟩
    obtain rfl := rows.eq_of_key hq hp hid
    exact ⟨rfl, hd, hfree⟩
  · rintro ⟨rfl, hd, hfree⟩
    exact ⟨hd, hfree, rfl⟩

theorem alone_isSome (hp : p ∈ rows) :
    ((c.alone rows p).run croniter rows).isSome ↔ c.due p = true ∧ c.Dated croniter p := by
  rw [run_isSome]
  constructor
  · rintro ⟨q, hfirst, hdated⟩
    obtain ⟨hq, hd⟩ := hfirst.due
    obtain ⟨rfl, hd⟩ := (alone_due hp hq).mp hd
    exact ⟨hd, hdated.lock, hdated.cron, hdated.every⟩
  · rintro ⟨hd, hdated⟩
    obtain ⟨q, hfirst⟩ := exists_first hp ((alone_due hp hp).mpr ⟨rfl, hd⟩)
    obtain ⟨rfl, -⟩ := (alone_due hp hfirst.due.1).mp hfirst.due.2
    exact ⟨q, hfirst, hdated.lock, hdated.cron, hdated.every⟩

theorem serves_iff {mode : Mode} : Serves croniter mode c rows ↔ ¬c.Blocked croniter rows := by
  unfold Serves
  simp only [Mode.claimPeriodic_eq]
  constructor
  · rintro h ⟨p, hp, hbad, q, hq, hd, hdated⟩
    obtain ⟨p', hp', hdated'⟩ := run_isSome.mp (h ⟨q, hq, (alone_isSome hq).mpr ⟨hd, hdated⟩⟩)
    exact hbad (hp.eq hp' ▸ hdated')
  · rintro h ⟨q, hq, hsome⟩
    obtain ⟨hd, hdated⟩ := (alone_isSome hq).mp hsome
    obtain ⟨p, hp⟩ := exists_first hq hd
    refine run_isSome.mpr ⟨p, hp, ?_⟩
    by_contra hbad
    exact h ⟨p, hp, hbad, q, hq, hd, hdated⟩

theorem Blocked.run_eq_none (h : c.Blocked croniter rows) : c.run croniter rows = none := by
  obtain ⟨p, hp, hbad, -⟩ := h
  rw [← Option.not_isSome_iff_eq_none, run_isSome]
  rintro ⟨p', hp', hdated⟩
  exact hbad (hp.eq hp' ▸ hdated)

end Claim

end PeriodicClaim

section Runs

variable {croniter : Croniter} {repr : PyFloat → String}

def PeriodicState.claimNow (s : PeriodicState P) (c : PeriodicClaim) : PeriodicClaim :=
  { c with conn := { c.conn with now := s.now } }

def Serving (croniter : Croniter) (s : PeriodicState P) : PeriodicAction P → Prop
  | .claim _ mode c => PeriodicClaim.Serves croniter mode (s.claimNow c) s.rows
  | _ => True

def Unblocked (croniter : Croniter) (s : PeriodicState P) : PeriodicAction P → Prop
  | .claim _ _ c => ¬(s.claimNow c).Blocked croniter s.rows
  | _ => True

theorem blocked_step {start : Timestamptz} {s : PeriodicState P} {worker : ℕ} {mode : Mode}
    {c : PeriodicClaim} (hw : worker ∉ s.dead) (h : (s.claimNow c).Blocked croniter s.rows) :
    (periodicSystem croniter repr start).step s (.claim worker mode c) = some s := by
  have hnone : s.claim croniter mode c = none := by
    rw [PeriodicState.claim, Mode.claimPeriodic_eq]
    exact h.run_eq_none
  simp only [periodicSystem, periodicStep, hnone, List.contains_eq_mem, hw, decide_false,
    Bool.false_eq_true, if_false]

theorem blocked_again {start : Timestamptz} {s : PeriodicState P} {worker : ℕ} {mode : Mode}
    {c : PeriodicClaim} (hw : worker ∉ s.dead) (h : (s.claimNow c).Blocked croniter s.rows) (n : ℕ) :
    (periodicSystem croniter repr start).Steps System.free s
      (List.replicate n (.claim worker mode c)) s := by
  induction n with
  | zero => exact .nil s
  | succ n ih => exact .cons trivial (blocked_step hw h) ih

end Runs

section Sample

/-- Every 999999999 days, which is the longest `timedelta`, before everything else. -/
def sampleLongest : Schedule String :=
  { sampleSchedule 60 none with
    key := "longest"
    runEvery := some (999999999 * 86400000000)
    priority := 10 }

def starvedSchedule : PeriodicState String :=
  samplePeriodicSystem.run System.free [.schedule sampleConn (sampleSchedule 60 (some 1)),
    .schedule sampleConn sampleLongest]

def sampleDue : PeriodicClaim := starvedSchedule.claimNow ⟨sampleConn, none, .finite 1800, 0, []⟩

end Sample

end PostgresQueue
