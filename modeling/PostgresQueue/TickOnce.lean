import PostgresQueue.Library.Transition
import PostgresQueue.PeriodicSystem

namespace PostgresQueue

open Library System

variable {P : Type}

/-- `get_next(t)` is the least instant after `t` that the expression matches. -/
def Croniter.Least (croniter : Croniter) (ticks : String → Timestamptz → Prop) : Prop :=
  ∀ expr t next, croniter.getNext expr t = .ok next →
    t < next ∧ ticks expr next ∧ ∀ u, t < u → ticks expr u → next ≤ u

/-- In no time zone does a number of days lead back. -/
def Conn.Forward (conn : Conn) : Prop := ∀ n t, 0 < n → t < conn.addDays n t

def Periodic.Recurs (p : Periodic P) : Prop :=
  truthy p.cron = none → ∃ every, p.runEvery = some every ∧ 0 < every

namespace PeriodicClaim

/-- The worker's clock is not behind the database's by so much that a tick lies between them. -/
def NoTickBetween (ticks : String → Timestamptz → Prop) (c : PeriodicClaim) (p : Periodic P) : Prop :=
  ∀ expr, truthy p.cron = some expr → ∀ u, c.clock < u → u ≤ c.conn.now → ¬ticks expr u

variable {croniter : Croniter} {ticks : String → Timestamptz → Prop} {c : PeriodicClaim}
  {p q : Periodic P} {rows rows' : Periodics P}

theorem now_lt_plus (hdays : c.conn.Forward) {every : ℤ} (hpos : 0 < every) {next : Timestamptz}
    (h : c.conn.plus c.conn.now every = .ok next) : c.conn.now < next := by
  have hrest : 0 ≤ every % 86400000000 := Int.emod_nonneg every (by decide)
  have hnext : next = c.conn.addDays (every / 86400000000) c.conn.now + every % 86400000000 := by
    unfold Conn.plus timestamptz at h
    split_ifs at h
    exact (Except.ok.inj h).symm
  rw [hnext]
  by_cases hday : every < 86400000000
  · rw [Int.ediv_eq_zero_of_lt hpos.le hday, Int.emod_eq_of_lt hpos.le hday, c.conn.addDays_zero]
    exact lt_add_of_pos_right _ hpos
  · have hlater := hdays (every / 86400000000) c.conn.now (by omega)
    exact lt_add_of_lt_of_nonneg hlater hrest

theorem advance_later (hcron : croniter.Least ticks) (hdays : c.conn.Forward) (hp : p.Recurs)
    {next : Timestamptz} (h : c.advance croniter p = .ok next) :
    c.conn.now < next ↔ c.NoTickBetween ticks p := by
  unfold advance at h
  unfold NoTickBetween
  cases htext : truthy p.cron with
  | some expr =>
    rw [htext] at h
    obtain ⟨hafter, htick, hleast⟩ := hcron expr c.clock next h
    simp only [Option.some.injEq, forall_eq']
    constructor
    · intro hlate u hclock hnow hu
      exact absurd hlate (not_lt.mpr ((hleast u hclock hu).trans hnow))
    · intro hnone
      by_contra hnot
      exact hnone next hafter (not_lt.mp hnot) htick
  | none =>
    obtain ⟨every, hevery, hpos⟩ := hp htext
    rw [htext, hevery] at h
    exact iff_of_true (now_lt_plus hdays hpos h) fun _ h => nomatch h

theorem run_advances (h : c.run croniter rows = some (q, rows')) :
    ∃ p, c.select rows = some p ∧ p.nextRun ≤ c.conn.now ∧ c.advance croniter p = .ok q.nextRun ∧
      q.id = p.id ∧ (p.Recurs → q.Recurs) ∧ rows.Replaces p q rows' := by
  unfold run at h
  split at h
  · cases h
  · rename_i p hs
    split at h
    · rename_i q' hw
      cases h
      simp only [written, bind_ok] at hw
      obtain ⟨lock, -, next, hnext, he⟩ := hw
      cases he
      obtain ⟨hm, hd, -⟩ := select_some hs
      have hdue : p.nextRun ≤ c.conn.now := by
        simp only [dueWhere, Bool.and_eq_true, decide_eq_true_eq] at hd
        exact hd.1.1.2
      exact ⟨p, hs, hdue, hnext, rfl, fun hp => hp, flushPeriodic_replaces hm rfl rfl⟩
    · cases h

end PeriodicClaim

structure Firing (P : Type) where
  rows : Periodics P
  fired : List (ℕ × Timestamptz)

inductive FiringAction
  | claim (mode : Mode) (c : PeriodicClaim)
  | release (mode : Mode) (e : RunEnd) (maxConcurrent : Option ℤ) (id : ℕ)

def Firing.claim (croniter : Croniter) (s : Firing P) (mode : Mode) (c : PeriodicClaim) : Firing P :=
  match mode.claimPeriodic croniter c s.rows with
  | none => s
  | some (q, rows) =>
    match s.rows.find? fun p => p.id == q.id with
    | none => ⟨rows, s.fired⟩
    | some p => ⟨rows, s.fired ++ [(p.id, p.nextRun)]⟩

def firingSystem (croniter : Croniter) (rows : Periodics P) : System (Firing P) FiringAction where
  init := ⟨rows, []⟩
  step s
    | .claim mode c => some (s.claim croniter mode c)
    | .release mode e maxConcurrent id =>
      some { s with rows := e.release mode maxConcurrent id s.rows }

def Meets (ticks : String → Timestamptz → Prop) (s : Firing P) : FiringAction → Prop
  | .claim _ c => c.conn.Forward ∧ ∀ p, c.select s.rows = some p → c.NoTickBetween ticks p
  | .release _ _ _ _ => True

structure FiredInv (s : Firing P) : Prop where
  recurs : ∀ p ∈ s.rows, p.Recurs
  before : ∀ e ∈ s.fired, ∀ p ∈ s.rows, p.id = e.1 → e.2 < p.nextRun
  nodup : s.fired.Nodup

section Fired

variable {croniter : Croniter} {ticks : String → Timestamptz → Prop} {s : Firing P}

theorem Firing.claim_cases (s : Firing P) (mode : Mode) (c : PeriodicClaim) :
    s.claim croniter mode c = s ∨ ∃ p q rows, c.select s.rows = some p ∧ p.nextRun ≤ c.conn.now ∧
      c.advance croniter p = .ok q.nextRun ∧ (p.Recurs → q.Recurs) ∧ s.rows.Replaces p q rows ∧
      s.claim croniter mode c = ⟨rows, s.fired ++ [(p.id, p.nextRun)]⟩ := by
  unfold Firing.claim
  rw [mode.claimPeriodic_eq]
  cases hrun : c.run croniter s.rows with
  | none => exact .inl rfl
  | some claimed =>
    obtain ⟨q, rows⟩ := claimed
    obtain ⟨p, hs, hdue, hnext, hid, hrecurs, hrep⟩ := PeriodicClaim.run_advances hrun
    have hfind : (s.rows.find? fun x => x.id == q.id) = some p :=
      Table.find?_eq_some_of_key hrep.mem (beq_iff_eq.mpr hid.symm) fun x _ hx =>
        (beq_iff_eq.mp hx).trans hid
    refine .inr ⟨p, q, rows, hs, hdue, hnext, hrecurs, hrep, ?_⟩
    dsimp only
    rw [hfind]

theorem FiredInv.claim (hcron : croniter.Least ticks) (h : FiredInv s) {mode : Mode}
    {c : PeriodicClaim} (hm : Meets ticks s (.claim mode c)) : FiredInv (s.claim croniter mode c) := by
  rcases s.claim_cases mode c with he | ⟨p, q, rows, hs, hdue, hnext, hrecurs, hrep, he⟩
  · rwa [he]
  · rw [he]
    have hp := hrep.mem
    have hlater : p.nextRun < q.nextRun := lt_of_le_of_lt hdue
      ((PeriodicClaim.advance_later hcron hm.1 (h.recurs p hp) hnext).mpr (hm.2 p hs))
    refine ⟨fun x hx => ?_, fun e he x hx hid => ?_, ?_⟩
    · rcases hrep.origin hx with rfl | ⟨hx, -⟩
      · exact hrecurs (h.recurs p hp)
      · exact h.recurs x hx
    · rcases hrep.origin hx with rfl | ⟨hx, hne⟩
      · rcases List.mem_append.mp he with he | he
        · exact (h.before e he p hp (hrep.key_eq ▸ hid)).trans hlater
        · obtain rfl := List.mem_singleton.mp he
          exact hlater
      · rcases List.mem_append.mp he with he | he
        · exact h.before e he x hx hid
        · obtain rfl := List.mem_singleton.mp he
          exact absurd hid hne
    · refine List.nodup_append.mpr ⟨h.nodup, List.nodup_singleton _, fun e he e' he' heq => ?_⟩
      obtain rfl := List.mem_singleton.mp he'
      subst heq
      exact lt_irrefl _ (h.before _ he p hp rfl)

theorem mem_release {mode : Mode} {e : RunEnd} {maxConcurrent : Option ℤ} {id : ℕ}
    {rows : Periodics P} {q : Periodic P} (h : q ∈ e.release mode maxConcurrent id rows) :
    ∃ p ∈ rows, q.id = p.id ∧ q.nextRun = p.nextRun ∧ (p.Recurs → q.Recurs) := by
  rw [RunEnd.release_eq] at h
  unfold releaseIfLimited at h
  split_ifs at h
  · rcases mem_clearLock.mp h with ⟨-, -, p, hp, -, rfl⟩ | ⟨hq, -⟩
    · exact ⟨p, hp, rfl, rfl, fun hp => hp⟩
    · exact ⟨q, hq, rfl, rfl, fun hp => hp⟩
  · exact ⟨q, h, rfl, rfl, fun hp => hp⟩

theorem FiredInv.release (h : FiredInv s) (mode : Mode) (e : RunEnd) (maxConcurrent : Option ℤ)
    (id : ℕ) : FiredInv { s with rows := e.release mode maxConcurrent id s.rows } := by
  refine ⟨fun q hq => ?_, fun tick ht q hq hid => ?_, h.nodup⟩
  · obtain ⟨p, hp, -, -, hrecurs⟩ := mem_release hq
    exact hrecurs (h.recurs p hp)
  · obtain ⟨p, hp, hid', hnext, -⟩ := mem_release hq
    rw [hnext]
    exact h.before tick ht p hp (hid' ▸ hid)

/-- A claim of a schedule sets its next run past the one it claims and past the database's time exactly
if the clocks have no tick between them, and where that is so for each claim no tick is claimed
twice. -/
theorem ticks_fire_once (hcron : croniter.Least ticks) :
    (∀ (mode : Mode) (c : PeriodicClaim) (rows rows' : Periodics P) (q : Periodic P),
      c.conn.Forward → (∀ p ∈ rows, p.Recurs) → mode.claimPeriodic croniter c rows = some (q, rows') →
        ∃ p ∈ rows, rows.Replaces p q rows' ∧
          (p.nextRun < q.nextRun ∧ c.conn.now < q.nextRun ↔ c.NoTickBetween ticks p)) ∧
    ∀ (rows : Periodics P) (s : Firing P) (as : List FiringAction), (∀ p ∈ rows, p.Recurs) →
      (firingSystem croniter rows).Steps (Meets ticks) ⟨rows, []⟩ as s → s.fired.Nodup := by
  constructor
  · intro mode c rows rows' q hdays hrecurs h
    rw [mode.claimPeriodic_eq] at h
    obtain ⟨p, -, hdue, hnext, -, -, hrep⟩ := PeriodicClaim.run_advances h
    refine ⟨p, hrep.mem, hrep, ?_⟩
    rw [← PeriodicClaim.advance_later hcron hdays (hrecurs p hrep.mem) hnext]
    exact and_iff_right_of_imp fun hlate => hdue.trans_lt hlate
  · intro rows s as hrecurs h
    have hinit : FiredInv (⟨rows, []⟩ : Firing P) :=
      ⟨hrecurs, fun _ he => absurd he List.not_mem_nil, List.nodup_nil⟩
    refine (h.preserves (I := FiredInv) ?_ hinit).nodup
    intro s a t hs hm ht
    cases a with
    | claim mode c =>
      cases ht
      exact hs.claim hcron hm
    | release mode e maxConcurrent id =>
      cases ht
      exact hs.release mode e maxConcurrent id

end Fired

section Sample

def hourlyTicks (_ : String) (u : Timestamptz) : Prop := u % 3600000000 = 0

def hourly : Croniter := ⟨fun _ => none, fun _ t => .ok ((t / 3600000000 + 1) * 3600000000)⟩

theorem hourly_least : hourly.Least hourlyTicks := by
  intro expr t next h
  cases h
  have hmod := Int.emod_add_mul_ediv t 3600000000
  have hlt := Int.emod_lt_of_pos t (by decide : (0 : ℤ) < 3600000000)
  refine ⟨by linarith, Int.mul_emod_left _ _, fun u hu htick => ?_⟩
  have hu' := Int.emod_add_mul_ediv u 3600000000
  unfold hourlyTicks at htick
  have hle : t / 3600000000 + 1 ≤ u / 3600000000 := by
    have hnonneg := Int.emod_nonneg t (by decide : (3600000000 : ℤ) ≠ 0)
    by_contra hnot
    have := Int.lt_add_one_iff.mp (not_le.mp hnot)
    linarith
  linarith

def sampleHourly : Periodics String :=
  ((periodicSystem hourly (sampleEnv (P := String)).floatRepr 0).run System.free [.schedule sampleConn { sampleSchedule 60 none with
    runEvery := none
    cron := some (.expression "0 * * * *") }]).rows

def hourlyClaim (clock now : Timestamptz) : PeriodicClaim :=
  ⟨{ sampleConn with now := now }, none, .finite 1800, clock, []⟩

theorem sampleHourly_recurs : ∀ p ∈ sampleHourly, p.Recurs := by
  have hcron : ∀ p ∈ sampleHourly.rows, p.cron = some "0 * * * *" := by decide +kernel
  intro p hp htext
  rw [hcron p hp] at htext
  cases htext

theorem hourlyClaim_meets (s : Firing String) (mode : Mode) (now : Timestamptz) :
    Meets hourlyTicks s (.claim mode (hourlyClaim now now)) := by
  refine ⟨fun n t hn => ?_, fun p _ expr _ u hclock hnow => absurd hclock (not_lt.mpr hnow)⟩
  exact lt_add_of_pos_right t (by positivity)

def hourlyFired : Firing String :=
  ((⟨sampleHourly, []⟩ : Firing String).claim hourly .sequential (hourlyClaim 3600000005 3600000005))
    |>.claim hourly .concurrent (hourlyClaim 9000000000 9000000000)

theorem ticks_fire_once_hourly :
    hourlyFired.fired.Nodup ∧ hourlyFired.fired = [(1, 3600000000), (1, 7200000000)] := by
  refine ⟨(ticks_fire_once hourly_least).2 sampleHourly hourlyFired
    [.claim .sequential (hourlyClaim 3600000005 3600000005),
      .claim .concurrent (hourlyClaim 9000000000 9000000000)] sampleHourly_recurs ?_,
    by decide +kernel⟩
  exact .cons (hourlyClaim_meets _ _ _) rfl (.cons (hourlyClaim_meets _ _ _) rfl (.nil _))

/-- The worker's clock is ten microseconds behind the database's, and the tick lies between. -/
theorem tick_fires_twice : ¬∀ (rows : Periodics String) (s : Firing String)
    (as : List FiringAction), (∀ p ∈ rows, p.Recurs) →
      (firingSystem hourly rows).Steps System.free ⟨rows, []⟩ as s → s.fired.Nodup := by
  intro h
  have hsteps : (firingSystem hourly sampleHourly).Steps System.free ⟨sampleHourly, []⟩
      [.claim .sequential (hourlyClaim 3599999995 3600000005),
        .claim .concurrent (hourlyClaim 3599999996 3600000006)] _ :=
    .cons trivial rfl (.cons trivial rfl (.nil _))
  exact absurd (h _ _ _ sampleHourly_recurs hsteps) (by decide +kernel)

end Sample

end PostgresQueue
