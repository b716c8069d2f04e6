import PostgresQueue.ChildProcess
import PostgresQueue.PeriodicSystem

namespace PostgresQueue

open Library

variable {P : Type}

/-- The alarm, armed at the given instant, has not ended the child at `x`. Neither kind of handler
outlives it, and a handler starts only after it is armed. -/
def MayExecute (maxRuntime : PyFloat) (armed x : Timestamptz) : Prop :=
  ∃ n, alarmSeconds maxRuntime = .ok n ∧ armed ≤ x ∧ x ≤ armed + n * 1000000

def LockCovers (c : PeriodicClaim) (q : Periodic P) (armed : Timestamptz) : Prop :=
  ∀ x, MayExecute (effectiveMaxRuntime c.maxRuntime q) armed x →
    ∃ l, q.lockedUntil = some l ∧ x ≤ l

/-- What calendar days add to `days * 24` hours, in the session's time zone. -/
def Conn.daysGain (conn : Conn) (days : ℤ) : ℤ :=
  conn.addDays days conn.now - (conn.now + days * 86400000000)

def windowGap (conn : Conn) (q : ℚ) (armed : Timestamptz) : ℤ :=
  armed - conn.now + ((⌊q⌋ + 1) * 1000000 - roundHalfEven (q * 1000000))

def WindowLasts (conn : Conn) (maxRuntime : PyFloat) (armed : Timestamptz) : Prop :=
  FitsAlarm maxRuntime → ∃ q, maxRuntime = .finite q ∧
    windowGap conn q armed ≤ conn.daysGain (roundHalfEven (q * 1000000) / 86400000000)

theorem windowGap_pos {conn : Conn} {q : ℚ} {armed : Timestamptz} (h : conn.now < armed) :
    0 < windowGap conn q armed := by
  have hq : q * 1000000 < ((⌊q⌋ + 1) * 1000000 : ℤ) := by
    have := Int.lt_floor_add_one q
    push_cast
    linarith
  have hround := roundHalfEven_le hq
  unfold windowGap
  have hstart : 0 < armed - conn.now := sub_pos.mpr h
  linarith

@[simp] theorem Conn.daysGain_zero (conn : Conn) : conn.daysGain 0 = 0 := by
  simp [Conn.daysGain, conn.addDays_zero]

theorem not_windowLasts {conn : Conn} {q : ℚ} {armed : Timestamptz} (h : conn.now < armed)
    (hfits : FitsAlarm (.finite q))
    (hgain : conn.daysGain (roundHalfEven (q * 1000000) / 86400000000) ≤ 0) :
    ¬WindowLasts conn (.finite q) armed := by
  intro hlasts
  obtain ⟨q', hq', hgap⟩ := hlasts hfits
  cases hq'
  exact absurd (windowGap_pos h) (not_lt.mpr (hgap.trans hgain))

theorem not_windowLasts_of_lt_day {conn : Conn} {q : ℚ} {armed : Timestamptz}
    (h : conn.now < armed) (h0 : 0 ≤ q) (hday : roundHalfEven (q * 1000000) < 86400000000) :
    ¬WindowLasts conn (.finite q) armed := by
  have hlow : 0 ≤ roundHalfEven (q * 1000000) := le_roundHalfEven (by push_cast; positivity)
  have hq : q * 1000000 < (86400000001 : ℤ) := by
    have hfloor := roundHalfEven_floor_le (q * 1000000)
    exact Int.floor_lt.mp (by omega)
  have hfits : FitsAlarm (.finite q) := ⟨q, rfl, by linarith, by push_cast at hq; linarith⟩
  have hzero : roundHalfEven (q * 1000000) / 86400000000 = 0 := by omega
  exact not_windowLasts h hfits (by rw [hzero, Conn.daysGain_zero])

theorem alarmSeconds_of_fits {q : ℚ} (h0 : 0 ≤ q) (h : FitsAlarm (.finite q)) :
    alarmSeconds (.finite q) = .ok (⌊q⌋ + 1) := by
  have hn : (if 0 ≤ q then ⌊q⌋ else ⌈q⌉) = ⌊q⌋ := if_pos h0
  rw [alarmSeconds_finite q _ hn, if_pos ((fitsAlarm_finite q _ hn).mp h)]

theorem mayExecute_iff {q : ℚ} {armed : Timestamptz} {l : Timestamptz} (h0 : 0 ≤ q) :
    (∀ x, MayExecute (.finite q) armed x → x ≤ l) ↔
      (FitsAlarm (.finite q) → armed + (⌊q⌋ + 1) * 1000000 ≤ l) := by
  have hfloor : 0 ≤ ⌊q⌋ := Int.floor_nonneg.mpr h0
  constructor
  · intro h hfits
    refine h _ ⟨_, alarmSeconds_of_fits h0 hfits, ?_, le_refl _⟩
    linarith
  · rintro h x ⟨n, hn, -, hx⟩
    have hfits := (alarmSeconds_ok (.finite q)).mp ⟨n, hn⟩
    rw [alarmSeconds_of_fits h0 hfits] at hn
    cases hn
    exact hx.trans (h hfits)

theorem plus_eq {conn : Conn} {d : ℤ} {l : Timestamptz} (h : conn.plus conn.now d = .ok l) :
    l = conn.now + d + conn.daysGain (d / 86400000000) := by
  unfold Conn.plus timestamptz at h
  split at h
  · cases h
    have hd := Int.emod_add_mul_ediv d 86400000000
    unfold Conn.daysGain
    linarith
  · cases h

theorem timedelta_ok {m : PyFloat} {d : ℤ} (h : timedelta m = .ok d) :
    ∃ q, m = .finite q ∧ d = roundHalfEven (q * 1000000) := by
  cases m with
  | finite q =>
    simp only [timedelta] at h
    split_ifs at h
    cases h
    exact ⟨q, rfl, rfl⟩
  | inf => cases h
  | nan => cases h

theorem lock_written {c : PeriodicClaim} {p : Periodic P} {lock : Option Timestamptz}
    (h : c.lock p = .ok lock) (hc : p.maxConcurrent ≠ none)
    (hm : (effectiveMaxRuntime c.maxRuntime p).positive = true) :
    ∃ q, effectiveMaxRuntime c.maxRuntime p = .finite q ∧ 0 < q ∧
      lock = some (c.conn.now + roundHalfEven (q * 1000000) +
        c.conn.daysGain (roundHalfEven (q * 1000000) / 86400000000)) := by
  obtain ⟨k, hk⟩ := Option.ne_none_iff_exists'.mp hc
  simp only [PeriodicClaim.lock, hk, lockDuration, hm, if_true, bind_ok] at h
  obtain ⟨d, hd, l, hl, he⟩ := h
  obtain ⟨q, hq, rfl⟩ := timedelta_ok hd
  cases he
  rw [hq] at hm
  exact ⟨q, hq, of_decide_eq_true hm, by rw [plus_eq hl]⟩

variable {croniter : Croniter} {c : PeriodicClaim} {rows rows' : Periodics P} {q : Periodic P}

theorem lock_covers_run {mode : Mode} (h : mode.claimPeriodic croniter c rows = some (q, rows'))
    (hc : q.maxConcurrent ≠ none) (hm : (effectiveMaxRuntime c.maxRuntime q).positive = true)
    (armed : Timestamptz) :
    q ∈ rows' ∧
      (LockCovers c q armed ↔ WindowLasts c.conn (effectiveMaxRuntime c.maxRuntime q) armed) := by
  rw [mode.claimPeriodic_eq] at h
  obtain ⟨p, lock, -, -, hlock, rfl, -, hmc, hmax, hrep⟩ := PeriodicClaim.run_some h
  have heff : effectiveMaxRuntime c.maxRuntime q = effectiveMaxRuntime c.maxRuntime p := by
    rw [effectiveMaxRuntime, hmax, effectiveMaxRuntime]
  rw [heff] at hm
  obtain ⟨r, hr, hpos, hwritten⟩ := lock_written hlock (hmc ▸ hc) hm
  refine ⟨hrep.mem_new, ?_⟩
  unfold LockCovers WindowLasts
  simp only [heff, hr, hwritten, Option.some.injEq, exists_eq_left', PyFloat.finite.injEq]
  rw [mayExecute_iff hpos.le]
  unfold windowGap
  apply forall_congr'
  intro _
  constructor
  · intro hl
    linarith
  · intro hl
    linarith

section Sample

def sampleClaimAt (now : Timestamptz) : PeriodicClaim :=
  ⟨{ sampleConn with now := now }, none, .finite 1800, now, []⟩

def minuteClaim : Option (Periodic String × Periodics String) :=
  Mode.sequential.claimPeriodic sampleCroniter (sampleClaimAt 0)
    (samplePeriodicSystem.run System.free [.schedule sampleConn (sampleSchedule 60 (some 1))]).rows

theorem minuteClaim_eq : ∃ q rows, minuteClaim = some (q, rows) ∧ q.maxConcurrent ≠ none ∧
    effectiveMaxRuntime (sampleClaimAt 0).maxRuntime q = .finite 60 ∧
    q.lockedUntil = some 60000000 ∧
    (Mode.concurrent.claimPeriodic sampleCroniter (sampleClaimAt 60500000) rows).isSome := by
  have h : minuteClaim.any (fun claimed => claimed.1.maxConcurrent != none &&
      effectiveMaxRuntime (sampleClaimAt 0).maxRuntime claimed.1 == .finite 60 &&
      claimed.1.lockedUntil == some 60000000 &&
      (Mode.concurrent.claimPeriodic sampleCroniter (sampleClaimAt 60500000)
        claimed.2).isSome) = true := by
    decide +kernel
  obtain ⟨⟨q, rows⟩, hq, hall⟩ := (Option.any_eq_true _ _).mp h
  simp only [Bool.and_eq_true, bne_iff_ne, beq_iff_eq] at hall
  obtain ⟨⟨⟨hmc, heff⟩, hlock⟩, hsecond⟩ := hall
  exact ⟨q, rows, hq, hmc, heff, hlock, hsecond⟩

theorem lock_expires : ∃ q rows, minuteClaim = some (q, rows) ∧ q.maxConcurrent ≠ none ∧
    (effectiveMaxRuntime (sampleClaimAt 0).maxRuntime q).positive = true ∧
    ¬LockCovers (sampleClaimAt 0) q 1000 ∧
    MayExecute (effectiveMaxRuntime (sampleClaimAt 0).maxRuntime q) 1000 60500000 ∧
    (Mode.concurrent.claimPeriodic sampleCroniter (sampleClaimAt 60500000) rows).isSome := by
  obtain ⟨q, rows, hq, hmc, heff, hlock, hsecond⟩ := minuteClaim_eq
  have halarm : alarmSeconds (.finite 60) = .ok 61 := by decide +kernel
  have hexecutes : MayExecute (.finite 60) 1000 60500000 := ⟨61, halarm, by decide, by decide⟩
  refine ⟨q, rows, hq, hmc, ?_, ?_, ?_, hsecond⟩
  · rw [heff]
    decide +kernel
  · intro hcovers
    obtain ⟨l, hl, hx⟩ := hcovers 60500000 (heff ▸ hexecutes)
    rw [hlock] at hl
    cases hl
    exact absurd hx (by decide)
  · rwa [heff]

theorem lock_covers_run_minute : ∃ q rows, minuteClaim = some (q, rows) ∧
    (LockCovers (sampleClaimAt 0) q 1000 ↔ WindowLasts sampleConn (.finite 60) 1000) := by
  obtain ⟨q, rows, hq, hmc, heff, -⟩ := minuteClaim_eq
  have hm : (effectiveMaxRuntime (sampleClaimAt 0).maxRuntime q).positive = true := by
    rw [heff]
    decide +kernel
  obtain ⟨-, hiff⟩ := lock_covers_run hq hmc hm 1000
  rw [heff] at hiff
  exact ⟨q, rows, hq, hiff⟩

end Sample

end PostgresQueue
