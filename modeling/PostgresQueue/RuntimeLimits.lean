import PostgresQueue.ChildProcess
import PostgresQueue.ScheduleClaims

namespace PostgresQueue

open Library

/-- `now() + timedelta(seconds=lock_duration)` comes to a sum that Postgres makes. -/
def Windowed (m : PyFloat) (d : ℤ) : Prop :=
  ∀ {P : Type} (c : PeriodicClaim) (p : Periodic P), effectiveMaxRuntime c.maxRuntime p = m →
    p.maxConcurrent ≠ none → c.lock p = do
      let l ← c.conn.plus c.conn.now d
      return some l

structure Enforced (m : PyFloat) : Prop where
  alarm : ∃ n, alarmSeconds m = .ok n ∧ 1 ≤ n ∧ n ≤ 2 ^ 31 - 1
  setUp : ∀ c : ChildCalls, (∃ other, (forkChild other c).Exits) → (forkChild m c).Exits
  lock : ∃ d, timedelta (lockDuration m) = .ok d ∧ 0 ≤ d ∧ d / 86400000000 ≤ 999999999 ∧ Windowed m d

theorem validated_finite {repr : PyFloat → String} {m : PyFloat}
    (h : validateMaxRuntime repr (some m) = .ok ()) : ∃ q, 0 < q ∧ m = .finite q :=
  validateMaxRuntime_ok.mp h m rfl

theorem lockDuration_of_pos {q : ℚ} (h : 0 < q) : lockDuration (.finite q) = .finite q :=
  if_pos (decide_eq_true h)

theorem windowed_of_timedelta {m : PyFloat} {d : ℤ} (h : timedelta (lockDuration m) = .ok d) :
    Windowed m d := by
  intro P c p hm hlimited
  obtain ⟨k, hk⟩ := Option.ne_none_iff_exists'.mp hlimited
  unfold PeriodicClaim.lock
  rw [hk, hm, h]
  rfl

theorem timedelta_of_lt {q : ℚ} (h0 : 0 < q) (h : q < 2 ^ 31 - 1) :
    ∃ d, timedelta (.finite q) = .ok d ∧ 0 ≤ d ∧ d / 86400000000 ≤ 999999999 := by
  have hlow : 0 ≤ roundHalfEven (q * 1000000) := le_roundHalfEven (by push_cast; positivity)
  have hhigh : roundHalfEven (q * 1000000) ≤ 2147483647000000 :=
    roundHalfEven_le (by push_cast; linarith)
  refine ⟨roundHalfEven (q * 1000000), (timedelta_finite h0).mpr ⟨rfl, ?_⟩, hlow, ?_⟩
  · omega
  · omega

theorem alarm_iff {q : ℚ} (h0 : 0 < q) :
    (∃ n, alarmSeconds (.finite q) = .ok n ∧ 1 ≤ n ∧ n ≤ 2 ^ 31 - 1) ↔ q < 2 ^ 31 - 1 := by
  have hfits : FitsAlarm (.finite q) ↔ q < 2 ^ 31 - 1 := by
    rw [fitsAlarm_iff]
    exact and_iff_right (by linarith)
  have hfloor : 0 ≤ ⌊q⌋ := Int.floor_nonneg.mpr h0.le
  have hn : (if 0 ≤ q then ⌊q⌋ else ⌈q⌉) = ⌊q⌋ := if_pos h0.le
  rw [← hfits]
  constructor
  · rintro ⟨n, hok, -⟩
    exact (alarmSeconds_ok _).mp ⟨n, hok⟩
  · intro h
    have hrange := (fitsAlarm_finite q _ hn).mp h
    refine ⟨⌊q⌋ + 1, ?_, by omega, by omega⟩
    rw [alarmSeconds_finite q _ hn, if_pos hrange]

theorem forkChild_exits_of_fits {m other : PyFloat} {c : ChildCalls} (hm : FitsAlarm m)
    (h : (forkChild other c).Exits) : (forkChild m c).Exits := by
  rw [forkChild_exits, runInChild_exits] at h ⊢
  exact { h with setUp := { h.setUp with alarm := hm } }

/-- A limit that is accepted can be enforced up to what `signal.alarm` takes. -/
theorem validated_enforced {repr : PyFloat → String} {m : PyFloat}
    (h : validateMaxRuntime repr (some m) = .ok ()) :
    Enforced m ↔ ∃ q, m = .finite q ∧ q < 2 ^ 31 - 1 := by
  obtain ⟨q, h0, rfl⟩ := validated_finite h
  simp only [PyFloat.finite.injEq, exists_eq_left']
  constructor
  · intro henforced
    exact (alarm_iff h0).mp henforced.alarm
  · intro hlt
    have hfits : FitsAlarm (.finite q) := (fitsAlarm_iff q).mpr ⟨by linarith, hlt⟩
    obtain ⟨d, hd, hlow, hdays⟩ := timedelta_of_lt h0 hlt
    rw [← lockDuration_of_pos h0] at hd
    refine ⟨(alarm_iff h0).mpr hlt, ?_, d, hd, hlow, hdays, windowed_of_timedelta hd⟩
    rintro c ⟨other, hother⟩
    exact forkChild_exits_of_fits hfits hother

section Sample

def maxRuntimeRepr : PyFloat → String := fun _ => ""

theorem validated_enforced_day : Enforced (.finite 86400) ↔
    ∃ q, PyFloat.finite 86400 = .finite q ∧ q < 2 ^ 31 - 1 :=
  @validated_enforced maxRuntimeRepr (.finite 86400) (by decide +kernel)

theorem validated_not_enforced : ¬∀ m : PyFloat,
    validateMaxRuntime maxRuntimeRepr (some m) = .ok () → Enforced m := by
  intro h
  obtain ⟨n, hok, -⟩ := (h (.finite 2147483647) (by decide +kernel)).alarm
  have hrefused : alarmSeconds (.finite 2147483647) =
      .error (.exception "Python int too large to convert to C int") := by
    decide +kernel
  rw [hrefused] at hok
  cases hok

end Sample

end PostgresQueue
