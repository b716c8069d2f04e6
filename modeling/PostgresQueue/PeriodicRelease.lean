import PostgresQueue.PeriodicSystem

namespace PostgresQueue

open Library System

variable {P : Type} {croniter : Croniter} {repr : PyFloat → String} {start : Timestamptz}

def PeriodicRun.Unended (r : PeriodicRun P) : Prop := r.phase = .claimed ∨ r.phase = .alive

structure NewestLock (s : PeriodicState P) (j : ℕ) (r : PeriodicRun P) : Prop where
  run : s.runs[j]? = some r
  locked : r.Locked
  newest : ∀ (k : ℕ) (r' : PeriodicRun P), j < k → s.runs[k]? = some r' → r'.Locked →
    r'.row.id ≠ r.row.id

/-- The newest lock is in place as long as the run it is for has not ended. -/
def LockHeld (s : PeriodicState P) : Prop :=
  ∀ (j : ℕ) (r : PeriodicRun P), NewestLock s j r → r.Unended →
    ∃ p ∈ s.rows, p.id = r.row.id ∧ p.lockedUntil = r.row.lockedUntil

/-- A run releases only while the newest lock of its schedule is its own or an ended run's. -/
def releasesEnded (s : PeriodicState P) : PeriodicAction P → Prop
  | .release i => ∀ r, s.runs[i]? = some r → r.Locked →
      ∀ (j : ℕ) (r' : PeriodicRun P), NewestLock s j r' → r'.row.id = r.row.id → ¬r'.Unended
  | _ => True

def LockWritten (s : PeriodicState P) : Prop :=
  ∀ r ∈ s.runs, r.Locked → r.row.lockedUntil ≠ none

namespace NewestLock

variable {s s' : PeriodicState P} {j : ℕ} {r : PeriodicRun P}

theorem of_rows (h : NewestLock s' j r) (hruns : s'.runs.map PeriodicRun.row = s.runs.map PeriodicRun.row) :
    ∃ q, q.row = r.row ∧ NewestLock s j q := by
  have row : ∀ {k : ℕ} {x : PeriodicRun P}, s.runs[k]? = some x →
      ∃ y, s'.runs[k]? = some y ∧ y.row = x.row := by
    intro k x hx
    have hk : (s'.runs.map PeriodicRun.row)[k]? = some x.row := by
      rw [hruns, List.getElem?_map, hx, Option.map_some]
    rw [List.getElem?_map] at hk
    exact Option.map_eq_some_iff.mp hk
  have hj : (s.runs.map PeriodicRun.row)[j]? = some r.row := by
    rw [← hruns, List.getElem?_map, h.run, Option.map_some]
  rw [List.getElem?_map] at hj
  obtain ⟨q, hq, he⟩ := Option.map_eq_some_iff.mp hj
  refine ⟨q, he, hq, ?_, fun k x hjk hx hl => ?_⟩
  · rw [PeriodicRun.Locked, he]
    exact h.locked
  · obtain ⟨y, hy, hyx⟩ := row hx
    have hly : y.Locked := by
      rw [PeriodicRun.Locked, hyx]
      exact hl
    rw [he, ← hyx]
    exact h.newest k y hjk hy hly

end NewestLock

theorem rows_setPhase (s : PeriodicState P) (i : ℕ) (phase : Phase) :
    (s.setPhase i phase).runs.map PeriodicRun.row = s.runs.map PeriodicRun.row := by
  refine List.ext_getElem? fun j => ?_
  rw [PeriodicState.setPhase, List.getElem?_map, List.getElem?_map, List.getElem?_modify]
  cases s.runs[j]? with
  | none => rfl
  | some r => simp only [Option.map_eq_map, Option.map_some]; split_ifs <;> rfl

namespace LockHeld

variable {s : PeriodicState P}

theorem setPhase (h : LockHeld s) {i : ℕ} {r : PeriodicRun P} {phase : Phase}
    (hr : s.runs[i]? = some r)
    (hp : ({ r with phase := phase } : PeriodicRun P).Unended → r.Unended) :
    LockHeld (s.setPhase i phase) := by
  intro j x hx hu
  obtain ⟨y, he, hy⟩ := hx.of_rows (rows_setPhase s i phase)
  have hyu : y.Unended := by
    rcases getElem?_modify_eq_some hx.run with ⟨rfl, z, hz, rfl⟩ | ⟨-, hz⟩
    · obtain rfl := Option.some.inj (hy.run.symm.trans hz)
      obtain rfl := Option.some.inj (hr.symm.trans hz)
      exact hp hu
    · obtain rfl := Option.some.inj (hy.run.symm.trans hz)
      exact hu
  obtain ⟨p, hpm, hid, hlock⟩ := h j y hy hyu
  exact ⟨p, hpm, by rw [hid, he], by rw [hlock, he]⟩

theorem of_table (h : LockHeld s) {rows : Periodics P}
    (hrow : ∀ p ∈ s.rows, ∃ q ∈ rows, q.id = p.id ∧ q.lockedUntil = p.lockedUntil)
    {dead : List ℕ} {now : Timestamptz} : LockHeld ⟨rows, s.runs, dead, now⟩ := by
  intro j r hr hu
  obtain ⟨p, hp, hid, hlock⟩ := h j r ⟨hr.run, hr.locked, hr.newest⟩ hu
  obtain ⟨q, hq, hqid, hqlock⟩ := hrow p hp
  exact ⟨q, hq, hqid.trans hid, hqlock.trans hlock⟩

theorem claim (h : LockHeld s) {p q : Periodic P} {rows : Periodics P}
    (hmc : q.maxConcurrent = p.maxConcurrent) (hid : q.id = p.id)
    (hfree : p.maxConcurrent = none → q.lockedUntil = p.lockedUntil)
    (hrep : s.rows.Replaces p q rows) (worker : ℕ) (mode : Mode) :
    LockHeld { s with
      rows := rows
      runs := s.runs ++ [⟨q, worker, mode, .claimed⟩] } := by
  intro j r hr hu
  rcases getElem?_append_singleton hr.run with hj | ⟨rfl, rfl⟩
  · have hlt : j < s.runs.length := (List.getElem?_eq_some_iff.mp hj).1
    have hold : NewestLock s j r := by
      refine ⟨hj, hr.locked, fun k x hjk hx => hr.newest k x hjk ?_⟩
      rw [List.getElem?_append_left (List.getElem?_eq_some_iff.mp hx).1]
      exact hx
    obtain ⟨x, hx, hxid, hxlock⟩ := h j r hold hu
    by_cases hxp : x.id = p.id
    · obtain rfl := s.rows.eq_of_key hx hrep.mem hxp
      have hnone : x.maxConcurrent = none := by
        by_contra hn
        have hlast := hr.newest s.runs.length ⟨q, worker, mode, .claimed⟩ hlt
          List.getElem?_concat_length (by rwa [PeriodicRun.Locked, hmc])
        exact hlast (hid.trans hxid)
      exact ⟨q, hrep.mem_new, hid.trans hxid, (hfree hnone).trans hxlock⟩
    · exact ⟨x, hrep.keep hx hxp, hxid, hxlock⟩
  · exact ⟨q, hrep.mem_new, rfl, rfl⟩

end LockHeld

theorem lockHeld_release {s : PeriodicState P} (hw : LockWritten s) (h : LockHeld s) {i : ℕ}
    {r : PeriodicRun P} {e : RunEnd} (hr : s.runs[i]? = some r) (hp : r.phase = .ended e) :
    LockHeld { s.setPhase i .recorded with
      rows := releaseIfLimited r.row.maxConcurrent r.row.id s.rows } ↔
    releasesEnded s (.release i) := by
  have hended : ¬r.Unended := by simp [PeriodicRun.Unended, hp]
  have hrows := rows_setPhase s i .recorded
  constructor
  · intro hheld r₀ hr₀ hl j x hx hid hu
    obtain rfl := Option.some.inj (hr.symm.trans hr₀)
    have hij : i ≠ j := by
      rintro rfl
      exact hended (Option.some.inj (hr.symm.trans hx.run) ▸ hu)
    obtain ⟨y, he, hy⟩ := NewestLock.of_rows (s := s.setPhase i .recorded) hx hrows.symm
    obtain rfl := Option.some.inj (hy.run.symm.trans (getElem?_modify_of_ne hij hx.run _))
    obtain ⟨p, hpm, hpid, hlock⟩ := hheld j y ⟨hy.run, hy.locked, hy.newest⟩ hu
    change p ∈ releaseIfLimited r.row.maxConcurrent r.row.id s.rows at hpm
    rw [releaseIfLimited, if_pos (show r.row.maxConcurrent ≠ none from hl)] at hpm
    rcases mem_clearLock.mp hpm with ⟨-, hnone, -⟩ | ⟨-, hne⟩
    · exact hw y (List.mem_of_getElem? hx.run) hx.locked (hlock.symm.trans hnone)
    · exact hne (hpid.trans hid)
  · intro hc j x hx hu
    obtain ⟨y, he, hy⟩ := NewestLock.of_rows (s := s) hx hrows
    have hyu : y.Unended := by
      rcases getElem?_modify_eq_some hx.run with ⟨-, z, -, rfl⟩ | ⟨-, hz⟩
      · rcases hu with hu | hu <;> cases hu
      · obtain rfl := Option.some.inj (hy.run.symm.trans hz)
        exact hu
    obtain ⟨p, hpm, hpid, hlock⟩ := h j y hy hyu
    refine ⟨p, ?_, by rw [hpid, he], by rw [hlock, he]⟩
    change p ∈ releaseIfLimited r.row.maxConcurrent r.row.id s.rows
    unfold releaseIfLimited
    split_ifs with hl
    · refine mem_clearLock.mpr (.inr ⟨hpm, fun hid => ?_⟩)
      exact hc r hr hl j y hy (hpid.symm.trans hid) hyu
    · exact hpm

theorem LockWritten.step {s s' : PeriodicState P} {a : PeriodicAction P} (h : LockWritten s)
    (hs : PeriodicStep s a s') : LockWritten s' := by
  have phase : ∀ (i : ℕ) (phase : Phase), LockWritten (s.setPhase i phase) := by
    intro i phase r hr hl
    have hm := List.mem_map_of_mem (f := PeriodicRun.row) hr
    rw [rows_setPhase] at hm
    obtain ⟨q, hq, he⟩ := List.mem_map.mp hm
    rw [← he]
    apply h q hq
    rw [PeriodicRun.Locked, he]
    exact hl
  cases hs with
  | idle | added | changed | dies | tick => exact h
  | @claim worker mode c p q rows hmc _ _ hlim =>
    intro r hr hl
    rcases List.mem_append.mp hr with hr | hr
    · exact h r hr hl
    · obtain rfl := List.mem_singleton.mp hr
      exact (hlim (hmc ▸ hl)).1
  | start | finishes | releaseFails | release => exact phase _ _

theorem lockHeld_step {s s' : PeriodicState P} {a : PeriodicAction P} (hw : LockWritten s)
    (h : LockHeld s) (hs : PeriodicStep s a s') : LockHeld s' ↔ releasesEnded s a := by
  have same : ∀ p ∈ s.rows, ∃ q ∈ s.rows, q.id = p.id ∧ q.lockedUntil = p.lockedUntil :=
    fun p hp => ⟨p, hp, rfl, rfl⟩
  cases hs with
  | idle a ha =>
    apply iff_of_true h
    cases a with
    | release i => exact absurd rfl (ha i)
    | schedule | claim | start | finishes | releaseFails | dies | tick => trivial
  | added _ hins =>
    exact iff_of_true (h.of_table fun p hp => ⟨p, hins.keep hp, rfl, rfl⟩) trivial
  | changed hl hrep =>
    refine iff_of_true (h.of_table fun p hp => ?_) trivial
    rcases hrep.fate hp with ⟨rfl, hm⟩ | hm
    exacts [⟨_, hm, hrep.key_eq, hl⟩, ⟨p, hm, rfl, rfl⟩]
  | claim hmc hid hfree _ hrep => exact iff_of_true (h.claim hmc hid hfree hrep _ _) trivial
  | start hr hp _ => exact iff_of_true (h.setPhase hr fun _ => .inl hp) trivial
  | finishes hr _ =>
    exact iff_of_true (h.setPhase hr fun hu => by rcases hu with hu | hu <;> cases hu) trivial
  | release hr hp _ => exact lockHeld_release hw h hr hp
  | releaseFails hr _ =>
    exact iff_of_true (h.setPhase hr fun hu => by rcases hu with hu | hu <;> cases hu) trivial
  | dies | tick => exact iff_of_true (h.of_table same) trivial

theorem lockHeld_always (as : List (PeriodicAction P)) :
    (periodicSystem croniter repr start).Always LockHeld (periodicSystem croniter repr start).init
        as ↔
      (periodicSystem croniter repr start).EachStep releasesEnded
        (periodicSystem croniter repr start).init as := by
  refine always_iff_eachStep (I := LockWritten) ?_ ?_ ?_ ?_ as
  · exact fun s a t hw he => hw.step (periodicStep_cases he)
  · exact fun s a t hw h he => lockHeld_step hw h (periodicStep_cases he)
  · exact fun r hr => absurd hr List.not_mem_nil
  · intro j r hr
    have := hr.run
    simp [periodicSystem] at this

def overrun : PeriodicState String :=
  samplePeriodicSystem.run free
    [.schedule sampleConn (sampleSchedule 1 (some 1)), samplePeriodicClaim 0 .concurrent, .start 0,
      .tick 2000000, samplePeriodicClaim 1 .concurrent, .start 1, .finishes 0 sampleExit,
      .release 0]

theorem lock_not_held : ¬∀ s, samplePeriodicSystem.Reachable free s → LockHeld s := by
  intro h
  have hheld := h overrun (.of_run (by decide +kernel))
  have hrun : overrun.runs[1]?.map (fun r => (r.phase, r.row.maxConcurrent, r.row.lockedUntil)) =
      some (.alive, some 1, some 3000000) := by decide +kernel
  have hlen : overrun.runs.length = 2 := by decide +kernel
  have hclear : overrun.rows.rows.all (fun p => p.lockedUntil == none) = true := by decide +kernel
  obtain ⟨r, hr, he⟩ := Option.map_eq_some_iff.mp hrun
  simp only [Prod.mk.injEq] at he
  obtain ⟨hp, hmc, hlock⟩ := he
  have hnewest : NewestLock overrun 1 r := by
    refine ⟨hr, by simp [PeriodicRun.Locked, hmc], fun k r' hk hr' => ?_⟩
    have := (List.getElem?_eq_some_iff.mp hr').1
    omega
  obtain ⟨p, hpm, -, hpl⟩ := hheld 1 r hnewest (.inr hp)
  have hnone := List.all_eq_true.mp hclear p hpm
  rw [beq_iff_eq, hpl, hlock] at hnone
  cases hnone

end PostgresQueue
