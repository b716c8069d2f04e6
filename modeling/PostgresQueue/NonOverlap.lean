import PostgresQueue.PeriodicSystem

namespace PostgresQueue

open Library System

variable {P : Type} {croniter : Croniter} {repr : PyFloat → String} {start : Timestamptz}

/-- The run's child is alive, or its worker is still there to fork it or to release its lock. -/
def PeriodicRun.Holding (dead : List ℕ) (r : PeriodicRun P) : Prop :=
  match r.phase with
  | .alive => True
  | .claimed | .ended _ => r.worker ∉ dead
  | .recorded => False

instance (dead : List ℕ) (r : PeriodicRun P) : Decidable (r.Holding dead) := by
  unfold PeriodicRun.Holding
  split <;> infer_instance

theorem Holding.of_dies {worker : ℕ} {dead : List ℕ} {r : PeriodicRun P}
    (h : r.Holding (worker :: dead)) : r.Holding dead := by
  unfold PeriodicRun.Holding at h ⊢
  split at h
  · trivial
  · exact fun hd => h (List.mem_cons_of_mem _ hd)
  · exact fun hd => h (List.mem_cons_of_mem _ hd)
  · exact h

/-- No lock window is over while the run that its claim was for still holds it. -/
def Timely (s : PeriodicState P) : Prop :=
  ∀ r ∈ s.runs, r.Locked → r.Holding s.dead → ∀ l ∈ r.row.lockedUntil, s.now < l

instance (s : PeriodicState P) : Decidable (Timely s) := by unfold Timely; infer_instance

def keepsTimely (croniter : Croniter) (repr : PyFloat → String) (s : PeriodicState P)
    (a : PeriodicAction P) : Prop :=
  ∀ t ∈ periodicStep croniter repr s a, Timely t

instance (croniter : Croniter) (repr : PyFloat → String) (s : PeriodicState P)
    (a : PeriodicAction P) : Decidable (keepsTimely croniter repr s a) := by
  unfold keepsTimely
  infer_instance

structure LockedBy (s : PeriodicState P) (r : PeriodicRun P) (p : Periodic P) : Prop where
  mem : p ∈ s.rows
  id_eq : p.id = r.row.id
  lock_eq : p.lockedUntil = r.row.lockedUntil

structure HoldInv (s : PeriodicState P) : Prop where
  written : ∀ r ∈ s.runs, r.Locked → r.row.lockedUntil ≠ none
  own : ∀ r ∈ s.runs, r.Locked → r.Holding s.dead → ∃ p, LockedBy s r p
  one : ∀ (i j : ℕ) (r r' : PeriodicRun P), s.runs[i]? = some r → s.runs[j]? = some r' →
    r.Locked → r'.Locked → r.Holding s.dead → r'.Holding s.dead → r.row.id = r'.row.id → i = j

namespace HoldInv

variable {s s' : PeriodicState P}

def Fewer (s s' : PeriodicState P) : Prop :=
  ∀ (j : ℕ) (r' : PeriodicRun P), s'.runs[j]? = some r' →
    ∃ r, s.runs[j]? = some r ∧ r'.row = r.row ∧ (r'.Holding s'.dead → r.Holding s.dead)

theorem of_fewer (h : HoldInv s) (hf : Fewer s s')
    (hrow : ∀ (j : ℕ) (r r' : PeriodicRun P), s.runs[j]? = some r → r.Locked →
      s'.runs[j]? = some r' → r'.Holding s'.dead → ∀ p, LockedBy s r p →
        ∃ q ∈ s'.rows, q.id = p.id ∧ q.lockedUntil = p.lockedUntil) : HoldInv s' := by
  have hlocked : ∀ {r r' : PeriodicRun P}, r'.row = r.row → r'.Locked → r.Locked := by
    intro r r' he hl
    rw [PeriodicRun.Locked, ← he]
    exact hl
  refine ⟨fun r' hr' hl => ?_, fun r' hr' hl hh => ?_, ?_⟩
  · obtain ⟨j, hj⟩ := List.mem_iff_getElem?.mp hr'
    obtain ⟨r, hr, he, -⟩ := hf j r' hj
    rw [he]
    exact h.written r (List.mem_of_getElem? hr) (hlocked he hl)
  · obtain ⟨j, hj⟩ := List.mem_iff_getElem?.mp hr'
    obtain ⟨r, hr, he, hold⟩ := hf j r' hj
    obtain ⟨p, hp⟩ := h.own r (List.mem_of_getElem? hr) (hlocked he hl) (hold hh)
    obtain ⟨q, hq, hid, hlock⟩ := hrow j r r' hr (hlocked he hl) hj hh p hp
    exact ⟨q, hq, by rw [hid, hp.id_eq, he], by rw [hlock, hp.lock_eq, he]⟩
  · intro i j r₁ r₂ hi hj hl₁ hl₂ hh₁ hh₂ hid
    obtain ⟨q₁, hq₁, he₁, hold₁⟩ := hf i r₁ hi
    obtain ⟨q₂, hq₂, he₂, hold₂⟩ := hf j r₂ hj
    exact h.one i j q₁ q₂ hq₁ hq₂ (hlocked he₁ hl₁) (hlocked he₂ hl₂) (hold₁ hh₁) (hold₂ hh₂)
      (by rw [← he₁, ← he₂, hid])

theorem of_fewer_keep (h : HoldInv s) (hf : Fewer s s')
    (hkeep : ∀ p ∈ s.rows, ∃ q ∈ s'.rows, q.id = p.id ∧ q.lockedUntil = p.lockedUntil) :
    HoldInv s' := by
  apply h.of_fewer hf
  intro j r r' _ _ _ _ p hp
  exact hkeep p hp.mem

theorem fewer_setPhase {i : ℕ} {r : PeriodicRun P} {phase : Phase} (hr : s.runs[i]? = some r)
    (hp : ({ r with phase := phase } : PeriodicRun P).Holding s.dead → r.Holding s.dead)
    (rows : Periodics P) : Fewer s { s.setPhase i phase with rows := rows } := by
  intro j r' hj
  rcases getElem?_modify_eq_some hj with ⟨rfl, q, hq, rfl⟩ | ⟨-, hq⟩
  · obtain rfl := Option.some.inj (hr.symm.trans hq)
    exact ⟨r, hr, rfl, hp⟩
  · exact ⟨r', hq, rfl, fun hh => hh⟩

theorem unheld (h : HoldInv s) (ht : Timely s) {p : Periodic P} (hp : p ∈ s.rows)
    (hdue : ∀ l, p.lockedUntil = some l → l ≤ s.now) :
    ∀ r ∈ s.runs, r.Locked → r.Holding s.dead → r.row.id ≠ p.id := by
  intro r hr hl hh hid
  obtain ⟨q, hq⟩ := h.own r hr hl hh
  obtain rfl := s.rows.eq_of_key hq.mem hp (hq.id_eq.trans hid)
  obtain ⟨l, hlock⟩ := Option.ne_none_iff_exists'.mp (h.written r hr hl)
  have hlate := hdue l (hq.lock_eq.trans hlock)
  have hearly := ht r hr hl hh l hlock
  exact absurd hearly (not_lt.mpr hlate)

theorem claim (h : HoldInv s) (ht : Timely s) {p q : Periodic P} {rows : Periodics P}
    (hmc : q.maxConcurrent = p.maxConcurrent) (hid : q.id = p.id)
    (hfree : p.maxConcurrent = none → q.lockedUntil = p.lockedUntil)
    (hlim : p.maxConcurrent ≠ none →
      q.lockedUntil ≠ none ∧ ∀ l, p.lockedUntil = some l → l ≤ s.now)
    (hrep : s.rows.Replaces p q rows) (worker : ℕ) (mode : Mode) :
    HoldInv { s with
      rows := rows
      runs := s.runs ++ [⟨q, worker, mode, .claimed⟩] } := by
  have hunheld : q.maxConcurrent ≠ none → ∀ r ∈ s.runs, r.Locked → r.Holding s.dead →
      r.row.id ≠ q.id := by
    intro hq
    rw [hid]
    exact h.unheld ht hrep.mem (hlim (hmc ▸ hq)).2
  refine ⟨fun r hr hl => ?_, fun r hr hl hh => ?_, fun i j r r' hi hj hl hl' hh hh' he => ?_⟩
  · rcases List.mem_append.mp hr with hr | hr
    · exact h.written r hr hl
    · obtain rfl := List.mem_singleton.mp hr
      exact (hlim (hmc ▸ hl)).1
  · rcases List.mem_append.mp hr with hr | hr
    · obtain ⟨x, hx⟩ := h.own r hr hl hh
      by_cases hxp : x.id = p.id
      · obtain rfl := s.rows.eq_of_key hx.mem hrep.mem hxp
        -- a limited claim finds no holder, so this one was unlimited and left the lock
        have hnone : x.maxConcurrent = none := by
          by_contra hn
          exact hunheld (hmc ▸ hn) r hr hl hh (hx.id_eq.symm.trans hid.symm)
        exact ⟨q, hrep.mem_new, hid.trans hx.id_eq, (hfree hnone).trans hx.lock_eq⟩
      · exact ⟨x, hrep.keep hx.mem hxp, hx.id_eq, hx.lock_eq⟩
    · obtain rfl := List.mem_singleton.mp hr
      exact ⟨q, hrep.mem_new, rfl, rfl⟩
  · rcases getElem?_append_singleton hi with hi | ⟨rfl, rfl⟩ <;>
      rcases getElem?_append_singleton hj with hj | ⟨rfl, rfl⟩
    · exact h.one i j r r' hi hj hl hl' hh hh' he
    · exact absurd he (hunheld hl' r (List.mem_of_getElem? hi) hl hh)
    · exact absurd he.symm (hunheld hl r' (List.mem_of_getElem? hj) hl' hh')
    · rfl

theorem release (h : HoldInv s) {i : ℕ} {r : PeriodicRun P} (hr : s.runs[i]? = some r)
    (hh : r.Holding s.dead) :
    HoldInv { s.setPhase i .recorded with
      rows := releaseIfLimited r.row.maxConcurrent r.row.id s.rows } := by
  apply h.of_fewer (fewer_setPhase hr (fun _ => hh) _)
  intro j x x' hx hl hx' hh' p hp
  refine ⟨p, ?_, rfl, rfl⟩
  rcases getElem?_modify_eq_some hx' with ⟨rfl, y, -, rfl⟩ | ⟨hij, hx''⟩
  · exact absurd hh' id
  · obtain rfl := Option.some.inj (hx.symm.trans hx'')
    change p ∈ releaseIfLimited r.row.maxConcurrent r.row.id s.rows
    unfold releaseIfLimited
    split_ifs with hmc
    · refine mem_clearLock.mpr (.inr ⟨hp.mem, fun he => hij ?_⟩)
      exact h.one i j r x hr hx hmc hl hh hh' (he.symm.trans hp.id_eq)
    · exact hp.mem

theorem step (h : HoldInv s) (ht : Timely s) {a : PeriodicAction P} (hs : PeriodicStep s a s') :
    HoldInv s' := by
  have same : Fewer s s := fun j r hj => ⟨r, hj, rfl, fun hh => hh⟩
  have kept : ∀ p ∈ s.rows, ∃ q ∈ s.rows, q.id = p.id ∧ q.lockedUntil = p.lockedUntil :=
    fun p hp => ⟨p, hp, rfl, rfl⟩
  cases hs with
  | idle => exact h
  | added _ hins => exact h.of_fewer_keep same fun p hp => ⟨p, hins.keep hp, rfl, rfl⟩
  | changed hl hrep =>
    refine h.of_fewer_keep same fun p hp => ?_
    rcases hrep.fate hp with ⟨rfl, hm⟩ | hm
    exacts [⟨_, hm, hrep.key_eq, hl⟩, ⟨p, hm, rfl, rfl⟩]
  | claim hmc hid hfree hlim hrep => exact h.claim ht hmc hid hfree hlim hrep _ _
  | start hr hp hd =>
    refine h.of_fewer_keep (fewer_setPhase hr (fun _ => ?_) s.rows) kept
    simpa [PeriodicRun.Holding, hp] using hd
  | @finishes i r e hr hp =>
    refine h.of_fewer_keep (fewer_setPhase hr (fun hh => ?_) s.rows) kept
    rcases hp with ⟨hp, hd⟩ | hp
    · simpa [PeriodicRun.Holding, hp] using hd
    · simp [PeriodicRun.Holding, hp]
  | release hr hp hd => exact h.release hr (by simpa [PeriodicRun.Holding, hp] using hd)
  | releaseFails hr hp => exact h.of_fewer_keep (fewer_setPhase hr False.elim s.rows) kept
  | dies worker => exact h.of_fewer_keep (fun j r hj => ⟨r, hj, rfl, Holding.of_dies⟩) kept
  | tick => exact h.of_fewer_keep same kept

end HoldInv

theorem holdInv_reachable {s : PeriodicState P}
    (h : (periodicSystem croniter repr start).Reachable (keepsTimely croniter repr) s) :
    Timely s ∧ HoldInv s := by
  refine h.invariant (I := fun s => Timely s ∧ HoldInv s) ?_ ?_
  · exact ⟨fun r hr => absurd hr List.not_mem_nil, fun r hr => absurd hr List.not_mem_nil,
      fun r hr => absurd hr List.not_mem_nil, fun i j r r' hi => by simp [periodicSystem] at hi⟩
  · rintro s a t ⟨htime, hinv⟩ hg he
    exact ⟨hg t he, hinv.step htime (periodicStep_cases he)⟩

theorem no_overlap {s : PeriodicState P}
    (h : (periodicSystem croniter repr start).Reachable (keepsTimely croniter repr) s) :
    (∀ (i j : ℕ) (r r' : PeriodicRun P), s.runs[i]? = some r → s.runs[j]? = some r' →
      r.Locked → r'.Locked → r.phase = .alive → r'.phase = .alive → r.row.id = r'.row.id → i = j) ∧
    ∀ r ∈ s.runs, r.Locked → r.phase = .alive →
      ∃ p ∈ s.rows, p.id = r.row.id ∧ ∃ l, p.lockedUntil = some l ∧ s.now < l := by
  obtain ⟨ht, hi⟩ := holdInv_reachable h
  have holding : ∀ r : PeriodicRun P, r.phase = .alive → r.Holding s.dead := by
    intro r hp
    simp [PeriodicRun.Holding, hp]
  constructor
  · intro i j r r' hr hr' hl hl' hp hp' hid
    exact hi.one i j r r' hr hr' hl hl' (holding r hp) (holding r' hp') hid
  · intro r hr hl hp
    obtain ⟨p, hm, hid, hlock⟩ := hi.own r hr hl (holding r hp)
    obtain ⟨l, hw⟩ := Option.ne_none_iff_exists'.mp (hi.written r hr hl)
    exact ⟨p, hm, hid, l, hlock.trans hw, ht r hr hl (holding r hp) l hw⟩

def rescheduled : PeriodicState String :=
  samplePeriodicSystem.run (keepsTimely sampleCroniter (sampleEnv (P := String)).floatRepr)
    [.schedule sampleConn (sampleSchedule 60 (some 1)), samplePeriodicClaim 0 .sequential,
      .start 0, .tick 2000000, .schedule sampleConn (sampleSchedule 60 none),
      samplePeriodicClaim 1 .concurrent, .schedule sampleConn (sampleSchedule 60 (some 1)),
      samplePeriodicClaim 2 .concurrent, .tick 3000000]

theorem no_overlap_rescheduled : ∃ r ∈ rescheduled.runs, r.phase = .alive ∧
    ∃ p ∈ rescheduled.rows, p.id = r.row.id ∧
      ∃ l, p.lockedUntil = some l ∧ rescheduled.now < l := by
  have h : rescheduled.runs[0]?.map (fun r => (r.phase, r.row.maxConcurrent)) =
      some (.alive, some 1) := by decide +kernel
  obtain ⟨r, hr, he⟩ := Option.map_eq_some_iff.mp h
  obtain ⟨hp, hmc⟩ := Prod.mk.inj he
  have hl : r.Locked := by simp [PeriodicRun.Locked, hmc]
  have hm := List.mem_of_getElem? hr
  exact ⟨r, hm, hp, (no_overlap (.of_run (by decide +kernel))).2 r hm hl hp⟩

end PostgresQueue
