import PostgresQueue.NonOverlap
import PostgresQueue.ScheduleBook

namespace PostgresQueue

open Library System

variable {P : Type}

def Removed (calls : List (BookCall P)) (slot : Slot) (id : ℕ) : Prop :=
  ∃ earlier call later, calls = earlier ++ call :: later ∧
    (replay slot earlier).map Entry.id = some id ∧ replay slot (earlier ++ [call]) = none

section Removed

variable {calls : List (BookCall P)} {slot : Slot} {id : ℕ}

theorem Removed.append (h : Removed calls slot id) (new : List (BookCall P)) :
    Removed (calls ++ new) slot id := by
  obtain ⟨earlier, call, later, rfl, hid, hnone⟩ := h
  exact ⟨earlier, call, later ++ new, by simp, hid, hnone⟩

theorem not_removed_nil : ¬Removed ([] : List (BookCall P)) slot id := by
  rintro ⟨earlier, call, later, he, -⟩
  simp at he

theorem removed_concat {call : BookCall P} :
    Removed (calls ++ [call]) slot id ↔ Removed calls slot id ∨
      ((replay slot calls).map Entry.id = some id ∧ replay slot (calls ++ [call]) = none) := by
  constructor
  · rintro ⟨earlier, c, later, he, hid, hnone⟩
    rcases List.eq_nil_or_concat later with rfl | ⟨later, last, rfl⟩
    · obtain ⟨rfl, hc⟩ := List.append_inj' he rfl
      cases hc
      exact .inr ⟨hid, hnone⟩
    · have he' : calls ++ [call] = (earlier ++ c :: later) ++ [last] := by simpa using he
      obtain ⟨rfl, -⟩ := List.append_inj' he' rfl
      exact .inl ⟨earlier, c, later, rfl, hid, hnone⟩
  · rintro (h | ⟨hid, hnone⟩)
    · exact h.append [call]
    · exact ⟨calls, call, [], rfl, hid, hnone⟩

end Removed

structure Succeeds (rows rows' : Periodics P) : Prop where
  next_le : rows.next ≤ rows'.next
  origin : ∀ q ∈ rows', (∃ p ∈ rows, p.id = q.id ∧ p.slot = q.slot) ∨ rows.next ≤ q.id

namespace Succeeds

variable {rows rows' : Periodics P}

theorem refl (rows : Periodics P) : Succeeds rows rows :=
  ⟨le_rfl, fun q hq => .inl ⟨q, hq, rfl, rfl⟩⟩

theorem of_replaces {p q : Periodic P} (h : rows.Replaces p q rows') : Succeeds rows rows' := by
  refine ⟨h.next_eq.ge, fun r hr => .inl ?_⟩
  rcases h.origin hr with rfl | ⟨hm, -⟩
  · exact ⟨p, h.mem, h.key_eq.symm, (congrArg Prod.snd h.uniq_eq).symm⟩
  · exact ⟨r, hm, rfl, rfl⟩

theorem of_inserts {p : Periodic P} (h : rows.Inserts p rows') : Succeeds rows rows' := by
  refine ⟨by rw [h.next_eq]; exact Nat.le_succ _, fun q hq => ?_⟩
  rcases (h.mem_iff q).mp hq with rfl | hm
  · exact .inr h.key_eq.ge
  · exact .inl ⟨q, hm, rfl, rfl⟩

theorem of_delete (found : Periodic P → Bool) : Succeeds rows (rows.delete found) :=
  ⟨le_rfl, fun q hq => .inl ⟨q, (Table.mem_delete.mp hq).1, rfl, rfl⟩⟩

theorem of_release (maxConcurrent : Option ℤ) (id : ℕ) :
    Succeeds rows (releaseIfLimited maxConcurrent id rows) := by
  unfold releaseIfLimited
  split_ifs
  · refine ⟨le_rfl, fun q hq => .inl ?_⟩
    rcases mem_clearLock.mp hq with ⟨-, -, p, hp, -, rfl⟩ | ⟨hm, -⟩
    · exact ⟨p, hp, rfl, rfl⟩
    · exact ⟨q, hm, rfl, rfl⟩
  · exact refl rows

end Succeeds

section Steps

variable {croniter : Croniter} {repr : PyFloat → String} {s s' : Scheduling P}

theorem succeeds_own {s t : PeriodicState P} {a : PeriodicAction P} (h : PeriodicStep s a t) :
    Succeeds s.rows t.rows ∧
      ∀ r' ∈ t.runs, (∃ r ∈ s.runs, r.row = r'.row) ∨ r'.row ∈ t.rows := by
  have same : ∀ r' ∈ s.runs, (∃ r ∈ s.runs, r.row = r'.row) ∨ r'.row ∈ t.rows :=
    fun r hr => .inl ⟨r, hr, rfl⟩
  have moved : ∀ (i : ℕ) (phase : Phase), ∀ r' ∈ (s.setPhase i phase).runs,
      (∃ r ∈ s.runs, r.row = r'.row) ∨ r'.row ∈ t.rows := by
    intro i phase r' hr'
    obtain ⟨j, hj⟩ := List.mem_iff_getElem?.mp hr'
    rcases getElem?_modify_eq_some hj with ⟨-, r, hr, rfl⟩ | ⟨-, hr⟩
    · exact .inl ⟨r, List.mem_of_getElem? hr, rfl⟩
    · exact .inl ⟨r', List.mem_of_getElem? hr, rfl⟩
  cases h with
  | idle => exact ⟨.refl _, same⟩
  | added _ hins => exact ⟨.of_inserts hins, same⟩
  | changed _ hrep => exact ⟨.of_replaces hrep, same⟩
  | claim _ _ _ _ hrep =>
    refine ⟨.of_replaces hrep, fun r hr => ?_⟩
    rcases List.mem_append.mp hr with hr | hr
    · exact .inl ⟨r, hr, rfl⟩
    · rw [List.mem_singleton.mp hr]
      exact .inr hrep.mem_new
  | start => exact ⟨.refl _, moved _ _⟩
  | finishes => exact ⟨.refl _, moved _ _⟩
  | release => exact ⟨.of_release _ _, moved _ _⟩
  | releaseFails => exact ⟨.refl _, moved _ _⟩
  | dies => exact ⟨.refl _, same⟩
  | tick => exact ⟨.refl _, same⟩

theorem succeeds_step {a : BookAction P} (h : bookStep croniter repr s a = some s') :
    Succeeds s.tables.rows s'.tables.rows ∧
      ∀ r' ∈ s'.tables.runs, (∃ r ∈ s.tables.runs, r.row = r'.row) ∨ r'.row ∈ s'.tables.rows := by
  cases a with
  | own a =>
    obtain ⟨t, ht, rfl⟩ := Option.map_eq_some_iff.mp h
    exact succeeds_own (periodicStep_cases ht)
  | unschedule task key =>
    simp only [bookStep] at h
    split at h
    · rename_i name found rows hu
      cases h
      cases hu
      exact ⟨.of_delete _, fun r hr => .inl ⟨r, hr, rfl⟩⟩
    · cases h
      exact ⟨.refl _, fun r hr => .inl ⟨r, hr, rfl⟩⟩
  | clearAll =>
    cases h
    exact ⟨.of_delete _, fun r hr => .inl ⟨r, hr, rfl⟩⟩

end Steps

def Periodic.identity (p : Periodic P) : ℕ × Slot × Option ClientId × Timestamptz :=
  (p.id, p.slot, p.clientId, p.createdAt)

theorem replayFrom_keeps {slot : Slot} {e e' : Entry P} {new : Option (BookCall P)}
    (h : replayFrom slot (some e) new.toList = some e') :
    e'.id = e.id ∧ e'.clientId = e.clientId ∧ e'.createdAt = e.createdAt := by
  cases new with
  | none =>
    cases h
    exact ⟨rfl, rfl, rfl⟩
  | some call =>
    rw [Option.toList_some] at h
    cases call with
    | scheduled place new =>
      rw [replayFrom_scheduled] at h
      split_ifs at h <;> cases h <;> exact ⟨rfl, rfl, rfl⟩
    | unscheduled place =>
      rw [replayFrom_unscheduled] at h
      split_ifs at h
      cases h
      exact ⟨rfl, rfl, rfl⟩
    | cleared => cases h

structure RemovalInv (s : Scheduling P) : Prop where
  gone : ∀ slot id, Removed s.calls slot id →
    id < s.tables.rows.next ∧ ∀ p ∈ s.tables.rows, p.id ≠ id
  runs : ∀ r ∈ s.tables.runs, Removed s.calls r.row.slot r.row.id ∨
    ∃ p ∈ s.tables.rows, p.identity = r.row.identity

namespace RemovalInv

variable {croniter : Croniter} {repr : PyFloat → String} {s s' : Scheduling P}

theorem step (h : RemovalInv s) (hheld : ∀ slot, held s.tables.rows slot = replay slot s.calls)
    {a : BookAction P} (he : bookStep croniter repr s a = some s') : RemovalInv s' := by
  obtain ⟨new, hcalls, hnew⟩ := held_step he
  obtain ⟨⟨hnext, horigin⟩, hruns⟩ := succeeds_step he
  have hheld' : ∀ slot, held s'.tables.rows slot = replay slot s'.calls := by
    intro slot
    rw [hnew, hheld, hcalls, replay, replay, replayFrom_append]
  have hremoved : ∀ slot id, Removed s'.calls slot id ↔ Removed s.calls slot id ∨
      ((held s.tables.rows slot).map Entry.id = some id ∧ held s'.tables.rows slot = none) := by
    intro slot id
    cases new with
    | none =>
      have hsame : held s'.tables.rows slot = held s.tables.rows slot := hnew slot
      rw [hcalls, Option.toList_none, List.append_nil, hsame]
      refine ⟨.inl, fun hr => hr.elim (fun hold => hold) fun hn => ?_⟩
      rw [hn.2] at hn
      cases hn.1
    | some call => rw [hheld, hheld', hcalls, Option.toList_some, removed_concat]
  constructor
  · intro slot id hr
    rcases (hremoved slot id).mp hr with hold | ⟨hid, hnone⟩
    · obtain ⟨hlt, hno⟩ := h.gone slot id hold
      refine ⟨lt_of_lt_of_le hlt hnext, fun q hq hqid => ?_⟩
      rcases horigin q hq with ⟨p, hp, hpid, -⟩ | hge
      · exact hno p hp (hpid.trans hqid)
      · omega
    · obtain ⟨e, hsome, rfl⟩ := Option.map_eq_some_iff.mp hid
      obtain ⟨p, hp, rfl, rfl⟩ := held_eq_some.mp hsome
      have hlt : p.id < s.tables.rows.next := s.tables.rows.key_lt p hp
      refine ⟨lt_of_lt_of_le hlt hnext, fun q hq hqid => ?_⟩
      rcases horigin q hq with ⟨p', hp', hpid, hslot⟩ | hge
      · obtain rfl := s.tables.rows.eq_of_key hp' hp (hpid.trans hqid)
        rw [hslot, held_of_mem hq] at hnone
        cases hnone
      · have hqp : q.id = p.id := hqid
        omega
  · intro r' hr'
    rcases hruns r' hr' with ⟨r, hr, hrow⟩ | hnew'
    · rw [← hrow]
      rcases h.runs r hr with hold | ⟨p, hp, hident⟩
      · exact .inl ((hremoved _ _).mpr (.inl hold))
      · simp only [Periodic.identity, Prod.mk.injEq] at hident
        obtain ⟨hid, hslot, hclient, hcreated⟩ := hident
        have hat := held_of_mem hp
        cases hsome : held s'.tables.rows p.slot with
        | none =>
          refine .inl ((hremoved _ _).mpr (.inr ?_))
          rw [← hslot, ← hid, hat]
          exact ⟨rfl, hsome⟩
        | some e =>
          rw [hnew, hat] at hsome
          obtain ⟨heid, heclient, hecreated⟩ := replayFrom_keeps hsome
          rw [← hat, ← hnew] at hsome
          obtain ⟨q, hq, hqslot, rfl⟩ := held_eq_some.mp hsome
          refine .inr ⟨q, hq, ?_⟩
          simp only [Periodic.identity, Prod.mk.injEq]
          exact ⟨heid.trans hid, hqslot.trans hslot, heclient.trans hclient,
            hecreated.trans hcreated⟩
    · exact .inr ⟨r'.row, hnew', rfl⟩

end RemovalInv

section Runs

variable {croniter : Croniter} {repr : PyFloat → String} {start : Timestamptz} {s s' : Scheduling P}

theorem removalInv_reachable (h : (bookSystem croniter repr start).Reachable free s) :
    RemovalInv s := by
  refine h.invariant_of_reachable ?_ ?_
  · refine ⟨fun slot id hr => absurd hr not_removed_nil, fun r hr => ?_⟩
    exact absurd hr List.not_mem_nil
  · intro s a t hs hinv _ he
    exact hinv.step (replayed hs) he

theorem row_of_run (h : (bookSystem croniter repr start).Reachable free s) {r : PeriodicRun P}
    (hr : r ∈ s.tables.runs) {p : Periodic P} (hp : p ∈ s.tables.rows) (hid : p.id = r.row.id) :
    p.identity = r.row.identity ∧ ¬Removed s.calls r.row.slot r.row.id := by
  have hinv := removalInv_reachable h
  have hnot : ¬Removed s.calls r.row.slot r.row.id := by
    intro hr
    exact (hinv.gone _ _ hr).2 p hp hid
  refine ⟨?_, hnot⟩
  obtain ⟨q, hq, hident⟩ := (hinv.runs r hr).resolve_left hnot
  have hqid : q.id = r.row.id := (Prod.mk.inj hident).1
  rw [s.tables.rows.eq_of_key hp hq (hid.trans hqid.symm), hident]

theorem clearLock_eq_self {rows : Periodics P} {id : ℕ} (h : ∀ p ∈ rows, p.id ≠ id) :
    clearLock id rows = rows := by
  apply Table.update_eq_self_iff.mpr
  intro p hp hid
  exact absurd (beq_iff_eq.mp hid) (h p hp)

/-- A run that ends late never unlocks a schedule that has taken the place of its own. -/
theorem release_stays_home (h : (bookSystem croniter repr start).Reachable free s) {i : ℕ}
    {r : PeriodicRun P} (hr : s.tables.runs[i]? = some r)
    (he : bookStep croniter repr s (.own (.release i)) = some s') :
    (Removed s.calls r.row.slot r.row.id → s'.tables.rows = s.tables.rows) ∧
      ∀ p ∈ s.tables.rows, p ∉ s'.tables.rows →
        p.identity = r.row.identity ∧ ¬Removed s.calls r.row.slot r.row.id := by
  obtain ⟨t, ht, rfl⟩ := Option.map_eq_some_iff.mp he
  have hm := List.mem_of_getElem? hr
  have hrows : t.rows = releaseIfLimited r.row.maxConcurrent r.row.id s.tables.rows := by
    cases periodicStep_cases ht with
    | idle _ hne => exact absurd rfl (hne i)
    | release hr' =>
      obtain rfl := Option.some.inj (hr'.symm.trans hr)
      rfl
  change (_ → t.rows = _) ∧ ∀ p ∈ s.tables.rows, p ∉ t.rows → _
  rw [hrows]
  constructor
  · intro hgone
    unfold releaseIfLimited
    split_ifs
    · exact clearLock_eq_self ((removalInv_reachable h).gone _ _ hgone).2
    · rfl
  · intro p hp hchanged
    apply row_of_run h hm hp
    by_contra hne
    apply hchanged
    unfold releaseIfLimited
    split_ifs
    · exact mem_clearLock.mpr (.inr ⟨hp, hne⟩)
    · exact hp

end Runs

def sampleRenewed : Scheduling String :=
  sampleBookSystem.run free
    [.own (.schedule sampleConn (sampleSchedule 60 (some 1))),
      .own (samplePeriodicClaim 0 .sequential), .own (.start 0),
      .unschedule (.ok "reports:sync") "",
      .own (.schedule sampleConn (sampleSchedule 60 (some 1))),
      .own (samplePeriodicClaim 1 .concurrent), .own (.start 1),
      .own (.finishes 0 sampleExit)]

theorem release_stays_home_renewed : ∃ s', sampleBookStep sampleRenewed (.own (.release 0)) = some s' ∧
    s'.tables.rows = sampleRenewed.tables.rows := by
  have hrun : (sampleRenewed.tables.runs[0]?).isSome = true := by decide +kernel
  obtain ⟨r, hr⟩ := Option.isSome_iff_exists.mp hrun
  have hstep : (sampleBookStep sampleRenewed (.own (.release 0))).isSome = true := by decide +kernel
  obtain ⟨s', he⟩ := Option.isSome_iff_exists.mp hstep
  have hreach : sampleBookSystem.Reachable free sampleRenewed := .of_run (by decide +kernel)
  refine ⟨s', he, ?_⟩
  obtain ⟨hhome, -⟩ := release_stays_home hreach hr he
  apply hhome
  rcases (removalInv_reachable hreach).runs r (List.mem_of_getElem? hr) with hgone | ⟨p, hp, hident⟩
  · exact hgone
  · have hnone : ∀ p ∈ sampleRenewed.tables.rows.rows, some p.id ≠
        (sampleRenewed.tables.runs[0]?).map fun r => r.row.id := by decide +kernel
    refine absurd ?_ (hnone p hp)
    rw [hr]
    exact congrArg some (Prod.mk.inj hident).1

/-- As `HoldInv`, where a schedule can go while its runs hold it. -/
structure LockedRows (s : PeriodicState P) : Prop where
  written : ∀ r ∈ s.runs, r.Locked → r.row.lockedUntil ≠ none
  lock : ∀ r ∈ s.runs, r.Locked → r.Holding s.dead → ∀ p ∈ s.rows, p.id = r.row.id →
    p.lockedUntil = r.row.lockedUntil
  one : ∀ (i j : ℕ) (r r' : PeriodicRun P), s.runs[i]? = some r → s.runs[j]? = some r' →
    r.Locked → r'.Locked → r.Holding s.dead → r'.Holding s.dead → r.row.id = r'.row.id → i = j

namespace LockedRows

variable {s t : PeriodicState P}

theorem move (h : LockedRows s) (hf : HoldInv.Fewer s t)
    (hrow : ∀ (j : ℕ) (r r' : PeriodicRun P), s.runs[j]? = some r → r.Locked →
      t.runs[j]? = some r' → r'.Holding t.dead → ∀ q ∈ t.rows, q.id = r.row.id →
        ∃ p ∈ s.rows, p.id = q.id ∧ q.lockedUntil = p.lockedUntil) : LockedRows t := by
  have hlocked : ∀ {r r' : PeriodicRun P}, r'.row = r.row → r'.Locked → r.Locked := by
    intro r r' he hl
    rw [PeriodicRun.Locked, ← he]
    exact hl
  refine ⟨fun r' hr' hl => ?_, fun r' hr' hl hh q hq hid => ?_, ?_⟩
  · obtain ⟨j, hj⟩ := List.mem_iff_getElem?.mp hr'
    obtain ⟨r, hr, he, -⟩ := hf j r' hj
    rw [he]
    exact h.written r (List.mem_of_getElem? hr) (hlocked he hl)
  · obtain ⟨j, hj⟩ := List.mem_iff_getElem?.mp hr'
    obtain ⟨r, hr, he, hold⟩ := hf j r' hj
    rw [he] at hid ⊢
    obtain ⟨p, hp, hpid, hlock⟩ := hrow j r r' hr (hlocked he hl) hj hh q hq hid
    rw [hlock]
    exact h.lock r (List.mem_of_getElem? hr) (hlocked he hl) (hold hh) p hp (hpid.trans hid)
  · intro i j r₁ r₂ hi hj hl₁ hl₂ hh₁ hh₂ hid
    obtain ⟨q₁, hq₁, he₁, hold₁⟩ := hf i r₁ hi
    obtain ⟨q₂, hq₂, he₂, hold₂⟩ := hf j r₂ hj
    rw [he₁, he₂] at hid
    exact h.one i j q₁ q₂ hq₁ hq₂ (hlocked he₁ hl₁) (hlocked he₂ hl₂) (hold₁ hh₁) (hold₂ hh₂) hid

theorem unheld (h : LockedRows s) (ht : Timely s) {p : Periodic P} (hp : p ∈ s.rows)
    (hdue : ∀ l, p.lockedUntil = some l → l ≤ s.now) :
    ∀ r ∈ s.runs, r.Locked → r.Holding s.dead → r.row.id ≠ p.id := by
  intro r hr hl hh hid
  have hsame := h.lock r hr hl hh p hp hid.symm
  obtain ⟨l, hlock⟩ := Option.ne_none_iff_exists'.mp (h.written r hr hl)
  have hlate := hdue l (hsame.trans hlock)
  have hearly := ht r hr hl hh l hlock
  exact absurd hearly (not_lt.mpr hlate)

theorem claim (h : LockedRows s) (ht : Timely s) {p q : Periodic P} {rows : Periodics P}
    (hmc : q.maxConcurrent = p.maxConcurrent) (hid : q.id = p.id)
    (hfree : p.maxConcurrent = none → q.lockedUntil = p.lockedUntil)
    (hlim : p.maxConcurrent ≠ none →
      q.lockedUntil ≠ none ∧ ∀ l, p.lockedUntil = some l → l ≤ s.now)
    (hrep : s.rows.Replaces p q rows) (worker : ℕ) (mode : Mode) :
    LockedRows { s with
      rows := rows
      runs := s.runs ++ [⟨q, worker, mode, .claimed⟩] } := by
  have hunheld : q.maxConcurrent ≠ none → ∀ r ∈ s.runs, r.Locked → r.Holding s.dead →
      r.row.id ≠ q.id := by
    intro hq
    rw [hid]
    exact h.unheld ht hrep.mem (hlim (hmc ▸ hq)).2
  refine ⟨fun r hr hl => ?_, fun r hr hl hh x hx hxid => ?_, fun i j r r' hi hj hl hl' hh hh' he => ?_⟩
  · rcases List.mem_append.mp hr with hr | hr
    · exact h.written r hr hl
    · obtain rfl := List.mem_singleton.mp hr
      exact (hlim (hmc ▸ hl)).1
  · rcases List.mem_append.mp hr with hrun | hrun
    · rcases hrep.origin hx with rfl | ⟨hm, -⟩
      · have hnone : p.maxConcurrent = none := by
          by_contra hn
          exact hunheld (hmc ▸ hn) r hrun hl hh hxid.symm
        rw [hfree hnone]
        exact h.lock r hrun hl hh p hrep.mem (hid.symm.trans hxid)
      · exact h.lock r hrun hl hh x hm hxid
    · obtain rfl := List.mem_singleton.mp hrun
      rcases hrep.origin hx with rfl | ⟨-, hne⟩
      · rfl
      · exact absurd (hxid.trans hid) hne
  · rcases getElem?_append_singleton hi with hi | ⟨rfl, rfl⟩ <;>
      rcases getElem?_append_singleton hj with hj | ⟨rfl, rfl⟩
    · exact h.one i j r r' hi hj hl hl' hh hh' he
    · exact absurd he (hunheld hl' r (List.mem_of_getElem? hi) hl hh)
    · exact absurd he.symm (hunheld hl r' (List.mem_of_getElem? hj) hl' hh')
    · rfl

theorem release (h : LockedRows s) {i : ℕ} {r : PeriodicRun P} (hr : s.runs[i]? = some r)
    (hh : r.Holding s.dead) :
    LockedRows { s.setPhase i .recorded with
      rows := releaseIfLimited r.row.maxConcurrent r.row.id s.rows } := by
  apply h.move (HoldInv.fewer_setPhase hr (fun _ => hh) _)
  intro j x x' hx hl hx' hh' q hq hid
  rcases getElem?_modify_eq_some hx' with ⟨rfl, y, -, rfl⟩ | ⟨hij, hx''⟩
  · exact absurd hh' id
  · obtain rfl := Option.some.inj (hx.symm.trans hx'')
    change q ∈ releaseIfLimited r.row.maxConcurrent r.row.id s.rows at hq
    unfold releaseIfLimited at hq
    split_ifs at hq with hmc
    · rcases mem_clearLock.mp hq with ⟨hqid, -⟩ | ⟨hm, -⟩
      · exact absurd (h.one i j r x hr hx hmc hl hh hh' (hqid.symm.trans hid)) hij
      · exact ⟨q, hm, rfl, rfl⟩
    · exact ⟨q, hq, rfl, rfl⟩

theorem step (h : LockedRows s) (ht : Timely s) (hfresh : ∀ r ∈ s.runs, r.row.id < s.rows.next)
    {a : PeriodicAction P} (hs : PeriodicStep s a t) : LockedRows t := by
  have same : HoldInv.Fewer s s := fun j r hj => ⟨r, hj, rfl, fun hh => hh⟩
  have phase : ∀ {i : ℕ} {r : PeriodicRun P} {phase : Phase}, s.runs[i]? = some r →
      (({ r with phase := phase } : PeriodicRun P).Holding s.dead → r.Holding s.dead) →
      LockedRows (s.setPhase i phase) := by
    intro i r phase hr hp
    apply h.move (HoldInv.fewer_setPhase hr hp s.rows)
    intro _ _ _ _ _ _ _ q hq _
    exact ⟨q, hq, rfl, rfl⟩
  cases hs with
  | idle => exact h
  | added _ hins =>
    refine h.move same fun j r r' hr _ _ _ q hq hid => ?_
    rcases (hins.mem_iff q).mp hq with rfl | hm
    · have hlt := hfresh r (List.mem_of_getElem? hr)
      have hnext : q.id = s.rows.next := hins.key_eq
      omega
    · exact ⟨q, hm, rfl, rfl⟩
  | @changed _ _ p q rows hl hrep =>
    refine h.move same fun j r r' _ _ _ _ x hx _ => ?_
    rcases hrep.origin hx with rfl | ⟨hm, -⟩
    · exact ⟨p, hrep.mem, hrep.key_eq.symm, hl⟩
    · exact ⟨x, hm, rfl, rfl⟩
  | claim hmc hid hfree hlim hrep => exact h.claim ht hmc hid hfree hlim hrep _ _
  | start hr hp hd =>
    apply phase hr
    intro _
    simpa [PeriodicRun.Holding, hp] using hd
  | finishes hr hp =>
    apply phase hr
    intro hh
    rcases hp with ⟨hp, hd⟩ | hp
    · simpa [PeriodicRun.Holding, hp] using hd
    · simp [PeriodicRun.Holding, hp]
  | release hr hp hd => exact h.release hr (by simpa [PeriodicRun.Holding, hp] using hd)
  | releaseFails hr hp =>
    apply phase hr
    intro hh
    exact absurd hh id
  | dies worker =>
    refine h.move (fun j r hj => ⟨r, hj, rfl, Holding.of_dies⟩) fun _ _ _ _ _ _ _ q hq _ => ?_
    exact ⟨q, hq, rfl, rfl⟩
  | tick =>
    refine h.move same fun _ _ _ _ _ _ _ q hq _ => ?_
    exact ⟨q, hq, rfl, rfl⟩

theorem delete (h : LockedRows s) (found : Periodic P → Bool) :
    LockedRows { s with rows := s.rows.delete found } := by
  refine h.move (fun j r hj => ⟨r, hj, rfl, fun hh => hh⟩) fun _ _ _ _ _ _ _ q hq _ => ?_
  exact ⟨q, (Table.mem_delete.mp hq).1, rfl, rfl⟩

end LockedRows

section Overlap

variable {croniter : Croniter} {repr : PyFloat → String} {start : Timestamptz} {s s' : Scheduling P}

def bookTimely (croniter : Croniter) (repr : PyFloat → String) (s : Scheduling P)
    (a : BookAction P) : Prop :=
  ∀ t ∈ bookStep croniter repr s a, Timely t.tables

instance (s : Scheduling P) (a : BookAction P) : Decidable (bookTimely croniter repr s a) := by
  unfold bookTimely
  infer_instance

theorem fresh_of_run (h : (bookSystem croniter repr start).Reachable free s) :
    ∀ r ∈ s.tables.runs, r.row.id < s.tables.rows.next := by
  intro r hr
  have hinv := removalInv_reachable h
  rcases hinv.runs r hr with hgone | ⟨p, hp, hident⟩
  · exact (hinv.gone _ _ hgone).1
  · rw [← show p.id = r.row.id from (Prod.mk.inj hident).1]
    exact s.tables.rows.key_lt p hp

theorem lockedRows_step (h : LockedRows s.tables) (ht : Timely s.tables)
    (hfresh : ∀ r ∈ s.tables.runs, r.row.id < s.tables.rows.next) {a : BookAction P}
    (he : bookStep croniter repr s a = some s') : LockedRows s'.tables := by
  cases a with
  | own a =>
    obtain ⟨t, hstep, rfl⟩ := Option.map_eq_some_iff.mp he
    exact h.step ht hfresh (periodicStep_cases hstep)
  | unschedule task key =>
    simp only [bookStep] at he
    split at he
    · rename_i name found rows hu
      cases he
      cases hu
      exact h.delete _
    · cases he
      exact h
  | clearAll =>
    cases he
    exact h.delete _

theorem lockedRows_reachable
    (h : (bookSystem croniter repr start).Reachable (bookTimely croniter repr) s) :
    Timely s.tables ∧ LockedRows s.tables := by
  refine h.invariant_of_reachable (I := fun s => Timely s.tables ∧ LockedRows s.tables) ?_ ?_
  · exact ⟨fun r hr => absurd hr List.not_mem_nil, fun r hr => absurd hr List.not_mem_nil,
      fun r hr => absurd hr List.not_mem_nil, fun i j r r' hi => by simp [bookSystem] at hi⟩
  · rintro s a t hs ⟨htime, hinv⟩ hg he
    have hfree : (bookSystem croniter repr start).Reachable free s := hs.mono fun _ _ _ => trivial
    exact ⟨hg t he, lockedRows_step hinv htime (fresh_of_run hfree) he⟩

/-- Where each lock window lasts until its run has let go of it, two runs of one limited schedule,
by name and key, are alive at once only if a call has removed the schedule of one of them. -/
theorem overlap_needs_removal
    (h : (bookSystem croniter repr start).Reachable (bookTimely croniter repr) s) {i j : ℕ}
    {r r' : PeriodicRun P} (hr : s.tables.runs[i]? = some r) (hr' : s.tables.runs[j]? = some r')
    (hl : r.Locked) (hl' : r'.Locked) (hp : r.phase = .alive) (hp' : r'.phase = .alive)
    (hslot : r.row.slot = r'.row.slot) :
    i = j ∨ Removed s.calls r.row.slot r.row.id ∨ Removed s.calls r.row.slot r'.row.id := by
  obtain ⟨-, hinv⟩ := lockedRows_reachable h
  have hfree : (bookSystem croniter repr start).Reachable free s := h.mono fun _ _ _ => trivial
  have holding : ∀ r : PeriodicRun P, r.phase = .alive → r.Holding s.tables.dead := by
    intro r hp
    simp [PeriodicRun.Holding, hp]
  have hruns := (removalInv_reachable hfree).runs
  rcases hruns r (List.mem_of_getElem? hr) with hgone | ⟨p, hpm, hident⟩
  · exact .inr (.inl hgone)
  · rcases hruns r' (List.mem_of_getElem? hr') with hgone | ⟨q, hqm, hident'⟩
    · exact .inr (.inr (hslot ▸ hgone))
    · simp only [Periodic.identity, Prod.mk.injEq] at hident hident'
      obtain rfl := eq_of_slot hpm hqm (hident.2.1.trans (hslot.trans hident'.2.1.symm))
      have hid : r.row.id = r'.row.id := hident.1.symm.trans hident'.1
      exact .inl (hinv.one i j r r' hr hr' hl hl' (holding r hp) (holding r' hp') hid)

end Overlap

def sampleOverlap : Scheduling String :=
  sampleBookSystem.run (bookTimely sampleCroniter (sampleEnv (P := String)).floatRepr)
    [.own (.schedule sampleConn (sampleSchedule 60 (some 1))),
      .own (samplePeriodicClaim 0 .sequential), .own (.start 0),
      .unschedule (.ok "reports:sync") "",
      .own (.schedule sampleConn (sampleSchedule 60 (some 1))),
      .own (samplePeriodicClaim 1 .concurrent), .own (.start 1)]

theorem overlap_needs_removal_renewed : ∃ r r', sampleOverlap.tables.runs[0]? = some r ∧
    sampleOverlap.tables.runs[1]? = some r' ∧ r.phase = .alive ∧ r'.phase = .alive ∧
    (Removed sampleOverlap.calls r.row.slot r.row.id ∨
      Removed sampleOverlap.calls r.row.slot r'.row.id) := by
  have h : sampleOverlap.tables.runs.map (fun r => (r.phase, r.row.maxConcurrent, r.row.slot)) =
      [(.alive, some 1, ("reports:sync", "")), (.alive, some 1, ("reports:sync", ""))] := by
    decide +kernel
  have hat : ∀ i < 2, ∃ r, sampleOverlap.tables.runs[i]? = some r ∧ r.phase = .alive ∧
      r.row.maxConcurrent = some 1 ∧ r.row.slot = ("reports:sync", "") := by
    intro i hi
    have he : (sampleOverlap.tables.runs[i]?).map
        (fun r => (r.phase, r.row.maxConcurrent, r.row.slot)) =
          some (.alive, some 1, ("reports:sync", "")) := by
      rw [← List.getElem?_map, h]
      match i, hi with
      | 0, _ | 1, _ => rfl
    obtain ⟨r, hr, hfields⟩ := Option.map_eq_some_iff.mp he
    simp only [Prod.mk.injEq] at hfields
    exact ⟨r, hr, hfields⟩
  obtain ⟨r, hr, hp, hmc, hslot⟩ := hat 0 (by omega)
  obtain ⟨r', hr', hp', hmc', hslot'⟩ := hat 1 (by omega)
  have hlocked : ∀ r : PeriodicRun String, r.row.maxConcurrent = some 1 → r.Locked := by
    intro r hmc
    simp [PeriodicRun.Locked, hmc]
  have hover := overlap_needs_removal (.of_run (by decide +kernel)) hr hr' (hlocked r hmc)
    (hlocked r' hmc') hp hp' (hslot.trans hslot'.symm)
  exact ⟨r, r', hr, hr', hp, hp', hover.resolve_left (by omega)⟩

end PostgresQueue
