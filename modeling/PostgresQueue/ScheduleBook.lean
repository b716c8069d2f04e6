import Mathlib.Data.List.Dedup
import PostgresQueue.PeriodicSystem

namespace PostgresQueue

open Library System

variable {P : Type}

def unschedule (task : Except PyError String) (key : String) (rows : Periodics P) :
    Except PyError (Bool × Periodics P) := do
  let name ← task
  let found := fun p : Periodic P => p.name == name && p.key == key
  return (rows.rows.any found, rows.delete found)

def clearAllPeriodic (rows : Periodics P) : Periodics P := rows.delete fun _ => true

def periodicCount (rows : Periodics P) : ℕ := rows.rows.length

def getPeriodicByClientId (clientId : ClientId) (rows : Periodics P) : Option (Periodic P) :=
  rows.find? fun p => p.clientId == some clientId

/-- The columns that `schedule()` overwrites, without `next_run`. -/
structure Definition (P : Type) where
  payload : P
  priority : ℤ
  runEvery : Option ℤ
  cron : Option String
  maxConcurrent : Option ℤ
  active : Bool
  maxRuntimeSeconds : Option PyFloat

structure Entry (P : Type) where
  id : ℕ
  clientId : Option ClientId
  createdAt : Timestamptz
  definition : Definition P

abbrev Slot := String × String

namespace Periodic

def slot (p : Periodic P) : Slot := (p.name, p.key)

def entry (p : Periodic P) : Entry P where
  id := p.id
  clientId := p.clientId
  createdAt := p.createdAt
  definition := {
    payload := p.payload
    priority := p.priority
    runEvery := p.runEvery
    cron := p.cron
    maxConcurrent := p.maxConcurrent
    active := p.active
    maxRuntimeSeconds := p.maxRuntimeSeconds }

end Periodic

def held (rows : Periodics P) (slot : Slot) : Option (Entry P) :=
  (rows.find? fun p => p.slot == slot).map Periodic.entry

/-- A call that changed the schedules. `scheduled` has the id that was returned. -/
inductive BookCall (P : Type)
  | scheduled (slot : Slot) (entry : Entry P)
  | unscheduled (slot : Slot)
  | cleared

namespace BookCall

def concerns (slot : Slot) : BookCall P → Bool
  | .scheduled s _ | .unscheduled s => s == slot
  | .cleared => true

/-- A schedule that is there keeps its id, its client_id and its age. -/
def enter (e : Option (Entry P)) : BookCall P → Option (Entry P)
  | .scheduled _ new => some { e.getD new with definition := new.definition }
  | .unscheduled _ | .cleared => none

end BookCall

def replayFrom (slot : Slot) (e : Option (Entry P)) (calls : List (BookCall P)) :
    Option (Entry P) :=
  (calls.filter fun call => call.concerns slot).foldl BookCall.enter e

def replay (slot : Slot) (calls : List (BookCall P)) : Option (Entry P) :=
  replayFrom slot none calls

def BookCall.slot? : BookCall P → Option Slot
  | .scheduled slot _ => some slot
  | .unscheduled _ | .cleared => none

def standing (calls : List (BookCall P)) : List Slot :=
  (calls.filterMap BookCall.slot?).dedup.filter fun slot => (replay slot calls).isSome

theorem replayFrom_append (slot : Slot) (e : Option (Entry P)) (calls calls' : List (BookCall P)) :
    replayFrom slot e (calls ++ calls') = replayFrom slot (replayFrom slot e calls) calls' := by
  rw [replayFrom, List.filter_append, List.foldl_append]
  rfl

section Single

variable (slot : Slot) (e : Option (Entry P))

theorem replayFrom_scheduled (place : Slot) (new : Entry P) :
    replayFrom slot e [.scheduled place new] =
      if place = slot then some { e.getD new with definition := new.definition } else e := by
  by_cases h : place = slot <;> simp [replayFrom, BookCall.concerns, BookCall.enter, h]

theorem replayFrom_unscheduled (place : Slot) :
    replayFrom slot e [.unscheduled place] = if place = slot then none else e := by
  by_cases h : place = slot <;> simp [replayFrom, BookCall.concerns, BookCall.enter, h]

theorem replayFrom_cleared : replayFrom slot e [.cleared] = none := rfl

theorem replayFrom_eq_of_forall_ne {calls : List (BookCall P)}
    (h : slot ∉ calls.filterMap BookCall.slot?) : replayFrom slot none calls = none := by
  induction calls with
  | nil => rfl
  | cons call calls ih =>
    have hcons : replayFrom slot none (call :: calls) =
        replayFrom slot (replayFrom slot none [call]) calls := replayFrom_append slot none [call] calls
    rw [hcons]
    have hnone : replayFrom slot none [call] = none := by
      cases call with
      | scheduled place new =>
        rw [replayFrom_scheduled, if_neg]
        rintro rfl
        simp [BookCall.slot?] at h
      | unscheduled place => rw [replayFrom_unscheduled, ite_self]
      | cleared => rfl
    rw [hnone]
    apply ih
    intro hm
    refine h ?_
    rw [List.filterMap_cons]
    split
    · exact hm
    · exact List.mem_cons_of_mem _ hm

end Single

theorem mem_standing {slot : Slot} {calls : List (BookCall P)} :
    slot ∈ standing calls ↔ replay slot calls ≠ none := by
  rw [standing, List.mem_filter, List.mem_dedup, Option.isSome_iff_ne_none]
  apply and_iff_right_of_imp
  intro h
  by_contra hm
  exact h (replayFrom_eq_of_forall_ne slot hm)

theorem nodup_standing (calls : List (BookCall P)) : (standing calls).Nodup :=
  (List.nodup_dedup _).filter _

section Held

variable {rows rows' : Periodics P} {slot : Slot} {p q : Periodic P}

theorem eq_of_slot (hp : p ∈ rows) (hq : q ∈ rows) (h : p.slot = q.slot) : p = q := by
  apply rows.eq_of_clash hp hq
  have hpair : (p.name, p.key) = (q.name, q.key) := h
  simp [Periodic.clash, Periodic.uniq, hpair]

theorem held_eq_some {e : Entry P} :
    held rows slot = some e ↔ ∃ p ∈ rows, p.slot = slot ∧ p.entry = e := by
  rw [held, Option.map_eq_some_iff]
  constructor
  · rintro ⟨p, hf, he⟩
    obtain ⟨hp, hs⟩ := Table.mem_of_find? hf
    exact ⟨p, hp, beq_iff_eq.mp hs, he⟩
  · rintro ⟨p, hp, hs, he⟩
    refine ⟨p, Table.find?_eq_some_of_key hp (beq_iff_eq.mpr hs) ?_, he⟩
    intro q hq hqs
    rw [eq_of_slot hq hp ((beq_iff_eq.mp hqs).trans hs.symm)]

theorem held_eq_none : held rows slot = none ↔ ∀ p ∈ rows, p.slot ≠ slot := by
  rw [held, Option.map_eq_none_iff, Table.find?_eq_none]
  simp only [beq_eq_false_iff_ne]

theorem held_of_mem (hp : p ∈ rows) : held rows p.slot = some p.entry :=
  held_eq_some.mpr ⟨p, hp, rfl, rfl⟩

theorem nodup_slots (rows : Periodics P) : (rows.rows.map Periodic.slot).Nodup := by
  refine List.Nodup.map_on ?_ (List.Nodup.of_map _ rows.key_nodup)
  intro p hp q hq h
  exact eq_of_slot hp hq h

theorem mem_slots : slot ∈ rows.rows.map Periodic.slot ↔ held rows slot ≠ none := by
  rw [ne_eq, held_eq_none, List.mem_map]
  simp only [not_forall, not_not, exists_prop]
  rfl

theorem getPeriodicByClientId_eq {clientId : ClientId} {e : Entry P} :
    (getPeriodicByClientId clientId rows).map Periodic.entry = some e ↔
      e.clientId = some clientId ∧ ∃ slot, held rows slot = some e := by
  rw [getPeriodicByClientId, Option.map_eq_some_iff]
  constructor
  · rintro ⟨p, hf, rfl⟩
    obtain ⟨hp, hc⟩ := Table.mem_of_find? hf
    exact ⟨beq_iff_eq.mp hc, p.slot, held_of_mem hp⟩
  · rintro ⟨hc, slot, he⟩
    obtain ⟨p, hp, -, rfl⟩ := held_eq_some.mp he
    refine ⟨p, Table.find?_eq_some_of_key hp (beq_iff_eq.mpr hc) ?_, rfl⟩
    intro q hq hqc
    have hclash : Periodic.clash q.uniq p.uniq = true := by
      have hpc : p.clientId = some clientId := hc
      simp [Periodic.clash, Periodic.uniq, sameClient, beq_iff_eq.mp hqc, hpc]
    rw [rows.eq_of_clash hq hp hclash]

theorem held_congr
    (h : ∀ p, p.slot = slot → (p ∈ rows' ↔ p ∈ rows)) : held rows' slot = held rows slot := by
  apply Option.ext
  intro e
  rw [held_eq_some, held_eq_some]
  constructor
  · rintro ⟨p, hp, hs, he⟩
    exact ⟨p, (h p hs).mp hp, hs, he⟩
  · rintro ⟨p, hp, hs, he⟩
    exact ⟨p, (h p hs).mpr hp, hs, he⟩

theorem held_replaces (h : rows.Replaces p q rows') (slot : Slot) :
    held rows' slot = if p.slot = slot then some q.entry else held rows slot := by
  have hslot : q.slot = p.slot := congrArg Prod.snd h.uniq_eq
  by_cases hp : p.slot = slot
  · rw [if_pos hp, ← hp, ← hslot]
    exact held_of_mem h.mem_new
  · rw [if_neg hp]
    apply held_congr
    intro r hr
    rw [h.mem_iff]
    constructor
    · rintro (rfl | ⟨hm, -⟩)
      · exact absurd (hslot.symm.trans hr) hp
      · exact hm
    · intro hm
      refine .inr ⟨hm, fun he => hp ?_⟩
      rw [← rows.eq_of_key hm h.mem he]
      exact hr

theorem held_keeps (h : rows.Replaces p q rows') (he : q.entry = p.entry) (slot : Slot) :
    held rows' slot = held rows slot := by
  rw [held_replaces h, he]
  by_cases hp : p.slot = slot
  · rw [if_pos hp, ← hp, held_of_mem h.mem]
  · rw [if_neg hp]

theorem held_inserts (h : rows.Inserts p rows') (slot : Slot) :
    held rows' slot = if p.slot = slot then some p.entry else held rows slot := by
  by_cases hp : p.slot = slot
  · rw [if_pos hp, ← hp]
    exact held_of_mem h.mem_new
  · rw [if_neg hp]
    apply held_congr
    intro r hr
    rw [h.mem_iff]
    apply or_iff_right
    rintro rfl
    exact hp hr

theorem held_clearLock (id : ℕ) (rows : Periodics P) (slot : Slot) :
    held (clearLock id rows) slot = held rows slot := by
  apply Option.ext
  intro e
  rw [held_eq_some, held_eq_some]
  constructor
  · rintro ⟨q, hq, hs, he⟩
    rcases mem_clearLock.mp hq with ⟨-, -, p, hp, -, rfl⟩ | ⟨hq, -⟩
    · exact ⟨p, hp, hs, he⟩
    · exact ⟨q, hq, hs, he⟩
  · rintro ⟨p, hp, hs, he⟩
    by_cases hid : p.id = id
    · exact ⟨{ p with lockedUntil := none }, mem_clearLock.mpr (.inl ⟨hid, rfl, p, hp, hid, rfl⟩),
        hs, he⟩
    · exact ⟨p, mem_clearLock.mpr (.inr ⟨hp, hid⟩), hs, he⟩

theorem held_delete {found : Periodic P → Bool} (slot : Slot)
    (h : ∀ p : Periodic P, p.slot = slot → found p = true) : held (rows.delete found) slot = none := by
  apply held_eq_none.mpr
  intro p hp hs
  have hkept := (Table.mem_delete.mp hp).2
  rw [h p hs] at hkept
  cases hkept

theorem held_delete_other {found : Periodic P → Bool} (slot : Slot)
    (h : ∀ p : Periodic P, p.slot = slot → found p = false) :
    held (rows.delete found) slot = held rows slot := by
  apply held_congr
  intro p hs
  rw [Table.mem_delete, h p hs]
  exact and_iff_left rfl

end Held

namespace Schedule

def definition (c : Schedule P) (payload : P) (cron : Option String) : Definition P where
  payload := payload
  priority := c.priority
  runEvery := c.runEvery
  cron := cron
  maxConcurrent := c.maxConcurrent
  active := c.active
  maxRuntimeSeconds := c.maxRuntimeSeconds

def announced (croniter : Croniter) (conn : Conn) (c : Schedule P) (id : ℕ) :
    Except PyError (BookCall P) := do
  let cron ← cronExpr croniter c.cron
  let name ← c.task
  let payload ← c.arguments
  return .scheduled (name, c.key) ⟨id, c.clientId, conn.now, c.definition payload cron⟩

end Schedule

theorem schedule_enters {croniter : Croniter} {repr : PyFloat → String} {conn : Conn}
    {c : Schedule P} {rows rows' : Periodics P} {id : ℕ}
    (h : schedule croniter repr conn c rows = .ok (id, rows')) :
    ∃ slot new, c.announced croniter conn id = .ok (.scheduled slot new) ∧ new.id = id ∧
      ((held rows slot = none ∧ ∃ p, rows.Inserts p rows' ∧ p.slot = slot ∧ p.entry = new) ∨
        ∃ p q, rows.Replaces p q rows' ∧ p.slot = slot ∧ p.id = id ∧
          q.entry = { p.entry with definition := new.definition }) := by
  simp only [schedule, bind_ok] at h
  obtain ⟨-, -, cron, hcron, name, hname, payload, hpayload, next, -, h⟩ := h
  refine ⟨(name, c.key), ⟨id, c.clientId, conn.now, c.definition payload cron⟩, ?_, rfl, ?_⟩
  · rw [Schedule.announced, hcron, hname, hpayload]
    rfl
  · unfold Schedule.execute at h
    split at h
    · rename_i existing hf
      cases h
      obtain ⟨hm, hs⟩ := Table.mem_of_find? hf
      simp only [Bool.and_eq_true, beq_iff_eq] at hs
      refine .inr ⟨existing, c.onConflict payload cron next existing,
        Table.update_replaces hm rfl, ?_, rfl, rfl⟩
      rw [Periodic.slot, hs.1, hs.2]
    · rename_i hf
      split at h
      · cases h
        refine .inl ⟨?_, _, Table.insert_inserts, rfl, rfl⟩
        apply held_eq_none.mpr
        intro p hp hs
        obtain ⟨hn, hk⟩ := Prod.mk.inj hs
        simpa [hn, hk] using Table.find?_eq_none.mp hf p hp
      · cases h

structure Scheduling (P : Type) where
  tables : PeriodicState P
  calls : List (BookCall P)

inductive BookAction (P : Type)
  | own (a : PeriodicAction P)
  | unschedule (task : Except PyError String) (key : String)
  | clearAll

section Step

variable (croniter : Croniter) (repr : PyFloat → String)

def PeriodicState.accepted (s : PeriodicState P) : PeriodicAction P → Option (BookCall P)
  | .schedule conn c =>
    match schedule croniter repr conn c s.rows with
    | .ok (id, _) => (c.announced croniter conn id).toOption
    | .error _ => none
  | _ => none

def bookStep (s : Scheduling P) : BookAction P → Option (Scheduling P)
  | .own a => (periodicStep croniter repr s.tables a).map fun tables =>
      ⟨tables, s.calls ++ (s.tables.accepted croniter repr a).toList⟩
  | .unschedule task key =>
    match task, unschedule task key s.tables.rows with
    | .ok name, .ok (found, rows) => some {
        tables := { s.tables with rows := rows }
        calls := s.calls ++ (if found then some (.unscheduled (name, key)) else none).toList }
    | _, _ => some s
  | .clearAll => some {
      tables := { s.tables with rows := clearAllPeriodic s.tables.rows }
      calls := s.calls ++ [.cleared] }

def bookSystem (start : Timestamptz) : System (Scheduling P) (BookAction P) :=
  ⟨⟨⟨Table.empty, [], [], start⟩, []⟩, bookStep croniter repr⟩

end Step

theorem PeriodicClaim.run_entry {croniter : Croniter} {c : PeriodicClaim} {rows rows' : Periodics P}
    {q : Periodic P} (h : c.run croniter rows = some (q, rows')) :
    ∃ p, rows.Replaces p q rows' ∧ q.entry = p.entry := by
  unfold PeriodicClaim.run at h
  split at h
  · cases h
  · rename_i p hs
    split at h
    · rename_i q' hw
      cases h
      simp only [written, bind_ok] at hw
      obtain ⟨lock, -, next, -, he⟩ := hw
      cases he
      exact ⟨p, flushPeriodic_replaces (select_some hs).1 rfl rfl, rfl⟩
    · cases h

section Cases

variable {croniter : Croniter} {repr : PyFloat → String}

theorem held_schedule {s t : PeriodicState P} {conn : Conn} {c : Schedule P}
    (h : periodicStep croniter repr s (.schedule conn c) = some t) (slot : Slot) :
    held t.rows slot =
      replayFrom slot (held s.rows slot) (s.accepted croniter repr (.schedule conn c)).toList := by
  cases hs : schedule croniter repr conn c s.rows with
  | error e =>
    simp only [periodicStep, hs, Option.some.injEq] at h
    rw [← h, PeriodicState.accepted, hs]
    rfl
  | ok made =>
    obtain ⟨id, rows⟩ := made
    simp only [periodicStep, hs, Option.some.injEq] at h
    obtain ⟨place, new, hcall, -, hcases⟩ := schedule_enters hs
    have haccepted : (s.accepted croniter repr (.schedule conn c)).toList = [.scheduled place new] := by
      rw [PeriodicState.accepted, hs]
      dsimp only
      rw [hcall]
      rfl
    rw [haccepted, replayFrom_scheduled, ← h]
    rcases hcases with ⟨hnone, p, hins, rfl, rfl⟩ | ⟨p, q, hrep, rfl, -, hq⟩
    · rw [held_inserts hins]
      by_cases hp : p.slot = slot
      · rw [if_pos hp, if_pos hp, ← hp, hnone]
        rfl
      · rw [if_neg hp, if_neg hp]
    · rw [held_replaces hrep, hq]
      by_cases hp : p.slot = slot
      · rw [if_pos hp, if_pos hp, ← hp, held_of_mem hrep.mem]
        rfl
      · rw [if_neg hp, if_neg hp]

theorem held_work {s t : PeriodicState P} {a : PeriodicAction P}
    (h : periodicStep croniter repr s a = some t) (ha : ∀ conn c, a ≠ .schedule conn c)
    (slot : Slot) : held t.rows slot = held s.rows slot := by
  cases a with
  | schedule conn c => exact absurd rfl (ha conn c)
  | claim worker mode c =>
    simp only [periodicStep] at h
    split_ifs at h
    split at h
    · cases h
      rfl
    · rename_i q rows hc
      cases h
      rw [PeriodicState.claim, Mode.claimPeriodic_eq] at hc
      obtain ⟨p, hrep, he⟩ := PeriodicClaim.run_entry hc
      exact held_keeps hrep he slot
  | release i =>
    cases periodicStep_cases h with
    | idle => rfl
    | release =>
      change held (releaseIfLimited _ _ s.rows) slot = _
      unfold releaseIfLimited
      split_ifs
      · exact held_clearLock _ _ slot
      · rfl
  | _ => cases periodicStep_cases h <;> rfl

theorem held_own {s t : PeriodicState P} {a : PeriodicAction P}
    (h : periodicStep croniter repr s a = some t) (slot : Slot) :
    held t.rows slot = replayFrom slot (held s.rows slot) (s.accepted croniter repr a).toList := by
  cases a with
  | schedule conn c => exact held_schedule h slot
  | _ => exact held_work h (fun _ _ he => by cases he) slot

theorem unschedule_ok {name key : String} {rows rows' : Periodics P} {found : Bool}
    (h : unschedule (.ok name) key rows = .ok (found, rows')) :
    (found = true ↔ held rows (name, key) ≠ none) ∧ held rows' (name, key) = none ∧
      ∀ slot, slot ≠ (name, key) → held rows' slot = held rows slot := by
  cases h
  have hslot : ∀ p : Periodic P, (p.name == name && p.key == key) = decide (p.slot = (name, key)) :=
    fun p => by simp [Periodic.slot, Bool.decide_and, beq_eq_decide]
  refine ⟨?_, ?_, ?_⟩
  · rw [List.any_eq_true, ne_eq, held_eq_none]
    simp only [hslot, decide_eq_true_eq, not_forall, not_not, exists_prop]
    rfl
  · apply held_delete
    intro p hp
    rw [hslot, hp]
    exact decide_eq_true rfl
  · intro slot hne
    apply held_delete_other
    intro p hp
    rw [hslot, hp]
    exact decide_eq_false hne

theorem held_step {s s' : Scheduling P} {a : BookAction P}
    (h : bookStep croniter repr s a = some s') :
    ∃ new : Option (BookCall P), s'.calls = s.calls ++ new.toList ∧
      ∀ slot, held s'.tables.rows slot = replayFrom slot (held s.tables.rows slot) new.toList := by
  cases a with
  | own a =>
    obtain ⟨t, ht, rfl⟩ := Option.map_eq_some_iff.mp h
    exact ⟨_, rfl, held_own ht⟩
  | unschedule task key =>
    simp only [bookStep] at h
    split at h
    · rename_i name found rows hu
      cases h
      obtain ⟨hfound, hgone, hother⟩ := unschedule_ok hu
      refine ⟨_, rfl, fun slot => ?_⟩
      by_cases hs : slot = (name, key)
      · subst hs
        apply Eq.trans hgone
        cases found with
        | true => rw [if_pos rfl, Option.toList_some, replayFrom_unscheduled, if_pos rfl]
        | false => exact (by_contra fun hn => Bool.false_ne_true (hfound.mpr fun he => hn he.symm))
      · apply Eq.trans (hother slot hs)
        cases found with
        | true => rw [if_pos rfl, Option.toList_some, replayFrom_unscheduled, if_neg (Ne.symm hs)]
        | false => rfl
    · cases h
      exact ⟨none, (List.append_nil _).symm, fun _ => rfl⟩
  | clearAll =>
    cases h
    refine ⟨some .cleared, rfl, fun slot => ?_⟩
    rw [Option.toList_some, replayFrom_cleared]
    exact held_delete slot fun _ _ => rfl

end Cases

section Runs

variable {croniter : Croniter} {repr : PyFloat → String} {start : Timestamptz} {s : Scheduling P}

theorem replayed (h : (bookSystem croniter repr start).Reachable free s) (slot : Slot) :
    held s.tables.rows slot = replay slot s.calls := by
  refine h.invariant (I := fun s => ∀ slot, held s.tables.rows slot = replay slot s.calls)
    ?_ ?_ slot
  · intro slot
    exact held_eq_none.mpr fun p hp => absurd hp (Table.not_mem_empty p)
  · intro s a t hs _ he slot
    obtain ⟨new, hcalls, hheld⟩ := held_step he
    rw [hheld, hs, hcalls, replay, replay, replayFrom_append]

/-- Whatever the workers do, the schedules are what the accepted calls say, name by name and key by
key. -/
theorem book_is_replayed (h : (bookSystem croniter repr start).Reachable free s) :
    (∀ slot, held s.tables.rows slot = replay slot s.calls) ∧
      periodicCount s.tables.rows = (standing s.calls).length ∧
      ∀ clientId e, (getPeriodicByClientId clientId s.tables.rows).map Periodic.entry = some e ↔
        e.clientId = some clientId ∧ ∃ slot, replay slot s.calls = some e := by
  have hall := replayed h
  refine ⟨hall, ?_, ?_⟩
  · have hperm : (s.tables.rows.rows.map Periodic.slot).Perm (standing s.calls) := by
      refine (List.perm_ext_iff_of_nodup (nodup_slots _) (nodup_standing _)).mpr fun slot => ?_
      rw [mem_slots, mem_standing, hall]
    rw [periodicCount, ← List.length_map Periodic.slot]
    exact hperm.length_eq
  · intro clientId e
    simp only [getPeriodicByClientId_eq, hall]

end Runs

def sampleBookStep : Scheduling String → BookAction String → Option (Scheduling String) :=
  bookStep sampleCroniter (sampleEnv (P := String)).floatRepr

def sampleBookSystem : System (Scheduling String) (BookAction String) :=
  bookSystem sampleCroniter (sampleEnv (P := String)).floatRepr 0

def sampleBook : Scheduling String :=
  sampleBookSystem.run free
    [.own (.schedule sampleConn (sampleSchedule 60 (some 1))),
      .own (samplePeriodicClaim 0 .sequential), .own (.start 0),
      .own (.schedule sampleConn (sampleSchedule 30 none)),
      .unschedule (.ok "reports:sync") "", .unschedule (.ok "reports:sync") "",
      .own (.schedule sampleConn (sampleSchedule 60 (some 1)))]

theorem book_is_replayed_renewed : periodicCount sampleBook.tables.rows = 1 ∧
    (replay ("reports:sync", "") sampleBook.calls).map (fun e => e.definition.maxConcurrent) =
      some (some 1) := by
  have hreach : sampleBookSystem.Reachable free sampleBook := .of_run (by decide +kernel)
  obtain ⟨hall, hcount, -⟩ := book_is_replayed hreach
  refine ⟨hcount.trans (by decide +kernel), ?_⟩
  rw [← hall]
  decide +kernel

end PostgresQueue
