import PostgresQueue.Library.KeyedWrites
import PostgresQueue.Library.Selection
import PostgresQueue.RowForm
import PostgresQueue.WorkerPaths

namespace PostgresQueue

open Library System

variable {P : Type}

structure Draining (P : Type) where
  db : Database P
  slots : List ChildSlot
  claimed : List (Task P)

inductive DrainAction
  | process (calls : StartCalls) (child : ChildEnd) (startedAt : Timestamptz) (elapsed : String)
      (clock : Timestamptz)
  | fork (calls : StartCalls) (startedAt clock : Timestamptz)
  | reap (i : ℕ) (child : ChildEnd) (elapsed : String) (clock : Timestamptz)

def DrainAction.isClaim : DrainAction → Bool
  | .process _ _ _ _ _ | .fork _ _ _ => true
  | .reap _ _ _ _ => false

section Drain

variable (env : Env P) (maxRuntime : PyFloat) (now : Timestamptz) (priorities : Option (List ℤ))

def drainStep (s : Draining P) : DrainAction → Option (Draining P)
  | .process calls child startedAt elapsed clock =>
    let done := processOneOffTask calls child env maxRuntime ⟨now, priorities, startedAt, []⟩
      elapsed clock s.db
    done.claimed.map fun t => ⟨done.db, s.slots, s.claimed ++ [t]⟩
  | .fork calls startedAt clock =>
    let forked := claimAndForkOneOff calls env maxRuntime ⟨now, priorities, startedAt, []⟩ clock s.db
    forked.claimed.map fun t => ⟨forked.db, s.slots ++ forked.slot.toList, s.claimed ++ [t]⟩
  | .reap i child elapsed clock =>
    s.slots[i]?.map fun slot =>
      { s with
        db := reapAndUpdate env child elapsed clock slot s.db
        slots := s.slots.eraseIdx i }

def draining (db : Database P) : System (Draining P) DrainAction :=
  ⟨⟨db, [], []⟩, drainStep env maxRuntime now priorities⟩

end Drain

section Order

variable (now : Timestamptz) (priorities : Option (List ℤ))

def dueRows (tasks : Tasks P) : List (Task P) :=
  tasks.rows.filter fun t => claimWhere now priorities t

def Exhausted (tasks : Tasks P) : Prop :=
  ∀ (mode : Mode) (startedAt : Timestamptz), mode.claim ⟨now, priorities, startedAt, []⟩ tasks = none

def Marked (t claimed : Task P) : Prop :=
  ∃ startedAt, claimed = Claim.markRunning ⟨now, priorities, startedAt, []⟩ t

structure DrainInv (tasks₀ tasks : Tasks P) (order : List (Task P)) : Prop where
  taken : Taken claimOrder (dueRows now priorities tasks₀) order
  kept : ∀ t ∈ tasks₀, t ∉ order → t ∈ tasks
  origin : ∀ q ∈ tasks, (q ∈ tasks₀ ∧ q ∉ order) ∨
    (∃ t ∈ order, q.id = t.id) ∧ q.status ≠ .pending ∧ q.requeue = none

end Order

instance : Std.Total (claimOrder (P := P)) where
  total a b := by
    rcases lt_trichotomy a.priority b.priority with h | h | h
    · exact .inr (.inl h)
    · exact (le_total a.runAt b.runAt).imp (fun hle => .inr ⟨h, hle⟩) fun hle => .inr ⟨h.symm, hle⟩
    · exact .inl (.inl h)

instance : IsTrans (Task P) claimOrder where
  trans a b d hab hbd := by
    rcases hab with hab | ⟨hab, hle⟩
    · rcases hbd with hbd | ⟨hbd, -⟩
      · exact .inl (hbd.trans hab)
      · exact .inl (hbd ▸ hab)
    · rcases hbd with hbd | ⟨hbd, hle'⟩
      · exact .inl (hab ▸ hbd)
      · exact .inr ⟨hab.trans hbd, hle.trans hle'⟩

section Claim

variable {now : Timestamptz} {priorities : Option (List ℤ)} {tasks₀ tasks tasks' : Tasks P}
  {order : List (Task P)}

theorem mem_dueRows {t : Task P} :
    t ∈ dueRows now priorities tasks ↔ t ∈ tasks ∧ claimWhere now priorities t = true :=
  List.mem_filter

theorem select_drain (startedAt : Timestamptz) :
    Claim.select ⟨now, priorities, startedAt, []⟩ tasks =
      ((dueRows now priorities tasks).insertionSort claimOrder).head? := by
  unfold Claim.select dueRows
  simp

theorem exhausted_iff : Exhausted now priorities tasks ↔ dueRows now priorities tasks = [] := by
  have hselect : ∀ startedAt, Claim.run ⟨now, priorities, startedAt, []⟩ tasks = none ↔
      dueRows now priorities tasks = [] := by
    intro startedAt
    unfold Claim.run
    rw [select_drain, ← List.length_eq_zero_iff, ← List.length_insertionSort claimOrder,
      List.length_eq_zero_iff]
    cases (dueRows now priorities tasks).insertionSort claimOrder <;> simp
  unfold Exhausted
  simp only [Mode.claim_eq, hselect]
  exact ⟨fun h => h .sequential 0, fun h _ _ => h⟩

namespace DrainInv

theorem start : DrainInv now priorities tasks₀ tasks₀ [] :=
  ⟨.start, fun _ ht _ => ht, fun _ hq => .inl ⟨hq, List.not_mem_nil⟩⟩

theorem mem_due (h : DrainInv now priorities tasks₀ tasks order) {t : Task P} :
    t ∈ dueRows now priorities tasks ↔ t ∈ dueRows now priorities tasks₀ ∧ t ∉ order := by
  rw [mem_dueRows, mem_dueRows]
  constructor
  · rintro ⟨ht, hdue⟩
    rcases h.origin t ht with ⟨ht₀, hnew⟩ | ⟨-, hs, -⟩
    · exact ⟨⟨ht₀, hdue⟩, hnew⟩
    · exact absurd (Claim.claimWhere_pending hdue) hs
  · rintro ⟨⟨ht₀, hdue⟩, hnew⟩
    exact ⟨h.kept t ht₀ hnew, hdue⟩

theorem claim (h : DrainInv now priorities tasks₀ tasks order)
    (hpending : ∀ t ∈ tasks₀, t.status = .pending → t.requeue = none) {startedAt : Timestamptz}
    {claimed : Task P} (hrun : Claim.run ⟨now, priorities, startedAt, []⟩ tasks = some (claimed, tasks')) :
    ∃ t, Marked now priorities t claimed ∧ DrainInv now priorities tasks₀ tasks' (order ++ [t]) := by
  unfold Claim.run at hrun
  split at hrun
  · cases hrun
  · rename_i t hs
    cases hrun
    rw [select_drain, head?_insertionSort] at hs
    have hmem := hs.mem
    obtain ⟨hdue, hnew⟩ := h.mem_due.mp hmem
    obtain ⟨ht₀, hwhere⟩ := mem_dueRows.mp hdue
    have ht : t ∈ tasks := (mem_dueRows.mp hmem).1
    have hrep : tasks.Replaces t (Claim.markRunning ⟨now, priorities, startedAt, []⟩ t) _ :=
      flush_replaces ht rfl rfl
    refine ⟨t, ⟨startedAt, rfl⟩, h.taken.take hdue hnew fun b hb hbnew => ?_, fun x hx hxnew => ?_,
      fun q hq => ?_⟩
    · exact hs.least (h.mem_due.mpr ⟨hb, hbnew⟩)
    · rw [List.mem_append, List.mem_singleton, not_or] at hxnew
      have hx' := h.kept x hx hxnew.1
      exact hrep.keep hx' fun hid => hxnew.2 (tasks.eq_of_key hx' ht hid)
    · rcases hrep.origin hq with rfl | ⟨hq, hne⟩
      · refine .inr ⟨⟨t, by simp, rfl⟩, nofun, ?_⟩
        exact hpending t ht₀ (Claim.claimWhere_pending hwhere)
      · rcases h.origin q hq with ⟨hq₀, hqnew⟩ | ⟨⟨x, hx, hid⟩, hended⟩
        · refine .inl ⟨hq₀, fun hmem' => ?_⟩
          rcases List.mem_append.mp hmem' with hmem' | hmem'
          · exact hqnew hmem'
          · exact hne (by rw [List.mem_singleton.mp hmem'])
        · exact .inr ⟨⟨x, List.mem_append_left _ hx, hid⟩, hended⟩

theorem finish (h : DrainInv now priorities tasks₀ tasks order) (env : Env P) (clock : Timestamptz)
    {t : Task P} (ht : t ∈ order) (startedAt : Option Timestamptz) {o : Outcome} (ho : o.Sound) :
    DrainInv now priorities tasks₀ (finishOneOff env clock t.id startedAt o tasks) order := by
  have ht₀ : t ∈ tasks₀ := (mem_dueRows.mp (h.taken.mem t ht)).1
  rcases finishOneOff_cases env clock t.id startedAt o tasks with he | ⟨x, hw, hcase⟩
  · rwa [he]
  · obtain ⟨hid, -, -⟩ := finishWhere_true hw
    have hx : x ∈ tasks := by
      rcases hcase with ⟨_, -, hrep⟩ | ⟨-, hrep⟩
      · exact hrep.mem
      · exact hrep.mem
    -- the row is one that has been claimed, so nothing is parked on it
    have hnone : x.requeue = none := by
      rcases h.origin x hx with ⟨hx₀, hxnew⟩ | ⟨-, -, hnone⟩
      · rw [tasks₀.eq_of_key hx₀ ht₀ hid] at hxnew
        exact absurd ht hxnew
      · exact hnone
    rcases hcase with ⟨q, hq, -⟩ | ⟨-, hrep⟩
    · obtain ⟨spec, v, hspec, -, -⟩ := Task.applyRequeue_ok.mp hq
      rw [hnone] at hspec
      cases hspec
    · refine ⟨h.taken, fun y hy hynew => ?_, fun q hq => ?_⟩
      · have hy' := h.kept y hy hynew
        refine hrep.keep hy' fun hyid => hynew ?_
        rw [tasks₀.eq_of_key hy ht₀ (hyid.trans hid)]
        exact ht
      · rcases hrep.origin hq with rfl | ⟨hq, -⟩
        · have hstatus : o.status ≠ .pending := by
            rcases ho with rfl | hfailed
            · exact nofun
            · rw [hfailed]
              exact nofun
          exact .inr ⟨⟨t, ht, hid⟩, hstatus, hnone⟩
        · exact h.origin q hq

end DrainInv

end Claim

section Steps

variable {env : Env P} {maxRuntime : PyFloat} {now : Timestamptz} {priorities : Option (List ℤ)}
  {db : Database P}

structure Drained (now : Timestamptz) (priorities : Option (List ℤ)) (db : Database P) (s : Draining P)
    (order : List (Task P)) : Prop where
  rows : DrainInv now priorities db.tasks s.db.tasks order
  claimed : List.Forall₂ (Marked now priorities) order s.claimed
  slots : ∀ slot ∈ s.slots, slot.isPeriodic = false ∧ ∃ t ∈ order, slot.taskId = t.id
  periodics : s.db.periodics = db.periodics

theorem Marked.id_eq {t claimed : Task P} (h : Marked now priorities t claimed) :
    claimed.id = t.id := by
  obtain ⟨startedAt, rfl⟩ := h
  rfl

theorem slots_grow {order : List (Task P)} {slots : List ChildSlot} (t : Task P)
    (h : ∀ slot ∈ slots, slot.isPeriodic = false ∧ ∃ t ∈ order, slot.taskId = t.id) :
    ∀ slot ∈ slots, slot.isPeriodic = false ∧ ∃ x ∈ order ++ [t], slot.taskId = x.id := by
  intro slot hslot
  obtain ⟨hperiodic, x, hx, hid⟩ := h slot hslot
  exact ⟨hperiodic, x, List.mem_append_left _ hx, hid⟩

theorem forall₂_snoc {α β : Type} {R : α → β → Prop} {l : List α} {l' : List β} {a : α} {b : β}
    (h : List.Forall₂ R l l') (hab : R a b) : List.Forall₂ R (l ++ [a]) (l' ++ [b]) :=
  List.rel_append h (.cons hab .nil)

theorem Drained.claim {s : Draining P} {order : List (Task P)}
    (hpending : ∀ t ∈ db.tasks, t.status = .pending → t.requeue = none)
    (h : Drained now priorities db s order) {startedAt : Timestamptz} {row : Task P} {tasks : Tasks P}
    (hrun : Claim.run ⟨now, priorities, startedAt, []⟩ s.db.tasks = some (row, tasks)) (env : Env P) :
    ∃ t, row.id = t.id ∧ DrainInv now priorities db.tasks tasks (order ++ [t]) ∧
      List.Forall₂ (Marked now priorities) (order ++ [t]) (s.claimed ++ [row]) ∧
      ∀ (clock : Timestamptz) (o : Outcome), o.Sound → DrainInv now priorities db.tasks
        (finishOneOff env clock row.id row.startedAt o tasks) (order ++ [t]) := by
  obtain ⟨t, hmark, hinv⟩ := h.rows.claim hpending hrun
  have hin : t ∈ order ++ [t] := List.mem_append_right _ (List.mem_singleton_self t)
  refine ⟨t, hmark.id_eq, hinv, forall₂_snoc h.claimed hmark, fun clock o ho => ?_⟩
  rw [hmark.id_eq]
  exact hinv.finish env clock hin row.startedAt ho

theorem Drained.process {s s' : Draining P} {order : List (Task P)}
    (hpending : ∀ t ∈ db.tasks, t.status = .pending → t.requeue = none)
    (h : Drained now priorities db s order) {calls : StartCalls} {child : ChildEnd}
    {startedAt : Timestamptz} {elapsed : String} {clock : Timestamptz}
    (hstep : drainStep env maxRuntime now priorities s
      (.process calls child startedAt elapsed clock) = some s') :
    ∃ t, Drained now priorities db s' (order ++ [t]) := by
  simp only [drainStep, processOneOffTask, processOneOffClaim] at hstep
  cases hrun : Claim.run ⟨now, priorities, startedAt, []⟩ s.db.tasks with
  | none =>
    rw [hrun] at hstep
    cases hstep
  | some claimed =>
    obtain ⟨row, tasks⟩ := claimed
    obtain ⟨t, -, hinv, hclaimed, hfinish⟩ := h.claim hpending hrun env
    rw [hrun] at hstep
    cases ho : exceptOutcome elapsed (executeClaimed calls child) with
    | some o =>
      simp only [ho, Option.map_some] at hstep
      cases hstep
      exact ⟨t, hfinish clock o (exceptOutcome_sound ho), hclaimed, slots_grow t h.slots,
        h.periodics⟩
    | none =>
      simp only [ho, Option.map_some] at hstep
      cases hstep
      exact ⟨t, hinv, hclaimed, slots_grow t h.slots, h.periodics⟩

theorem Drained.fork {s s' : Draining P} {order : List (Task P)}
    (hpending : ∀ t ∈ db.tasks, t.status = .pending → t.requeue = none)
    (h : Drained now priorities db s order) {calls : StartCalls} {startedAt clock : Timestamptz}
    (hstep : drainStep env maxRuntime now priorities s (.fork calls startedAt clock) = some s') :
    ∃ t, Drained now priorities db s' (order ++ [t]) := by
  simp only [drainStep, claimAndForkOneOff, claimAndForkOneOffClaim] at hstep
  cases hrun : Claim.run ⟨now, priorities, startedAt, []⟩ s.db.tasks with
  | none =>
    rw [hrun] at hstep
    cases hstep
  | some claimed =>
    obtain ⟨row, tasks⟩ := claimed
    obtain ⟨t, hid, hinv, hclaimed, hfinish⟩ := h.claim hpending hrun env
    rw [hrun] at hstep
    cases hstart : calls.start with
    | error e =>
      cases ho : startOutcome e with
      | some o =>
        simp only [hstart, ho, Option.map_some, Option.toList_none, List.append_nil] at hstep
        cases hstep
        exact ⟨t, hfinish clock o (.inr (startOutcome_failed ho)), hclaimed,
          slots_grow t h.slots, h.periodics⟩
      | none =>
        simp only [hstart, ho, Option.map_some, Option.toList_none, List.append_nil] at hstep
        cases hstep
        exact ⟨t, hinv, hclaimed, slots_grow t h.slots, h.periodics⟩
    | ok =>
      simp only [hstart, Option.map_some, Option.toList_some] at hstep
      cases hstep
      refine ⟨t, hinv, hclaimed, fun slot hslot => ?_, h.periodics⟩
      rcases List.mem_append.mp hslot with hslot | hslot
      · exact slots_grow t h.slots slot hslot
      · rw [List.mem_singleton.mp hslot]
        exact ⟨rfl, t, List.mem_append_right _ (List.mem_singleton_self t), hid⟩

theorem Drained.reap {s s' : Draining P} {order : List (Task P)}
    (h : Drained now priorities db s order) {i : ℕ} {child : ChildEnd} {elapsed : String}
    {clock : Timestamptz} (hstep : drainStep env maxRuntime now priorities s
      (.reap i child elapsed clock) = some s') : Drained now priorities db s' order := by
  obtain ⟨slot, hslot, rfl⟩ := Option.map_eq_some_iff.mp hstep
  obtain ⟨hperiodic, t, ht, hid⟩ := h.slots slot (List.mem_of_getElem? hslot)
  have hslots : ∀ slot ∈ s.slots.eraseIdx i, slot.isPeriodic = false ∧
      ∃ t ∈ order, slot.taskId = t.id := fun slot hslot => h.slots slot (List.mem_of_mem_eraseIdx hslot)
  unfold reapAndUpdate
  rw [hperiodic, hid]
  refine ⟨h.rows.finish env clock ht slot.startedAt ?_, h.claimed, hslots, h.periodics⟩
  rcases waitResult_sound child.exit with hr | ⟨hfailed, -⟩
  · rw [hr]
    exact .inl rfl
  · exact .inr hfailed

theorem Drained.step {s s' : Draining P} {order : List (Task P)} {a : DrainAction}
    (hpending : ∀ t ∈ db.tasks, t.status = .pending → t.requeue = none)
    (h : Drained now priorities db s order)
    (hstep : drainStep env maxRuntime now priorities s a = some s') :
    ∃ new, Drained now priorities db s' (order ++ new) ∧ new.length = if a.isClaim then 1 else 0 := by
  cases a with
  | process =>
    obtain ⟨t, ht⟩ := h.process hpending hstep
    exact ⟨[t], ht, rfl⟩
  | fork =>
    obtain ⟨t, ht⟩ := h.fork hpending hstep
    exact ⟨[t], ht, rfl⟩
  | reap =>
    refine ⟨[], ?_, rfl⟩
    rw [List.append_nil]
    exact h.reap hstep

theorem Drained.steps {s s' : Draining P} {order : List (Task P)} {as : List DrainAction}
    (hpending : ∀ t ∈ db.tasks, t.status = .pending → t.requeue = none)
    (h : Drained now priorities db s order)
    (hsteps : (draining env maxRuntime now priorities db).Steps System.free s as s') :
    ∃ new, Drained now priorities db s' (order ++ new) ∧ new.length = as.countP DrainAction.isClaim := by
  induction hsteps generalizing order with
  | nil => exact ⟨[], by rwa [List.append_nil], rfl⟩
  | cons _ hstep _ ih =>
    obtain ⟨new, hnew, hlength⟩ := h.step hpending hstep
    obtain ⟨rest, hrest, hlength'⟩ := ih hnew
    refine ⟨new ++ rest, by rwa [← List.append_assoc], ?_⟩
    rw [List.length_append, hlength, hlength', List.countP_cons, Nat.add_comm]

end Steps

section Sample

def sampleQueue : Database String :=
  ⟨(upsert sampleEnv sampleConn { sampleUpsert "b" with clientId := "urgent", priority := 5 }
    (upsert sampleEnv sampleConn (sampleUpsert "a") Table.empty).2).2, Table.empty⟩

def urgentDrain : List DrainAction :=
  [.fork ⟨.ok (), .ok (), .ok (), .ok ()⟩ 10 20,
    .process (importRaises (.exception "No module named 'reports'")) sampleEnd 11 "0.001" 21,
    .reap 0 sampleEnd "0.100" 30]

end Sample

end PostgresQueue
