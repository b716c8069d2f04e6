import PostgresQueue.BatchLocks
import PostgresQueue.Parking

namespace PostgresQueue

open Library Locking

variable {P : Type}

def holds : Except PyError Bool → Bool
  | .ok b => b
  | .error _ => false

def staleLocks (stale : Task P → Except PyError Bool) (tasks : Tasks P) : List RowLock :=
  ((tasks.rows.filter fun t => holds (stale t)).map Task.lock).insertionSort (· ≤ ·)

/-- The reaper is transaction 0 and the batch transaction 1. `selected`: the reaper has begun
its second statement. -/
structure ReapBatch where
  txns : List (LockTxn RowLock)
  selected : Bool

inductive ReapAction
  | acquire (t : ℕ)
  | selectParked (rows : List RowLock)
  | commit (t : ℕ)
  | rollback (t : ℕ)

def ReapBatch.batchOpen (s : ReapBatch) : Bool := s.txns[1]?.any fun y => !y.done

/-- `reap_stale_tasks` and `upsert_many`, lock by lock. The reaper's second statement sees the
writes of the batch only when they are committed; as long as they are not, it finds the parked
rows that were there before. -/
def reaperLocks (r : Reap) (tasks : Tasks P) (stmts : List (Upsert P × NewTask P)) :
    System ReapBatch ReapAction where
  init := ⟨[⟨[], staleLocks r.failWhere tasks, false⟩, ⟨[], batchLocks stmts, false⟩], false⟩
  step s
    | .acquire t =>
      ((Locking.system RowLock).step s.txns (.acquire t)).map fun txns => { s with txns := txns }
    | .selectParked rows =>
      if s.selected = false ∧ (s.batchOpen = true → rows = staleLocks r.requeueWhere tasks) then
        ((Locking.system RowLock).step s.txns (.extend 0 rows)).map fun txns => ⟨txns, true⟩
      else none
    | .commit t =>
      if t = 0 → s.selected = true then
        ((Locking.system RowLock).step s.txns (.commit t)).map fun txns => { s with txns := txns }
      else none
    | .rollback t =>
      ((Locking.system RowLock).step s.txns (.rollback t)).map fun txns => { s with txns := txns }

theorem holds_iff {b : Except PyError Bool} : holds b = true ↔ b = .ok true := by
  cases b <;> simp [holds]

theorem mem_staleLocks {stale : Task P → Except PyError Bool} {tasks : Tasks P} {l : RowLock} :
    l ∈ staleLocks stale tasks ↔ ∃ t ∈ tasks, stale t = .ok true ∧ t.lock = l := by
  rw [staleLocks, (List.perm_insertionSort _ _).mem_iff, List.mem_map]
  constructor
  · rintro ⟨t, ht, rfl⟩
    obtain ⟨ht, hstale⟩ := List.mem_filter.mp ht
    exact ⟨t, ht, holds_iff.mp hstale, rfl⟩
  · rintro ⟨t, ht, hstale, rfl⟩
    exact ⟨t, List.mem_filter.mpr ⟨ht, holds_iff.mpr hstale⟩, rfl⟩

theorem staleLocks_sorted (stale : Task P → Except PyError Bool) (tasks : Tasks P) :
    (staleLocks stale tasks).Pairwise (· ≤ ·) := List.pairwise_insertionSort _ _

section Runs

variable {r : Reap} {tasks : Tasks P} {stmts : List (Upsert P × NewTask P)} {s s' : ReapBatch}
  {a : ReapAction}

structure Stage (failed parked batch : List RowLock) (s : ReapBatch) (x y : LockTxn RowLock) :
    Prop where
  txns : s.txns = [x, y]
  exclusive : Exclusive s.txns
  batch : y.done = false → Took y [] batch
  failing : x.done = false → s.selected = false → Took x [] failed
  parking : x.done = false → y.done = false → s.selected = true → Took x failed parked
  reaperDone : x.done = true → x.todo = []
  batchDone : y.done = true → y.todo = []

variable {failed parked batch : List RowLock} {x y : LockTxn RowLock}

theorem Stage.acquire (h : Stage failed parked batch s x y) {t : ℕ}
    {txns : List (LockTxn RowLock)}
    (he : (Locking.system RowLock).step s.txns (.acquire t) = some txns) :
    ∃ x' y', Stage failed parked batch { s with txns := txns } x' y' := by
  have hexcl := h.exclusive.acquire he
  obtain ⟨z, l, rest, held, hz, htodo, rfl, hheld⟩ := acquire_some he
  rw [h.txns] at hz hexcl ⊢
  rcases t with - | - | t
  · cases hz
    refine ⟨{ x with held := held, todo := rest }, y, rfl, hexcl, h.batch, ?_, ?_, ?_, h.batchDone⟩
    · exact fun hd hs => (h.failing hd hs).acquired htodo hheld
    · exact fun hd hdy hs => (h.parking hd hdy hs).acquired htodo hheld
    · exact fun hd => absurd hd (by simp [not_done h.reaperDone htodo])
  · cases hz
    refine ⟨x, { y with held := held, todo := rest }, rfl, hexcl, ?_, h.failing, h.parking,
      h.reaperDone, ?_⟩
    · exact fun hd => (h.batch hd).acquired htodo hheld
    · exact fun hd => absurd hd (by simp [not_done h.batchDone htodo])
  · cases hz

theorem Stage.selectParked (h : Stage failed parked batch s x y) {rows : List RowLock}
    (hs : s.selected = false) (hrows : s.batchOpen = true → rows = parked)
    {txns : List (LockTxn RowLock)}
    (he : (Locking.system RowLock).step s.txns (.extend 0 rows) = some txns) :
    ∃ x' y', Stage failed parked batch ⟨txns, true⟩ x' y' := by
  simp only [Locking.system, h.txns, List.getElem?_cons_zero, Option.bind_some] at he
  split_ifs at he with hc
  cases he
  have hx : s.txns[0]? = some x := by rw [h.txns]; rfl
  have hexcl := h.exclusive.set hx (y := { x with todo := rows }) fun l hl => .inl hl
  rw [h.txns] at hexcl
  refine ⟨{ x with todo := rows }, y, rfl, hexcl, h.batch, ?_, ?_, ?_, h.batchDone⟩
  · intro _ hs
    cases hs
  · intro hd hdy _
    have hopen : s.batchOpen = true := by simp [ReapBatch.batchOpen, h.txns, hdy]
    rw [hrows hopen]
    exact (h.failing hd hs).extend hc.1 parked
  · exact fun hd => absurd hd (by simp [hc.2])

theorem Stage.ends (h : Stage failed parked batch s x y) {t : ℕ} {txns : List (LockTxn RowLock)}
    (he : (Locking.system RowLock).step s.txns (.commit t) = some txns ∨
      (Locking.system RowLock).step s.txns (.rollback t) = some txns) :
    ∃ x' y', Stage failed parked batch { s with txns := txns } x' y' := by
  obtain ⟨⟨z, hz⟩, rfl⟩ := ended_some he
  have hexcl := h.exclusive.set hz (y := .ended) (by simp [LockTxn.ended])
  rw [h.txns] at hz hexcl ⊢
  rcases t with - | - | t
  · refine ⟨.ended, y, rfl, hexcl, h.batch, ?_, ?_, fun _ => rfl, h.batchDone⟩
    · intro hd
      cases hd
    · intro hd
      cases hd
  · refine ⟨x, .ended, rfl, hexcl, ?_, h.failing, ?_, h.reaperDone, fun _ => rfl⟩
    · intro hd
      cases hd
    · intro _ hd
      cases hd
  · cases hz

theorem Stage.step (h : Stage (staleLocks r.failWhere tasks) (staleLocks r.requeueWhere tasks)
      (batchLocks stmts) s x y) (he : (reaperLocks r tasks stmts).step s a = some s') :
    ∃ x' y', Stage (staleLocks r.failWhere tasks) (staleLocks r.requeueWhere tasks)
      (batchLocks stmts) s' x' y' := by
  cases a with
  | acquire t =>
    obtain ⟨txns, ha, rfl⟩ := Option.map_eq_some_iff.mp he
    exact h.acquire ha
  | selectParked rows =>
    simp only [reaperLocks] at he
    split_ifs at he with hc
    obtain ⟨txns, ha, rfl⟩ := Option.map_eq_some_iff.mp he
    exact h.selectParked hc.1 hc.2 ha
  | commit t =>
    simp only [reaperLocks] at he
    split_ifs at he
    obtain ⟨txns, ha, rfl⟩ := Option.map_eq_some_iff.mp he
    exact h.ends (.inl ha)
  | rollback t =>
    obtain ⟨txns, ha, rfl⟩ := Option.map_eq_some_iff.mp he
    exact h.ends (.inr ha)

theorem reaperLocks_stage (h : (reaperLocks r tasks stmts).Reachable System.free s) :
    ∃ x y, Stage (staleLocks r.failWhere tasks) (staleLocks r.requeueWhere tasks)
      (batchLocks stmts) s x y := by
  apply h.invariant (I := fun s => ∃ x y, Stage (staleLocks r.failWhere tasks)
    (staleLocks r.requeueWhere tasks) (batchLocks stmts) s x y)
  · refine ⟨_, _, rfl, ?_, fun _ => .start _, fun _ _ => .start _, nofun, nofun, nofun⟩
    rintro t u l ⟨z, hz, hl⟩
    rcases t with - | - | t <;> simp [reaperLocks] at hz <;> subst hz <;> simp at hl
  · rintro s a s' ⟨x, y, hi⟩ - he
    exact hi.step he

/-- Some row that the second statement of the reaper takes sorts before every row of the batch that
the first one takes, and there is such a row. -/
def Crosses (failed parked batch : List RowLock) : Prop :=
  ∃ q ∈ parked, q ∈ batch ∧ (∃ f ∈ failed, f ∈ batch) ∧ ∀ f ∈ failed, f ∈ batch → q < f

theorem Stage.crosses (h : Stage failed parked batch s x y)
    (hfailed : failed.Pairwise (· ≤ ·)) (hparked : parked.Pairwise (· ≤ ·))
    (hbatch : batch.Pairwise (· ≤ ·)) (hdead : Deadlock s.txns) : Crosses failed parked batch := by
  have hexcl := h.exclusive
  rw [h.txns] at hdead hexcl
  obtain ⟨⟨q, ⟨_, hx, hq, hqx⟩, _, hy, hqy⟩, f, ⟨_, hy', hf, hfy⟩, _, hx', hfx⟩ := deadlock_pair hdead
  cases hx
  cases hx'
  cases hy
  cases hy'
  obtain ⟨restx, htodox⟩ := List.head?_eq_some_iff.mp hq
  obtain ⟨resty, htodoy⟩ := List.head?_eq_some_iff.mp hf
  have hdx := not_done h.reaperDone htodox
  have hdy := not_done h.batchDone htodoy
  obtain ⟨taken, hb, hheldy⟩ := h.batch hdy
  rw [htodoy] at hb
  rw [hb] at hbatch
  have hqf : q < f := by
    have hle := le_of_taken hbatch (by simpa using (hheldy q).mp hqy)
    exact lt_of_le_of_ne hle fun he => hfy (he ▸ hqy)
  -- What the batch wants lies above the reaper's next row, so the reaper took it in its first
  -- statement and is in its second one now.
  have hselected : s.selected = true := by
    by_contra hs
    obtain ⟨took, hfl, hheldx⟩ := h.failing hdx (by simpa using hs)
    rw [htodox] at hfl
    rw [hfl] at hfailed
    exact absurd (le_of_taken hfailed (by simpa using (hheldx f).mp hfx)) (not_le.mpr hqf)
  obtain ⟨took, hpk, hheldx⟩ := h.parking hdx hdy hselected
  rw [htodox] at hpk
  rw [hpk] at hparked
  have hff : f ∈ failed := by
    rcases (hheldx f).mp hfx with hm | hm
    · exact hm
    · exact absurd (le_of_taken hparked hm) (not_le.mpr hqf)
  refine ⟨q, by simp [hpk], ?_, ⟨f, hff, by simp [hb]⟩, fun k hk hkb => ?_⟩
  · rw [hb]
    exact List.mem_append_left _ (by simpa using (hheldy q).mp hqy)
  · by_contra hle
    have hkf : k < f := (not_lt.mp hle).trans_lt hqf
    have hky : k ∈ y.held := by
      rw [hb] at hkb
      exact (hheldy k).mpr (.inr (taken_of_lt hbatch hkb hkf))
    have hsame := hexcl 0 1 k ⟨x, rfl, (hheldx k).mpr (.inl hk)⟩ ⟨y, rfl, hky⟩
    exact absurd hsame zero_ne_one

theorem acquireAll (h : (reaperLocks r tasks stmts).Reachable System.free s) {t : ℕ}
    {z : LockTxn RowLock} (hz : s.txns[t]? = some z) {locks rest : List RowLock}
    (htodo : z.todo = locks ++ rest)
    (hfree : ∀ k ∈ locks, ∀ u v, u ≠ t → s.txns[u]? = some v → k ∉ v.held) :
    ∃ held, (∀ k, k ∈ held ↔ k ∈ locks ∨ k ∈ z.held) ∧
      (reaperLocks r tasks stmts).Reachable System.free
        { s with txns := s.txns.set t { z with held := held, todo := rest } } := by
  induction locks generalizing s z with
  | nil =>
    obtain ⟨hlt, rfl⟩ := List.getElem?_eq_some_iff.mp hz
    refine ⟨s.txns[t].held, by simp, ?_⟩
    rw [show ({ s.txns[t] with held := s.txns[t].held, todo := rest } : LockTxn RowLock) = s.txns[t] by
      rw [← show s.txns[t].todo = rest from htodo], List.set_getElem_self]
    exact h
  | cons l locks ih =>
    have hcons : z.todo = l :: (locks ++ rest) := htodo
    obtain ⟨held, hheld, hstep⟩ :=
      acquire_unshared hz hcons fun u v hu hv => hfree l (by simp) u v hu hv
    have hnext : (reaperLocks r tasks stmts).Reachable System.free
        { s with txns := s.txns.set t { z with held := held, todo := locks ++ rest } } :=
      h.step (a := .acquire t) trivial (by simp [reaperLocks, hstep])
    have hlt := (List.getElem?_eq_some_iff.mp hz).1
    obtain ⟨held', hheld', hreach⟩ := ih hnext (z := { z with held := held, todo := locks ++ rest })
      (by simp [hlt]) rfl fun k hk u v hu hv => by
        rw [List.getElem?_set_ne (Ne.symm hu)] at hv
        exact hfree k (by simp [hk]) u v hu hv
    refine ⟨held', fun k => ?_, by simpa using hreach⟩
    rw [hheld', hheld, List.mem_cons]
    tauto

theorem acquireReaper {x y : LockTxn RowLock} {selected : Bool}
    (h : (reaperLocks r tasks stmts).Reachable System.free ⟨[x, y], selected⟩)
    {locks rest : List RowLock} (htodo : x.todo = locks ++ rest) (hfree : ∀ k ∈ locks, k ∉ y.held) :
    ∃ held, (∀ k, k ∈ held ↔ k ∈ locks ∨ k ∈ x.held) ∧
      (reaperLocks r tasks stmts).Reachable System.free
        ⟨[{ x with held := held, todo := rest }, y], selected⟩ := by
  refine acquireAll h (t := 0) rfl htodo fun k hk u v hu hv => ?_
  rcases u with - | - | u
  · exact absurd rfl hu
  · cases hv
    exact hfree k hk
  · cases hv

theorem acquireBatch {x y : LockTxn RowLock} {selected : Bool}
    (h : (reaperLocks r tasks stmts).Reachable System.free ⟨[x, y], selected⟩)
    {locks rest : List RowLock} (htodo : y.todo = locks ++ rest) (hfree : ∀ k ∈ locks, k ∉ x.held) :
    ∃ held, (∀ k, k ∈ held ↔ k ∈ locks ∨ k ∈ y.held) ∧
      (reaperLocks r tasks stmts).Reachable System.free
        ⟨[x, { y with held := held, todo := rest }], selected⟩ := by
  refine acquireAll h (t := 1) rfl htodo fun k hk u v hu hv => ?_
  rcases u with - | - | u
  · cases hv
    exact hfree k hk
  · exact absurd rfl hu
  · cases hv

theorem reaches_crossing {early late before after : List RowLock} {q f : RowLock}
    (hb : batchLocks stmts = early ++ f :: late)
    (hp : staleLocks r.requeueWhere tasks = before ++ q :: after)
    (hfailed : ∀ k ∈ staleLocks r.failWhere tasks, k ∉ early) (hparked : ∀ k ∈ before, k ∉ early) :
    ∃ heldx heldy, (∀ k, k ∈ heldx ↔ k ∈ before ∨ k ∈ staleLocks r.failWhere tasks) ∧
      (∀ k, k ∈ heldy ↔ k ∈ early) ∧ (reaperLocks r tasks stmts).Reachable System.free
        ⟨[⟨heldx, q :: after, false⟩, ⟨heldy, f :: late, false⟩], true⟩ := by
  obtain ⟨heldy, hheldy, hreach⟩ := acquireBatch (.init (S := reaperLocks r tasks stmts)) hb
    fun _ _ => List.not_mem_nil
  replace hheldy : ∀ k, k ∈ heldy ↔ k ∈ early := fun k => by simp [hheldy]
  obtain ⟨held, hheld, hreach⟩ := acquireReaper hreach
    (show staleLocks r.failWhere tasks = staleLocks r.failWhere tasks ++ [] by simp)
    fun k hk hm => hfailed k hk ((hheldy k).mp hm)
  have hselect : (reaperLocks r tasks stmts).Reachable System.free
      ⟨[⟨held, before ++ q :: after, false⟩, ⟨heldy, f :: late, false⟩], true⟩ := by
    refine hreach.step (a := .selectParked (staleLocks r.requeueWhere tasks)) trivial ?_
    rw [← hp]
    simp [reaperLocks, Locking.system]
  obtain ⟨heldx, hheldx, hreach⟩ := acquireReaper hselect rfl
    fun k hk hm => hparked k hk ((hheldy k).mp hm)
  refine ⟨heldx, heldy, fun k => ?_, hheldy, hreach⟩
  rw [hheldx, hheld]
  simp

theorem deadlock_of_crosses (h : Crosses (staleLocks r.failWhere tasks)
      (staleLocks r.requeueWhere tasks) (batchLocks stmts)) :
    ∃ s, (reaperLocks r tasks stmts).Reachable System.free s ∧ Deadlock s.txns := by
  obtain ⟨q₀, hq₀, hq₀b, hex, hbelow⟩ := h
  obtain ⟨q, hq, hqb, hqmin⟩ := exists_least (p := (· ∈ batchLocks stmts)) ⟨q₀, hq₀, hq₀b⟩
  obtain ⟨f, hf, hfb, hfmin⟩ := exists_least (p := (· ∈ batchLocks stmts)) hex
  have hqf : q < f := (hqmin q₀ hq₀ hq₀b).trans_lt (hbelow f hf hfb)
  have hsorted := batchLocks_sorted stmts
  obtain ⟨early, late, hb, hearly⟩ := split_sorted hsorted hfb
  obtain ⟨before, after, hp, hbefore⟩ := split_sorted (staleLocks_sorted r.requeueWhere tasks) hq
  obtain ⟨heldx, heldy, hheldx, hheldy, hreach⟩ := reaches_crossing (r := r) hb hp
    (fun k hk hm => absurd (hfmin k hk (hearly k hm).1) (not_le.mpr (hearly k hm).2))
    fun k hk hm => absurd (hqmin k (hbefore k hk).1 (hearly k hm).1) (not_le.mpr (hbefore k hk).2)
  have hqx : q ∉ heldx := by
    intro hm
    rcases (hheldx q).mp hm with hm | hm
    · exact lt_irrefl q (hbefore q hm).2
    · exact lt_irrefl q (hqf.trans_le (hfmin q hm hqb))
  have hqy : q ∈ heldy := by
    rw [hb] at hsorted hqb
    exact (hheldy q).mpr (taken_of_lt hsorted hqb hqf)
  have hfx : f ∈ heldx := (hheldx f).mpr (.inr hf)
  have hfy : f ∉ heldy := fun hm => lt_irrefl f (hearly f ((hheldy f).mp hm)).2
  let x : LockTxn RowLock := ⟨heldx, q :: after, false⟩
  let y : LockTxn RowLock := ⟨heldy, f :: late, false⟩
  have hxy : WaitsFor [x, y] 0 1 := ⟨q, ⟨x, rfl, rfl, hqx⟩, ⟨y, rfl, hqy⟩⟩
  have hyx : WaitsFor [x, y] 1 0 := ⟨f, ⟨y, rfl, rfl, hfy⟩, ⟨x, rfl, hfx⟩⟩
  exact ⟨⟨[x, y], true⟩, hreach, 0, .tail (.single hxy) hyx⟩

/-- The stale rows and the batch are such that the two transactions can cross: some row of the
batch is stale with a version parked, some is stale without, and one of the former sorts before
all of the latter. -/
def CanCross (r : Reap) (tasks : Tasks P) (stmts : List (Upsert P × NewTask P)) : Prop :=
  ∃ p ∈ tasks, r.requeueWhere p = .ok true ∧ p.lock ∈ batchLocks stmts ∧
    (∃ t ∈ tasks, r.failWhere t = .ok true ∧ t.lock ∈ batchLocks stmts) ∧
    ∀ t ∈ tasks, r.failWhere t = .ok true → t.lock ∈ batchLocks stmts → p.lock < t.lock

theorem canCross_iff : CanCross r tasks stmts ↔ Crosses (staleLocks r.failWhere tasks)
    (staleLocks r.requeueWhere tasks) (batchLocks stmts) := by
  unfold CanCross Crosses
  simp only [mem_staleLocks]
  constructor
  · rintro ⟨p, hp, hs, hb, ⟨t, ht, hts, htb⟩, hall⟩
    refine ⟨p.lock, ⟨p, hp, hs, rfl⟩, hb, ⟨t.lock, ⟨t, ht, hts, rfl⟩, htb⟩, ?_⟩
    rintro f ⟨t', ht', hs', rfl⟩ hb'
    exact hall t' ht' hs' hb'
  · rintro ⟨_, ⟨p, hp, hs, rfl⟩, hb, ⟨_, ⟨t, ht, hts, rfl⟩, htb⟩, hall⟩
    exact ⟨p, hp, hs, hb, ⟨t, ht, hts, htb⟩, fun t' ht' hs' hb' => hall t'.lock ⟨t', ht', hs', rfl⟩ hb'⟩

end Runs

section Sample

def sampleStale : Tasks String :=
  let claim (tasks : Tasks String) := (Claim.run ⟨10, none, 10, []⟩ tasks).elim tasks Prod.snd
  let enqueued := upsertAll sampleEnv (sampleOrderAB.map (sampleConn, ·)) Table.empty
  (upsert sampleEnv sampleConn { sampleUpsert "y" with clientId := "a" } (claim (claim enqueued))).2

def sampleReap : Reap := ⟨3600, 10 ^ 11, 10 ^ 11⟩

def sampleStatements : List (Upsert String × NewTask String) :=
  (upsertStatements sampleEnv sampleOrderAB).toOption.getD []

def crossed : ReapBatch :=
  (reaperLocks sampleReap sampleStale sampleStatements).run System.free [.acquire 1, .acquire 0,
    .selectParked [clientLock "a"]]

end Sample

end PostgresQueue
