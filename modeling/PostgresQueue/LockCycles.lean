import PostgresQueue.BatchLocks
import PostgresQueue.Library.ListAt

namespace PostgresQueue

open Library Locking

variable {P : Type}

/-- All transactions on `pq_tasks`. The rows of a scan are locked in the order in which it finds
them, and `reap_stale_tasks` is a scan that a second one follows. -/
inductive TableTxn (P : Type)
  | ordered (x : TaskTxn P)
  | cancel (row : Option RowLock)
  | clear (rows : List RowLock)
  | reap (failing : List RowLock)

def TableTxn.locks (env : Env P) : TableTxn P → List RowLock
  | .ordered x => x.locks env
  | .cancel row => row.toList
  | .clear rows => rows
  | .reap failing => failing

def TableTxn.scans : TableTxn P → Bool
  | .clear _ | .reap _ => true
  | .ordered _ | .cancel _ => false

def TableTxn.batches : TableTxn P → Bool
  | .ordered (.upsertMany _) | .clear _ | .reap _ => true
  | .ordered (.upsert _) | .ordered (.enqueue ..) | .ordered (.finishOneOff _) | .ordered .claim
  | .cancel _ => false

structure TableLocks (P : Type) where
  kinds : List (TableTxn P)
  txns : List (LockTxn RowLock)

inductive TableAction (P : Type)
  | start (x : TableTxn P)
  | acquire (t : ℕ)
  | claimRow (t : ℕ) (row : RowLock)
  | selectParked (t : ℕ) (rows : List RowLock)
  | commit (t : ℕ)
  | rollback (t : ℕ)

def tableLocks (env : Env P) : System (TableLocks P) (TableAction P) where
  init := ⟨[], []⟩
  step s
    | .start x => some ⟨s.kinds ++ [x], s.txns ++ [⟨[], x.locks env, false⟩]⟩
    | .acquire t =>
      ((Locking.system RowLock).step s.txns (.acquire t)).map fun txns => { s with txns := txns }
    | .claimRow t row =>
      match s.kinds[t]? with
      | some (.ordered .claim) =>
        ((Locking.system RowLock).step s.txns (.take t row)).map fun txns => { s with txns := txns }
      | _ => none
    | .selectParked t rows =>
      match s.kinds[t]? with
      | some (.reap _) => ((Locking.system RowLock).step s.txns (.extend t rows)).map
          fun txns => { s with txns := txns }
      | _ => none
    | .commit t =>
      ((Locking.system RowLock).step s.txns (.commit t)).map fun txns => { s with txns := txns }
    | .rollback t =>
      ((Locking.system RowLock).step s.txns (.rollback t)).map fun txns => { s with txns := txns }

structure TableTxn.Allows (x : TableTxn P) (y : LockTxn RowLock) : Prop where
  ended : y.done = true → y.held = [] ∧ y.todo = []
  inOrder : x.scans = false → InOrder y
  single : x.batches = false → (y.held = [] ∧ y.todo.length ≤ 1) ∨ y.todo = []

structure TableLocks.Valid (s : TableLocks P) : Prop where
  length : s.kinds.length = s.txns.length
  allows : ∀ (t : ℕ) (x : TableTxn P) (y : LockTxn RowLock), s.kinds[t]? = some x →
    s.txns[t]? = some y → x.Allows y

variable {env : Env P} {s s' : TableLocks P} {t : ℕ} {x : TableTxn P} {y z : LockTxn RowLock}

namespace TableTxn.Allows

theorem start (env : Env P) (x : TableTxn P) : x.Allows ⟨[], x.locks env, false⟩ := by
  refine ⟨fun h => ?_, fun hs => ?_, fun hb => .inl ⟨rfl, ?_⟩⟩
  · cases h
  · refine ⟨?_, fun h hh => absurd hh List.not_mem_nil, fun h => ?_⟩
    · cases x with
      | ordered x => exact x.locks_sorted env
      | cancel row => cases row <;> simp [locks]
      | clear | reap => cases hs
    · cases h
  · cases x with
    | cancel row => cases row <;> simp [locks]
    | clear | reap => cases hb
    | ordered x =>
      cases x with
      | upsertMany => cases hb
      | finishOneOff row => cases row <;> simp [locks, TaskTxn.locks]
      | upsert | enqueue | claim => simp [locks, TaskTxn.locks]

theorem endedTxn (x : TableTxn P) : x.Allows .ended :=
  ⟨fun _ => ⟨rfl, rfl⟩, fun _ => .endedTxn, fun _ => .inr rfl⟩

theorem acquired (h : x.Allows y) {r : RowLock} {rest held : List RowLock}
    (htodo : y.todo = r :: rest) (hheld : ∀ l ∈ held, l = r ∨ l ∈ y.held) :
    x.Allows { y with held := held, todo := rest } := by
  have hd : y.done = false := not_done (fun hd => (h.ended hd).2) htodo
  refine ⟨fun he => absurd he (by simp [hd]), fun hs => (h.inOrder hs).next htodo hd hheld,
    fun hb => .inr ?_⟩
  rcases h.single hb with ⟨-, hlen⟩ | hnil
  · rw [htodo, List.length_cons] at hlen
    have hrest : rest.length = 0 := by omega
    exact List.eq_nil_of_length_eq_zero hrest
  · rw [htodo] at hnil
    cases hnil

end TableTxn.Allows

namespace TableLocks.Valid

theorem set (h : s.Valid) (hy : s.txns[t]? = some y) (hz : ∀ x, s.kinds[t]? = some x → x.Allows y →
    x.Allows z) : Valid { s with txns := s.txns.set t z } := by
  refine ⟨by simpa using h.length, fun u x w hx hw => ?_⟩
  rw [List.getElem?_set] at hw
  split_ifs at hw with hut hlt
  · cases hw
    subst hut
    exact hz x hx (h.allows t x y hx hy)
  · exact h.allows u x w hx hw

theorem step {a : TableAction P} (h : s.Valid) (he : (tableLocks env).step s a = some s') :
    s'.Valid := by
  cases a with
  | start x =>
    cases he
    refine ⟨by simp [h.length], fun u k w hk hw => ?_⟩
    have hlen := h.length
    rcases getElem?_append_singleton hk with hk | ⟨rfl, rfl⟩
    · rcases getElem?_append_singleton hw with hw | ⟨rfl, rfl⟩
      · exact h.allows u k w hk hw
      · have := (List.getElem?_eq_some_iff.mp hk).1
        omega
    · rcases getElem?_append_singleton hw with hw | ⟨-, rfl⟩
      · have := (List.getElem?_eq_some_iff.mp hw).1
        omega
      · exact .start env k
  | acquire t =>
    obtain ⟨txns, ha, rfl⟩ := Option.map_eq_some_iff.mp he
    obtain ⟨y, r, rest, held, hy, htodo, rfl, hheld⟩ := acquire_some ha
    refine h.set hy fun x _ hx => hx.acquired htodo fun l hl => ?_
    rcases hheld with ⟨-, rfl⟩ | ⟨-, -, rfl⟩
    exacts [.inr hl, List.mem_cons.mp hl]
  | claimRow t row =>
    simp only [tableLocks] at he
    split at he
    · rename_i hx
      obtain ⟨txns, ha, rfl⟩ := Option.map_eq_some_iff.mp he
      obtain ⟨y, hy, ha⟩ := Option.bind_eq_some_iff.mp ha
      unfold take at ha
      split_ifs at ha with hc
      cases ha
      refine h.set hy fun x hx' _ => ?_
      obtain rfl := Option.some.inj (hx.symm.trans hx')
      refine ⟨fun hd => absurd hd (by simp [hc.2.2.1]), fun _ => ?_, fun _ => .inr hc.2.1⟩
      refine ⟨?_, ?_, fun hd => absurd hd (by simp [hc.2.2.1])⟩ <;> simp [hc.2.1]
    · cases he
  | selectParked t rows =>
    simp only [tableLocks] at he
    split at he
    · rename_i hx
      obtain ⟨txns, ha, rfl⟩ := Option.map_eq_some_iff.mp he
      obtain ⟨y, hy, ha⟩ := Option.bind_eq_some_iff.mp ha
      split_ifs at ha with hc
      cases ha
      refine h.set hy fun x hx' _ => ?_
      obtain rfl := Option.some.inj (hx.symm.trans hx')
      refine ⟨fun hd => absurd hd (by simp [hc.2]), fun hs => ?_, fun hb => ?_⟩
      · cases hs
      · cases hb
    · cases he
  | commit t =>
    obtain ⟨txns, ha, rfl⟩ := Option.map_eq_some_iff.mp he
    obtain ⟨⟨y, hy⟩, rfl⟩ := ended_some (.inl ha)
    exact h.set hy fun x _ _ => .endedTxn x
  | rollback t =>
    obtain ⟨txns, ha, rfl⟩ := Option.map_eq_some_iff.mp he
    obtain ⟨⟨y, hy⟩, rfl⟩ := ended_some (.inr ha)
    exact h.set hy fun x _ _ => .endedTxn x

end TableLocks.Valid

theorem tableLocks_valid (h : (tableLocks env).Reachable System.free s) : s.Valid := by
  refine h.invariant ⟨rfl, fun t x y hx => ?_⟩ fun s a s' hs _ he => hs.step he
  cases hx

/-- A deadlock on `pq_tasks` takes a scan, and only transactions that lock several rows. Short of a
deadlock, some transaction can always go on. -/
theorem deadlock_has_scan (h : (tableLocks env).Reachable System.free s) :
    (∀ t, Relation.TransGen (WaitsFor s.txns) t t →
      (∃ x, s.kinds[t]? = some x ∧ x.batches = true) ∧
        ∃ u x, s.kinds[u]? = some x ∧ x.scans = true ∧
          Relation.TransGen (WaitsFor s.txns) t u ∧ Relation.TransGen (WaitsFor s.txns) u t) ∧
    ((∃ y ∈ s.txns, y.done = false) → Deadlock s.txns ∨ ∃ t,
      ((tableLocks env).step s (.acquire t)).isSome ∨ ((tableLocks env).step s (.commit t)).isSome) := by
  have hs := tableLocks_valid h
  have hkind : ∀ (t : ℕ) y, s.txns[t]? = some y →
      ∃ x : TableTxn P, s.kinds[t]? = some x ∧ x.Allows y := by
    intro t y hy
    have hlt : t < s.kinds.length := hs.length ▸ (List.getElem?_eq_some_iff.mp hy).1
    exact ⟨_, List.getElem?_eq_getElem hlt, hs.allows t _ y (List.getElem?_eq_getElem hlt) hy⟩
  refine ⟨fun t hc => ⟨?_, ?_⟩, fun hopen => ?_⟩
  · obtain ⟨y, hy, hheld, htodo⟩ := cycle_member hc
    obtain ⟨x, hx, hallows⟩ := hkind t y hy
    refine ⟨x, hx, ?_⟩
    by_contra hb
    rcases hallows.single (by simpa using hb) with ⟨hnil, -⟩ | hnil
    exacts [hheld hnil, htodo hnil]
  · obtain ⟨u, y, hy, hout, htu, hut⟩ := cycle_leaves_order hc
    obtain ⟨x, hx, hallows⟩ := hkind u y hy
    refine ⟨u, x, hx, ?_, htu, hut⟩
    by_contra hscan
    exact hout (hallows.inOrder (by simpa using hscan))
  · by_contra hnot
    obtain ⟨hno, hstuck⟩ := not_or.mp hnot
    refine hno (deadlock_of_stuck ?_ ?_ hopen)
    · intro y hy hd
      obtain ⟨t, ht⟩ := List.mem_iff_getElem?.mp hy
      obtain ⟨x, -, hallows⟩ := hkind t y ht
      exact (hallows.ended hd).1
    · intro t y hy hd
      rcases steps_or_waits hy hd with ha | hcommit | ⟨r, u, hwants, hholds⟩
      · exact absurd ⟨t, .inl (Option.isSome_map.trans ha)⟩ hstuck
      · exact absurd ⟨t, .inr (Option.isSome_map.trans hcommit)⟩ hstuck
      · exact ⟨u, r, hwants, hholds⟩

section Sample

def clearsBackwards : TableLocks String :=
  (tableLocks sampleEnv).run System.free [.start (.clear [clientLock "b", clientLock "a"]),
    .start (.ordered (.upsertMany sampleOrderAB)), .acquire 0, .acquire 1]

theorem clearsBackwards_waits : WaitsFor clearsBackwards.txns 0 1 ∧ WaitsFor clearsBackwards.txns 1 0 := by
  have h : clearsBackwards.txns = [⟨[clientLock "b"], [clientLock "a"], false⟩,
    ⟨[clientLock "a"], [clientLock "b"], false⟩] := by decide +kernel
  rw [h]
  have hne : clientLock "a" ≠ clientLock "b" := by simp [clientLock]
  refine ⟨⟨clientLock "a", ⟨_, rfl, rfl, by simp [hne]⟩, _, rfl, List.mem_singleton_self _⟩, ?_⟩
  exact ⟨clientLock "b", ⟨_, rfl, rfl, by simp [hne.symm]⟩, _, rfl, List.mem_singleton_self _⟩

theorem deadlock_has_scan_backwards :
    (∃ x, clearsBackwards.kinds[1]? = some x ∧ x.batches = true) ∧
      ∃ u x, clearsBackwards.kinds[u]? = some x ∧ x.scans = true ∧
        Relation.TransGen (WaitsFor clearsBackwards.txns) 1 u ∧
        Relation.TransGen (WaitsFor clearsBackwards.txns) u 1 := by
  have hreached : (tableLocks sampleEnv).Reachable System.free clearsBackwards :=
    .of_run (by decide +kernel)
  obtain ⟨h01, h10⟩ := clearsBackwards_waits
  exact (deadlock_has_scan hreached).1 1 (.tail (.single h10) h01)

end Sample

end PostgresQueue
