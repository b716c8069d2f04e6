import PostgresQueue.RowForm

namespace PostgresQueue

open Library System

variable {P Q : Type} {stamp : P → ℕ → Q} {env : Env Q}

structure LastClaim (claims : List (ℕ × Timestamptz)) (id i : ℕ) (startedAt : Timestamptz) :
    Prop where
  claimed : claims[i]? = some (id, startedAt)
  latest : ∀ j t, i < j → claims[j]? ≠ some (id, t)

namespace LastClaim

variable {claims : List (ℕ × Timestamptz)} {id i : ℕ} {startedAt : Timestamptz}

theorem lt (h : LastClaim claims id i startedAt) : i < claims.length :=
  (List.getElem?_eq_some_iff.mp h.claimed).1

theorem append_other (h : LastClaim claims id i startedAt) {other : ℕ} (hne : other ≠ id)
    (t : Timestamptz) : LastClaim (claims ++ [(other, t)]) id i startedAt := by
  refine ⟨?_, fun j t' hij he => ?_⟩
  · rw [List.getElem?_append_left h.lt]
    exact h.claimed
  · rcases getElem?_append_singleton he with he | ⟨-, he⟩
    · exact h.latest j t' hij he
    · exact hne (congrArg Prod.fst he).symm

theorem append_self (claims : List (ℕ × Timestamptz)) (id : ℕ) (startedAt : Timestamptz) :
    LastClaim (claims ++ [(id, startedAt)]) id claims.length startedAt := by
  refine ⟨List.getElem?_concat_length, fun j t hj he => ?_⟩
  rw [List.getElem?_eq_none (by simp; omega)] at he
  cases he

end LastClaim

structure State.RunsFor (s : State Q) (i : ℕ) (t : Task Q) : Prop where
  mem : t ∈ s.tasks
  running : t.status = .running
  last : ∃ startedAt, LastClaim s.claims t.id i startedAt

/-- Two claims of one row do not read the same microsecond. -/
def distinctClaims (s : State Q) : Action P → Prop
  | .claim _ mode c => ∀ claimed ∈ s.claim mode c, (claimed.1.id, c.startedAt) ∉ s.claims
  | _ => True

instance (s : State Q) (a : Action P) : Decidable (distinctClaims s a) :=
  match a with
  | .claim _ mode c => inferInstanceAs
    (Decidable (∀ claimed ∈ s.claim mode c, (claimed.1.id, c.startedAt) ∉ s.claims))
  | .enqueue .. | .upsert .. | .upsertMany .. | .start _ | .finishes .. | .record .. | .dies _
  | .reapBegin _ | .reapFail .. | .reapSecond _ | .reapRequeue .. | .reapCommit _ | .reapAbort _
  | .cancel _ | .clearCompleted _ | .clearFailed _ | .clearAll => isTrue trivial

structure ClaimInv (s : State Q) : Prop where
  nodup : s.claims.Nodup
  current : ∀ t ∈ s.tasks, t.status = .running →
    ∃ i startedAt, t.startedAt = some startedAt ∧ LastClaim s.claims t.id i startedAt

theorem State.claims_getElem? {s : State Q} {i : ℕ} {r : Run Q} (h : s.runs[i]? = some r) :
    s.claims[i]? = some (r.task.id, r.startedAt) := by
  rw [State.claims, State.taken, List.map_map, List.getElem?_map, h]
  rfl

theorem ClaimInv.index_eq {s : State Q} (h : ClaimInv s) {i j : ℕ} {r r' : Run Q}
    (hr : s.runs[i]? = some r) (hr' : s.runs[j]? = some r') (hid : r.task.id = r'.task.id)
    (hst : r.startedAt = r'.startedAt) : i = j := by
  have hi := State.claims_getElem? hr
  have hj := State.claims_getElem? hr'
  rw [← hid, ← hst] at hj
  exact (List.getElem?_inj (List.getElem?_eq_some_iff.mp hi).1 h.nodup).mp (hi.trans hj.symm)

theorem Task.Becomes.running {t q : Task P} {env : Env P} (h : t.Becomes env q)
    (hq : q.status = .running) :
    t.status = .running ∧ q.id = t.id ∧ q.startedAt = t.startedAt := by
  cases h with
  | same => exact ⟨hq, rfl, rfl⟩
  | requeued _ ha =>
    obtain ⟨spec, v, -, -, rfl⟩ := Task.applyRequeue_ok.mp ha
    cases hq
  | @closed clock o _ _ ho =>
    rcases ho with rfl | ho
    · cases hq
    · change o.status = .running at hq
      rw [ho] at hq
      cases hq
  | reaped => cases hq

theorem NewTask.onConflict_of_running {new : NewTask P} {conn : Conn} {t : Task P}
    (h : (new.onConflict conn t).status = .running) :
    t.status = .running ∧ new.onConflict conn t = { t with requeue := some (new.requeue conn) } := by
  by_cases hs : t.status = .running
  · exact ⟨hs, new.onConflict_running conn hs⟩
  · rw [new.onConflict_idle conn hs] at h
    cases h

theorem ClaimInv.of_rows {s s' : State Q} (h : ClaimInv s) (hc : s'.taken = s.taken)
    (hrow : ∀ q ∈ s'.tasks, q.status = .running →
      ∃ t ∈ s.tasks, t.status = .running ∧ q.id = t.id ∧ q.startedAt = t.startedAt) :
    ClaimInv s' := by
  have hc : s'.claims = s.claims := by rw [State.claims, hc, State.claims]
  refine ⟨hc ▸ h.nodup, fun q hq hs => ?_⟩
  obtain ⟨t, ht, hts, hid, hst⟩ := hrow q hq hs
  obtain ⟨i, startedAt, he, hl⟩ := h.current t ht hts
  exact ⟨i, startedAt, hst.trans he, by rw [hc, hid]; exact hl⟩

theorem ClaimInv.claim {s s' : State Q} (h : ClaimInv s) {worker : ℕ} {mode : Mode} {c : Claim}
    {t : Task Q} (hnew : (t.id, c.startedAt) ∉ s.claims)
    (hrep : s.tasks.Replaces t (c.markRunning t) s'.tasks)
    (hr : s'.runs = s.runs ++ [⟨c.markRunning t, c.startedAt, worker, mode, .claimed⟩]) :
    ClaimInv s' := by
  have hclaims : s'.claims = s.claims ++ [(t.id, c.startedAt)] := by
    simp only [State.claims, State.taken, hr, List.map_append, List.map_cons, List.map_nil]
    rfl
  refine ⟨?_, fun q hq hs => ?_⟩
  · rw [hclaims, List.nodup_append]
    refine ⟨h.nodup, List.nodup_singleton _, fun a ha b hb => ?_⟩
    rintro rfl
    rw [List.mem_singleton.mp hb] at ha
    exact hnew ha
  · rw [hclaims]
    rcases hrep.origin hq with rfl | ⟨hq, hne⟩
    · exact ⟨_, c.startedAt, rfl, .append_self s.claims t.id c.startedAt⟩
    · obtain ⟨i, startedAt, he, hl⟩ := h.current q hq hs
      exact ⟨i, startedAt, he, hl.append_other (Ne.symm hne) c.startedAt⟩

theorem claimInv_reachable {G : State Q → Action P → Prop}
    (hG : ∀ s a, G s a → distinctClaims s a) {s : State Q}
    (h : (taskSystem stamp env).Reachable G s) : ClaimInv s := by
  refine reachable_invariant ?_ ?_ ?_ h
  · exact ⟨List.nodup_nil, fun t ht => absurd ht (Table.not_mem_empty t)⟩
  · intro s conn new s' _ hi ha
    apply hi.of_rows (congrArg (List.map _) ha.eq.1)
    intro q hq hs
    obtain ⟨q', hq', hrows⟩ := ha.rows
    rcases hrows q hq with rfl | hq
    · rcases hq' with ⟨id, rfl⟩ | ⟨t, ht, rfl⟩
      · cases hs
      · obtain ⟨hts, he⟩ := NewTask.onConflict_of_running hs
        exact ⟨t, ht, hts, by rw [he], by rw [he]⟩
    · exact ⟨q, hq, hs, rfl, rfl⟩
  · intro s a s' hl hi hg hq
    rcases hq.rows hl with ⟨worker, mode, c, t, rfl, hc, -, hrep, hr⟩ | ⟨hc, hb⟩
    · exact hi.claim (t := t) (hG s _ hg _ hc) hrep hr
    · apply hi.of_rows hc
      intro q hq hs
      obtain ⟨t, ht, hb⟩ := hb q hq
      obtain ⟨hts, hid, hst⟩ := hb.running hs
      exact ⟨t, ht, hts, hid, hst⟩

theorem ClaimInv.runsFor {s : State Q} (h : ClaimInv s) {i : ℕ} {r : Run Q}
    (hr : s.runs[i]? = some r) {t : Task Q} (ht : t ∈ s.tasks)
    (hw : finishWhere r.task.id (some r.startedAt) t = true) : s.RunsFor i t := by
  obtain ⟨hid, hs, hst⟩ := finishWhere_true hw
  obtain ⟨j, startedAt, he, hl⟩ := h.current t ht hs
  obtain rfl : startedAt = r.startedAt := Option.some.inj (he.symm.trans hst)
  have hi : s.claims[i]? = some (t.id, r.startedAt) := by
    rw [State.claims_getElem? hr, hid]
  have hij : j = i := (List.getElem?_inj hl.lt h.nodup).mp (hl.claimed.trans hi.symm)
  exact ⟨ht, hs, _, hij ▸ hl⟩

theorem late_finish {s : State Q} (h : (taskSystem stamp env).Reachable distinctClaims s) {i : ℕ}
    {r : Run Q} (hr : s.runs[i]? = some r) (hlate : ¬∃ t, s.RunsFor i t) (clock : Timestamptz)
    (o : Outcome) : finishOneOff env clock r.task.id (some r.startedAt) o s.tasks = s.tasks := by
  apply finishOneOff_miss
  rw [Table.find?_eq_none]
  intro t ht
  rw [← Bool.not_eq_true]
  intro hw
  exact hlate ⟨t, (claimInv_reachable (fun _ _ hg => hg) h).runsFor hr ht hw⟩

def reclaimed : State String :=
  (taskSystem unlabelled sampleEnv).run distinctClaims [.upsert sampleConn (sampleUpsert "a"),
    sampleClaim 0 10, .start 0, .upsert sampleConn (sampleUpsert "b"), .reapBegin ⟨5 / 1000000, 20, 20⟩,
    .reapSecond 0, .reapRequeue 0 1, .reapCommit 0, sampleClaim 1 30]

theorem late_finish_reclaimed :
    finishOneOff sampleEnv 40 1 (some 10) ⟨.completed, none⟩ reclaimed.tasks = reclaimed.tasks := by
  have hr : reclaimed.runs[0]?.map (fun r => (r.task.id, r.startedAt)) = some (1, 10) := by
    decide +kernel
  obtain ⟨r, hr, he⟩ := Option.map_eq_some_iff.mp hr
  obtain ⟨hid, hst⟩ := Prod.mk.inj he
  have hlate : ¬∃ t, reclaimed.RunsFor 0 t := by
    rintro ⟨t, -, -, startedAt, hl⟩
    have h0 : reclaimed.claims[0]? = some (1, 10) := by decide +kernel
    have h1 : reclaimed.claims[1]? = some (1, 30) := by decide +kernel
    obtain ⟨hid, -⟩ := Prod.mk.inj (Option.some.inj (h0.symm.trans hl.claimed))
    exact hl.latest 1 30 Nat.zero_lt_one (hid ▸ h1)
  have hreach : (taskSystem unlabelled sampleEnv).Reachable distinctClaims reclaimed :=
    .of_run (by decide +kernel)
  have h := late_finish hreach hr hlate 40 ⟨.completed, none⟩
  rw [hid, hst] at h
  exact h

end PostgresQueue
