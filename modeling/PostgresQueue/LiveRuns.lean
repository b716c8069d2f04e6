import PostgresQueue.RunIdentity

namespace PostgresQueue

open Library System

variable {P Q : Type} {stamp : P → ℕ → Q} {env : Env Q}

/-- The child is running, or its worker is still there to fork it. -/
def Run.Live (dead : List ℕ) (r : Run P) : Prop :=
  r.phase = .alive ∨ (r.phase = .claimed ∧ r.worker ∉ dead)

instance (dead : List ℕ) (r : Run P) : Decidable (r.Live dead) := by
  unfold Run.Live
  infer_instance

/-- The reaper selects no row whose own run is alive: the documented condition on its threshold. -/
def sparesLive (s : State Q) : Action P → Prop
  | .reapFail _ id | .reapRequeue _ id => ∀ t ∈ s.tasks.rows, t.id = id → ∀ r ∈ s.runs,
      r.task.id = t.id → t.startedAt = some r.startedAt → ¬r.Live s.dead
  | _ => True

instance (s : State Q) (a : Action P) : Decidable (sparesLive s a) :=
  match a with
  | .reapFail _ id | .reapRequeue _ id => inferInstanceAs
    (Decidable (∀ t ∈ s.tasks.rows, t.id = id → ∀ r ∈ s.runs,
      r.task.id = t.id → t.startedAt = some r.startedAt → ¬r.Live s.dead))
  | .enqueue .. | .upsert .. | .upsertMany .. | .claim .. | .start _ | .finishes .. | .record ..
  | .dies _ | .reapBegin _ | .reapSecond _ | .reapCommit _ | .reapAbort _ | .cancel _
  | .clearCompleted _ | .clearFailed _ | .clearAll => isTrue trivial

def contract (s : State Q) (a : Action P) : Prop :=
  distinctClaims s a ∧ sparesLive s a ∧ noRemoval a

instance (s : State Q) (a : Action P) : Decidable (contract s a) :=
  inferInstanceAs (Decidable (_ ∧ _ ∧ _))

structure Run.Holds (s : State Q) (r : Run Q) (t : Task Q) : Prop where
  mem : t ∈ s.tasks
  id_eq : t.id = r.task.id
  client : t.clientId = r.task.clientId
  running : t.status = .running
  started : t.startedAt = some r.startedAt
  free : t.id ∉ s.lockedIds

def LiveInv (s : State Q) : Prop := ∀ r ∈ s.runs, r.Live s.dead → ∃ t, r.Holds s t

namespace Run.Holds

variable {s s' : State Q} {r : Run Q} {t : Task Q}

theorem of_tasks (h : r.Holds s t) (hm : t ∈ s'.tasks) (hl : ∀ id ∈ s'.lockedIds, id ∈ s.lockedIds) :
    r.Holds s' t :=
  ⟨hm, h.id_eq, h.client, h.running, h.started, fun hf => h.free (hl _ hf)⟩

theorem accept {conn : Conn} {new : NewTask Q} (h : r.Holds s t) (ha : Accept s conn new s') :
    ∃ q, r.Holds s' q := by
  have hl : s'.lockedIds = s.lockedIds := by rw [State.lockedIds, ha.eq.2.1, State.lockedIds]
  cases ha with
  | inserted hins => exact ⟨t, h.of_tasks (hins.keep h.mem) fun id hid => hid⟩
  | conflicted _ _ _ hrep =>
    rcases hrep.fate h.mem with ⟨rfl, hm⟩ | hm
    · rw [new.onConflict_running conn h.running] at hm
      exact ⟨_, hm, h.id_eq, h.client, h.running, h.started, h.free⟩
    · exact ⟨t, h.of_tasks hm fun id hid => hid⟩

end Run.Holds

theorem mem_setPhase {s : State Q} {i : ℕ} {phase : Phase} {r' : Run Q}
    (h : r' ∈ (s.setPhase i phase).runs) :
    (∃ r, s.runs[i]? = some r ∧ r' = { r with phase := phase }) ∨
      ∃ j, i ≠ j ∧ s.runs[j]? = some r' := by
  obtain ⟨j, hj⟩ := List.mem_iff_getElem?.mp h
  rcases getElem?_modify_eq_some hj with ⟨rfl, r, hr, rfl⟩ | ⟨hij, hr⟩
  exacts [.inl ⟨r, hr, rfl⟩, .inr ⟨j, hij, hr⟩]

theorem not_live_ended {dead : List ℕ} {r : Run P} {e : RunEnd} (h : r.phase = .ended e) :
    ¬r.Live dead := by
  simp [Run.Live, h]

theorem Run.Live.of_dies {worker : ℕ} {dead : List ℕ} {r : Run P} (h : r.Live (worker :: dead)) :
    r.Live dead :=
  h.imp_right fun hc => ⟨hc.1, fun hd => hc.2 (List.mem_cons_of_mem _ hd)⟩

section Quiet

variable {s : State Q} {j : ℕ} {x : ReapTxn Q}

theorem lockedIds_endReap (hx : s.reaps[j]? = some x) (tasks : Tasks Q) {id : ℕ}
    (h : id ∈ (s.endReap j tasks).lockedIds) : id ∈ s.lockedIds :=
  (lockedIds_split hx).mem_iff.mpr (List.mem_append_right _ h)

theorem LiveInv.lock (h : LiveInv s) (hx : s.reaps[j]? = some x) {f : ReapTxn Q → ReapTxn Q}
    {t : Task Q} (hf : (f x).locked.Perm (t.id :: x.locked))
    (hspare : ∀ q ∈ s.tasks.rows, q.id = t.id → ∀ r ∈ s.runs, r.task.id = q.id →
      q.startedAt = some r.startedAt → ¬r.Live s.dead) : LiveInv (s.setReap j f) := by
  intro r hr hlive
  obtain ⟨q, hq⟩ := h r hr hlive
  refine ⟨q, hq.mem, hq.id_eq, hq.client, hq.running, hq.started, fun hl => ?_⟩
  have hl := ((lockedIds_setReap hx f).trans ((hf.append_right _).trans
    ((lockedIds_split hx).symm.cons t.id))).mem_iff.mp hl
  rcases List.mem_cons.mp hl with he | hl
  · exact hspare q hq.mem he r hr hq.id_eq.symm hq.started hlive
  · exact hq.free hl

theorem LiveInv.claim (h : LiveInv s) {worker : ℕ} {mode : Mode} {c : Claim} {t : Task Q}
    {tasks : Tasks Q} (hs : t.status = .pending) (hfree : t.id ∉ s.lockedIds)
    (hrep : s.tasks.Replaces t (c.markRunning t) tasks) :
    LiveInv { s with
      tasks := tasks
      runs := s.runs ++ [⟨c.markRunning t, c.startedAt, worker, mode, .claimed⟩] } := by
  intro r hr hlive
  rcases List.mem_append.mp hr with hr | hr
  · obtain ⟨q, hq⟩ := h r hr hlive
    have hne : q.id ≠ t.id := by
      intro he
      have hrun := hq.running
      rw [s.tasks.eq_of_key hq.mem hrep.mem he, hs] at hrun
      cases hrun
    exact ⟨q, hq.of_tasks (hrep.keep hq.mem hne) fun id hid => hid⟩
  · obtain rfl := List.mem_singleton.mp hr
    exact ⟨c.markRunning t, hrep.mem_new, rfl, rfl, rfl, rfl, hfree⟩

theorem LiveInv.record (h : LiveInv s) (hc : ClaimInv s) {i : ℕ} {r : Run Q}
    (hr : s.runs[i]? = some r) (clock : Timestamptz) (o : Outcome) :
    LiveInv { s.setPhase i .recorded with
      tasks := finishOneOff env clock r.task.id (some r.startedAt) o s.tasks } := by
  intro r' hr' hlive
  rcases mem_setPhase hr' with ⟨r₀, -, rfl⟩ | ⟨k, hik, hk⟩
  · rcases hlive with hp | ⟨hp, -⟩ <;> cases hp
  · obtain ⟨q, hq⟩ := h r' (List.mem_of_getElem? hk) hlive
    have hmiss : finishWhere r.task.id (some r.startedAt) q ≠ true := by
      intro hw
      obtain ⟨hid, -, hst⟩ := finishWhere_true hw
      have hstart := Option.some.inj (hst.symm.trans hq.started)
      exact hik (hc.index_eq hr hk (hid.symm.trans hq.id_eq) hstart)
    exact ⟨q, hq.of_tasks (finishOneOff_keep hq.mem hmiss) fun id hid => hid⟩

theorem LiveInv.of_rows (h : LiveInv s) {tasks : Tasks Q} {reaps : List (ReapTxn Q)} {dead : List ℕ}
    {history : List (Event Q)} (hlive : ∀ r : Run Q, r.Live dead → r.Live s.dead)
    (hkeep : ∀ t ∈ s.tasks, t.status = .running → t.id ∉ s.lockedIds → t ∈ tasks)
    (hlock : ∀ id ∈ reaps.flatMap ReapTxn.locked, id ∈ s.lockedIds) :
    LiveInv ⟨tasks, s.runs, reaps, dead, history⟩ := by
  intro r hr hl
  obtain ⟨t, ht⟩ := h r hr (hlive r hl)
  exact ⟨t, ht.of_tasks (hkeep t ht.mem ht.running ht.free) hlock⟩

theorem LiveInv.quiet {s' : State Q} {a : Action P} (h : LiveInv s) (hl : LockInv s)
    (hc : ClaimInv s) (hg : contract s a) (hq : Quiet env s a s') : LiveInv s' := by
  obtain ⟨-, hspare, hkeep⟩ := hg
  cases hq with
  | claim _ hs hfree hrep => exact h.claim hs hfree hrep
  | @start i r hr hp hd =>
    intro r' hr' hlive
    rcases mem_setPhase hr' with ⟨r₀, hr₀, rfl⟩ | ⟨k, -, hk⟩
    · obtain rfl := Option.some.inj (hr.symm.trans hr₀)
      obtain ⟨t, ht⟩ := h r (List.mem_of_getElem? hr) (.inr ⟨hp, hd⟩)
      exact ⟨t, ht.mem, ht.id_eq, ht.client, ht.running, ht.started, ht.free⟩
    · obtain ⟨t, ht⟩ := h r' (List.mem_of_getElem? hk) hlive
      exact ⟨t, ht.of_tasks ht.mem fun id hid => hid⟩
  | @finishes i r e hr hp =>
    intro r' hr' hlive
    rcases mem_setPhase hr' with ⟨r₀, -, rfl⟩ | ⟨k, -, hk⟩
    · exact absurd hlive (not_live_ended (e := e) rfl)
    · obtain ⟨t, ht⟩ := h r' (List.mem_of_getElem? hk) hlive
      exact ⟨t, ht.of_tasks ht.mem fun id hid => hid⟩
  | record hr _ _ _ => exact h.record hc hr _ _
  | dies worker =>
    exact h.of_rows (fun r hl => hl.of_dies) (fun t ht _ _ => ht) fun id hid => hid
  | reapBegin r =>
    apply h.of_rows (fun r hl => hl) (fun t ht _ _ => ht)
    intro id hid
    simpa [State.lockedIds, ReapTxn.locked] using hid
  | reapFail hx => exact h.lock hx (.refl _) hspare
  | reapSecond hx =>
    apply h.of_rows (fun r hl => hl) (fun t ht _ _ => ht)
    intro id hid
    exact ((lockedIds_setReap hx _).trans (lockedIds_split hx).symm).mem_iff.mp hid
  | @reapRequeue j x t hx => exact h.lock hx (x.locked_requeueing t) hspare
  | @reapCommit j x tasks hx hw =>
    refine h.of_rows (fun r hl => hl) (fun t ht _ hfree => ?_) fun id => lockedIds_endReap hx tasks
    have hother : t.id ∉ x.locked := fun hlk =>
      hfree ((lockedIds_split hx).mem_iff.mpr (List.mem_append_left _ hlk))
    exact ((hl.write hx hw).2.2 t).mpr (.inr (.inr ⟨ht, hother⟩))
  | reapDrop hx =>
    exact h.of_rows (fun r hl => hl) (fun t ht _ _ => ht) fun id => lockedIds_endReap hx s.tasks
  | cancel => exact hkeep.elim
  | clear hp =>
    refine h.of_rows (fun r hl => hl) (fun t ht hrun _ => Table.mem_delete.mpr ⟨ht, ?_⟩)
      fun id hid => hid
    rw [← Bool.not_eq_true]
    intro hpt
    rcases hp t hpt with hs | hs <;> simp [hs] at hrun
  | clearAll => exact hkeep.elim

end Quiet

theorem liveInv_reachable {s : State Q} (h : (taskSystem stamp env).Reachable contract s) :
    ClaimInv s ∧ LiveInv s := by
  have hc : ∀ {s : State Q}, (taskSystem stamp env).Reachable contract s → ClaimInv s :=
    fun h => claimInv_reachable (fun _ _ hg => hg.1) h
  refine ⟨hc h, ?_⟩
  apply h.invariant_of_reachable (fun r hr => absurd hr List.not_mem_nil)
  intro s a s' hr hi hg he
  rcases step_cases (lockInv_reachable hr) he with ⟨conn, news, ha, -⟩ | hq
  · refine ha.preserves (lockInv_reachable hr) (fun s conn new s' _ hi ha r hr hlive => ?_) hi
    rw [ha.eq.1] at hr
    rw [ha.eq.2.2.1] at hlive
    obtain ⟨t, ht⟩ := hi r hr hlive
    exact ht.accept ha
  · exact hi.quiet (lockInv_reachable hr) (hc hr) hg hq

theorem one_live_run {s : State Q} (h : (taskSystem stamp env).Reachable contract s) :
    (∀ r ∈ s.runs, r.phase = .alive → ∃ t ∈ s.tasks, t.id = r.task.id ∧
      t.clientId = r.task.clientId ∧ t.status = .running ∧ t.startedAt = some r.startedAt) ∧
    ∀ (i j : ℕ) (r r' : Run Q) (clientId : ClientId), s.runs[i]? = some r →
      s.runs[j]? = some r' → r.phase = .alive → r'.phase = .alive →
      r.task.clientId = some clientId → r'.task.clientId = some clientId → i = j := by
  obtain ⟨hc, hl⟩ := liveInv_reachable h
  constructor
  · intro r hr hp
    obtain ⟨t, ht⟩ := hl r hr (.inl hp)
    exact ⟨t, ht.mem, ht.id_eq, ht.client, ht.running, ht.started⟩
  · intro i j r r' clientId hr hr' hp hp' hid hid'
    obtain ⟨t, ht⟩ := hl r (List.mem_of_getElem? hr) (.inl hp)
    obtain ⟨t', ht'⟩ := hl r' (List.mem_of_getElem? hr') (.inl hp')
    have hclash : sameClient t.clientId t'.clientId = true := by
      simp [sameClient, ht.client, ht'.client, hid, hid']
    obtain rfl := s.tasks.eq_of_clash ht.mem ht'.mem hclash
    have hstart := Option.some.inj (ht.started.symm.trans ht'.started)
    exact hc.index_eq hr hr' (ht.id_eq.symm.trans ht'.id_eq) hstart

def parked : State String :=
  (taskSystem unlabelled sampleEnv).run contract [.upsert sampleConn (sampleUpsert "a"),
    sampleClaim 0 10, .start 0, .upsert sampleConn (sampleUpsert "b")]

theorem one_live_run_parked : ∃ r ∈ parked.runs, r.phase = .alive ∧ ∃ t ∈ parked.tasks,
    t.id = r.task.id ∧ t.clientId = r.task.clientId ∧ t.status = .running ∧
      t.startedAt = some r.startedAt := by
  have hs : parked.runs[0]?.map Run.phase = some .alive := by decide +kernel
  obtain ⟨r, hr, hp⟩ := Option.map_eq_some_iff.mp hs
  have hm := List.mem_of_getElem? hr
  exact ⟨r, hm, hp, (one_live_run (.of_run (by decide +kernel))).1 r hm hp⟩

end PostgresQueue
