import PostgresQueue.RowForm

namespace PostgresQueue

open Library System

variable {P Q : Type} {stamp : P → ℕ → Q} {env : Env Q}

def Task.Closed (t : Task P) : Prop := t.status = .completed ∨ t.status = .failed

def Event.about (clientId : ClientId) : Event P → Bool
  | .accepted _ new => new.clientId == some clientId
  | .removed gone => gone == some clientId

/-- The last version accepted for a client, unless its row was removed since. -/
def State.latest (s : State P) (clientId : ClientId) : Option (Conn × NewTask P) :=
  match s.history.find? (Event.about clientId) with
  | some (.accepted conn new) => some (conn, new)
  | _ => none

def NewTask.Describes (env : Env P) (conn : Conn) (new : NewTask P) (v : Version P) : Prop :=
  v = new.version conn ∨ (new.requeue conn).Encodes env v

def Task.Awaits (env : Env P) (conn : Conn) (new : NewTask P) (t : Task P) : Prop :=
  (t.status = .pending ∧ new.Describes env conn t.version) ∨
    (t.status = .running ∧ t.requeue = some (new.requeue conn))

/-- Where a version is: on a PENDING row, parked on a RUNNING row, or claimed by a run. -/
def State.Keeps (env : Env P) (s : State P) (clientId : ClientId) (conn : Conn) (new : NewTask P) :
    Prop :=
  (∃ t ∈ s.tasks, t.clientId = some clientId ∧ t.Awaits env conn new) ∨
    ∃ claimed ∈ s.taken, claimed.1.clientId = some clientId ∧ new.Describes env conn claimed.1.version

inductive Task.Fate (env : Env P) (s' : State P) (t : Task P) : Prop
  | becomes (q : Task P) : q ∈ s'.tasks → t.Becomes env q → Fate env s' t
  | claimed (c : Claim) : t.status = .pending → c.markRunning t ∈ s'.tasks →
      (c.markRunning t, c.startedAt) ∈ s'.taken → Fate env s' t
  | cleared : t.Closed → Fate env s' t

theorem finishOneOff_fate {clock : Timestamptz} {id : ℕ} {startedAt : Option Timestamptz}
    {o : Outcome} (ho : o.Sound) {tasks : Tasks P} {env : Env P} {t : Task P} (ht : t ∈ tasks) :
    ∃ q ∈ finishOneOff env clock id startedAt o tasks, t.Becomes env q := by
  rcases finishOneOff_cases env clock id startedAt o tasks with he | ⟨r, hw, hcase⟩
  · rw [he]
    exact ⟨t, ht, .same⟩
  · obtain ⟨-, hs, -⟩ := finishWhere_true hw
    rcases hcase with ⟨q, ha, hrep⟩ | ⟨hn, hrep⟩
    · rcases hrep.fate ht with ⟨rfl, hm⟩ | hm
      exacts [⟨q, hm, .requeued hs ha⟩, ⟨t, hm, .same⟩]
    · rcases hrep.fate ht with ⟨rfl, hm⟩ | hm
      exacts [⟨_, hm, .closed clock hs hn ho⟩, ⟨t, hm, .same⟩]

theorem LockInv.write_fate {s : State Q} {j : ℕ} {x : ReapTxn Q} {tasks : Tasks Q} (h : LockInv s)
    (hx : s.reaps[j]? = some x) (hw : x.reap.write env x.failing x.requeueing s.tasks = .ok tasks)
    {t : Task Q} (ht : t ∈ s.tasks) : ∃ q ∈ tasks, t.Becomes env q := by
  have hm := List.mem_of_getElem? hx
  obtain ⟨-, hok, hiff⟩ := h.write hx hw
  by_cases hl : t.id ∈ x.locked
  · obtain ⟨r, hr, he⟩ := List.mem_map.mp hl
    rcases List.mem_append.mp hr with hr | hr
    · obtain ⟨hrm, hs, hn⟩ := h.failing x hm r hr
      obtain rfl := s.tasks.eq_of_key hrm ht he
      exact ⟨_, (hiff _).mpr (.inl ⟨r, hr, rfl⟩), .reaped x.reap hs hn⟩
    · obtain ⟨hrm, hs, -⟩ := h.requeueing x hm r hr
      obtain rfl := s.tasks.eq_of_key hrm ht he
      obtain ⟨q, hq⟩ := hok r hr
      exact ⟨q, (hiff q).mpr (.inr (.inl ⟨r, hr, hq⟩)), .requeued hs hq⟩
  · exact ⟨t, (hiff t).mpr (.inr (.inr ⟨ht, hl⟩)), .same⟩

theorem Quiet.fate {s s' : State Q} {a : Action P} (hl : LockInv s) (h : Quiet env s a s') :
    ∃ gone : List (Option ClientId), s'.history = gone.map Event.removed ++ s.history ∧
      (noRemoval a → gone = []) ∧ ∀ t ∈ s.tasks, t.clientId ∈ gone ∨ t.Fate env s' := by
  have kept : ∀ {tasks : Tasks Q}, (∀ t ∈ s.tasks, t ∈ tasks) → s'.tasks = tasks →
      ∀ t ∈ s.tasks, t.clientId ∈ [] ∨ t.Fate env s' :=
    fun hk he t ht => .inr (.becomes t (he ▸ hk t ht) .same)
  cases h with
  | @claim worker mode c t tasks hc hs _ hrep =>
    refine ⟨[], rfl, fun _ => rfl, fun q hq => .inr ?_⟩
    rcases hrep.fate hq with ⟨rfl, hm⟩ | hm
    · refine .claimed c hs hm ?_
      simp [State.taken]
    · exact .becomes q hm .same
  | record _ _ ho =>
    refine ⟨[], rfl, fun _ => rfl, fun t ht => .inr ?_⟩
    obtain ⟨q, hq, hb⟩ := finishOneOff_fate (RunEnd.outcome_sound ho) ht
    exact .becomes q hq hb
  | reapCommit hx hw =>
    refine ⟨[], rfl, fun _ => rfl, fun t ht => .inr ?_⟩
    obtain ⟨q, hq, hb⟩ := hl.write_fate hx hw ht
    exact .becomes q hq hb
  | @cancel id hfree =>
    refine ⟨(s.tasks.rows.filter fun t => t.id == id).map Task.clientId, ?_, False.elim, ?_⟩
    · rw [List.map_map]
      rfl
    · intro t ht
      by_cases he : t.id = id
      · exact .inl (List.mem_map_of_mem (List.mem_filter.mpr ⟨ht, beq_iff_eq.mpr he⟩))
      · exact .inr (.becomes t (Table.mem_delete.mpr ⟨ht, beq_eq_false_iff_ne.mpr he⟩) .same)
  | @clear a p hp =>
    refine ⟨[], rfl, fun _ => rfl, fun t ht => .inr ?_⟩
    cases hpt : p t with
    | true => exact .cleared (hp t hpt)
    | false => exact .becomes t (Table.mem_delete.mpr ⟨ht, hpt⟩) .same
  | clearAll =>
    refine ⟨s.tasks.rows.map Task.clientId, ?_, False.elim, fun t ht => ?_⟩
    · rw [List.map_map]
      rfl
    · exact .inl (List.mem_map_of_mem ht)
  | start | finishes | dies | reapBegin | reapFail | reapSecond | reapRequeue | reapDrop =>
    exact ⟨[], rfl, fun _ => rfl, kept (fun _ ht => ht) rfl⟩

theorem Quiet.taken_mono {s s' : State Q} {a : Action P} (hl : LockInv s) (h : Quiet env s a s')
    {claimed : Task Q × Timestamptz} (hc : claimed ∈ s.taken) : claimed ∈ s'.taken := by
  rcases h.rows hl with ⟨_, _, _, _, -, -, -, -, hr⟩ | ⟨ht, -⟩
  · rw [State.taken, hr, List.map_append]
    exact List.mem_append_left _ hc
  · rw [ht]
    exact hc

theorem Task.Awaits.becomes {conn : Conn} {new : NewTask P} {env : Env P} {t q : Task P}
    (h : t.Awaits env conn new) (hb : t.Becomes env q) :
    q.clientId = t.clientId ∧ q.Awaits env conn new := by
  cases hb with
  | same => exact ⟨rfl, h⟩
  | requeued hs ha =>
    obtain ⟨spec, v, hspec, hv, rfl⟩ := Task.applyRequeue_ok.mp ha
    rcases h with ⟨hp, -⟩ | ⟨-, hq⟩
    · rw [hs] at hp
      cases hp
    · obtain rfl := Option.some.inj (hspec.symm.trans hq)
      exact ⟨rfl, .inl ⟨rfl, .inr hv⟩⟩
  | closed clock hs hn ho =>
    rcases h with ⟨hp, -⟩ | ⟨-, hq⟩
    · rw [hs] at hp
      cases hp
    · rw [hn] at hq
      cases hq
  | reaped r hs hn =>
    rcases h with ⟨hp, -⟩ | ⟨-, hq⟩
    · rw [hs] at hp
      cases hp
    · rw [hn] at hq
      cases hq

theorem Task.Awaits.not_closed {conn : Conn} {new : NewTask P} {env : Env P} {t : Task P}
    (h : t.Awaits env conn new) : ¬t.Closed := by
  rintro (hc | hc) <;> rcases h with ⟨hs, -⟩ | ⟨hs, -⟩ <;> simp [hs] at hc

theorem find?_about_removed (clientId : ClientId) (gone : List (Option ClientId))
    (history : List (Event P)) : (gone.map Event.removed ++ history).find? (Event.about clientId) =
      if some clientId ∈ gone then some (.removed (some clientId))
      else history.find? (Event.about clientId) := by
  induction gone with
  | nil => simp
  | cons k gone ih =>
    by_cases hk : k = some clientId
    · subst hk
      simp [Event.about]
    · have hne : ¬some clientId = k := fun he => hk he.symm
      simp only [List.map_cons, List.cons_append, List.mem_cons, hne, false_or]
      rw [List.find?_cons_of_neg (by simpa [Event.about] using hk)]
      exact ih

def LatestInv (env : Env Q) (s : State Q) : Prop :=
  ∀ clientId conn new, s.latest clientId = some (conn, new) → s.Keeps env clientId conn new

theorem LatestInv.quiet {s s' : State Q} {a : Action P} (h : LatestInv env s) (hl : LockInv s)
    (hq : Quiet env s a s') : LatestInv env s' := by
  intro clientId conn new hlast
  obtain ⟨gone, hhist, -, hfate⟩ := hq.fate hl
  rw [State.latest, hhist, find?_about_removed] at hlast
  split_ifs at hlast with hgone
  rcases h clientId conn new hlast with ⟨t, ht, hc, hw⟩ | ⟨claimed, hm, hc, hd⟩
  · rcases hfate t ht with hin | hf
    · exact absurd (hc ▸ hin) hgone
    · cases hf with
      | becomes q hq hb =>
        obtain ⟨hqc, hqw⟩ := hw.becomes hb
        exact .inl ⟨q, hq, hqc.trans hc, hqw⟩
      | claimed c hs _ hm =>
        rcases hw with ⟨-, hd⟩ | ⟨hr, -⟩
        · exact .inr ⟨_, hm, hc, hd⟩
        · rw [hs] at hr
          cases hr
      | cleared hcl => exact absurd hcl hw.not_closed
  · exact .inr ⟨claimed, hq.taken_mono hl hm, hc, hd⟩

section Accepting

variable {s s' : State Q} {conn : Conn} {new : NewTask Q}

theorem NewTask.onConflict_awaits (conn : Conn) (new : NewTask P) (env : Env P) (t : Task P) :
    (new.onConflict conn t).Awaits env conn new := by
  by_cases hs : t.status = .running
  · rw [new.onConflict_running conn hs]
    exact .inr ⟨hs, rfl⟩
  · rw [new.onConflict_idle conn hs]
    exact .inl ⟨rfl, .inl rfl⟩

theorem Accept.written (env : Env Q) (h : Accept s conn new s') :
    ∃ q ∈ s'.tasks, q.clientId = new.clientId ∧ q.Awaits env conn new := by
  cases h with
  | inserted hins => exact ⟨_, hins.mem_new, rfl, .inl ⟨rfl, .inl rfl⟩⟩
  | conflicted _ hc _ hrep => exact ⟨_, hrep.mem_new, hc, new.onConflict_awaits conn env _⟩

theorem Accept.keep (h : Accept s conn new s') {t : Task Q} (ht : t ∈ s.tasks) :
    t ∈ s'.tasks ∨ (t.clientId = new.clientId ∧ new.onConflict conn t ∈ s'.tasks) := by
  cases h with
  | inserted hins => exact .inl (hins.keep ht)
  | conflicted _ hc _ hrep =>
    rcases hrep.fate ht with ⟨rfl, hm⟩ | hm
    exacts [.inr ⟨hc, hm⟩, .inl hm]

theorem Accept.taken (h : Accept s conn new s') : s'.taken = s.taken :=
  congrArg (List.map _) h.eq.1

theorem LatestInv.accept (h : LatestInv env s) (ha : Accept s conn new s') : LatestInv env s' := by
  intro clientId conn' new' hlast
  rw [State.latest, ha.eq.2.2.2] at hlast
  by_cases hc : new.clientId = some clientId
  · rw [List.find?_cons_of_pos (by simp [Event.about, hc])] at hlast
    obtain ⟨rfl, rfl⟩ := Prod.mk.inj (Option.some.inj hlast)
    obtain ⟨q, hq, hqc, hw⟩ := ha.written env
    exact .inl ⟨q, hq, hqc.trans hc, hw⟩
  · rw [List.find?_cons_of_neg (by simp [Event.about, hc])] at hlast
    rcases h clientId conn' new' hlast with ⟨t, ht, htc, hw⟩ | hm
    · rcases ha.keep ht with hk | ⟨he, -⟩
      · exact .inl ⟨t, hk, htc, hw⟩
      · exact absurd (he.symm.trans htc) hc
    · rw [State.Keeps, ha.taken]
      exact .inr hm

end Accepting

def ClaimedInv (s : State Q) : Prop :=
  ∀ t ∈ s.tasks, t.status ≠ .pending →
    ∃ claimed ∈ s.taken, claimed.1.id = t.id ∧ claimed.1.version = t.version

theorem Task.Becomes.claimed {t q : Task P} {env : Env P} (h : t.Becomes env q)
    (hs : q.status ≠ .pending) : t.status ≠ .pending ∧ q.id = t.id ∧ q.version = t.version := by
  cases h with
  | same => exact ⟨hs, rfl, rfl⟩
  | requeued _ ha =>
    obtain ⟨spec, v, -, -, rfl⟩ := Task.applyRequeue_ok.mp ha
    exact absurd rfl hs
  | closed clock hr => exact ⟨by simp [hr], rfl, rfl⟩
  | reaped r hr => exact ⟨by simp [hr], rfl, rfl⟩

theorem ClaimedInv.accept {s s' : State Q} {conn : Conn} {new : NewTask Q} (h : ClaimedInv s)
    (ha : Accept s conn new s') : ClaimedInv s' := by
  intro p hp hs
  rw [ha.taken]
  obtain ⟨q, hq, hrows⟩ := ha.rows
  rcases hrows p hp with rfl | hp
  · rcases hq with ⟨id, rfl⟩ | ⟨t, ht, rfl⟩
    · exact absurd rfl hs
    · by_cases hr : t.status = .running
      · rw [new.onConflict_running conn hr]
        exact h t ht (by simp [hr])
      · rw [new.onConflict_idle conn hr] at hs
        exact absurd rfl hs
  · exact h p hp hs

theorem ClaimedInv.quiet {s s' : State Q} {a : Action P} (h : ClaimedInv s) (hl : LockInv s)
    (hq : Quiet env s a s') : ClaimedInv s' := by
  intro q hm hs
  have old : ∀ t ∈ s.tasks, t.status ≠ .pending →
      ∃ claimed ∈ s'.taken, claimed.1.id = t.id ∧ claimed.1.version = t.version := by
    intro t ht hts
    obtain ⟨claimed, hc, hid, hv⟩ := h t ht hts
    exact ⟨claimed, hq.taken_mono hl hc, hid, hv⟩
  rcases hq.rows hl with ⟨worker, mode, c, t, -, -, -, hrep, hr⟩ | ⟨-, hrow⟩
  · rcases hrep.origin hm with rfl | ⟨hm, -⟩
    · refine ⟨(c.markRunning t, c.startedAt), ?_, rfl, rfl⟩
      simp [State.taken, hr]
    · exact old q hm hs
  · obtain ⟨t, ht, hb⟩ := hrow q hm
    obtain ⟨hts, hid, hv⟩ := hb.claimed hs
    obtain ⟨claimed, hc, hcid, hcv⟩ := old t ht hts
    exact ⟨claimed, hc, hcid.trans hid.symm, hcv.trans hv.symm⟩

theorem keptInv_reachable {G : State Q → Action P → Prop} {s : State Q}
    (h : (taskSystem stamp env).Reachable G s) : LatestInv env s ∧ ClaimedInv s := by
  refine reachable_invariant (I := fun s => LatestInv env s ∧ ClaimedInv s) ?_ ?_ ?_ h
  · refine ⟨fun clientId conn new hlast => ?_, fun t ht => absurd ht (Table.not_mem_empty t)⟩
    cases hlast
  · exact fun s conn new s' _ hi ha => ⟨hi.1.accept ha, hi.2.accept ha⟩
  · exact fun s a s' hl hi _ hq => ⟨hi.1.quiet hl hq, hi.2.quiet hl hq⟩

theorem NewTask.onConflict_not_closed (conn : Conn) (new : NewTask P) (t : Task P) :
    ¬(new.onConflict conn t).Closed := by
  by_cases hs : t.status = .running
  · rw [new.onConflict_running conn hs]
    simp [Task.Closed, hs]
  · rw [new.onConflict_idle conn hs]
    simp [Task.Closed, Task.fresh]

theorem Task.Becomes.closes {t q : Task P} {env : Env P} (h : t.Becomes env q) (hq : q.Closed)
    (ht : ¬t.Closed) : t.status = .running ∧ t.requeue = none := by
  cases h with
  | same => exact absurd hq ht
  | requeued _ ha =>
    obtain ⟨spec, v, -, -, rfl⟩ := Task.applyRequeue_ok.mp ha
    rcases hq with hq | hq <;> cases hq
  | closed clock hs hn => exact ⟨hs, hn⟩
  | reaped r hs hn => exact ⟨hs, hn⟩

theorem Task.WellFormed.closed_requeue {t : Task P} (h : t.WellFormed) (hc : t.Closed) :
    t.requeue = none := by
  rcases hc with hc | hc
  · exact (h.completed hc).2.2.2.2
  · exact (h.failed hc).2.2.2

theorem AcceptAll.closes_none {s s' : State Q} {conn : Conn} {news : List (NewTask Q)}
    (h : AcceptAll conn s news s') : (∀ t ∈ s.tasks, ∃ q ∈ s'.tasks, q.id = t.id) ∧
      ∀ q ∈ s'.tasks, q.Closed → q ∈ s.tasks := by
  induction h with
  | nil => exact ⟨fun t ht => ⟨t, ht, rfl⟩, fun q hq _ => hq⟩
  | @cons s t u new rest ha _ ih =>
    obtain ⟨hkeep, hclosed⟩ := ih
    refine ⟨fun p hp => ?_, fun q hq hc => ?_⟩
    · rcases ha.keep hp with hm | ⟨-, hm⟩
      · exact hkeep p hm
      · obtain ⟨q, hq, he⟩ := hkeep _ hm
        exact ⟨q, hq, he⟩
    · obtain ⟨q', hq', hrows⟩ := ha.rows
      rcases hrows q (hclosed q hq hc) with rfl | hm
      · rcases hq' with ⟨id, rfl⟩ | ⟨p, -, rfl⟩
        · rcases hc with hc | hc <;> cases hc
        · exact absurd hc (new.onConflict_not_closed conn p)
      · exact hm

theorem closes_claimed {G : State Q → Action P → Prop} {s s' : State Q} {a : Action P}
    (h : (taskSystem stamp env).Reachable G s) (he : step stamp env s a = some s')
    (ha : noRemoval a) {t : Task Q} (ht : t ∈ s.tasks)
    (hout : (∀ q ∈ s'.tasks, q.id ≠ t.id) ∨ ∃ q ∈ s'.tasks, q.id = t.id ∧ q.Closed ∧ ¬t.Closed) :
    t.requeue = none ∧ ∃ claimed ∈ s.taken, claimed.1.id = t.id ∧ claimed.1.version = t.version := by
  have hl := lockInv_reachable h
  have hclaimed := (keptInv_reachable h).2 t ht
  rcases step_cases hl he with ⟨conn, news, hacc, -⟩ | hq
  · obtain ⟨hkeep, hclosed⟩ := hacc.closes_none
    rcases hout with hgone | ⟨q, hq, hid, hc, hnc⟩
    · obtain ⟨q, hq, hid⟩ := hkeep t ht
      exact absurd hid (hgone q hq)
    · exact absurd (s.tasks.eq_of_key (hclosed q hq hc) ht hid ▸ hc) hnc
  · obtain ⟨gone, -, hnil, hfate⟩ := hq.fate hl
    have hf : t.Fate env s' := by
      rcases hfate t ht with hin | hf
      · rw [hnil ha] at hin
        cases hin
      · exact hf
    cases hf with
    | becomes q hq hb =>
      have hid := hb.id_eq
      rcases hout with hgone | ⟨q', hq', hid', hc, hnc⟩
      · exact absurd hid (hgone q hq)
      · obtain rfl := s'.tasks.eq_of_key hq' hq (hid'.trans hid.symm)
        obtain ⟨hs, hn⟩ := hb.closes hc hnc
        exact ⟨hn, hclaimed (by simp [hs])⟩
    | claimed c hs hm =>
      rcases hout with hgone | ⟨q', hq', hid', hc, -⟩
      · exact absurd rfl (hgone (c.markRunning t) hm)
      · obtain rfl := s'.tasks.eq_of_key hq' hm hid'
        rcases hc with hc | hc <;> cases hc
    | cleared hcl =>
      have hwf := wellFormed_reachable h t ht
      refine ⟨hwf.closed_requeue hcl, hclaimed ?_⟩
      rcases hcl with hs | hs <;> simp [hs]

/-- No accepted upsert is lost: the newest version of each client awaits its claim or has been
claimed, and no step closes or deletes a row before that. -/
theorem no_lost_upsert {env : Env (P × ℕ)} {s : State (P × ℕ)}
    (h : (taskSystem Prod.mk env).Reachable free s) :
    (∀ clientId conn new, s.latest clientId = some (conn, new) → s.Keeps env clientId conn new) ∧
    ∀ (a : Action P) (s' : State (P × ℕ)), step Prod.mk env s a = some s' → noRemoval a →
      ∀ t ∈ s.tasks, ((∀ q ∈ s'.tasks, q.id ≠ t.id) ∨
          ∃ q ∈ s'.tasks, q.id = t.id ∧ q.Closed ∧ ¬t.Closed) →
        t.requeue = none ∧
          ∃ claimed ∈ s.taken, claimed.1.id = t.id ∧ claimed.1.version = t.version :=
  ⟨(keptInv_reachable h).1, fun _ _ he ha _ ht hout => closes_claimed h he ha ht hout⟩

def overtaken : State (String × ℕ) :=
  (taskSystem Prod.mk sampleEnv).run free [.upsert sampleConn (sampleUpsert "a"),
    sampleClaim 0 10, .start 0, .upsert sampleConn (sampleUpsert "b"),
    .reapBegin ⟨5 / 1000000, 20, 20⟩, .reapSecond 0, .reapRequeue 0 1, .reapCommit 0]

theorem no_lost_upsert_overtaken :
    ∃ conn, overtaken.latest "report" = some (conn, sampleNew ("b", 1)) ∧
      overtaken.Keeps sampleEnv "report" conn (sampleNew ("b", 1)) := by
  have h : (overtaken.latest "report").map Prod.snd = some (sampleNew ("b", 1)) := by
    decide +kernel
  obtain ⟨⟨conn, new⟩, hlatest, rfl⟩ := Option.map_eq_some_iff.mp h
  exact ⟨conn, hlatest, (no_lost_upsert (.of_run (by decide +kernel))).1 _ _ _ hlatest⟩

end PostgresQueue
