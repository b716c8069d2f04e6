import PostgresQueue.AtMostOnce
import PostgresQueue.Library.Mailbox
import PostgresQueue.NoLostUpdate

namespace PostgresQueue

open Library System

variable {P Q : Type} {stamp : P → ℕ → Q} {env : Env Q} {clientId : ClientId}

def Task.content (t : Task Q) : Option Q :=
  match t.status with
  | .pending => some t.payload
  | .running => t.requeue.bind fun spec => (spec.doc "payload").toOption
  | .completed | .failed => none

def Event.messageFor (clientId : ClientId) : Event Q → Option Q
  | .accepted _ new => if new.clientId = some clientId then some new.payload else none
  | .removed _ => none

namespace State

variable (s : State Q) (clientId : ClientId)

def rowOf : Option (Task Q) := s.tasks.find? fun t => t.clientId == some clientId

def messages : List Q := s.history.reverse.filterMap (Event.messageFor clientId)

def deliveries : List Q :=
  (s.taken.filter fun claimed => claimed.1.clientId = some clientId).map fun claimed =>
    claimed.1.payload

/-- What one client's part of the queue is for: its newest version waits while a run is busy. -/
def mailbox : Mailbox Q where
  inbox := (s.rowOf clientId).bind Task.content
  busy := (s.rowOf clientId).any fun t => t.status = .running
  received := s.messages clientId
  delivered := s.deliveries clientId

end State

section Rows

variable {s s' : State Q} {t q : Task Q}

theorem rowOf_of_mem (ht : t ∈ s.tasks) (hc : t.clientId = some clientId) :
    s.rowOf clientId = some t := by
  obtain ⟨q, hq⟩ := Table.find?_isSome ht (p := fun t => t.clientId == some clientId) (by simp [hc])
  obtain ⟨hm, hqc⟩ := Table.mem_of_find? hq
  have hsame : q = t := s.tasks.eq_of_clash hm ht (by simp [sameClient, hc, beq_iff_eq.mp hqc])
  rw [State.rowOf, hq, hsame]

theorem rowOf_none (h : ∀ t ∈ s.tasks, t.clientId ≠ some clientId) : s.rowOf clientId = none := by
  rw [State.rowOf, Table.find?_eq_none]
  intro t ht
  exact beq_eq_false_iff_ne.mpr (h t ht)

theorem rowOf_cases (s : State Q) (clientId : ClientId) :
    (∃ t ∈ s.tasks, t.clientId = some clientId) ∨ ∀ t ∈ s.tasks, t.clientId ≠ some clientId := by
  by_cases h : ∃ t ∈ s.tasks, t.clientId = some clientId
  · exact .inl h
  · exact .inr fun t ht hc => h ⟨t, ht, hc⟩

theorem rowOf_congr (h : ∀ q, q.clientId = some clientId → (q ∈ s'.tasks ↔ q ∈ s.tasks)) :
    s'.rowOf clientId = s.rowOf clientId := by
  rcases rowOf_cases s clientId with ⟨t, ht, hc⟩ | hnone
  · rw [rowOf_of_mem ht hc, rowOf_of_mem ((h t hc).mpr ht) hc]
  · rw [rowOf_none hnone, rowOf_none fun q hq hc => hnone q ((h q hc).mp hq) hc]

theorem rowOf_replaces (hrep : s.tasks.Replaces t q s'.tasks) (hc : t.clientId ≠ some clientId) :
    s'.rowOf clientId = s.rowOf clientId := by
  have hq : q.clientId ≠ some clientId := hrep.uniq_eq.symm ▸ hc
  apply rowOf_congr
  intro p hp
  rw [hrep.mem_iff p]
  constructor
  · rintro (rfl | ⟨hp, -⟩)
    · exact absurd hp hq
    · exact hp
  · intro hm
    refine .inr ⟨hm, fun hid => hc ?_⟩
    rw [← s.tasks.eq_of_key hm hrep.mem hid]
    exact hp

theorem mailbox_of_mem (ht : t ∈ s.tasks) (hc : t.clientId = some clientId) :
    s.mailbox clientId = ⟨t.content, decide (t.status = .running), s.messages clientId,
      s.deliveries clientId⟩ := by
  rw [State.mailbox, rowOf_of_mem ht hc]
  rfl

theorem mailbox_of_none (h : ∀ t ∈ s.tasks, t.clientId ≠ some clientId) :
    s.mailbox clientId = ⟨none, false, s.messages clientId, s.deliveries clientId⟩ := by
  rw [State.mailbox, rowOf_none h]
  rfl

theorem Task.content_idle (hs : t.status ≠ .pending) (hq : t.requeue = none) : t.content = none := by
  unfold Task.content
  split
  · exact absurd ‹_› hs
  · rw [hq, Option.bind_none]
  · rfl
  · rfl

theorem NewTask.content_onConflict (conn : Conn) (new : NewTask Q) (t : Task Q) :
    (new.onConflict conn t).content = some new.payload := by
  by_cases hs : t.status = .running
  · rw [new.onConflict_running conn hs, Task.content, hs, new.requeue_eq conn]
    rfl
  · rw [new.onConflict_idle conn hs]
    rfl

theorem NewTask.running_onConflict (conn : Conn) (new : NewTask Q) (t : Task Q) :
    (new.onConflict conn t).status = .running ↔ t.status = .running := by
  by_cases hs : t.status = .running
  · rw [new.onConflict_running conn hs]
  · rw [new.onConflict_idle conn hs]
    exact iff_of_false TaskStatus.noConfusion hs

end Rows

section Accepting

variable {s s' : State Q} {conn : Conn} {new : NewTask Q}

theorem Accept.messages (h : Accept s conn new s') (clientId : ClientId) :
    s'.messages clientId = s.messages clientId ++
      if new.clientId = some clientId then [new.payload] else [] := by
  rw [State.messages, h.eq.2.2.2, List.reverse_cons, List.filterMap_append]
  congr 1
  by_cases hc : new.clientId = some clientId <;> simp [Event.messageFor, hc]

theorem Accept.deliveries (h : Accept s conn new s') (clientId : ClientId) :
    s'.deliveries clientId = s.deliveries clientId := by
  rw [State.deliveries, h.taken, State.deliveries]

theorem Accept.other (h : Accept s conn new s') (hc : new.clientId ≠ some clientId) :
    s'.mailbox clientId = s.mailbox clientId := by
  have hrow : s'.rowOf clientId = s.rowOf clientId := by
    cases h with
    | inserted hins =>
      apply rowOf_congr
      intro q hq
      exact (hins.mem_iff q).trans (or_iff_right fun he => hc (by rw [he] at hq; exact hq))
    | conflicted _ hsame _ hrep => exact rowOf_replaces hrep (hsame ▸ hc)
  rw [State.mailbox, hrow, h.messages, h.deliveries, if_neg hc, List.append_nil]
  rfl

theorem Accept.put (h : Accept s conn new s') (hc : new.clientId = some clientId) :
    (s.mailbox clientId).step (.put new.payload) = some (s'.mailbox clientId) := by
  have hreceived := h.messages clientId
  rw [if_pos hc] at hreceived
  have hdelivered := h.deliveries clientId
  cases h with
  | @inserted tasks hins =>
    have hfree : ∀ t ∈ s.tasks, t.clientId ≠ some clientId := by
      intro t ht htc
      refine hins.key_ne ht (tasks.clash_key t (hins.keep ht) _ hins.mem_new ?_)
      simp [sameClient, NewTask.row, htc, hc]
    rw [mailbox_of_none hfree, mailbox_of_mem (s := s.accept tasks [.accepted conn new])
      hins.mem_new hc, hreceived, hdelivered]
    rfl
  | @conflicted tasks t _ hsame _ hrep =>
    rw [mailbox_of_mem hrep.mem (hsame.trans hc), mailbox_of_mem
      (s := s.accept tasks [.accepted conn new]) hrep.mem_new (hsame.trans hc), hreceived,
      hdelivered, new.content_onConflict conn t]
    simp only [new.running_onConflict conn t]
    rfl

end Accepting

section Quiet

variable {s s' : State Q} {a : Action P}

theorem messages_removed (gone : List (Option ClientId))
    (h : s'.history = gone.map Event.removed ++ s.history) (clientId : ClientId) :
    s'.messages clientId = s.messages clientId := by
  rw [State.messages, h, List.reverse_append, List.filterMap_append, State.messages]
  have hnone : (gone.map Event.removed).reverse.filterMap
      (Event.messageFor (Q := Q) clientId) = [] := by
    rw [List.filterMap_eq_nil_iff]
    intro e he
    obtain ⟨c, -, rfl⟩ := List.mem_map.mp (List.mem_reverse.mp he)
    rfl
  rw [hnone, List.append_nil]

theorem Task.Becomes.clientId_eq {t q : Task Q} (h : t.Becomes env q) :
    q.clientId = t.clientId := by
  cases h with
  | requeued _ ha =>
    obtain ⟨spec, v, -, -, rfl⟩ := Task.applyRequeue_ok.mp ha
    rfl
  | same | closed | reaped => rfl

theorem Task.Becomes.frees {t q : Task Q} (h : t.Becomes env q) : q = t ∨
    (t.status = .running ∧ q.status ≠ .running ∧ q.content = t.content) := by
  cases h with
  | same => exact .inl rfl
  | requeued hs ha =>
    obtain ⟨spec, v, hspec, hv, rfl⟩ := Task.applyRequeue_ok.mp ha
    refine .inr ⟨hs, TaskStatus.noConfusion, ?_⟩
    rw [Task.content, Task.content, hs, hspec, Option.bind_some, hv.payload]
    rfl
  | @closed clock o hs hq ho =>
    have hstatus : (recordOutcome clock o t).status = .completed ∨
        (recordOutcome clock o t).status = .failed := by
      rcases ho with rfl | ho
      exacts [.inl rfl, .inr ho]
    refine .inr ⟨hs, ?_, ?_⟩
    · rcases hstatus with h | h <;> simp [h]
    · rw [Task.content_idle (by simp [hs]) hq]
      refine Task.content_idle (t := recordOutcome clock o t) ?_ hq
      rcases hstatus with h | h <;> simp [h]
  | reaped r hs hq =>
    refine .inr ⟨hs, TaskStatus.noConfusion, ?_⟩
    rw [Task.content_idle (by simp [hs]) hq]
    exact Task.content_idle TaskStatus.noConfusion hq

def Moves (allowed : Prop) (m m' : Mailbox Q) : Prop :=
  ∃ es, Mailbox.system.Steps free m es m' ∧ (.reset ∈ es → allowed)

theorem Moves.refl {allowed : Prop} (m : Mailbox Q) : Moves allowed m m :=
  ⟨[], .nil m, fun h => absurd h List.not_mem_nil⟩

theorem Moves.one {allowed : Prop} {m m' : Mailbox Q} {e : Mailbox.Event Q}
    (h : m.step e = some m') (hreset : e = .reset → allowed) : Moves allowed m m' :=
  ⟨[e], .cons trivial h (.nil m'), fun he => hreset (List.mem_singleton.mp he).symm⟩

theorem Moves.trans {allowed : Prop} {m m' m'' : Mailbox Q} (h : Moves allowed m m')
    (h' : Moves allowed m' m'') : Moves allowed m m'' := by
  obtain ⟨es, hes, hreset⟩ := h
  obtain ⟨es', hes', hreset'⟩ := h'
  exact ⟨es ++ es', hes.append hes', fun he => (List.mem_append.mp he).elim hreset hreset'⟩

theorem Accept.moves {conn : Conn} {new : NewTask Q} (h : Accept s conn new s')
    (allowed : Prop) (clientId : ClientId) :
    Moves allowed (s.mailbox clientId) (s'.mailbox clientId) := by
  by_cases hc : new.clientId = some clientId
  · exact .one (h.put hc) fun h => by cases h
  · rw [h.other hc]
    exact .refl _

theorem AcceptAll.moves {conn : Conn} {news : List (NewTask Q)} (h : AcceptAll conn s news s')
    (allowed : Prop) (clientId : ClientId) :
    Moves allowed (s.mailbox clientId) (s'.mailbox clientId) := by
  induction h with
  | nil => exact .refl _
  | cons ha _ ih => exact (ha.moves allowed clientId).trans ih

theorem claim_moves {worker : ℕ} {mode : Mode} {c : Claim} {t : Task Q} (hs : t.status = .pending)
    (hq : t.requeue = none) (hrep : s.tasks.Replaces t (c.markRunning t) s'.tasks)
    (hruns : s'.runs = s.runs ++ [⟨c.markRunning t, c.startedAt, worker, mode, .claimed⟩])
    (hhistory : s'.history = s.history) (allowed : Prop) :
    Moves allowed (s.mailbox clientId) (s'.mailbox clientId) := by
  have hmessages : s'.messages clientId = s.messages clientId := by
    rw [State.messages, hhistory, State.messages]
  have htaken : s'.taken = s.taken ++ [(c.markRunning t, c.startedAt)] := by
    rw [State.taken, hruns, List.map_append]
    rfl
  have hdeliveries : s'.deliveries clientId = s.deliveries clientId ++
      if t.clientId = some clientId then [t.payload] else [] := by
    rw [State.deliveries, htaken, List.filter_append, List.map_append, State.deliveries]
    congr 1
    by_cases hc : t.clientId = some clientId <;> simp [Claim.markRunning, hc]
  by_cases hc : t.clientId = some clientId
  · rw [if_pos hc] at hdeliveries
    refine .one (e := .take) ?_ fun h => by cases h
    rw [mailbox_of_mem hrep.mem hc, mailbox_of_mem hrep.mem_new hc, hmessages, hdeliveries,
      Task.content_idle (t := c.markRunning t) TaskStatus.noConfusion hq]
    simp only [Mailbox.step, Task.content, hs]
    rfl
  · rw [if_neg hc, List.append_nil] at hdeliveries
    rw [State.mailbox, State.mailbox, rowOf_replaces hrep hc, hmessages, hdeliveries]
    exact .refl _

theorem becomes_moves {t q : Task Q} (ht : t ∈ s.tasks) (hq : q ∈ s'.tasks) (hb : t.Becomes env q)
    (hc : t.clientId = some clientId) (hmessages : s'.messages clientId = s.messages clientId)
    (hdeliveries : s'.deliveries clientId = s.deliveries clientId) (allowed : Prop) :
    Moves allowed (s.mailbox clientId) (s'.mailbox clientId) := by
  rw [mailbox_of_mem ht hc, mailbox_of_mem hq (hb.clientId_eq.trans hc), hmessages, hdeliveries]
  rcases hb.frees with rfl | ⟨hs, hqs, hcontent⟩
  · exact .refl _
  · refine .one (e := .done) ?_ fun h => by cases h
    simp [Mailbox.step, hs, hqs, hcontent]

theorem Quiet.moves (hq : Quiet env s a s') (hl : LockInv s) (hwf : ∀ t ∈ s.tasks, t.WellFormed)
    (clientId : ClientId) :
    Moves (¬noRemoval a) (s.mailbox clientId) (s'.mailbox clientId) := by
  obtain ⟨gone, hhistory, hkept, hfate⟩ := hq.fate hl
  rcases hq.rows hl with ⟨worker, mode, c, t, rfl, -, hs, hrep, hruns⟩ | ⟨htaken, hrows⟩
  · have hnil : gone = [] := hkept trivial
    rw [hnil] at hhistory
    exact claim_moves hs ((hwf t hrep.mem).pending hs).2.2.2.2 hrep hruns hhistory _
  · have hmessages := messages_removed gone hhistory clientId
    have hdeliveries : s'.deliveries clientId = s.deliveries clientId := by
      rw [State.deliveries, htaken, State.deliveries]
    rcases rowOf_cases s' clientId with ⟨q, hqm, hqc⟩ | hnone
    · obtain ⟨t, ht, hb⟩ := hrows q hqm
      exact becomes_moves ht hqm hb (hb.clientId_eq ▸ hqc) hmessages hdeliveries _
    · rw [mailbox_of_none hnone, hmessages, hdeliveries]
      rcases rowOf_cases s clientId with ⟨t, ht, hc⟩ | hfree
      · rw [mailbox_of_mem ht hc]
        rcases hfate t ht with hgone | hf
        · refine .one (e := .reset) rfl fun _ hno => ?_
          rw [hkept hno] at hgone
          cases hgone
        · cases hf with
          | becomes q hqm hb => exact absurd (hb.clientId_eq.trans hc) (hnone q hqm)
          | claimed c _ hqm => exact absurd hc (hnone (c.markRunning t) hqm)
          | cleared hclosed =>
            have hidle : t.content = none ∧ t.status ≠ .running := by
              rcases hclosed with h | h <;> simp [Task.content, h]
            rw [hidle.1, decide_eq_false hidle.2]
            exact .refl _
      · rw [mailbox_of_none hfree]
        exact .refl _

end Quiet

section Runs

variable {G : State Q → Action P → Prop} {s s' : State Q} {as : List (Action P)}

theorem steps_move (h : (taskSystem stamp env).Steps G s as s')
    (hs : (taskSystem stamp env).Reachable free s) (clientId : ClientId) :
    Moves (∃ a ∈ as, ¬noRemoval a) (s.mailbox clientId) (s'.mailbox clientId) := by
  induction h with
  | nil => exact .refl _
  | @cons s t u a as _ he _ ih =>
    have hl := lockInv_reachable hs
    have hmove : Moves (¬noRemoval a) (s.mailbox clientId) (t.mailbox clientId) := by
      rcases step_cases hl he with ⟨conn, news, ha, -⟩ | hq
      · exact ha.moves _ clientId
      · exact hq.moves hl (wellFormed_reachable hs) clientId
    obtain ⟨es, hes, hreset⟩ := hmove
    obtain ⟨es', hes', hreset'⟩ := ih (hs.step trivial he)
    refine ⟨es ++ es', hes.append hes', fun hmem => ?_⟩
    rcases List.mem_append.mp hmem with hmem | hmem
    · exact ⟨a, List.mem_cons_self, hreset hmem⟩
    · obtain ⟨b, hb, hno⟩ := hreset' hmem
      exact ⟨b, List.mem_cons_of_mem _ hb, hno⟩

theorem mailbox_initial (clientId : ClientId) :
    (State.initial : State Q).mailbox clientId = Mailbox.empty := rfl

/-- What the task table does for one client is what a mailbox does, and it is only emptied
unread where a row is cancelled or all are cleared. -/
theorem clients_are_mailboxes (h : (taskSystem stamp env).Steps G State.initial as s)
    (clientId : ClientId) :
    ∃ es, Mailbox.system.Steps free Mailbox.empty es (s.mailbox clientId) ∧
      ((∀ a ∈ as, noRemoval a) → .reset ∉ es) := by
  obtain ⟨es, hes, hreset⟩ := steps_move h .init clientId
  refine ⟨es, mailbox_initial clientId ▸ hes, fun hno hmem => ?_⟩
  obtain ⟨a, ha, hremoves⟩ := hreset hmem
  exact hremoves (hno a ha)

/-- The versions of one client are claimed in the order they were accepted, each at most once, and
the newest is claimed last. -/
theorem claimed_in_order (h : (taskSystem stamp env).Steps G State.initial as s)
    (clientId : ClientId) :
    (s.deliveries clientId ++ ((s.rowOf clientId).bind Task.content).toList).Sublist
        (s.messages clientId) ∧
      ((∀ a ∈ as, noRemoval a) →
        (s.deliveries clientId ++ ((s.rowOf clientId).bind Task.content).toList).getLast? =
          (s.messages clientId).getLast?) := by
  obtain ⟨es, hes, hreset⟩ := clients_are_mailboxes h clientId
  constructor
  · exact Mailbox.passed_sublist hes (.refl _)
  · intro hno
    exact Mailbox.getLast?_passed hes (hreset hno) rfl

end Runs

section Sample

def sampleServed : List (Action String) :=
  [.upsert sampleConn (sampleUpsert "a"), sampleClaim 0 10, .start 0,
    .upsert sampleConn (sampleUpsert "b"), .upsert sampleConn (sampleUpsert "c"),
    .finishes 0 (.child "0.1" ⟨.exited 0, false, "", "", ""⟩), .record 0 20, sampleClaim 0 30]

def sampleServedState : State (String × ℕ) :=
  (taskSystem Prod.mk sampleEnv).run (fun _ a => noRemoval a) sampleServed

theorem sampleServed_steps : (taskSystem Prod.mk sampleEnv).Steps (fun _ a => noRemoval a)
    State.initial sampleServed sampleServedState :=
  .of_run (by decide +kernel)

theorem clients_are_mailboxes_served : ∃ es, Mailbox.system.Steps free Mailbox.empty es
    (sampleServedState.mailbox "report") ∧ .reset ∉ es := by
  obtain ⟨es, hes, hreset⟩ := clients_are_mailboxes sampleServed_steps "report"
  exact ⟨es, hes, hreset sampleServed_steps.forall_mem⟩

theorem claimed_in_order_served :
    sampleServedState.deliveries "report" = [("a", 0), ("c", 2)] ∧
      (sampleServedState.deliveries "report").Sublist (sampleServedState.messages "report") := by
  have hempty : (sampleServedState.rowOf "report").bind Task.content = none := by decide +kernel
  have hsublist := (claimed_in_order sampleServed_steps "report").1
  rw [hempty, Option.toList_none, List.append_nil] at hsublist
  exact ⟨by decide +kernel, hsublist⟩

end Sample

section Accounts

variable {s s' : State Q}

def UnnamedInv (s : State Q) : Prop :=
  ∀ conn new, .accepted conn new ∈ s.history → new.clientId = none →
    (∃ t ∈ s.tasks, t.clientId = none ∧ t.status = .pending ∧ t.payload = new.payload) ∨
      ∃ claimed ∈ s.taken, claimed.1.payload = new.payload

theorem UnnamedInv.accept {conn : Conn} {new : NewTask Q} (h : UnnamedInv s)
    (ha : Accept s conn new s') : UnnamedInv s' := by
  intro conn' new' hmem hnone
  rw [ha.taken]
  rw [ha.eq.2.2.2] at hmem
  cases ha with
  | @inserted tasks hins =>
    rcases List.mem_cons.mp hmem with he | hmem
    · obtain ⟨-, rfl⟩ := Event.accepted.inj he
      exact .inl ⟨_, hins.mem_new, hnone, rfl, rfl⟩
    · rcases h conn' new' hmem hnone with ⟨t, ht, hrest⟩ | hclaimed
      · exact .inl ⟨t, hins.keep ht, hrest⟩
      · exact .inr hclaimed
  | @conflicted tasks q hsome hc _ hrep =>
    rcases List.mem_cons.mp hmem with he | hmem
    · obtain ⟨-, rfl⟩ := Event.accepted.inj he
      rw [hnone] at hsome
      cases hsome
    · rcases h conn' new' hmem hnone with ⟨t, ht, htc, hrest⟩ | hclaimed
      · refine .inl ⟨t, hrep.keep ht fun hid => ?_, htc, hrest⟩
        obtain rfl := s.tasks.eq_of_key ht hrep.mem hid
        rw [← hc, htc] at hsome
        cases hsome
      · exact .inr hclaimed

theorem UnnamedInv.quiet {a : Action P} (h : UnnamedInv s) (hl : LockInv s) (hno : noRemoval a)
    (hq : Quiet env s a s') : UnnamedInv s' := by
  obtain ⟨gone, hhistory, hkept, hfate⟩ := hq.fate hl
  rw [hkept hno, List.map_nil, List.nil_append] at hhistory
  intro conn new hmem hnone
  rw [hhistory] at hmem
  rcases h conn new hmem hnone with ⟨t, ht, hc, hs, hp⟩ | ⟨claimed, hm, hp⟩
  · rcases hfate t ht with hgone | hf
    · rw [hkept hno] at hgone
      cases hgone
    · cases hf with
      | becomes q hqm hb =>
        rcases hb.frees with rfl | ⟨hr, -⟩
        · exact .inl ⟨q, hqm, hc, hs, hp⟩
        · rw [hs] at hr
          cases hr
      | claimed c _ _ hm => exact .inr ⟨_, hm, hp⟩
      | cleared hclosed =>
        rcases hclosed with hr | hr
        · rw [hs] at hr
          cases hr
        · rw [hs] at hr
          cases hr
  · exact .inr ⟨claimed, hq.taken_mono hl hm, hp⟩

theorem unnamedInv_reachable
    (h : (taskSystem stamp env).Reachable (fun _ a => noRemoval a) s) : UnnamedInv s := by
  refine reachable_invariant (I := UnnamedInv) ?_ ?_ ?_ h
  · exact fun conn new hmem => absurd hmem List.not_mem_nil
  · exact fun s conn new s' _ hi ha => hi.accept ha
  · exact fun s a s' hl hi hno hq => hi.quiet hl hno hq

def State.Superseded (s : State Q) (conn : Conn) (new : NewTask Q) : Prop :=
  ∃ clientId newer older, new.clientId = some clientId ∧
    s.history = newer ++ .accepted conn new :: older ∧
    ∃ conn' new', .accepted conn' new' ∈ newer ∧ new'.clientId = some clientId

theorem messages_last {conn : Conn} {new : NewTask Q} {newer older : List (Event Q)}
    (hhistory : s.history = newer ++ .accepted conn new :: older)
    (hc : new.clientId = some clientId)
    (hlast : ∀ conn' new', .accepted conn' new' ∈ newer → new'.clientId ≠ some clientId) :
    (s.messages clientId).getLast? = some new.payload := by
  have hnone : newer.reverse.filterMap (Event.messageFor clientId) = [] := by
    rw [List.filterMap_eq_nil_iff]
    intro e he
    cases e with
    | accepted conn' new' => exact if_neg (hlast conn' new' (List.mem_reverse.mp he))
    | removed c => rfl
  have hown : Event.messageFor clientId (.accepted conn new) = some new.payload := if_pos hc
  rw [State.messages, hhistory, List.reverse_append, List.reverse_cons, List.filterMap_append,
    List.filterMap_append, hnone, List.append_nil]
  simp [hown]

end Accounts

section Accounted

variable {env : Env (P × ℕ)} {s : State (P × ℕ)} {as : List (Action P)}

theorem Task.waiting_of_content {t : Task (P × ℕ)} {p : P × ℕ} (h : t.content = some p) :
    t.waiting = some p.2 := by
  unfold Task.content at h
  cases hs : t.status with
  | pending =>
    rw [hs] at h
    cases h
    exact Task.waiting_pending hs
  | running =>
    rw [hs] at h
    obtain ⟨spec, hspec, hp⟩ := Option.bind_eq_some_iff.mp h
    rw [Task.waiting, hs, hspec]
    simp [hp]
  | completed | failed =>
    rw [hs] at h
    cases h

theorem mem_executed_of_taken {claimed : Task (P × ℕ) × Timestamptz} {p : P × ℕ}
    (h : claimed ∈ s.taken) (hp : claimed.1.payload = p) : p.2 ∈ s.executed :=
  List.mem_map.mpr ⟨claimed, h, congrArg Prod.snd hp⟩

/-- No job disappears: as long as nothing is cancelled, each accepted job waits on a row, has been
claimed, or was replaced by a later version for its client before that. -/
theorem jobs_accounted
    (h : (taskSystem Prod.mk env).Steps (fun _ a => noRemoval a) State.initial as s)
    {conn : Conn} {new : NewTask (P × ℕ)} (hmem : .accepted conn new ∈ s.history) :
    (∃ t ∈ s.tasks, t.waiting = some new.payload.2) ∨ new.payload.2 ∈ s.executed ∨
      s.Superseded conn new := by
  cases hc : new.clientId with
  | none =>
    rcases unnamedInv_reachable ⟨as, h⟩ conn new hmem hc with ⟨t, ht, -, hs, hp⟩ | ⟨q, hq, hp⟩
    · refine .inl ⟨t, ht, ?_⟩
      rw [Task.waiting_pending hs, hp]
    · exact .inr (.inl (mem_executed_of_taken hq hp))
  | some clientId =>
    obtain ⟨newer, older, hhistory⟩ := List.append_of_mem hmem
    by_cases hlater : ∃ conn' new', .accepted conn' new' ∈ newer ∧ new'.clientId = some clientId
    · exact .inr (.inr ⟨clientId, newer, older, hc, hhistory, hlater⟩)
    · push Not at hlater
      have hlast := (claimed_in_order h clientId).2 h.forall_mem
      rw [messages_last hhistory hc hlater, List.getLast?_append, Option.or_eq_some_iff] at hlast
      rcases hlast with hinbox | ⟨-, hdelivered⟩
      · cases hrow : s.rowOf clientId with
        | none => simp [hrow] at hinbox
        | some t =>
          have hcontent : t.content = some new.payload := by
            cases ht : t.content <;> simp_all
          exact .inl ⟨t, (Table.mem_of_find? hrow).1, Task.waiting_of_content hcontent⟩
      · have hin := List.mem_of_getLast? hdelivered
        obtain ⟨claimed, hclaimed, hp⟩ := List.mem_map.mp hin
        exact .inr (.inl (mem_executed_of_taken (List.mem_of_mem_filter hclaimed) hp))

def Event.version? : Event P → Option (NewTask P)
  | .accepted _ new => some new
  | .removed _ => none

theorem jobs_accounted_served : ∃ conn, .accepted conn (sampleNew ("b", 1)) ∈
    sampleServedState.history ∧ sampleServedState.Superseded conn (sampleNew ("b", 1)) := by
  have hnews : sampleNew ("b", 1) ∈ sampleServedState.history.filterMap Event.version? := by
    decide +kernel
  have hwaiting : sampleServedState.tasks.rows.all (fun t => t.waiting != some 1) = true := by
    decide +kernel
  have hexecuted : 1 ∉ sampleServedState.executed := by decide +kernel
  obtain ⟨e, he, hnew⟩ := List.mem_filterMap.mp hnews
  cases e with
  | accepted conn new =>
    cases hnew
    refine ⟨conn, he, ?_⟩
    rcases jobs_accounted sampleServed_steps he with ⟨t, ht, hw⟩ | hin | hlater
    · have hne := List.all_eq_true.mp hwaiting t ht
      rw [hw] at hne
      cases hne
    · exact absurd hin hexecuted
    · exact hlater
  | removed c => cases hnew

end Accounted

end PostgresQueue
