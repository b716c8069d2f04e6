import PostgresQueue.RowForm

namespace PostgresQueue

open Library System

variable {P : Type} {env : Env (P × ℕ)}

def Event.label : Event (P × ℕ) → Option ℕ
  | .accepted _ new => some new.payload.2
  | .removed _ => none

def State.accepted (s : State (P × ℕ)) : List ℕ := s.history.filterMap Event.label

def State.executed (s : State (P × ℕ)) : List ℕ := s.taken.map fun c => c.1.payload.2

/-- The version of a row that a later claim can still take: its own, or the parked one. -/
def Task.waiting (t : Task (P × ℕ)) : Option ℕ :=
  match t.status with
  | .pending => some t.payload.2
  | .running => t.requeue.bind fun spec => (spec.doc "payload").toOption.map Prod.snd
  | .completed | .failed => none

theorem Task.waiting_pending {t : Task (P × ℕ)} (h : t.status = .pending) :
    t.waiting = some t.payload.2 := by
  rw [Task.waiting, h]

theorem Task.waiting_unparked {t : Task (P × ℕ)} (h : t.status ≠ .pending) (hq : t.requeue = none) :
    t.waiting = none := by
  unfold Task.waiting
  split
  · exact absurd ‹_› h
  · rw [hq, Option.bind_none]
  · rfl
  · rfl

theorem Task.Becomes.waiting {t q : Task (P × ℕ)} (h : t.Becomes env q) :
    q.waiting = t.waiting := by
  cases h with
  | same => rfl
  | requeued hs ha =>
    obtain ⟨spec, v, hspec, hv, rfl⟩ := Task.applyRequeue_ok.mp ha
    rw [Task.waiting_pending rfl, Task.waiting, hs, hspec, Option.bind_some, hv.payload]
    rfl
  | @closed clock o hs hq ho =>
    rw [Task.waiting_unparked (t := t) (by simp [hs]) hq]
    refine Task.waiting_unparked (t := recordOutcome clock o t) ?_ hq
    rcases ho with rfl | ho
    · simp [recordOutcome]
    · simp [recordOutcome, ho]
  | reaped r hs hq =>
    rw [Task.waiting_unparked (t := t) (by simp [hs]) hq]
    exact Task.waiting_unparked (by simp [Reap.fail]) hq

theorem NewTask.waiting_onConflict (conn : Conn) (new : NewTask (P × ℕ)) (t : Task (P × ℕ)) :
    (new.onConflict conn t).waiting = some new.payload.2 := by
  by_cases hs : t.status = .running
  · rw [new.onConflict_running conn hs, Task.waiting, hs, new.requeue_eq conn]
    rfl
  · rw [new.onConflict_idle conn hs]
    exact Task.waiting_pending rfl

structure OnceInv (s : State (P × ℕ)) : Prop where
  accepted_nodup : s.accepted.Nodup
  executed_nodup : s.executed.Nodup
  executed_accepted : ∀ n ∈ s.executed, n ∈ s.accepted
  waiting_accepted : ∀ t ∈ s.tasks, ∀ n, t.waiting = some n → n ∈ s.accepted
  waiting_new : ∀ t ∈ s.tasks, ∀ n, t.waiting = some n → n ∉ s.executed
  waiting_inj : ∀ t ∈ s.tasks, ∀ q ∈ s.tasks, ∀ n, t.waiting = some n → q.waiting = some n → t = q

namespace OnceInv

variable {s s' : State (P × ℕ)}

theorem of_becomes (h : OnceInv s) (ha : s'.accepted = s.accepted) (ht : s'.taken = s.taken)
    (hrow : ∀ q ∈ s'.tasks, ∃ t ∈ s.tasks, t.Becomes env q) : OnceInv s' := by
  have he : s'.executed = s.executed := by rw [State.executed, ht, State.executed]
  have hrow : ∀ q ∈ s'.tasks, ∃ t ∈ s.tasks, q.id = t.id ∧ q.waiting = t.waiting := by
    intro q hq
    obtain ⟨t, ht, hb⟩ := hrow q hq
    exact ⟨t, ht, hb.id_eq, hb.waiting⟩
  refine ⟨ha ▸ h.accepted_nodup, he ▸ h.executed_nodup, ?_, ?_, ?_, ?_⟩
  · rw [ha, he]
    exact h.executed_accepted
  · intro q hq n hn
    obtain ⟨t, ht, -, hw⟩ := hrow q hq
    rw [ha]
    exact h.waiting_accepted t ht n (hw ▸ hn)
  · intro q hq n hn
    obtain ⟨t, ht, -, hw⟩ := hrow q hq
    rw [he]
    exact h.waiting_new t ht n (hw ▸ hn)
  · intro q hq q' hq' n hn hn'
    obtain ⟨t, ht, hid, hw⟩ := hrow q hq
    obtain ⟨t', ht', hid', hw'⟩ := hrow q' hq'
    obtain rfl := h.waiting_inj t ht t' ht' n (hw ▸ hn) (hw' ▸ hn')
    exact s'.tasks.eq_of_key hq hq' (hid.trans hid'.symm)

theorem accept (h : OnceInv s) {conn : Conn} {new : NewTask (P × ℕ)}
    (hnew : new.payload.2 ∉ s.accepted) (ha : Accept s conn new s') :
    OnceInv s' ∧ s'.accepted = new.payload.2 :: s.accepted := by
  obtain ⟨hruns, -, -, hhist⟩ := ha.eq
  have hacc : s'.accepted = new.payload.2 :: s.accepted := by
    rw [State.accepted, hhist]
    rfl
  have hexec : s'.executed = s.executed := by
    rw [State.executed, State.taken, hruns, State.executed, State.taken]
  obtain ⟨q, hq, hrows⟩ := ha.rows
  have hwait : q.waiting = some new.payload.2 := by
    rcases hq with ⟨id, rfl⟩ | ⟨t, -, rfl⟩
    · exact Task.waiting_pending rfl
    · exact new.waiting_onConflict conn t
  have hq' : ∀ n, q.waiting = some n → n ∉ s.accepted := by
    rintro n hn
    obtain rfl := Option.some.inj (hwait.symm.trans hn)
    exact hnew
  refine ⟨⟨?_, hexec ▸ h.executed_nodup, ?_, ?_, ?_, ?_⟩, hacc⟩
  · rw [hacc]
    exact List.nodup_cons.mpr ⟨hnew, h.accepted_nodup⟩
  · rw [hacc, hexec]
    exact fun n hn => List.mem_cons_of_mem _ (h.executed_accepted n hn)
  · intro p hp n hn
    rw [hacc]
    rcases hrows p hp with rfl | hp
    · rw [Option.some.inj (hn.symm.trans hwait)]
      exact List.mem_cons_self
    · exact List.mem_cons_of_mem _ (h.waiting_accepted p hp n hn)
  · intro p hp n hn
    rw [hexec]
    rcases hrows p hp with rfl | hp
    · exact fun he => hq' n hn (h.executed_accepted n he)
    · exact h.waiting_new p hp n hn
  · intro p hp p' hp' n hn hn'
    rcases hrows p hp with rfl | hp <;> rcases hrows p' hp' with rfl | hp'
    · rfl
    · exact absurd (h.waiting_accepted p' hp' n hn') (hq' n hn)
    · exact absurd (h.waiting_accepted p hp n hn) (hq' n hn')
    · exact h.waiting_inj p hp p' hp' n hn hn'

theorem acceptAll {conn : Conn} {news : List (NewTask (P × ℕ))} (h : OnceInv s)
    (ha : AcceptAll conn s news s') {labels : List ℕ}
    (hlabel : List.Forall₂ (fun new n => ∃ p, new.payload = Prod.mk p n) news labels)
    (hnd : labels.Nodup) (hnew : ∀ n ∈ labels, n ∉ s.accepted) :
    OnceInv s' ∧ ∀ n ∈ s'.accepted, n ∈ labels ∨ n ∈ s.accepted := by
  induction ha generalizing labels with
  | nil => exact ⟨h, fun n hn => .inr hn⟩
  | @cons s t u new news ha _ ih =>
    cases hlabel with
    | @cons _ n _ rest hp hrest =>
      obtain ⟨p, hp⟩ := hp
      obtain ⟨hn, hrestnd⟩ := List.nodup_cons.mp hnd
      have hpn : (Prod.snd (p, n)) = n := rfl
      rw [← hp] at hpn
      subst hpn
      obtain ⟨hmid, hacc⟩ := h.accept (hnew _ List.mem_cons_self) ha
      have hfresh : ∀ m ∈ rest, m ∉ t.accepted := by
        intro m hm hin
        rw [hacc] at hin
        rcases List.mem_cons.mp hin with rfl | hin
        · exact hn hm
        · exact hnew m (List.mem_cons_of_mem _ hm) hin
      obtain ⟨hlast, hsub⟩ := ih hmid hrest hrestnd hfresh
      refine ⟨hlast, fun m hm => ?_⟩
      rcases hsub m hm with hm | hm
      · exact .inl (List.mem_cons_of_mem _ hm)
      · rw [hacc] at hm
        rcases List.mem_cons.mp hm with rfl | hm
        exacts [.inl List.mem_cons_self, .inr hm]

theorem claim (h : OnceInv s) (ha : s'.accepted = s.accepted) {c : Claim} {t : Task (P × ℕ)}
    (ht : s'.taken = s.taken ++ [(c.markRunning t, c.startedAt)]) (hs : t.status = .pending)
    (hq : t.requeue = none) (hrep : s.tasks.Replaces t (c.markRunning t) s'.tasks) : OnceInv s' := by
  have hexec : s'.executed = s.executed ++ [t.payload.2] := by
    rw [State.executed, ht, List.map_append]
    rfl
  have hwait := Task.waiting_pending hs
  have hrows : ∀ q ∈ s'.tasks, ∀ n, q.waiting = some n → q ∈ s.tasks ∧ q ≠ t := by
    intro q hq' n hn
    rcases hrep.origin hq' with rfl | ⟨hq', hne⟩
    · rw [Task.waiting_unparked (t := c.markRunning t) (by simp [Claim.markRunning]) hq] at hn
      cases hn
    · exact ⟨hq', fun he => hne (congrArg Task.id he)⟩
  have hnew := h.waiting_new t hrep.mem _ hwait
  refine ⟨ha ▸ h.accepted_nodup, ?_, ?_, ?_, ?_, ?_⟩
  · rw [hexec, List.nodup_append]
    refine ⟨h.executed_nodup, List.nodup_singleton _, fun a ha b hb => ?_⟩
    rintro rfl
    exact hnew (List.mem_singleton.mp hb ▸ ha)
  · intro n hn
    rw [ha]
    rw [hexec, List.mem_append, List.mem_singleton] at hn
    rcases hn with hn | rfl
    exacts [h.executed_accepted n hn, h.waiting_accepted t hrep.mem _ hwait]
  · intro q hq n hn
    rw [ha]
    exact h.waiting_accepted q (hrows q hq n hn).1 n hn
  · intro q hq n hn hin
    obtain ⟨hm, hne⟩ := hrows q hq n hn
    rw [hexec, List.mem_append, List.mem_singleton] at hin
    rcases hin with hin | rfl
    · exact h.waiting_new q hm n hn hin
    · exact hne (h.waiting_inj q hm t hrep.mem _ hn hwait)
  · intro q hq q' hq' n hn hn'
    exact h.waiting_inj q (hrows q hq n hn).1 q' (hrows q' hq' n hn').1 n hn hn'

end OnceInv

theorem Quiet.accepted {s s' : State (P × ℕ)} {a : Action P} (h : Quiet env s a s') :
    s'.accepted = s.accepted ∧ s.history.length ≤ s'.history.length := by
  have hremoved : ∀ (ts : List (Task (P × ℕ))),
      (ts.map fun t => Event.removed t.clientId).filterMap (Event.label (P := P)) = [] := by
    intro ts
    induction ts with
    | nil => rfl
    | cons t ts ih => exact ih
  cases h with
  | cancel | clearAll =>
    refine ⟨?_, by simp [State.delete]⟩
    rw [State.accepted, State.delete, List.filterMap_append, hremoved]
    rfl
  | claim | start | finishes | record | dies | reapBegin | reapFail | reapSecond | reapRequeue
  | reapCommit | reapDrop | clear => exact ⟨rfl, le_refl _⟩

theorem AcceptAll.length_le {conn : Conn} {s s' : State (P × ℕ)} {news : List (NewTask (P × ℕ))}
    (h : AcceptAll conn s news s') : s.history.length ≤ s'.history.length := by
  induction h with
  | nil => exact le_refl _
  | cons ha _ ih =>
    rw [ha.eq.2.2.2, List.length_cons] at ih
    omega

theorem onceInv_initial : OnceInv (State.initial : State (P × ℕ)) where
  accepted_nodup := List.nodup_nil
  executed_nodup := List.nodup_nil
  executed_accepted := fun _ hn => absurd hn List.not_mem_nil
  waiting_accepted := fun t ht => absurd ht (Table.not_mem_empty t)
  waiting_new := fun t ht => absurd ht (Table.not_mem_empty t)
  waiting_inj := fun t ht => absurd ht (Table.not_mem_empty t)

theorem onceInv_reachable {G : State (P × ℕ) → Action P → Prop} {s : State (P × ℕ)}
    (h : (taskSystem Prod.mk env).Reachable G s) :
    OnceInv s ∧ ∀ n ∈ s.accepted, n < s.history.length := by
  refine Reachable.invariant_of_reachable
    (I := fun s => OnceInv s ∧ ∀ n ∈ s.accepted, n < s.history.length) ?_ ?_ h
  · exact ⟨onceInv_initial, fun n hn => absurd hn List.not_mem_nil⟩
  · rintro s a s' hr ⟨hi, hb⟩ - he
    have hl := lockInv_reachable hr
    rcases step_cases hl he with ⟨conn, news, ha, labels, hnd, hlt, hlabel⟩ | hq
    · have hnew : ∀ n ∈ labels, n ∉ s.accepted := by
        intro n hn hin
        have := (hlt n hn).1
        have := hb n hin
        omega
      obtain ⟨hi', hsub⟩ := hi.acceptAll ha hlabel hnd hnew
      refine ⟨hi', fun n hn => ?_⟩
      rcases hsub n hn with hn | hn
      exacts [(hlt n hn).2, (hb n hn).trans_le ha.length_le]
    · obtain ⟨hacc, hlen⟩ := hq.accepted
      refine ⟨?_, fun n hn => (hb n (hacc ▸ hn)).trans_le hlen⟩
      rcases hq.rows hl with ⟨worker, mode, c, t, rfl, -, hs, hrep, hruns⟩ | ⟨ht, hrow⟩
      · have hwf := wellFormed_reachable hr t hrep.mem
        refine hi.claim hacc ?_ hs (hwf.pending hs).2.2.2.2 hrep
        rw [State.taken, hruns, List.map_append]
        rfl
      · exact hi.of_becomes hacc ht hrow

theorem at_most_once {s : State (P × ℕ)} (h : (taskSystem Prod.mk env).Reachable free s) :
    s.accepted.Nodup ∧ s.executed.Nodup ∧ (∀ n ∈ s.executed, n ∈ s.accepted) ∧
      ∀ t ∈ s.tasks, t.status = .pending →
        t.payload.2 ∈ s.accepted ∧ t.payload.2 ∉ s.executed := by
  obtain ⟨hi, -⟩ := onceInv_reachable h
  refine ⟨hi.accepted_nodup, hi.executed_nodup, hi.executed_accepted, fun t ht hs => ?_⟩
  have hw := Task.waiting_pending hs
  exact ⟨hi.waiting_accepted t ht _ hw, hi.waiting_new t ht _ hw⟩

def rerun : State (String × ℕ) :=
  (taskSystem Prod.mk sampleEnv).run free [.upsert sampleConn (sampleUpsert "a"),
    sampleClaim 0 10, .start 0, .upsert sampleConn (sampleUpsert "b"),
    .finishes 0 (.child "0.1" ⟨.exited 0, false, "", "", ""⟩), .record 0 20]

theorem at_most_once_rerun : rerun.accepted.Nodup ∧ rerun.executed.Nodup ∧
    (∀ n ∈ rerun.executed, n ∈ rerun.accepted) ∧ ∀ t ∈ rerun.tasks, t.status = .pending →
      t.payload.2 ∈ rerun.accepted ∧ t.payload.2 ∉ rerun.executed :=
  at_most_once (.of_run (by decide +kernel))

end PostgresQueue
