import PostgresQueue.Deliveries
import PostgresQueue.LiveRuns

namespace PostgresQueue

open Library System

section Closed

variable {P Q : Type} {stamp : P → ℕ → Q} {env : Env Q}

structure Run.IsOf (r : Run Q) (t : Task Q) : Prop where
  id : r.task.id = t.id
  startedAt : t.startedAt = some r.startedAt
  version : r.task.version = t.version

/-- What the run of a claim may end in: `ends` knows it by its number. -/
abbrev RunEnds (Q : Type) := ℕ → Mode → Task Q → RunEnd → Prop

inductive Task.ClosedBy (env : Env Q) (ends : RunEnds Q) (s : State Q) (t : Task Q) : Prop
  | recorded {i : ℕ} {r : Run Q} {e : RunEnd} {o : Outcome} : s.runs[i]? = some r → r.IsOf t →
      r.phase = .recorded → ends i r.mode r.task e → e.outcome r.mode = some o →
      t.status = o.status → t.error = o.errorMsg.filter (· ≠ "") → ClosedBy env ends s t
  | reaped {i : ℕ} {r : Run Q} (x : Reap) : s.runs[i]? = some r → r.IsOf t → t.status = .failed →
      t.error = some (x.perRowError env t) → ClosedBy env ends s t

def finishesAs (ends : RunEnds Q) (s : State Q) : Action P → Prop
  | .finishes i e => ∀ r, s.runs[i]? = some r → ends i r.mode r.task e
  | _ => True

structure CloseInv (env : Env Q) (ends : RunEnds Q) (s : State Q) : Prop where
  ended : ∀ (i : ℕ) (r : Run Q), s.runs[i]? = some r → ∀ e, r.phase = .ended e → ends i r.mode r.task e
  running : ∀ t ∈ s.tasks, t.status = .running → ∃ (i : ℕ) (r : Run Q), s.runs[i]? = some r ∧ r.IsOf t
  closed : ∀ t ∈ s.tasks, t.status = .completed ∨ t.status = .failed → t.ClosedBy env ends s

inductive Task.Moves (env : Env Q) (s s' : State Q) (t : Task Q) : Task Q → Prop
  | same : Moves env s s' t t
  | requeued {q : Task Q} : q.status = .pending → Moves env s s' t q
  | recorded {i : ℕ} {r : Run Q} {e : RunEnd} {o : Outcome} {clock : Timestamptz} :
      s.runs[i]? = some r → r.phase = .ended e → e.outcome r.mode = some o →
      s'.runs[i]? = some { r with phase := .recorded } →
      finishWhere r.task.id (some r.startedAt) t = true →
      Moves env s s' t (recordOutcome clock o t)
  | reaped (x : Reap) : t.status = .running → Moves env s s' t (x.fail env t)

def State.RunsIn (s s' : State Q) : Prop :=
  ∀ (i : ℕ) (r : Run Q), s.runs[i]? = some r → ∃ phase, s'.runs[i]? = some { r with phase := phase } ∧
    (r.phase = .recorded → phase = .recorded)

variable {ends : RunEnds Q} {s s' : State Q} {t q : Task Q}

theorem Run.IsOf.setPhase {r : Run Q} (h : r.IsOf t) (phase : Phase) :
    Run.IsOf { r with phase := phase } t :=
  ⟨h.id, h.startedAt, h.version⟩

theorem State.RunsIn.of_kept (h : ∀ (i : ℕ) (r : Run Q), s.runs[i]? = some r → s'.runs[i]? = some r) :
    s.RunsIn s' :=
  fun i r hr => ⟨r.phase, h i r hr, id⟩

theorem setPhase_getElem? {i : ℕ} {r : Run Q} (hr : s.runs[i]? = some r) (phase : Phase) :
    (s.setPhase i phase).runs[i]? = some { r with phase := phase } := by
  simp [State.setPhase, hr]

theorem runsIn_setPhase {i : ℕ} {r : Run Q} (hr : s.runs[i]? = some r) (hp : r.phase ≠ .recorded)
    (phase : Phase) : s.RunsIn (s.setPhase i phase) := by
  intro j r' hj
  by_cases hij : i = j
  · subst hij
    obtain rfl : r = r' := Option.some.inj (hr.symm.trans hj)
    exact ⟨phase, setPhase_getElem? hr phase, fun h => absurd h hp⟩
  · refine ⟨r'.phase, ?_, id⟩
    simp [State.setPhase, hj, hij]

theorem Task.ClosedBy.mono (h : t.ClosedBy env ends s) (hs : s.RunsIn s') :
    t.ClosedBy env ends s' := by
  cases h with
  | @recorded i r e o hr hof hp he ho hst herr =>
    obtain ⟨phase, hr', hrec⟩ := hs i r hr
    exact .recorded hr' (hof.setPhase phase) (hrec hp) he ho hst herr
  | @reaped i r x hr hof hst herr =>
    obtain ⟨phase, hr', -⟩ := hs i r hr
    exact .reaped x hr' (hof.setPhase phase) hst herr

theorem finishOneOff_moves {i : ℕ} {r : Run Q} {e : RunEnd} {o : Outcome} {clock : Timestamptz}
    (hr : s.runs[i]? = some r) (hp : r.phase = .ended e) (ho : e.outcome r.mode = some o)
    (hrec : s'.runs[i]? = some { r with phase := .recorded })
    (hq : q ∈ finishOneOff env clock r.task.id (some r.startedAt) o s.tasks) :
    ∃ t ∈ s.tasks, t.Moves env s s' q := by
  rcases finishOneOff_cases env clock r.task.id (some r.startedAt) o s.tasks with
    he | ⟨t, hw, hcase⟩
  · rw [he] at hq
    exact ⟨q, hq, .same⟩
  · rcases hcase with ⟨t', ha, hrep⟩ | ⟨-, hrep⟩
    · rcases hrep.origin hq with rfl | ⟨hq, -⟩
      · obtain ⟨spec, v, -, -, rfl⟩ := Task.applyRequeue_ok.mp ha
        exact ⟨t, hrep.mem, .requeued rfl⟩
      · exact ⟨q, hq, .same⟩
    · rcases hrep.origin hq with rfl | ⟨hq, -⟩
      exacts [⟨t, hrep.mem, .recorded hr hp ho hrec hw⟩, ⟨q, hq, .same⟩]

theorem Quiet.rowMoves {a : Action P} (hl : LockInv s) (h : Quiet env s a s') :
    (∃ worker mode, ∃ c : Claim, ∃ t, s.tasks.Replaces t (c.markRunning t) s'.tasks ∧
      s'.runs = s.runs ++ [⟨c.markRunning t, c.startedAt, worker, mode, .claimed⟩]) ∨
    (s.RunsIn s' ∧ ∀ q ∈ s'.tasks, ∃ t ∈ s.tasks, t.Moves env s s' q) := by
  have same : ∀ q ∈ s.tasks, ∃ t ∈ s.tasks, t.Moves env s s' q := fun q hq => ⟨q, hq, .same⟩
  have runs {u : State Q} (hu : u.runs = s.runs) : s.RunsIn u :=
    .of_kept fun i r hr => by rwa [hu]
  cases h with
  | @claim worker mode c t tasks hc hs _ hrep => exact .inl ⟨worker, mode, c, t, hrep, rfl⟩
  | @record i r e o clock hr hp ho =>
    refine .inr ⟨runsIn_setPhase hr (by simp [hp]) .recorded, fun q hq => ?_⟩
    exact finishOneOff_moves hr hp ho (setPhase_getElem? hr .recorded) hq
  | reapCommit hx hw =>
    refine .inr ⟨runs rfl, fun q hq => ?_⟩
    have hm := List.mem_of_getElem? hx
    rcases ((hl.write hx hw).2.2 q).mp hq with ⟨t, ht, rfl⟩ | ⟨t, ht, ha⟩ | ⟨hq, -⟩
    · obtain ⟨ht, hs, -⟩ := hl.failing _ hm t ht
      exact ⟨t, ht, .reaped _ hs⟩
    · obtain ⟨spec, v, -, -, rfl⟩ := Task.applyRequeue_ok.mp ha
      exact ⟨t, (hl.requeueing _ hm t ht).1, .requeued rfl⟩
    · exact ⟨q, hq, .same⟩
  | cancel | clear | clearAll =>
    exact .inr ⟨runs rfl, fun q hq => ⟨q, (Table.mem_delete.mp hq).1, .same⟩⟩
  | start hr hp => exact .inr ⟨runsIn_setPhase hr (by simp [hp]) _, same⟩
  | finishes hr hp =>
    refine .inr ⟨runsIn_setPhase hr ?_ _, same⟩
    rcases hp with hp | hp <;> simp [hp]
  | dies | reapBegin | reapFail | reapSecond | reapRequeue | reapDrop =>
    exact .inr ⟨runs rfl, same⟩

theorem recordOutcome_told {clock : Timestamptz} {o : Outcome} (h : t.error = none) :
    (recordOutcome clock o t).error = o.errorMsg.filter (· ≠ "") := by
  unfold recordOutcome
  rw [h]
  cases o.errorMsg with
  | none => rfl
  | some msg => by_cases hmsg : msg = "" <;> simp [hmsg, Option.filter]

namespace CloseInv

theorem accept {conn : Conn} {new : NewTask Q} (h : CloseInv env ends s)
    (ha : Accept s conn new s') : CloseInv env ends s' := by
  obtain ⟨hruns, -⟩ := ha.eq
  have hin : s.RunsIn s' := .of_kept fun i r hr => by rwa [hruns]
  obtain ⟨p, hp, hrows⟩ := ha.rows
  refine ⟨by rw [hruns]; exact h.ended, fun q hq hs => ?_, fun q hq hs => ?_⟩
  · rw [hruns]
    rcases hrows q hq with rfl | hq
    · rcases hp with ⟨id, rfl⟩ | ⟨t, ht, rfl⟩
      · cases hs
      · obtain ⟨hts, he⟩ := NewTask.onConflict_of_running hs
        obtain ⟨i, r, hr, hof⟩ := h.running t ht hts
        rw [he]
        exact ⟨i, r, hr, hof.id, hof.startedAt, hof.version⟩
    · exact h.running q hq hs
  · rcases hrows q hq with rfl | hq
    · rcases hp with ⟨id, rfl⟩ | ⟨t, ht, rfl⟩
      · rcases hs with hs | hs <;> cases hs
      · by_cases hts : t.status = .running
        · rw [new.onConflict_running conn hts] at hs
          rcases hs with hs | hs <;> cases hts.symm.trans hs
        · rw [new.onConflict_idle conn hts] at hs
          rcases hs with hs | hs <;> cases hs
    · exact (h.closed q hq hs).mono hin

theorem ended_step {a : Action P} (h : CloseInv env ends s) (hq : Quiet env s a s')
    (hg : finishesAs ends s a) :
    ∀ (i : ℕ) (r : Run Q), s'.runs[i]? = some r → ∀ e, r.phase = .ended e → ends i r.mode r.task e := by
  intro i r hr e hp
  have set {j : ℕ} {phase : Phase} (hr : (s.setPhase j phase).runs[i]? = some r)
      (hnew : ∀ r', s.runs[i]? = some r' → phase = .ended e → i = j → ends i r'.mode r'.task e) :
      ends i r.mode r.task e := by
    rcases getElem?_modify_eq_some hr with ⟨rfl, r', hr', rfl⟩ | ⟨-, hr⟩
    · exact hnew r' hr' hp rfl
    · exact h.ended i r hr e hp
  cases hq with
  | claim =>
    rcases getElem?_append_singleton hr with hr | ⟨-, rfl⟩
    · exact h.ended i r hr e hp
    · cases hp
  | start | record => exact set hr fun r' _ hphase _ => by cases hphase
  | finishes =>
    refine set hr fun r' hr' hphase hij => ?_
    cases hphase
    subst hij
    exact hg r' hr'
  | dies | reapBegin | reapFail | reapSecond | reapRequeue | reapCommit | reapDrop | cancel | clear
  | clearAll => exact h.ended i r hr e hp

theorem of_moves (h : CloseInv env ends s) (hc : ClaimInv s) (hw : ∀ t ∈ s.tasks, t.WellFormed)
    (hin : s.RunsIn s') (ht : t ∈ s.tasks) (hm : t.Moves env s s' q) :
    (q.status = .running → ∃ (i : ℕ) (r : Run Q), s'.runs[i]? = some r ∧ r.IsOf q) ∧
      (q.status = .completed ∨ q.status = .failed → q.ClosedBy env ends s') := by
  cases hm with
  | same =>
    refine ⟨fun hs => ?_, fun hs => (h.closed t ht hs).mono hin⟩
    obtain ⟨i, r, hr, hof⟩ := h.running t ht hs
    obtain ⟨phase, hr', -⟩ := hin i r hr
    exact ⟨i, _, hr', hof.setPhase phase⟩
  | requeued hs => simp [hs]
  | @recorded i r e o clock hr hp ho hrec hfinish =>
    obtain ⟨hid, hs, hst⟩ := finishWhere_true hfinish
    obtain ⟨j, r', hj, hof⟩ := h.running t ht hs
    have hstart : r.startedAt = r'.startedAt := Option.some.inj (hst.symm.trans hof.startedAt)
    obtain rfl : i = j := hc.index_eq hr hj (hid.symm.trans hof.id.symm) hstart
    obtain rfl : r = r' := Option.some.inj (hr.symm.trans hj)
    have herr : t.error = none := ((hw t ht).running hs).2.2.2
    refine ⟨fun hrun => ?_, fun _ => ?_⟩
    · rcases RunEnd.outcome_sound ho with rfl | hfailed
      · cases hrun
      · cases hfailed.symm.trans hrun
    · exact .recorded hrec ⟨hof.id, hof.startedAt, hof.version⟩ rfl (h.ended i r hr e hp) ho rfl
        (recordOutcome_told herr)
  | reaped x hs =>
    refine ⟨fun hrun => ?_, fun _ => ?_⟩
    · cases hrun
    · obtain ⟨i, r, hr, hof⟩ := h.running t ht hs
      obtain ⟨phase, hr', -⟩ := hin i r hr
      exact .reaped x hr' ⟨hof.id, hof.startedAt, hof.version⟩ rfl rfl

theorem quiet {a : Action P} (h : CloseInv env ends s) (hl : LockInv s) (hc : ClaimInv s)
    (hw : ∀ t ∈ s.tasks, t.WellFormed) (hg : finishesAs ends s a) (hq : Quiet env s a s') :
    CloseInv env ends s' := by
  rcases hq.rowMoves hl with ⟨worker, mode, c, t, hrep, hruns⟩ | ⟨hin, hmove⟩
  · have hin : s.RunsIn s' := .of_kept fun i r hr => by
      rw [hruns]
      rwa [List.getElem?_append_left (List.getElem?_eq_some_iff.mp hr).1]
    refine ⟨h.ended_step hq hg, fun q hq hs => ?_, fun q hq hs => ?_⟩
    · rcases hrep.origin hq with rfl | ⟨hq, -⟩
      · rw [hruns]
        exact ⟨_, _, List.getElem?_concat_length, rfl, rfl, rfl⟩
      · exact (h.of_moves hc hw hin hq .same).1 hs
    · rcases hrep.origin hq with rfl | ⟨hq, -⟩
      · rcases hs with hs | hs <;> cases hs
      · exact (h.of_moves hc hw hin hq .same).2 hs
  · refine ⟨h.ended_step hq hg, fun q hq => ?_, fun q hq => ?_⟩
    all_goals obtain ⟨t, ht, hm⟩ := hmove q hq
    exacts [(h.of_moves hc hw hin ht hm).1, (h.of_moves hc hw hin ht hm).2]

end CloseInv

theorem closeInv_reachable {G : State Q → Action P → Prop}
    (hG : ∀ s a, G s a → distinctClaims s a ∧ finishesAs ends s a)
    (h : (taskSystem stamp env).Reachable G s) : CloseInv env ends s := by
  refine h.invariant_of_reachable ?_ ?_
  · refine ⟨fun i r hr => ?_, fun t ht => ?_, fun t ht => ?_⟩
    · cases hr
    all_goals exact absurd ht (Table.not_mem_empty t)
  · intro s a s' hr hi hg he
    have hl := lockInv_reachable hr
    rcases step_cases hl he with ⟨conn, news, ha, -⟩ | hq
    · exact ha.preserves hl (fun _ _ _ _ _ hi ha => hi.accept ha) hi
    · exact hi.quiet hl (claimInv_reachable (fun s a hg => (hG s a hg).1) hr)
        (wellFormed_reachable hr) (hG s a hg).2 hq

end Closed

end PostgresQueue
