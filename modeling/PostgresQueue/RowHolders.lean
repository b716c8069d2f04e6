import PostgresQueue.FinishedRuns
import PostgresQueue.GracefulExit

namespace PostgresQueue

open Library System

variable {P Q τ : Type}

namespace Fleet

/-- The worker has the run in hand, or it died before it recorded the end. -/
inductive Unfinished (s : Fleet P Q τ) (ref : RunRef) (w : ℕ) : Prop
  | claimed : s.owner ref = some (w, .claimed) → s.Unfinished ref w
  | alive : s.owner ref = some (w, .alive) → s.Unfinished ref w
  | ended {e : RunEnd} : s.owner ref = some (w, .ended e) →
      ((s.members w).busy = .writing ref ∨ w ∈ s.tasks.dead) → s.Unfinished ref w

structure HeldBy (s : Fleet P Q τ) (t : Task Q) (i w : ℕ) : Prop where
  claim : ∃ startedAt, s.tasks.claims[i]? = some (t.id, startedAt) ∧ t.startedAt = some startedAt
  unfinished : s.Unfinished (.oneOff i) w

def NoOrphans (s : Fleet P Q τ) : Prop :=
  ∀ t ∈ s.tasks.tasks, t.status = .running → ∃ i w, s.HeldBy t i w

structure SoleHolder (s : Fleet P Q τ) (t : Task Q) (i : ℕ) : Prop where
  holds : ∃ w, s.HeldBy t i w
  sole : ∀ j w, s.HeldBy t j w → j = i

def Writable (env : Env Q) (s : Fleet P Q τ) (t : Task Q) (i : ℕ) : Prop :=
  ∀ r e o, s.tasks.runs[i]? = some r → r.phase = .ended e → e.outcome r.mode = some o →
    (t.requeue = none → o.Clean) ∧ t.Readable env

/-- Each write of a run that alone holds its row goes through. -/
def WritesThrough (env : Env Q) (s : Fleet P Q τ) : FleetAction P τ → Prop
  | .writes w _ => ∀ i, (s.members w).busy = .writing (.oneOff i) → ∀ t ∈ s.tasks.tasks,
      t.status = .running → s.SoleHolder t i → s.Writable env t i
  | .writeFails w => ∀ i, (s.members w).busy = .writing (.oneOff i) → ∀ t ∈ s.tasks.tasks,
      t.status = .running → ¬s.SoleHolder t i
  | _ => True

variable {s s' s₁ : Fleet P Q τ} {ref ref₀ : RunRef} {w w₀ : ℕ} {phase : Phase} {m : Member τ}

theorem Unfinished.owned (h : s.Unfinished ref w) : ∃ phase, s.owner ref = some (w, phase) := by
  cases h with
  | claimed ho => exact ⟨_, ho⟩
  | alive ho => exact ⟨_, ho⟩
  | ended ho => exact ⟨_, ho⟩

theorem Unfinished.mono (h : s.Unfinished ref w) (ho : s'.owner ref = s.owner ref)
    (hbusy : (s.members w).busy = .writing ref → (s'.members w).busy = .writing ref)
    (hdead : ∀ v ∈ s.tasks.dead, v ∈ s'.tasks.dead) : s'.Unfinished ref w := by
  cases h with
  | claimed h => exact .claimed (ho.trans h)
  | alive h => exact .alive (ho.trans h)
  | ended h hw => exact .ended (ho.trans h) (hw.imp hbusy (hdead w))

theorem setMember_self (s : Fleet P Q τ) (w : ℕ) (m : Member τ) : (s.setMember w m).members w = m :=
  Function.update_self ..

theorem Unfinished.setMember (h : s.Unfinished ref w) (hbusy : (s.members w₀).busy ≠ .writing ref) :
    (s.setMember w₀ m).Unfinished ref w := by
  refine h.mono rfl (fun hw => ?_) fun v hv => hv
  by_cases he : w = w₀
  · exact absurd (he ▸ hw) hbusy
  · exact (congrArg Member.busy (Function.update_of_ne he ..)).trans hw

theorem Moves.owner_self (hm : s.Moves s₁ ref₀ w₀ phase) : s₁.owner ref₀ = some (w₀, phase) :=
  (congrFun hm.owner ref₀).trans (Function.update_self ..)

theorem Moves.unfinished_of_ne (hm : s.Moves s₁ ref₀ w₀ phase) (hr : ref ≠ ref₀)
    (h : s.Unfinished ref w) : s₁.Unfinished ref w := by
  refine h.mono ?_ (fun hw => ?_) fun v hv => hm.dead ▸ hv
  · rw [hm.owner, Function.update_of_ne hr]
  · rw [hm.members]
    exact hw

theorem Moves.unfinished (hm : s.Moves s₁ ref₀ w₀ phase)
    (hown : ∀ v ph, s.owner ref₀ = some (v, ph) → v = w₀)
    (hself : (s₁.setMember w₀ m).Unfinished ref₀ w₀)
    (hbusy : (s.members w₀).busy ≠ .writing ref) (h : s.Unfinished ref w) :
    (s₁.setMember w₀ m).Unfinished ref w := by
  by_cases hr : ref = ref₀
  · subst hr
    obtain ⟨ph, ho⟩ := h.owned
    obtain rfl := hown w ph ho
    exact hself
  · exact (hm.unfinished_of_ne hr h).setMember (hm.members ▸ hbusy)

variable {i : ℕ} {t : Task Q}

structure LetsGo (s s' : Fleet P Q τ) (i : ℕ) : Prop where
  claims : s'.tasks.claims = s.tasks.claims
  unfinished : ∀ j w, s'.Unfinished (.oneOff j) w ↔ j ≠ i ∧ s.Unfinished (.oneOff j) w

theorem LetsGo.heldBy (h : s.LetsGo s' i) {q : Task Q} {j w : ℕ} (hid : q.id = t.id)
    (hst : q.startedAt = t.startedAt) : s'.HeldBy q j w ↔ j ≠ i ∧ s.HeldBy t j w := by
  constructor
  · rintro ⟨⟨startedAt, hc, hq⟩, hu⟩
    obtain ⟨hne, hu⟩ := (h.unfinished j w).mp hu
    exact ⟨hne, ⟨startedAt, by rw [← h.claims, ← hid, hc], hst ▸ hq⟩, hu⟩
  · rintro ⟨hne, ⟨startedAt, hc, ht⟩, hu⟩
    exact ⟨⟨startedAt, by rw [h.claims, hid, hc], hst.trans ht⟩, (h.unfinished j w).mpr ⟨hne, hu⟩⟩

theorem LetsGo.noOrphans_iff (h : s.LetsGo s' i) (hs : s.NoOrphans)
    (hrows : ∀ q ∈ s'.tasks.tasks, q.status = .running →
      ∃ t ∈ s.tasks.tasks, t.status = .running ∧ q.id = t.id ∧ q.startedAt = t.startedAt)
    {C : Task Q → Prop} (hstays : ∀ t ∈ s.tasks.tasks, t.status = .running → s.SoleHolder t i →
      (C t ↔ ∀ q ∈ s'.tasks.tasks, q.id = t.id → q.startedAt = t.startedAt → q.status ≠ .running)) :
    s'.NoOrphans ↔ ∀ t ∈ s.tasks.tasks, t.status = .running → s.SoleHolder t i → C t := by
  constructor
  · intro hno t ht hrun hsole
    refine (hstays t ht hrun hsole).mpr fun q hq hid hst hqrun => ?_
    obtain ⟨j, w, hj⟩ := hno q hq hqrun
    obtain ⟨hne, hj⟩ := (h.heldBy hid hst).mp hj
    exact hne (hsole.sole j w hj)
  · intro hc q hq hqrun
    obtain ⟨t, ht, hrun, hid, hst⟩ := hrows q hq hqrun
    obtain ⟨j, w, hj⟩ := hs t ht hrun
    by_cases hsole : s.SoleHolder t i
    · exact absurd hqrun ((hstays t ht hrun hsole).mp (hc t ht hrun hsole) q hq hid hst)
    · have hother : ∃ j w, s.HeldBy t j w ∧ j ≠ i := by
        by_cases hji : j = i
        · by_contra hnone
          refine hsole ⟨⟨w, hji ▸ hj⟩, fun k v hk => ?_⟩
          by_contra hki
          exact hnone ⟨k, v, hk, hki⟩
        · exact ⟨j, w, hj, hji⟩
      obtain ⟨k, v, hk, hki⟩ := hother
      exact ⟨k, v, (h.heldBy hid hst).mpr ⟨hki, hk⟩⟩

theorem letsGo_setMember (hclaims : s₁.tasks.claims = s.tasks.claims)
    (hother : ∀ j, j ≠ i → s₁.owner (.oneOff j) = s.owner (.oneOff j))
    (hmembers : s₁.members = s.members) (hdead : s₁.tasks.dead = s.tasks.dead)
    (hbusy : (s.members w).busy = .writing (.oneOff i)) (hidle : m.busy = .idle)
    (hgone : ∀ v, ¬(s₁.setMember w m).Unfinished (.oneOff i) v) : s.LetsGo (s₁.setMember w m) i := by
  refine ⟨hclaims, fun j v => ⟨fun h => ?_, ?_⟩⟩
  · have hne : j ≠ i := fun he => hgone v (he ▸ h)
    refine ⟨hne, h.mono (hother j hne).symm (fun hb => ?_) fun u hu => hdead ▸ hu⟩
    by_cases hv : v = w
    · rw [hv, setMember_self, hidle] at hb
      cases hb
    · rw [← hmembers, ← hb]
      exact congrArg Member.busy (Function.update_of_ne hv ..).symm
  · rintro ⟨hne, h⟩
    refine h.mono (hother j hne) (fun hb => ?_) fun u hu => hdead.symm ▸ hu
    by_cases hv : v = w
    · rw [hv, hbusy] at hb
      cases hb
      exact absurd rfl hne
    · rw [← hb, ← hmembers]
      exact congrArg Member.busy (Function.update_of_ne hv ..)

variable {stamp : P → ℕ → Q} {env : Env Q} {croniter : Croniter} {repr : PyFloat → String}

theorem letsGo_write {clock : Timestamptz}
    (hbusy : (s.members w).busy = .writing (.oneOff i)) (hidle : m.busy = .idle)
    (hs : s.writeRun stamp env croniter repr clock (.oneOff i) = some s₁) :
    s.LetsGo (s₁.setMember w m) i := by
  have hclaims : s₁.tasks.claims = s.tasks.claims := by
    obtain ⟨r, e, o, -, -, -, rfl⟩ := writeRun_oneOff hs
    exact congrArg (List.map _) (s.tasks.taken_setPhase i .recorded)
  obtain ⟨v, e, hv, hm⟩ := writeRun_moves hs
  have hrecorded : ∀ {u ph}, (s₁.setMember w m).owner (.oneOff i) = some (u, ph) → ph = .recorded :=
    fun ho => (Prod.mk.inj (Option.some.inj (hm.owner_self.symm.trans ho))).2.symm
  refine letsGo_setMember hclaims (fun j hj => ?_) hm.members hm.dead hbusy hidle fun u hu => ?_
  · rw [hm.owner, Function.update_of_ne (by simpa using hj)]
  · cases hu with
    | claimed ho => cases hrecorded ho
    | alive ho => cases hrecorded ho
    | ended ho => cases hrecorded ho

theorem letsGo_drop {e : RunEnd} (hended : s.owner (.oneOff i) = some (w, .ended e))
    (hw : w ∉ s.tasks.dead) (hbusy : (s.members w).busy = .writing (.oneOff i))
    (hidle : m.busy = .idle) : s.LetsGo (s.setMember w m) i := by
  refine letsGo_setMember rfl (fun _ _ => rfl) rfl rfl hbusy hidle fun u hu => ?_
  have hsame : ∀ {v ph}, (s.setMember w m).owner (.oneOff i) = some (v, ph) →
      v = w ∧ ph = .ended e := fun ho => by
    obtain ⟨hv, hp⟩ := Prod.mk.inj (Option.some.inj (hended.symm.trans ho))
    exact ⟨hv.symm, hp.symm⟩
  cases hu with
  | claimed ho => cases (hsame ho).2
  | alive ho => cases (hsame ho).2
  | ended ho hkeep =>
    obtain rfl := (hsame ho).1
    rcases hkeep with hb | hd
    · rw [setMember_self, hidle] at hb
      cases hb
    · exact hw hd

theorem write_stays {clock : Timestamptz}
    (hs : s.writeRun stamp env croniter repr clock (.oneOff i) = some s₁)
    (ht : t ∈ s.tasks.tasks) (hrun : t.status = .running) (herr : t.error = none)
    (hsole : s.SoleHolder t i) : s.Writable env t i ↔
      ∀ q ∈ s₁.tasks.tasks, q.id = t.id → q.startedAt = t.startedAt → q.status ≠ .running := by
  obtain ⟨r, e, o, hr, hp, ho, rfl⟩ := writeRun_oneOff hs
  obtain ⟨v, ⟨⟨startedAt, hclaim, hst⟩, -⟩⟩ := hsole.holds
  obtain ⟨hid, rfl⟩ := Prod.mk.inj (Option.some.inj ((State.claims_getElem? hr).symm.trans hclaim))
  have hwritable : s.Writable env t i ↔ (t.requeue = none → o.Clean) ∧ t.Readable env := by
    constructor
    · exact fun hw => hw r e o hr hp ho
    · intro hw r' e' o' hr' hp' ho'
      obtain rfl := Option.some.inj (hr.symm.trans hr')
      obtain rfl : e = e' := by simpa [hp] using hp'
      obtain rfl := Option.some.inj (ho.symm.trans ho')
      exact hw
  rw [hwritable, hid, ← hst]
  constructor
  · intro hw q hq hqid _
    exact ((finishOneOff_leaves ht hrun herr (RunEnd.outcome_sound ho)).mpr hw).not_running hq hqid
  · intro hclosed
    by_contra hw
    have hsame : t ∈ finishOneOff env clock t.id t.startedAt o s.tasks.tasks := by
      rw [finishOneOff_stuck ht hrun herr hw]
      exact ht
    exact hclosed t hsame rfl rfl hrun

end Fleet

section Steps

variable [LinearOrder τ] {stamp : P → ℕ → Q} {env : Env Q} {croniter : Croniter}
  {repr : PyFloat → String} {cfg : ℕ → WorkerConfig} {drain : ℕ → DrainTimeout τ} {start : ℕ → τ}
  {s s' : Fleet P Q τ} {a : FleetAction P τ} {ref : RunRef} {w : ℕ}

theorem FleetStep.unfinished (hacc : s.Accounts cfg)
    (hstep : FleetStep stamp env croniter repr cfg drain start s a s')
    (hwrites : ∀ v clock, a = .writes v clock → (s.members v).busy ≠ .writing ref)
    (hfails : ∀ v, a = .writeFails v → (s.members v).busy ≠ .writing ref)
    (h : s.Unfinished ref w) : s'.Unfinished ref w := by
  cases hstep with
  | client ha ht =>
    obtain ⟨hruns, hdead⟩ := step_external ha ht
    refine h.mono ?_ id fun v hv => hdead ▸ hv
    cases ref with
    | oneOff i => rw [Fleet.owner, hruns, Fleet.owner]
    | periodic i => rfl
  | scheduler ha ht =>
    refine h.mono ?_ id fun v hv => hv
    cases ref with
    | oneOff i => rfl
    | periodic i => rw [Fleet.owner, (periodicStep_external ha ht).1, Fleet.owner]
  | @worker v e x =>
    refine h.mono rfl (fun hb => ?_) fun v hv => hv
    change (Function.update s.members v _ w).busy = .writing ref
    by_cases he : w = v
    · rw [he, Function.update_self]
      exact he ▸ hb
    · rw [Function.update_of_ne he]
      exact hb
  | claim _ hidle _ hc hs =>
    obtain ⟨hfresh, hm⟩ := Fleet.claim_moves hc hs
    refine hm.unfinished (fun v ph hv => ?_) (.claimed hm.owner_self) (fun hb => ?_) h
    · rw [hfresh] at hv
      cases hv
    · cases hidle.symm.trans hb
  | claimPeriodic _ hidle _ hc hs =>
    obtain ⟨hfresh, hm⟩ := Fleet.claimPeriodic_moves hc hs
    refine hm.unfinished (fun v ph hv => ?_) (.claimed hm.owner_self) (fun hb => ?_) h
    · rw [hfresh] at hv
      cases hv
    · cases hidle.symm.trans hb
  | forks hbusy hw hx hs =>
    obtain ⟨hv, hm⟩ := hacc.forks_moves hw hbusy hs
    refine hm.unfinished (fun u ph hu => Fleet.owner_eq hu hv) (.alive hm.owner_self)
      (fun hb => ?_) h
    cases hbusy.symm.trans hb
  | startFails hbusy hw hx hs =>
    obtain ⟨hv, hm⟩ := hacc.startFails_moves hw hbusy hs
    refine hm.unfinished (fun u ph hu => Fleet.owner_eq hu hv) (.ended hm.owner_self (.inl ?_))
      (fun hb => ?_) h
    · rw [Fleet.setMember_self]
    · cases hbusy.symm.trans hb
  | reaps hw hidle _ href hx hs =>
    obtain ⟨_, hv, hm⟩ := hacc.reaps_moves hw (List.mem_of_getElem? href) hs
    refine hm.unfinished (fun u ph hu => Fleet.owner_eq hu hv) (.ended hm.owner_self (.inl ?_))
      (fun hb => ?_) h
    · rw [Fleet.setMember_self]
    · cases hidle.symm.trans hb
  | @writes v clock ref₀ s₁ hbusy hw hs =>
    have hne := hwrites v clock rfl
    have hr : ref ≠ ref₀ := fun he => hne (he ▸ hbusy)
    obtain ⟨u, e, hu, hm⟩ := Fleet.writeRun_moves hs
    exact (hm.unfinished_of_ne hr h).setMember (hm.members ▸ hne)
  | @writeFails v ref₀ s₁ hbusy hw hs =>
    have hne := hfails v rfl
    have hr : ref ≠ ref₀ := fun he => hne (he ▸ hbusy)
    rcases Fleet.dropRun_moves hs with rfl | ⟨u, e, hu, hm⟩
    · exact h.setMember hne
    · exact (hm.unfinished_of_ne hr h).setMember (hm.members ▸ hne)
  | dies => exact h.mono (by cases ref <;> rfl) id fun v hv => List.mem_cons_of_mem _ hv
  | @orphanEnds ref₀ e v s₁ halive hw hs =>
    obtain ⟨u, ph, hu, -, hm⟩ := Fleet.endRun_moves hs
    obtain rfl := Fleet.owner_eq hu halive
    by_cases hr : ref = ref₀
    · subst hr
      obtain ⟨ph', ho⟩ := h.owned
      obtain rfl := Fleet.owner_eq ho halive
      exact .ended hm.owner_self (.inr (hm.dead ▸ hw))
    · refine h.mono ?_ (fun hb => ?_) fun v hv => hm.dead ▸ hv
      · rw [hm.owner, Function.update_of_ne hr]
      · rw [hm.members]
        exact hb

theorem FleetStep.claims (hl : LockInv s.tasks)
    (hstep : FleetStep stamp env croniter repr cfg drain start s a s') {i : ℕ} {c : ℕ × Timestamptz}
    (hc : s.tasks.claims[i]? = some c) : s'.tasks.claims[i]? = some c := by
  have hon : Fleet.OnTasks stamp env free s s' :=
    hstep.onTasks (fun _ _ _ => trivial) (by cases a <;> trivial)
  rcases hon with hsame | ⟨b, hb, -⟩
  · rw [hsame]
    exact hc
  · rw [State.claims, List.getElem?_map] at hc ⊢
    obtain ⟨claimed, hclaimed, rfl⟩ := Option.map_eq_some_iff.mp hc
    rw [step_taken hl hb hclaimed]
    rfl

def Action.claims : Action P → Bool
  | .claim .. => true
  | _ => false

theorem FleetStep.running_old (hl : LockInv s.tasks)
    (hstep : FleetStep stamp env croniter repr cfg drain start s a s') (hne : ∀ w c, a ≠ .claim w c)
    {q : Task Q} (hq : q ∈ s'.tasks.tasks) (hs : q.status = .running) :
    ∃ t ∈ s.tasks.tasks, t.status = .running ∧ q.id = t.id ∧ q.startedAt = t.startedAt := by
  have hon : Fleet.OnTasks stamp env (fun _ b => b.claims = false) s s' := by
    refine hstep.onTasks (fun _ b hb => by cases b <;> first | rfl | cases hb) ?_
    cases hstep with
    | @client t b hb => cases b <;> first | rfl | cases hb
    | claim => exact absurd rfl (hne _ _)
    | _ => trivial
  rcases hon with hsame | ⟨b, hb, hclaims⟩
  · exact ⟨q, hsame ▸ hq, hs, rfl, rfl⟩
  · rcases step_running hl hb hq hs with h | ⟨worker, mode, c, claimed, rfl, -⟩
    · exact h
    · cases hclaims

theorem FleetStep.running (hl : LockInv s.tasks)
    (hstep : FleetStep stamp env croniter repr cfg drain start s a s') {q : Task Q}
    (hq : q ∈ s'.tasks.tasks) (hs : q.status = .running) :
    (∃ t ∈ s.tasks.tasks, t.status = .running ∧ q.id = t.id ∧ q.startedAt = t.startedAt) ∨
      ∃ i w, s'.HeldBy q i w := by
  have hold := fun hne => hstep.running_old hl hne hq hs
  cases hstep with
  | @claim w c claimed s₁ hw hidle hpc hc hs₁ =>
    obtain ⟨-, hm⟩ := Fleet.claim_moves hc hs₁
    obtain ⟨t, ht, rfl⟩ := Option.map_eq_some_iff.mp hs₁
    rcases step_running hl ht hq hs with h | ⟨worker, mode, c', claimed', heq, hc', rfl, hst⟩
    · exact .inl h
    · cases heq
      obtain rfl := Option.some.inj (hc.symm.trans hc')
      refine .inr ⟨s.tasks.runs.length, w, ⟨⟨c.startedAt, ?_, hst⟩, .claimed hm.owner_self⟩⟩
      simp only [step, hc] at ht
      split_ifs at ht
      cases ht
      simp [Fleet.setMember, State.claims, State.taken]
  | _ => exact .inl (hold fun w c he => by cases he)

theorem FleetStep.noOrphans_kept (hacc : s.Accounts cfg) (hl : LockInv s.tasks)
    (hstep : FleetStep stamp env croniter repr cfg drain start s a s') (hs : s.NoOrphans)
    (hwrites : ∀ v clock i, a = .writes v clock → (s.members v).busy ≠ .writing (.oneOff i))
    (hfails : ∀ v i, a = .writeFails v → (s.members v).busy ≠ .writing (.oneOff i)) :
    s'.NoOrphans := by
  intro q hq hrun
  rcases hstep.running hl hq hrun with ⟨t, ht, hts, hid, hst⟩ | hnew
  · obtain ⟨i, w, ⟨startedAt, hc, hclaim⟩, hu⟩ := hs t ht hts
    refine ⟨i, w, ⟨startedAt, hid ▸ hstep.claims hl hc, hst.trans hclaim⟩, ?_⟩
    exact hstep.unfinished hacc (fun v clock ha => hwrites v clock i ha) (fun v ha => hfails v i ha) hu
  · exact hnew

/-- A step orphans no row exactly when it is not a write that fails where only its run is to end
the row. -/
theorem FleetStep.noOrphans_iff (hacc : s.Accounts cfg) (hl : LockInv s.tasks)
    (herr : ∀ t ∈ s.tasks.tasks, t.status = .running → t.error = none)
    (hstep : FleetStep stamp env croniter repr cfg drain start s a s') (hs : s.NoOrphans) :
    s'.NoOrphans ↔ s.WritesThrough env a := by
  have hrows : (∀ w c, a ≠ .claim w c) → ∀ q ∈ s'.tasks.tasks, q.status = .running →
      ∃ t ∈ s.tasks.tasks, t.status = .running ∧ q.id = t.id ∧ q.startedAt = t.startedAt :=
    fun hne q hq hrun => hstep.running_old hl hne hq hrun
  have hkept := hstep.noOrphans_kept hacc hl hs
  cases hstep with
  | @writes w clock ref s₁ hbusy hw hs₁ =>
    cases ref with
    | periodic k =>
      refine iff_of_true (hkept ?_ ?_) ?_
      · intro v clock' i ha hb
        cases ha
        cases hbusy.symm.trans hb
      · exact fun v i ha => by cases ha
      · intro i hb
        cases hbusy.symm.trans hb
    | oneOff i =>
      have hlets := Fleet.letsGo_write (m := { s.members w with
        busy := .idle
        unwritten := if s.commits env clock (.oneOff i) then (s.members w).unwritten
          else .oneOff i :: (s.members w).unwritten }) hbusy rfl hs₁
      have hstays := fun t ht hrun hsole =>
        Fleet.write_stays (t := t) hs₁ ht hrun (herr t ht hrun) hsole
      rw [hlets.noOrphans_iff hs (hrows fun _ _ ha => by cases ha) hstays]
      constructor
      · intro h j hb
        cases hbusy.symm.trans hb
        exact h
      · exact fun h => h i hbusy
  | @writeFails w ref s₁ hbusy hw hs₁ =>
    cases ref with
    | periodic k =>
      refine iff_of_true (hkept ?_ ?_) ?_
      · exact fun v clock i ha => by cases ha
      · intro v i ha hb
        cases ha
        cases hbusy.symm.trans hb
      · intro i hb
        cases hbusy.symm.trans hb
    | oneOff i =>
      obtain ⟨⟨e, hended⟩, -, -⟩ := (hacc w hw).writing _ hbusy
      cases hs₁
      have hlets := Fleet.letsGo_drop (m := { s.members w with
        busy := .idle
        unwritten := .oneOff i :: (s.members w).unwritten }) hended hw hbusy rfl
      rw [hlets.noOrphans_iff hs (hrows fun _ _ ha => by cases ha) (C := fun _ => False)
        fun t ht hrun hsole => iff_of_false id fun hclosed => hclosed t ht rfl rfl hrun]
      constructor
      · intro h j hb
        cases hbusy.symm.trans hb
        exact h
      · exact fun h => h i hbusy
  | _ =>
    exact iff_of_true (hkept (fun v clock i ha => by cases ha) fun v i ha => by cases ha) trivial

end Steps

end PostgresQueue
