import PostgresQueue.WorkerAccounts

namespace PostgresQueue

open Library System

variable {P Q τ : Type}

section Runs

namespace Fleet

variable {cfg : ℕ → WorkerConfig} {s s' s₁ : Fleet P Q τ} {w : ℕ} {ref : RunRef} {phase : Phase}
  {m : Member τ} {x : Worker τ}

def Accounts (cfg : ℕ → WorkerConfig) (s : Fleet P Q τ) : Prop :=
  ∀ w, w ∉ s.tasks.dead → Accounted (cfg w) s.owner w (s.members w)

theorem mem_held {p : Phase → Bool} :
    ref ∈ s.held w p ↔ ∃ phase, s.owner ref = some (w, phase) ∧ p phase := by
  rw [held, List.mem_filter]
  constructor
  · rintro ⟨-, hp⟩
    cases ho : s.owner ref with
    | none => simp [inPhase, ho] at hp
    | some o =>
      obtain ⟨v, phase⟩ := o
      simp only [inPhase, ho, Option.any_some, Bool.and_eq_true, beq_iff_eq] at hp
      obtain ⟨rfl, hp⟩ := hp
      exact ⟨phase, rfl, hp⟩
  · rintro ⟨phase, ho, hp⟩
    refine ⟨?_, by simp [inPhase, ho, hp]⟩
    rw [refs, List.mem_append, List.mem_map, List.mem_map]
    cases ref with
    | oneOff i =>
      obtain ⟨r, hr, -⟩ := Option.map_eq_some_iff.mp ho
      exact .inl ⟨i, List.mem_range.mpr (List.getElem?_eq_some_iff.mp hr).1, rfl⟩
    | periodic i =>
      obtain ⟨r, hr, -⟩ := Option.map_eq_some_iff.mp ho
      exact .inr ⟨i, List.mem_range.mpr (List.getElem?_eq_some_iff.mp hr).1, rfl⟩

theorem held_nodup (s : Fleet P Q τ) (w : ℕ) (p : Phase → Bool) : (s.held w p).Nodup := by
  apply List.Nodup.filter
  refine List.nodup_append.mpr ⟨?_, ?_, ?_⟩
  · exact List.nodup_range.map fun i j h => by cases h; rfl
  · exact List.nodup_range.map fun i j h => by cases h; rfl
  · intro a ha b hb
    obtain ⟨i, -, rfl⟩ := List.mem_map.mp ha
    obtain ⟨j, -, rfl⟩ := List.mem_map.mp hb
    exact RunRef.noConfusion

theorem owner_eq {v : ℕ} {phase' : Phase} (hv : s.owner ref = some (v, phase'))
    (hw : s.owner ref = some (w, phase)) : v = w :=
  (Prod.mk.inj (Option.some.inj (hv.symm.trans hw))).1

theorem Accounts.set (h : s.Accounts cfg) (hw : Accounted (cfg w) s.owner w m) :
    (s.setMember w m).Accounts cfg := by
  intro v hv
  change Accounted (cfg v) s.owner v (Function.update s.members w m v)
  by_cases he : v = w
  · rw [he, Function.update_self]
    exact hw
  · rw [Function.update_of_ne he]
    exact h v hv

theorem Accounts.move (h : s.Accounts cfg) (hm : s.Moves s₁ ref w phase)
    (hold : ∀ v ph, s.owner ref = some (v, ph) → v = w)
    (hw : Accounted (cfg w) s₁.owner w m) : (s₁.setMember w m).Accounts cfg := by
  intro v hv
  change v ∉ s₁.tasks.dead at hv
  change Accounted (cfg v) s₁.owner v (Function.update s₁.members w m v)
  by_cases he : v = w
  · rw [he, Function.update_self]
    exact hw
  · rw [Function.update_of_ne he, hm.members]
    rw [hm.dead] at hv
    apply (h v hv).of_owner
    intro r ph
    rw [hm.owner]
    exact update_iff_of_ne (Ne.symm he) hold r ph

theorem Accounts.same (h : s.Accounts cfg) (ho : s'.owner = s.owner) (hm : s'.members = s.members)
    (hd : ∀ w ∈ s.tasks.dead, w ∈ s'.tasks.dead) : s'.Accounts cfg := by
  intro w hw
  rw [ho, hm]
  exact h w fun hdead => hw (hd w hdead)

variable {stamp : P → ℕ → Q} {env : Env Q} {croniter : Croniter} {repr : PyFloat → String}

theorem Accounts.forks_moves (h : s.Accounts cfg) (hw : w ∉ s.tasks.dead)
    (hbusy : (s.members w).busy = .starting ref slot)
    (hs : s.startRun stamp env croniter repr ref = some s₁) :
    s.owner ref = some (w, .claimed) ∧ s.Moves s₁ ref w .alive := by
  obtain ⟨v, hv, hm⟩ := startRun_moves hs
  obtain rfl := owner_eq hv ((h w hw).starts hbusy).1
  exact ⟨hv, hm⟩

theorem Accounts.startFails_moves {e : RunEnd} (h : s.Accounts cfg) (hw : w ∉ s.tasks.dead)
    (hbusy : (s.members w).busy = .starting ref slot)
    (hs : s.endRun stamp env croniter repr e ref = some s₁) :
    s.owner ref = some (w, .claimed) ∧ s.Moves s₁ ref w (.ended e) := by
  have hclaimed := ((h w hw).starts hbusy).1
  obtain ⟨v, phase, hv, -, hm⟩ := endRun_moves hs
  obtain rfl := owner_eq hv hclaimed
  exact ⟨hclaimed, hm⟩

theorem Accounts.reaps_moves {e : RunEnd} (h : s.Accounts cfg) (hw : w ∉ s.tasks.dead)
    (href : ref ∈ (s.members w).forked) (hs : s.endRun stamp env croniter repr e ref = some s₁) :
    ∃ phase, s.owner ref = some (w, phase) ∧ s.Moves s₁ ref w (.ended e) := by
  obtain ⟨phase, hstarted, -⟩ := (h w hw).started ref href
  obtain ⟨v, _, hv, -, hm⟩ := endRun_moves hs
  obtain rfl := owner_eq hv hstarted
  exact ⟨phase, hstarted, hm⟩

theorem Accounts.writes_moves {clock : Timestamptz} (h : s.Accounts cfg) (hw : w ∉ s.tasks.dead)
    (hbusy : (s.members w).busy = .writing ref)
    (hs : s.writeRun stamp env croniter repr clock ref = some s₁) :
    ∃ e, s.owner ref = some (w, .ended e) ∧ s.Moves s₁ ref w .recorded := by
  obtain ⟨⟨e, hended⟩, -, -⟩ := (h w hw).writing ref hbusy
  obtain ⟨v, _, hv, hm⟩ := writeRun_moves hs
  obtain rfl := owner_eq hv hended
  exact ⟨e, hended, hm⟩

theorem Accounts.drops_moves (h : s.Accounts cfg) (hw : w ∉ s.tasks.dead)
    (hbusy : (s.members w).busy = .writing ref) (hs : s.dropRun croniter repr ref = some s₁) :
    s₁ = s ∨ ∃ e, s.owner ref = some (w, .ended e) ∧ s.Moves s₁ ref w .recorded := by
  obtain ⟨⟨e, hended⟩, -, -⟩ := (h w hw).writing ref hbusy
  rcases dropRun_moves hs with rfl | ⟨v, _, hv, hm⟩
  · exact .inl rfl
  · obtain rfl := owner_eq hv hended
    exact .inr ⟨e, hended, hm⟩

variable [LinearOrder τ] {drain : ℕ → DrainTimeout τ} {start : ℕ → τ}

theorem workerStep_main {i : Input} (he : s.workerStep cfg drain start w (.main i) = some x) :
    (s.members w).worker.main.step (cfg w) (s.members w).worker.signals i = some x.main :=
  main_step he

theorem Accounts.worker (h : s.Accounts cfg) (hw : w ∉ s.tasks.dead) {e : WorkerEvent τ}
    (hown : s.ownStep cfg w e) (he : s.workerStep cfg drain start w e = some x) :
    (s.setMember w { s.members w with worker := x }).Accounts cfg := by
  have hacc := h w hw
  have hx : Consistent (cfg w) x.main := hacc.consistent.event he
  apply h.set
  cases e with
  | signal e =>
    obtain ⟨signals, -, rfl⟩ := Option.map_eq_some_iff.mp he
    exact hacc.keep hx rfl rfl (.inr ⟨rfl, rfl⟩)
  | childEnds pid status =>
    cases he
    exact hacc.keep hx rfl rfl (.inr ⟨rfl, rfl⟩)
  | main i =>
    simp only [ownStep, Bool.and_eq_true, Bool.not_eq_true', Option.isNone_iff_eq_none] at hown
    obtain ⟨⟨hidle, hstarts⟩, hreaping⟩ := hown
    obtain ⟨hos, hreaped⟩ := Main.step_keeps (workerStep_main he) hstarts hreaping
    exact hacc.keep hx (by rw [hos]) hreaped (.inl (Busy.isIdle_iff.mp hidle))

theorem accounts_step {a : FleetAction P τ} (h : s.Accounts cfg)
    (he : fleetStep stamp env croniter repr cfg drain start s a = some s') : s'.Accounts cfg := by
  cases fleetStep_cases he with
  | @client t a ha ht =>
    obtain ⟨hruns, hdead⟩ := step_external ha ht
    refine h.same ?_ rfl fun w hw => (by rw [hdead]; exact hw)
    funext ref
    cases ref with
    | oneOff i => rw [owner, hruns, owner]
    | periodic i => rfl
  | @scheduler t a ha ht =>
    obtain ⟨hruns, -⟩ := periodicStep_external ha ht
    refine h.same ?_ rfl fun w hw => hw
    funext ref
    cases ref with
    | oneOff i => rfl
    | periodic i => rw [owner, hruns, owner]
  | worker hw hown hx => exact h.worker hw hown hx
  | @claim w c claimed s₁ hw hidle hpc hc hs =>
    obtain ⟨hfresh, hm⟩ := claim_moves hc hs
    refine h.move hm (fun v ph hv => ?_) ?_
    · rw [hfresh] at hv
      cases hv
    · rw [hm.owner]
      exact (h w hw).claim hidle hfresh hpc _
  | @claimPeriodic w c claimed s₁ hw hidle hpc hc hs =>
    obtain ⟨hfresh, hm⟩ := claimPeriodic_moves hc hs
    refine h.move hm (fun v ph hv => ?_) ?_
    · rw [hfresh] at hv
      cases hv
    · rw [hm.owner]
      exact (h w hw).claim hidle hfresh hpc _
  | @forks w pid readFd ref slot x s₁ hbusy hw hx hs =>
    have hacc := h w hw
    obtain ⟨hclaimed, hm⟩ := h.forks_moves hw hbusy hs
    obtain ⟨hforks, hreaped⟩ := Main.step_forked (workerStep_main hx)
    refine h.move hm (fun u ph hu => owner_eq hu hclaimed) ?_
    rw [hm.owner]
    exact hacc.fork hbusy (hacc.consistent.event hx) hforks hreaped
  | @startFails w e elapsed leaked ref slot x s₁ hbusy hw hx hs =>
    have hacc := h w hw
    obtain ⟨hclaimed, hm⟩ := h.startFails_moves hw hbusy hs
    obtain ⟨hforks, hreaped⟩ := Main.step_notStarted (workerStep_main hx)
    have hpc := Main.step_notStarted_pc (hacc.starting _ _ hbusy) (workerStep_main hx)
    refine h.move hm (fun u ph hu => owner_eq hu hclaimed) ?_
    rw [hm.owner]
    exact hacc.startFails hbusy (hacc.consistent.event hx) hforks hreaped hpc
  | @reaps w texts slot e ref x s₁ hw hidle hr href hx hs =>
    have hacc := h w hw
    obtain ⟨_, hstarted, hm⟩ := h.reaps_moves hw (List.mem_of_getElem? href) hs
    obtain ⟨hforks, hpc, exit, hreaped⟩ := Main.step_reaps hacc.consistent hr (workerStep_main hx)
    refine h.move hm (fun u ph hu => owner_eq hu hstarted) ?_
    rw [hm.owner]
    exact hacc.reap hidle (hacc.consistent.event hx) hforks href hreaped hpc
  | @writes w clock ref s₁ hbusy hw hs =>
    have hacc := h w hw
    obtain ⟨_, hended, hm⟩ := h.writes_moves hw hbusy hs
    refine h.move hm (fun u ph hu => owner_eq hu hended) (hacc.toIdle hbusy ?_ ?_ (.inl ?_))
    · intro r hr
      split_ifs
      exacts [hr, List.mem_cons_of_mem _ hr]
    · intro r hr
      rw [hm.owner, Function.update_of_ne hr]
    · rw [hm.owner, Function.update_self]
  | @writeFails w ref s₁ hbusy hw hs =>
    have hacc := h w hw
    have hkeep : ∀ r ∈ (s.members w).unwritten, r ∈ ref :: (s.members w).unwritten :=
      fun r hr => List.mem_cons_of_mem _ hr
    rcases h.drops_moves hw hbusy hs with rfl | ⟨_, hended, hm⟩
    · exact h.set (hacc.toIdle hbusy hkeep (fun _ _ => rfl) (.inr ⟨rfl, List.mem_cons_self⟩))
    · refine h.move hm (fun u ph hu => owner_eq hu hended) (hacc.toIdle hbusy hkeep ?_ (.inl ?_))
      · intro r hr
        rw [hm.owner, Function.update_of_ne hr]
      · rw [hm.owner, Function.update_self]
  | @dies w => exact h.same rfl rfl fun v hv => List.mem_cons_of_mem w hv
  | @orphanEnds ref e w s₁ halive hw hs =>
    obtain ⟨v, phase, hv, -, hm⟩ := endRun_moves hs
    obtain rfl := owner_eq hv halive
    intro u hu
    rw [hm.dead] at hu
    rw [hm.members]
    apply (h u hu).of_owner
    intro r ph
    rw [hm.owner]
    exact update_iff_of_ne (ne_of_mem_of_not_mem hw hu) (fun v' ph' hv' => owner_eq hv' halive) r ph

theorem accounts_reachable {now : Timestamptz} {G : Fleet P Q τ → FleetAction P τ → Prop}
    (h : (fleet stamp env croniter repr cfg drain start now).Reachable G s) : s.Accounts cfg := by
  refine h.invariant (fun w _ => ?_) fun s a s' hi _ he => ?_
  · apply (Accounted.init (cfg w) w (drain w) (start w)).of_owner
    intro ref phase
    cases ref <;> exact Iff.rfl
  · have hs : fleetStep stamp env croniter repr cfg drain start s a = some s' := he
    exact accounts_step hi hs

end Fleet

def Phase.isAlive : Phase → Bool
  | .alive => true
  | _ => false

def Phase.isOpen : Phase → Bool
  | .recorded => false
  | _ => true

def Busy.refs : Busy → List RunRef
  | .idle => []
  | .starting ref _ | .writing ref => [ref]

def Member.runOf (m : Member τ) (slot : LoopSlot) : Option RunRef := m.forked[slot.child]?

namespace Accounted

theorem live_child {cfg : WorkerConfig} {o : RunRef → Option (ℕ × Phase)} {w : ℕ} {m : Member τ}
    (h : Accounted cfg o w m) {child : ℕ} : child ∈ m.worker.main.live.map LoopSlot.child ↔
      child < m.forked.length ∧ child ∉ m.worker.main.log.reaped.map Prod.fst := by
  have hforks := h.consistent.ledger.forks
  have hnodup := hforks.nodup_iff.mpr List.nodup_range
  constructor
  · intro hc
    refine ⟨?_, fun hr => List.disjoint_of_nodup_append hnodup hr hc⟩
    rw [h.forks]
    exact List.mem_range.mp (hforks.mem_iff.mp (List.mem_append_right _ hc))
  · rintro ⟨hlt, hn⟩
    rw [h.forks] at hlt
    have hm := hforks.mem_iff.mpr (List.mem_range.mpr hlt)
    exact (List.mem_append.mp hm).resolve_left hn

end Accounted

namespace Fleet

theorem Accounts.alive_perm {s : Fleet P Q τ} (h : s.Accounts cfg) {w : ℕ}
    (hw : w ∉ s.tasks.dead) : ((s.held w Phase.isAlive).map some).Perm
      ((s.members w).worker.main.live.map (s.members w).runOf) := by
  have hacc := h w hw
  have hlive : (s.members w).worker.main.live.map (s.members w).runOf =
      ((s.members w).worker.main.live.map LoopSlot.child).map fun c => (s.members w).forked[c]? := by
    rw [List.map_map]
    rfl
  have hforks := hacc.consistent.ledger.forks
  have hchildren := (hforks.nodup_iff.mpr List.nodup_range).of_append_right
  rw [hlive]
  refine (List.perm_ext_iff_of_nodup ?_ ?_).mpr fun r => ?_
  · exact (s.held_nodup w _).map (Option.some_injective _)
  · refine hchildren.map_on fun c hc d hd he => ?_
    obtain ⟨hlt, -⟩ := hacc.live_child.mp hc
    exact (List.getElem?_inj hlt hacc.nodup).mp he
  · rw [List.mem_map, List.mem_map]
    constructor
    · rintro ⟨ref, hr, rfl⟩
      obtain ⟨phase, ho, hp⟩ := mem_held.mp hr
      cases phase with
      | alive =>
        obtain ⟨child, hc, hn⟩ := (hacc.alive ref).mp ho
        exact ⟨child, hacc.live_child.mpr ⟨(List.getElem?_eq_some_iff.mp hc).1, hn⟩, hc⟩
      | _ => cases hp
    · rintro ⟨child, hc, rfl⟩
      obtain ⟨hlt, hn⟩ := hacc.live_child.mp hc
      refine ⟨(s.members w).forked[child], mem_held.mpr ⟨.alive, ?_, rfl⟩,
        (List.getElem?_eq_getElem hlt).symm⟩
      exact (hacc.alive _).mpr ⟨child, List.getElem?_eq_getElem hlt, hn⟩

theorem Accounts.open_length {s : Fleet P Q τ} (h : s.Accounts cfg) {w : ℕ}
    (hw : w ∉ s.tasks.dead) : (s.held w Phase.isOpen).length ≤
      (cfg w).capacity + (s.members w).unwritten.length := by
  have hacc := h w hw
  have hsub : s.held w Phase.isOpen ⊆ (s.members w).busy.refs ++
      (s.held w Phase.isAlive ++ (s.members w).unwritten) := by
    intro ref hr
    obtain ⟨phase, ho, hp⟩ := mem_held.mp hr
    simp only [List.mem_append]
    cases phase with
    | claimed =>
      obtain ⟨slot, hb⟩ := (hacc.claimed ref).mp ho
      exact .inl (by simp [hb, Busy.refs])
    | alive => exact .inr (.inl (mem_held.mpr ⟨.alive, ho, rfl⟩))
    | ended e =>
      rcases hacc.ended ref e ho with hb | hu
      · exact .inl (by simp [hb, Busy.refs])
      · exact .inr (.inr hu)
    | recorded => cases hp
  have hlength := ((s.held_nodup w _).subperm hsub).length_le
  have halive := (h.alive_perm hw).length_eq
  rw [List.length_map, List.length_map] at halive
  rw [List.length_append, List.length_append] at hlength
  have hroom : (s.members w).busy.refs.length + (s.members w).worker.main.live.length ≤
      (cfg w).capacity := by
    cases hb : (s.members w).busy with
    | idle => simpa [Busy.refs] using hacc.consistent.room
    | starting ref slot =>
      have := hacc.consistent.claimRoom (hacc.starting ref slot hb)
      simp only [Busy.refs, List.length_singleton]
      omega
    | writing ref =>
      obtain ⟨-, hlt, -⟩ := hacc.writing ref hb
      simp only [Busy.refs, List.length_singleton]
      omega
  omega

end Fleet

variable [LinearOrder τ] {stamp : P → ℕ → Q} {env : Env Q} {croniter : Croniter}
  {repr : PyFloat → String} {cfg : ℕ → WorkerConfig} {drain : ℕ → DrainTimeout τ} {start : ℕ → τ}

end Runs

section Sample

def sampleModes (w : ℕ) : WorkerConfig := sampleConfig (if w = 0 then .concurrent else .sequential)

def sampleFleet : System (Fleet String String ℕ) (FleetAction String ℕ) :=
  fleet unlabelled sampleEnv sampleCroniter (sampleEnv (P := String)).floatRepr sampleModes
    (fun _ => sampleDrain) (fun _ => 0) 0

def loops (w n : ℕ) : List (FleetAction String ℕ) := List.replicate n (.worker w (.main .next))

def sampleFleetRun : List (FleetAction String ℕ) :=
  [.client (.upsert sampleConn (sampleUpsert "a")),
    .client (.upsert sampleConn { sampleUpsert "b" with clientId := "other" })] ++
  loops 0 2 ++ [.claim 0 ⟨10, none, 10, []⟩, .forks 0 500 7] ++ loops 0 1 ++ loops 1 1 ++
  [.claim 1 ⟨11, none, 11, []⟩, .forks 1 600 7]

def sampleBusyFleet : Fleet String String ℕ := sampleFleet.run free sampleFleetRun

end Sample

end PostgresQueue
