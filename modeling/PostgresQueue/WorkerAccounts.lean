import PostgresQueue.Fleet

namespace PostgresQueue

open Library System

variable {P Q τ : Type}

section Main

variable {cfg : WorkerConfig} {signals : Signals τ} {m m' : Main τ} {i : Input}

theorem Main.attempt_notStarted {mode : Mode} {isPeriodic : Bool} {run : ChildSlot} {e : TaskError}
    {elapsed : String} {leaked : List ℕ} {started : Started}
    (he : m.attempt mode isPeriodic (.claim (.notStarted run e elapsed leaked)) =
      some (m', started)) : started = .failed := by
  simp only [attempt] at he
  split_ifs at he
  obtain ⟨o, -, heq⟩ := Option.map_eq_some_iff.mp he
  cases heq
  rfl

variable [LinearOrder τ]

theorem Main.step_keeps (he : m.step cfg signals i = some m') (hi : i.starts = false)
    (hr : m.reaping cfg i = none) : m'.os = m.os ∧ m'.log.reaped = m.log.reaped := by
  cases step_osStep he with
  | keeps _ os reaped => exact ⟨os, reaped⟩
  | leaks run e elapsed leaked input => rw [input] at hi; cases hi
  | forks run pid readFd input => rw [input] at hi; cases hi
  | reaps input slot child opened os reaped =>
    have hgrows : m'.log.reaped ≠ m.log.reaped := by
      rw [reaped]
      simp
    rcases m.step_cases he with ⟨slot', wpc, killed, after, hpc, hw⟩ | ⟨-, hq⟩
    · unfold waitForChild at hw
      split at hw
      · split at hw
        · cases hw
          exact absurd rfl hgrows
        · rename_i c hc
          split at hw
          · cases hw
            exact absurd rfl hgrows
          · rename_i status hs
            simp [reaping, hpc, hc, hs] at hr
      · cases hw
        exact absurd rfl hgrows
      · cases hw
        exact absurd rfl hgrows
      · cases hw
        exact absurd rfl hgrows
      · cases hw
        exact absurd rfl hgrows
      · cases hw
    · exact absurd hq.reaped hgrows

theorem Main.step_reaps {slot : LoopSlot} {e : RunEnd} (hc : Consistent cfg m)
    (hr : m.reaping cfg i = some (slot, e)) (he : m.step cfg signals i = some m') :
    m'.os.forks = m.os.forks ∧ m'.pc ≠ .returned ∧
      ∃ exit, m'.log.reaped = m.log.reaped ++ [(slot.child, exit)] := by
  unfold reaping at hr
  split at hr
  · rename_i texts
    split at hr
    · rename_i slot' killed after hpc
      split at hr
      · rename_i c hfound
        obtain ⟨status, hs, heq⟩ := Option.map_eq_some_iff.mp hr
        obtain ⟨rfl, rfl⟩ := Prod.mk.inj heq
        obtain ⟨⟨c', hc', hchild⟩, hopen⟩ := hc.waited hpc
        obtain rfl : c' = c := Option.some.inj (hc'.symm.trans hfound)
        have hstep : m.waitForChild cfg signals slot' killed after .poll (.wait4 texts) = some m' := by
          rcases m.step_cases he with ⟨s, wpc, k, a, hpc', hw⟩ | ⟨hw, -⟩
          · rw [hpc] at hpc'
            cases hpc'
            exact hw
          · rw [hpc] at hw
            cases hw
        simp only [waitForChild, hfound, hs, if_pos hopen] at hstep
        cases hstep
        refine ⟨rfl, ?_, _, by rw [← hchild]; rfl⟩
        cases after <;> exact fun h => by cases h
      · cases hr
    · cases hr
  · cases hr

theorem Main.step_forked {run : ChildSlot} {pid readFd : ℕ}
    (he : m.step cfg signals (.claim (.forked run pid readFd)) = some m') :
    m'.os.forks = m.os.forks + 1 ∧ m'.log.reaped = m.log.reaped := by
  cases step_osStep he with
  | keeps input => cases input
  | leaks _ _ _ _ input => cases input
  | forks run pid readFd _ _ os reaped => exact ⟨by rw [os]; rfl, reaped⟩
  | reaps input => cases input

theorem Main.step_notStarted {run : ChildSlot} {e : TaskError} {elapsed : String}
    {leaked : List ℕ} (he : m.step cfg signals (.claim (.notStarted run e elapsed leaked)) = some m') :
    m'.os.forks = m.os.forks ∧ m'.log.reaped = m.log.reaped := by
  cases step_osStep he with
  | keeps input => cases input
  | leaks _ _ _ _ _ os reaped => exact ⟨by rw [os], reaped⟩
  | forks _ _ _ input => cases input
  | reaps input => cases input

theorem Main.step_notStarted_pc {run : ChildSlot} {e : TaskError} {elapsed : String}
    {leaked : List ℕ} (hpc : m.pc.claiming)
    (he : m.step cfg signals (.claim (.notStarted run e elapsed leaked)) = some m') :
    m'.pc ≠ .returned := by
  unfold step at he
  cases hm : m.pc with
  | claimOneOff | claimPeriodic =>
    simp only [sequentialStep, onceStep, concurrentStep, hm] at he
    split at he
    · obtain ⟨⟨m₁, started⟩, ha, rfl⟩ := Option.map_eq_some_iff.mp he
      obtain rfl := attempt_notStarted ha
      exact fun h => by cases h
    · obtain ⟨⟨m₁, started⟩, ha, rfl⟩ := Option.map_eq_some_iff.mp he
      obtain rfl := attempt_notStarted ha
      exact fun h => by cases h
  | _ =>
    rw [hm] at hpc
    cases hpc

end Main

section Account

/-- Between its steps a worker knows the phase of each run it claimed: the children that it has
not collected are its runs that are alive. -/
structure Accounted (cfg : WorkerConfig) (owner : RunRef → Option (ℕ × Phase)) (w : ℕ)
    (m : Member τ) : Prop where
  consistent : Consistent cfg m.worker.main
  forks : m.forked.length = m.worker.main.os.forks
  nodup : m.forked.Nodup
  started : ∀ ref ∈ m.forked, ∃ phase, owner ref = some (w, phase) ∧ phase ≠ .claimed
  claimed : ∀ ref, owner ref = some (w, .claimed) ↔ ∃ slot, m.busy = .starting ref slot
  alive : ∀ ref, owner ref = some (w, .alive) ↔
    ∃ child, m.forked[child]? = some ref ∧ child ∉ m.worker.main.log.reaped.map Prod.fst
  ended : ∀ ref e, owner ref = some (w, .ended e) → m.busy = .writing ref ∨ ref ∈ m.unwritten
  starting : ∀ ref slot, m.busy = .starting ref slot → m.worker.main.pc.claiming
  writing : ∀ ref, m.busy = .writing ref → (∃ e, owner ref = some (w, .ended e)) ∧
    m.worker.main.live.length < cfg.capacity ∧ m.worker.main.pc ≠ .returned

theorem Consistent.live_length {cfg : WorkerConfig} {m : Main τ} (h : Consistent cfg m) :
    m.log.reaped.length + m.live.length = m.os.forks := by
  simpa using h.ledger.forks.length_eq

theorem Consistent.reaped_lt {cfg : WorkerConfig} {m : Main τ} (h : Consistent cfg m) {child : ℕ}
    (hc : child ∈ m.log.reaped.map Prod.fst) : child < m.os.forks :=
  List.mem_range.mp (h.ledger.forks.mem_iff.mp (List.mem_append_left _ hc))

theorem update_iff_of_ne {o : RunRef → Option (ℕ × Phase)} {ref : RunRef} {w w' : ℕ}
    {phase : Phase} (hne : w' ≠ w) (hold : ∀ v ph, o ref = some (v, ph) → v = w') (r : RunRef)
    (ph : Phase) : Function.update o ref (some (w', phase)) r = some (w, ph) ↔
      o r = some (w, ph) := by
  by_cases hr : r = ref
  · rw [hr, Function.update_self]
    constructor
    · intro h
      cases h
      exact absurd rfl hne
    · intro h
      exact absurd (hold _ _ h).symm hne
  · rw [Function.update_of_ne hr]

namespace Accounted

variable {cfg : WorkerConfig} {o o' : RunRef → Option (ℕ × Phase)} {w : ℕ} {m : Member τ}
  {ref : RunRef} {slot : ChildSlot} {x : Worker τ} {e : RunEnd}

theorem init [LinearOrder τ] (cfg : WorkerConfig) (w : ℕ) (drain : DrainTimeout τ) (start : τ) :
    Accounted cfg (fun _ => none) w ⟨(runWorker cfg drain start).init, .idle, [], []⟩ := by
  refine ⟨Consistent.init cfg, rfl, List.nodup_nil, ?_, ?_, ?_, ?_, ?_, ?_⟩
  · exact fun ref hr => absurd hr List.not_mem_nil
  · exact fun ref => iff_of_false (fun h => by cases h) fun ⟨_, hb⟩ => by cases hb
  · refine fun ref => iff_of_false (fun h => by cases h) fun ⟨child, hc, _⟩ => ?_
    simp at hc
  · exact fun ref e he => by cases he
  · exact fun ref slot hb => by cases hb
  · exact fun ref hb => by cases hb

theorem of_owner (h : Accounted cfg o w m)
    (ho : ∀ ref phase, o' ref = some (w, phase) ↔ o ref = some (w, phase)) :
    Accounted cfg o' w m := by
  refine ⟨h.consistent, h.forks, h.nodup, ?_, ?_, ?_, ?_, h.starting, ?_⟩
  · intro ref hr
    obtain ⟨phase, hp, hne⟩ := h.started ref hr
    exact ⟨phase, (ho ref phase).mpr hp, hne⟩
  · exact fun ref => (ho ref _).trans (h.claimed ref)
  · exact fun ref => (ho ref _).trans (h.alive ref)
  · exact fun ref e he => h.ended ref e ((ho ref _).mp he)
  · intro ref hb
    obtain ⟨⟨e, he⟩, hroom⟩ := h.writing ref hb
    exact ⟨⟨e, (ho ref _).mpr he⟩, hroom⟩

theorem keep (h : Accounted cfg o w m) (hx : Consistent cfg x.main)
    (hforks : x.main.os.forks = m.worker.main.os.forks)
    (hreaped : x.main.log.reaped = m.worker.main.log.reaped)
    (hbusy : m.busy = .idle ∨
      (x.main.pc = m.worker.main.pc ∧ x.main.live = m.worker.main.live)) :
    Accounted cfg o w { m with worker := x } := by
  refine ⟨hx, h.forks.trans hforks.symm, h.nodup, h.started, h.claimed, ?_, h.ended, ?_, ?_⟩
  · simpa only [hreaped] using h.alive
  · intro ref slot hb
    rcases hbusy with hidle | ⟨hpc, -⟩
    · rw [hidle] at hb
      cases hb
    · simpa only [hpc] using h.starting ref slot hb
  · intro ref hb
    rcases hbusy with hidle | ⟨hpc, hlive⟩
    · rw [hidle] at hb
      cases hb
    · simpa only [hpc, hlive] using h.writing ref hb

theorem claim (h : Accounted cfg o w m) (hidle : m.busy = .idle) (hfresh : o ref = none)
    (hpc : m.worker.main.pc.claiming) (slot : ChildSlot) :
    Accounted cfg (Function.update o ref (some (w, .claimed))) w
      { m with busy := .starting ref slot } := by
  have hunknown : ref ∉ m.forked := by
    intro hr
    obtain ⟨phase, hp, -⟩ := h.started ref hr
    rw [hfresh] at hp
    cases hp
  refine ⟨h.consistent, h.forks, h.nodup, ?_, ?_, ?_, ?_, fun _ _ _ => hpc, fun _ hb => by cases hb⟩
  · intro r hr
    rw [Function.update_of_ne (ne_of_mem_of_not_mem hr hunknown)]
    exact h.started r hr
  · intro r
    by_cases hr : r = ref
    · rw [hr, Function.update_self]
      exact iff_of_true rfl ⟨slot, rfl⟩
    · rw [Function.update_of_ne hr, h.claimed r, hidle]
      refine iff_of_false (fun ⟨_, hb⟩ => by cases hb) fun ⟨_, hb⟩ => ?_
      cases hb
      exact hr rfl
  · intro r
    by_cases hr : r = ref
    · rw [hr, Function.update_self]
      refine iff_of_false (fun he => by cases he) fun ⟨child, hc, _⟩ => ?_
      exact hunknown (List.mem_of_getElem? hc)
    · rw [Function.update_of_ne hr]
      exact h.alive r
  · intro r e he
    by_cases hr : r = ref
    · rw [hr, Function.update_self] at he
      cases he
    · rw [Function.update_of_ne hr] at he
      rcases h.ended r e he with hb | hu
      · rw [hidle] at hb
        cases hb
      · exact .inr hu

theorem starts (h : Accounted cfg o w m) (hbusy : m.busy = .starting ref slot) :
    o ref = some (w, .claimed) ∧ ref ∉ m.forked := by
  have hclaimed := (h.claimed ref).mpr ⟨slot, hbusy⟩
  refine ⟨hclaimed, fun hr => ?_⟩
  obtain ⟨phase, hp, hne⟩ := h.started ref hr
  rw [hclaimed] at hp
  cases hp
  exact hne rfl

theorem fork (h : Accounted cfg o w m) (hbusy : m.busy = .starting ref slot)
    (hx : Consistent cfg x.main) (hforks : x.main.os.forks = m.worker.main.os.forks + 1)
    (hreaped : x.main.log.reaped = m.worker.main.log.reaped) :
    Accounted cfg (Function.update o ref (some (w, .alive))) w
      ⟨x, .idle, m.forked ++ [ref], m.unwritten⟩ := by
  obtain ⟨-, hunknown⟩ := h.starts hbusy
  have hother : ∀ slot', ∀ r, r ≠ ref → m.busy ≠ .starting r slot' := by
    intro slot' r hr hb
    rw [hbusy] at hb
    cases hb
    exact hr rfl
  refine ⟨hx, ?_, ?_, ?_, ?_, ?_, ?_, fun _ _ hb => (by cases hb), fun _ hb => (by cases hb)⟩
  · rw [List.length_append, h.forks, hforks]
    rfl
  · exact List.nodup_append.mpr ⟨h.nodup, List.nodup_singleton _, fun a ha b hb he =>
      hunknown (List.mem_singleton.mp hb ▸ he ▸ ha)⟩
  · intro r hr
    rcases List.mem_append.mp hr with hr | hr
    · rw [Function.update_of_ne (ne_of_mem_of_not_mem hr hunknown)]
      exact h.started r hr
    · rw [List.mem_singleton.mp hr, Function.update_self]
      exact ⟨.alive, rfl, Phase.noConfusion⟩
  · intro r
    refine iff_of_false (fun he => ?_) fun ⟨_, hb⟩ => by cases hb
    by_cases hr : r = ref
    · rw [hr, Function.update_self] at he
      cases he
    · rw [Function.update_of_ne hr] at he
      obtain ⟨slot', hb⟩ := (h.claimed r).mp he
      exact hother slot' r hr hb
  · intro r
    rw [hreaped]
    by_cases hr : r = ref
    · rw [hr, Function.update_self]
      refine iff_of_true rfl ⟨m.forked.length, List.getElem?_concat_length, fun hm => ?_⟩
      have hlt := h.consistent.reaped_lt hm
      rw [h.forks] at hlt
      exact lt_irrefl _ hlt
    · rw [Function.update_of_ne hr, h.alive r]
      apply exists_congr
      intro child
      apply and_congr_left
      intro _
      constructor
      · intro hc
        rw [List.getElem?_append_left (List.getElem?_eq_some_iff.mp hc).1]
        exact hc
      · intro hc
        rcases getElem?_append_singleton hc with hc | ⟨-, hc⟩
        exacts [hc, absurd hc hr]
  · intro r e he
    by_cases hr : r = ref
    · rw [hr, Function.update_self] at he
      cases he
    · rw [Function.update_of_ne hr] at he
      rcases h.ended r e he with hb | hu
      · rw [hbusy] at hb
        cases hb
      · exact .inr hu

theorem toWriting (h : Accounted cfg o w m) (hx : Consistent cfg x.main)
    (hforks : x.main.os.forks = m.worker.main.os.forks)
    (hstarting : ∀ r slot', r ≠ ref → m.busy ≠ .starting r slot')
    (hwriting : ∀ r, m.busy ≠ .writing r)
    (halive : ∀ r, (∃ child, m.forked[child]? = some r ∧ child ∉ x.main.log.reaped.map Prod.fst) ↔
      r ≠ ref ∧ ∃ child, m.forked[child]? = some r ∧
        child ∉ m.worker.main.log.reaped.map Prod.fst)
    (hroom : x.main.live.length < cfg.capacity) (hpc : x.main.pc ≠ .returned) :
    Accounted cfg (Function.update o ref (some (w, .ended e))) w
      { m with worker := x, busy := .writing ref } := by
  refine ⟨hx, h.forks.trans hforks.symm, h.nodup, ?_, ?_, ?_, ?_, fun _ _ hb => (by cases hb), ?_⟩
  · intro r hr
    by_cases he : r = ref
    · rw [he, Function.update_self]
      exact ⟨.ended e, rfl, Phase.noConfusion⟩
    · rw [Function.update_of_ne he]
      exact h.started r hr
  · intro r
    refine iff_of_false (fun he => ?_) fun ⟨_, hb⟩ => by cases hb
    by_cases hr : r = ref
    · rw [hr, Function.update_self] at he
      cases he
    · rw [Function.update_of_ne hr] at he
      obtain ⟨slot', hb⟩ := (h.claimed r).mp he
      exact hstarting r slot' hr hb
  · intro r
    rw [halive r]
    by_cases hr : r = ref
    · rw [hr, Function.update_self]
      exact iff_of_false (fun he => by cases he) fun hn => hn.1 rfl
    · rw [Function.update_of_ne hr, h.alive r, and_iff_right hr]
  · intro r e' he
    by_cases hr : r = ref
    · exact .inl (by rw [hr])
    · rw [Function.update_of_ne hr] at he
      rcases h.ended r e' he with hb | hu
      exacts [absurd hb (hwriting r), .inr hu]
  · intro r hb
    cases hb
    exact ⟨⟨e, Function.update_self ..⟩, hroom, hpc⟩

theorem startFails (h : Accounted cfg o w m) (hbusy : m.busy = .starting ref slot)
    (hx : Consistent cfg x.main) (hforks : x.main.os.forks = m.worker.main.os.forks)
    (hreaped : x.main.log.reaped = m.worker.main.log.reaped) (hpc : x.main.pc ≠ .returned) :
    Accounted cfg (Function.update o ref (some (w, .ended e))) w
      { m with worker := x, busy := .writing ref } := by
  have hlive := hx.live_length
  have hlive' := h.consistent.live_length
  have hroom := h.consistent.claimRoom (h.starting ref slot hbusy)
  rw [hreaped] at hlive
  refine h.toWriting hx hforks ?_ ?_ (fun r => ?_) (by omega) hpc
  · intro r slot' hr hb
    rw [hbusy] at hb
    cases hb
    exact hr rfl
  · intro r hb
    rw [hbusy] at hb
    cases hb
  · rw [hreaped, and_iff_right_of_imp]
    rintro ⟨child, hc, -⟩ rfl
    exact (h.starts hbusy).2 (List.mem_of_getElem? hc)

theorem reap (h : Accounted cfg o w m) (hidle : m.busy = .idle) (hx : Consistent cfg x.main)
    (hforks : x.main.os.forks = m.worker.main.os.forks) {child : ℕ} {exit : ChildExit}
    (hchild : m.forked[child]? = some ref)
    (hreaped : x.main.log.reaped = m.worker.main.log.reaped ++ [(child, exit)])
    (hpc : x.main.pc ≠ .returned) :
    Accounted cfg (Function.update o ref (some (w, .ended e))) w
      { m with worker := x, busy := .writing ref } := by
  have hlive := hx.live_length
  have hlive' := h.consistent.live_length
  have hroom := h.consistent.room
  rw [hreaped, List.length_append, List.length_singleton] at hlive
  have hsame : ∀ c, m.forked[c]? = some ref → c = child := by
    intro c hc
    have hlt := (List.getElem?_eq_some_iff.mp hc).1
    exact (List.getElem?_inj hlt h.nodup).mp (hc.trans hchild.symm)
  refine h.toWriting hx hforks ?_ ?_ (fun r => ?_) (by omega) hpc
  · intro r slot' _ hb
    rw [hidle] at hb
    cases hb
  · intro r hb
    rw [hidle] at hb
    cases hb
  · rw [hreaped, List.map_append, List.map_singleton]
    constructor
    · rintro ⟨c, hc, hn⟩
      rw [List.mem_append, not_or] at hn
      refine ⟨?_, c, hc, hn.1⟩
      rintro rfl
      exact hn.2 (List.mem_singleton.mpr (hsame c hc))
    · rintro ⟨hr, c, hc, hn⟩
      refine ⟨c, hc, ?_⟩
      rw [List.mem_append, not_or]
      refine ⟨hn, fun hm => hr ?_⟩
      rw [List.mem_singleton.mp hm] at hc
      exact Option.some.inj (hc.symm.trans hchild)

theorem toIdle (h : Accounted cfg o w m) (hbusy : m.busy = .writing ref) {u : List RunRef}
    (hu : ∀ r ∈ m.unwritten, r ∈ u) (hother : ∀ r, r ≠ ref → o' r = o r)
    (href : o' ref = some (w, .recorded) ∨ (o' ref = o ref ∧ ref ∈ u)) :
    Accounted cfg o' w { m with busy := .idle, unwritten := u } := by
  obtain ⟨⟨e, he⟩, -, -⟩ := h.writing ref hbusy
  have hphase : ∃ phase, o' ref = some (w, phase) ∧ phase ≠ .claimed ∧ phase ≠ .alive := by
    rcases href with hr | ⟨hr, -⟩
    · exact ⟨_, hr, Phase.noConfusion, Phase.noConfusion⟩
    · exact ⟨_, hr.trans he, Phase.noConfusion, Phase.noConfusion⟩
  obtain ⟨phase, hp, hnotClaimed, hnotAlive⟩ := hphase
  refine ⟨h.consistent, h.forks, h.nodup, ?_, ?_, ?_, ?_, fun _ _ hb => (by cases hb),
    fun _ hb => (by cases hb)⟩
  · intro r hr
    by_cases heq : r = ref
    · exact ⟨phase, heq ▸ hp, hnotClaimed⟩
    · rw [hother r heq]
      exact h.started r hr
  · intro r
    refine iff_of_false (fun hc => ?_) fun ⟨_, hb⟩ => by cases hb
    by_cases heq : r = ref
    · rw [heq, hp] at hc
      exact hnotClaimed (Prod.mk.inj (Option.some.inj hc)).2
    · rw [hother r heq] at hc
      obtain ⟨slot', hb⟩ := (h.claimed r).mp hc
      rw [hbusy] at hb
      cases hb
  · intro r
    by_cases heq : r = ref
    · rw [heq, hp]
      refine iff_of_false (fun hc => hnotAlive (Prod.mk.inj (Option.some.inj hc)).2) fun hc => ?_
      have halive := (h.alive ref).mpr hc
      rw [he] at halive
      cases halive
    · rw [hother r heq]
      exact h.alive r
  · intro r e' hended
    by_cases heq : r = ref
    · rcases href with hr | ⟨-, hm⟩
      · rw [heq, hr] at hended
        cases hended
      · exact .inr (heq ▸ hm)
    · rw [hother r heq] at hended
      rcases h.ended r e' hended with hb | hm
      · rw [hbusy] at hb
        cases hb
        exact absurd rfl heq
      · exact .inr (hu r hm)

end Accounted

end Account

end PostgresQueue
