import PostgresQueue.PipeDescriptors

namespace PostgresQueue

open Library System

variable {τ : Type}

def WaitPc.stepsLeft : WaitPc → ℕ
  | .poll => 1
  | .requested => 5
  | .deadline => 4
  | .kill => 3
  | .select => 2

def After.stepsLeft (children : ℕ) : After → ℕ
  | .once => 4 + 2 * children
  | .batch _ => 4 + 2 * children
  | .drain rest => 1 + 2 * rest.length

/-- No fewer than the steps that a worker takes to return once a shutdown is requested, if every
child it polls has ended. -/
def Pc.stepsLeft (children : ℕ) : Pc → ℕ
  | .head | .recheck => 3 + 2 * children
  | .stopped => 2 + 2 * children
  | .batch _ | .sleep | .onceReturned _ => 4 + 2 * children
  | .select | .reapStale => 5 + 2 * children
  | .fill | .cleanup => 6 + 2 * children
  | .claimPeriodic => 9 + 2 * children
  | .claimOneOff => 10 + 2 * children
  | .drain rest => 1 + 2 * rest.length
  | .wait _ wpc _ after => wpc.stepsLeft + after.stepsLeft children
  | .returned | .keyError | .osError | .escaped _ => 0

namespace Main

variable (m : Main τ)

def stepsLeft : ℕ := m.pc.stepsLeft m.children.entries.length

def pollsInVain : Bool :=
  match m.pc with
  | .wait slot .poll _ _ => (m.os.child? slot.pid).any fun c => c.status.isNone
  | _ => false

end Main

section Steps

variable {cfg : WorkerConfig} {signals : Signals τ} {m m' : Main τ} {i : Input}

theorem Main.stepsLeft_goto (pc : Pc) :
    (m.goto pc).stepsLeft = pc.stepsLeft m.children.entries.length := rfl

theorem Main.stepsLeft_eq {pc : Pc} (hpc : m.pc = pc) :
    m.stepsLeft = pc.stepsLeft m.children.entries.length := by
  rw [stepsLeft, hpc]

theorem After.stepsLeft_pc (after : After) (n : ℕ) : after.pc.stepsLeft n = after.stepsLeft n := by
  cases after <;> rfl

theorem Main.attempt_children {mode : Mode} {isPeriodic : Bool} {started : Started}
    (he : m.attempt mode isPeriodic i = some (m', started)) : m'.children = m.children := by
  unfold attempt at he
  split at he
  · cases he
    rfl
  · split_ifs at he
    obtain ⟨o, -, heq⟩ := Option.map_eq_some_iff.mp he
    cases heq
    rfl
  · dsimp only at he
    split_ifs at he
    cases he
    rfl
  · cases he

theorem Main.popReady_left (fd : ℕ) (rest : List ℕ) :
    1 + (m.popReady fd rest).stepsLeft ≤ 4 + 2 * m.children.entries.length := by
  unfold popReady
  split
  · simp [stepsLeft_goto, Pc.stepsLeft]
    omega
  · split
    · simp [stepsLeft_goto, Pc.stepsLeft]
      omega
    · rename_i slot children hpop
      have hlength := Library.OrderedDict.length_pop? hpop
      simp only [stepsLeft, handOver, Pc.stepsLeft, WaitPc.stepsLeft, After.stepsLeft]
      omega

theorem Main.fillClaim_left {isPeriodic : Bool} {next : Pc} {n : ℕ}
    (hn : 1 + next.stepsLeft m.children.entries.length ≤ n)
    (hfill : 9 + 2 * m.children.entries.length ≤ n)
    (he : (m.attempt cfg.mode isPeriodic i).map (fun (m, started) =>
      match started with
      | .child slot => (m.register slot).goto .fill
      | _ => m.goto next) = some m') : 1 + m'.stepsLeft ≤ n := by
  obtain ⟨⟨m₁, started⟩, ha, rfl⟩ := Option.map_eq_some_iff.mp he
  have hsame := attempt_children ha
  cases started with
  | nothing | failed =>
    change 1 + next.stepsLeft m₁.children.entries.length ≤ n
    rw [hsame]
    exact hn
  | child slot =>
    have hset := Library.OrderedDict.length_set_le m₁.children slot.pid slot
    change 1 + (6 + 2 * (m₁.children.set slot.pid slot).entries.length) ≤ n
    rw [hsame] at hset ⊢
    omega

theorem Main.onceClaim_left {isPeriodic : Bool} {next : Pc} {n : ℕ}
    (hn : 1 + next.stepsLeft m.children.entries.length ≤ n)
    (hwait : 6 + 2 * m.children.entries.length ≤ n)
    (he : (m.attempt cfg.mode isPeriodic i).map (fun (m, started) =>
      match started with
      | .child slot => m.handOver slot .once
      | .failed => m.goto (.onceReturned true)
      | .nothing => m.goto next) = some m') : 1 + m'.stepsLeft ≤ n := by
  obtain ⟨⟨m₁, started⟩, ha, rfl⟩ := Option.map_eq_some_iff.mp he
  have hsame := attempt_children ha
  cases started with
  | nothing =>
    change 1 + next.stepsLeft m₁.children.entries.length ≤ n
    rw [hsame]
    exact hn
  | failed =>
    change 1 + (4 + 2 * m₁.children.entries.length) ≤ n
    rw [hsame]
    omega
  | child slot =>
    change 1 + (1 + (4 + 2 * m₁.children.entries.length)) ≤ n
    rw [hsame]
    omega

theorem Main.cleanUp_left (he : m.cleanUp cfg i = some m') :
    1 + m'.stepsLeft ≤ 6 + 2 * m.children.entries.length := by
  unfold cleanUp at he
  split at he
  · split at he
    · cases he
      simp only [stepsLeft, Pc.stepsLeft]
      omega
    · cases he
      simp only [stepsLeft_goto, Pc.stepsLeft]
      omega
  · cases he

theorem Main.reapStale_left {next : Pc}
    (hn : next.stepsLeft m.children.entries.length ≤ 4 + 2 * m.children.entries.length)
    (he : m.reapStale cfg next i = some m') :
    1 + m'.stepsLeft ≤ 5 + 2 * m.children.entries.length := by
  unfold reapStale at he
  split at he
  · split at he
    · cases he
      simp only [stepsLeft]
      omega
    · cases he
      simp only [stepsLeft_goto, Pc.stepsLeft]
      omega
  · cases he

variable [LinearOrder τ]

theorem Main.waitForChild_left {slot : LoopSlot} {wpc : WaitPc} {killed : Bool} {after : After}
    (hpc : m.pc = .wait slot wpc killed after)
    (he : m.waitForChild cfg signals slot killed after wpc i = some m') :
    1 + m'.stepsLeft ≤ m.stepsLeft + 5 * m.pollsInVain.toNat := by
  have hleft : m.stepsLeft = wpc.stepsLeft + after.stepsLeft m.children.entries.length := by
    rw [stepsLeft, hpc]
    rfl
  rw [hleft]
  unfold waitForChild at he
  split at he
  · split at he
    · cases he
      simp [stepsLeft_goto, Pc.stepsLeft, WaitPc.stepsLeft]
      omega
    · rename_i c hc
      split at he
      · rename_i hs
        have hvain : m.pollsInVain = true := by simp [pollsInVain, hpc, hc, hs]
        cases he
        simp only [stepsLeft_goto, Pc.stepsLeft, WaitPc.stepsLeft, hvain, Bool.toNat_true]
        omega
      · split_ifs at he
        · cases he
          simp only [stepsLeft_goto, After.stepsLeft_pc, WaitPc.stepsLeft]
          exact Nat.le_add_right _ _
        · cases he
          simp [stepsLeft_goto, Pc.stepsLeft, WaitPc.stepsLeft]
          omega
  · cases he
    split_ifs <;> simp only [stepsLeft_goto, Pc.stepsLeft, WaitPc.stepsLeft] <;> omega
  · cases he
    split_ifs <;> simp only [stepsLeft_goto, Pc.stepsLeft, WaitPc.stepsLeft] <;> omega
  · cases he
    simp only [stepsLeft, Pc.stepsLeft, WaitPc.stepsLeft]
    omega
  · cases he
    simp only [stepsLeft_goto, Pc.stepsLeft, WaitPc.stepsLeft]
    omega
  · cases he

theorem Main.concurrentStep_left (hr : signals.requested)
    (he : m.concurrentStep cfg signals i = some m') :
    1 + m'.stepsLeft ≤ m.stepsLeft + 5 * m.pollsInVain.toNat := by
  have hstep : 1 + m'.stepsLeft ≤ m.stepsLeft →
      1 + m'.stepsLeft ≤ m.stepsLeft + 5 * m.pollsInVain.toNat :=
    fun h => h.trans (Nat.le_add_right _ _)
  unfold concurrentStep at he
  split at he
  all_goals rename_i hpc
  · cases he
    apply hstep
    rw [stepsLeft_eq hpc, if_pos hr]
    simp only [stepsLeft_goto, Pc.stepsLeft]
    omega
  · cases he
    apply hstep
    rw [stepsLeft_eq hpc]
    simp only [hr, Bool.not_true, Bool.and_false, Bool.false_eq_true, if_false, stepsLeft_goto,
      Pc.stepsLeft]
    omega
  · apply hstep
    rw [stepsLeft_eq hpc]
    refine fillClaim_left ?_ ?_ he
    · simp only [Pc.stepsLeft]
      omega
    · simp only [Pc.stepsLeft]
      omega
  · apply hstep
    rw [stepsLeft_eq hpc]
    refine fillClaim_left ?_ ?_ he
    · simp only [Pc.stepsLeft]
      omega
    · simp only [Pc.stepsLeft]
      omega
  · split_ifs at he
    cases he
    apply hstep
    rw [stepsLeft_eq hpc]
    simp only [stepsLeft_goto, Pc.stepsLeft]
    omega
  · split_ifs at he
    cases he
    apply hstep
    rw [stepsLeft_eq hpc]
    simp only [stepsLeft_goto, Pc.stepsLeft]
    omega
  · cases he
    apply hstep
    rw [stepsLeft_eq hpc]
    simp only [stepsLeft_goto, Pc.stepsLeft]
    omega
  · cases he
    apply hstep
    rw [stepsLeft_eq hpc]
    exact popReady_left _ _
  · exact waitForChild_left hpc he
  · cases he
    apply hstep
    rw [stepsLeft_eq hpc, if_pos hr]
    simp only [stepsLeft_goto, Pc.stepsLeft]
    omega
  · apply hstep
    rw [stepsLeft_eq hpc]
    exact cleanUp_left he
  · apply hstep
    rw [stepsLeft_eq hpc]
    refine reapStale_left ?_ he
    simp only [Pc.stepsLeft]
    omega
  · cases he
    apply hstep
    rw [stepsLeft_eq hpc]
    simp only [stepsLeft_goto, Pc.stepsLeft, Library.OrderedDict.values, List.length_map]
    omega
  · cases he
    apply hstep
    rw [stepsLeft_eq hpc]
    simp only [stepsLeft_goto, Pc.stepsLeft]
    omega
  · cases he
    apply hstep
    rw [stepsLeft_eq hpc]
    simp only [stepsLeft, handOver, Pc.stepsLeft, WaitPc.stepsLeft, After.stepsLeft,
      List.length_cons]
    omega
  · cases he

theorem Main.onceStep_left (he : m.onceStep cfg signals i = some m') :
    1 + m'.stepsLeft ≤ m.stepsLeft + 5 * m.pollsInVain.toNat := by
  unfold onceStep at he
  split at he
  all_goals rename_i hpc
  · refine le_trans ?_ (Nat.le_add_right _ _)
    rw [stepsLeft_eq hpc]
    refine onceClaim_left ?_ ?_ he
    · simp only [Pc.stepsLeft]
      omega
    · simp only [Pc.stepsLeft]
      omega
  · refine le_trans ?_ (Nat.le_add_right _ _)
    rw [stepsLeft_eq hpc]
    refine onceClaim_left ?_ ?_ he
    · simp only [Pc.stepsLeft]
      omega
    · simp only [Pc.stepsLeft]
      omega
  · exact waitForChild_left hpc he
  · cases he

theorem Main.sequentialStep_left (hr : signals.requested)
    (he : m.sequentialStep cfg signals i = some m') :
    1 + m'.stepsLeft ≤ m.stepsLeft + 5 * m.pollsInVain.toNat := by
  have hstep : 1 + m'.stepsLeft ≤ m.stepsLeft →
      1 + m'.stepsLeft ≤ m.stepsLeft + 5 * m.pollsInVain.toNat :=
    fun h => h.trans (Nat.le_add_right _ _)
  unfold sequentialStep at he
  split at he
  all_goals rename_i hpc
  · cases he
    apply hstep
    rw [stepsLeft_eq hpc, if_pos hr]
    simp only [stepsLeft_goto, Pc.stepsLeft]
    omega
  · cases he
    apply hstep
    rw [stepsLeft_eq hpc]
    split_ifs <;> simp only [stepsLeft_goto, Pc.stepsLeft] <;> omega
  · cases he
    apply hstep
    rw [stepsLeft_eq hpc, if_pos hr]
    simp only [stepsLeft_goto, Pc.stepsLeft]
    omega
  · apply hstep
    rw [stepsLeft_eq hpc]
    exact cleanUp_left he
  · apply hstep
    rw [stepsLeft_eq hpc]
    refine reapStale_left ?_ he
    simp only [Pc.stepsLeft]
    omega
  · cases he
    apply hstep
    rw [stepsLeft_eq hpc]
    simp only [stepsLeft_goto, Pc.stepsLeft]
    omega
  · cases he
    apply hstep
    rw [stepsLeft_eq hpc]
    simp only [stepsLeft_goto, Pc.stepsLeft]
    omega
  · exact onceStep_left he

theorem Main.step_left (hr : signals.requested) (he : m.step cfg signals i = some m') :
    1 + m'.stepsLeft ≤ m.stepsLeft + 5 * m.pollsInVain.toNat := by
  unfold step at he
  split at he
  exacts [sequentialStep_left hr he, concurrentStep_left hr he]

omit [LinearOrder τ] in
theorem Consistent.stepsLeft_le (h : Consistent cfg m) : m.stepsLeft ≤ 2 * cfg.capacity + 8 := by
  have hroom := h.room
  have hclaim := h.claimRoom
  simp only [Main.live, Library.OrderedDict.values] at hroom hclaim
  unfold Main.stepsLeft
  cases hpc : m.pc with
  | wait slot wpc killed after =>
    have hwpc : wpc.stepsLeft ≤ 5 := by cases wpc <;> decide
    rw [hpc] at hroom
    cases after <;>
      simp [Pc.draining, Pc.held, After.draining, After.rest] at hroom <;>
      simp only [Pc.stepsLeft, After.stepsLeft] <;>
      omega
  | claimOneOff | claimPeriodic =>
    rw [hpc] at hclaim
    have hlt := hclaim rfl
    simp [Pc.draining, Pc.held] at hlt
    simp only [Pc.stepsLeft]
    omega
  | drain rest =>
    rw [hpc] at hroom
    simp [Pc.draining, Pc.held] at hroom
    simp only [Pc.stepsLeft]
    omega
  | returned | keyError | osError | escaped => exact Nat.zero_le _
  | _ =>
    rw [hpc] at hroom
    simp [Pc.draining, Pc.held] at hroom
    simp only [Pc.stepsLeft]
    omega

end Steps

section Modes

def Pc.fits : Mode → Pc → Bool
  | .sequential, .fill | .sequential, .select | .sequential, .batch _ | .sequential, .drain _
  | .sequential, .wait _ _ _ (.batch _) | .sequential, .wait _ _ _ (.drain _) => false
  | .concurrent, .sleep | .concurrent, .onceReturned _ | .concurrent, .wait _ _ _ .once => false
  | _, _ => true

variable {cfg : WorkerConfig} {signals : Signals τ} {m m' : Main τ} {i : Input}

theorem Main.cleanUp_fits (he : m.cleanUp cfg i = some m') (mode : Mode) : m'.pc.fits mode := by
  unfold cleanUp at he
  split at he
  · split at he
    all_goals
      cases he
      cases mode <;> rfl
  · cases he

theorem Main.reapStale_fits {next : Pc} {mode : Mode} (hn : next.fits mode)
    (he : m.reapStale cfg next i = some m') : m'.pc.fits mode := by
  unfold reapStale at he
  split at he
  · split at he
    · cases he
      exact hn
    · cases he
      cases mode <;> rfl
  · cases he

theorem Main.popReady_fits (fd : ℕ) (rest : List ℕ) : (m.popReady fd rest).pc.fits .concurrent := by
  unfold popReady
  split
  · rfl
  · split <;> rfl

theorem Main.cleanUp_goes_on : ∃ i, (m.cleanUp cfg i).isSome := by
  refine ⟨.cleanup ⟨0, 0, fun _ => .ok 0, fun _ => .ok 0⟩, ?_⟩
  simp only [cleanUp]
  split <;> rfl

theorem Main.reapStale_goes_on (next : Pc) : ∃ i, (m.reapStale cfg next i).isSome := by
  refine ⟨.reapStale ⟨0, fun _ => .ok 0⟩, ?_⟩
  simp only [reapStale]
  split <;> rfl

variable [LinearOrder τ]

theorem Main.waitForChild_fits {slot : LoopSlot} {wpc : WaitPc} {killed : Bool} {after : After}
    {mode : Mode} (hfits : (Pc.wait slot wpc killed after).fits mode)
    (he : m.waitForChild cfg signals slot killed after wpc i = some m') : m'.pc.fits mode := by
  rcases waitForChild_pc he with hpc | hpc | ⟨wpc', killed', hpc⟩
  all_goals
    rw [hpc]
    cases mode <;> cases after <;> first | rfl | cases hfits

theorem Main.concurrentStep_fits (hfits : m.pc.fits .concurrent)
    (he : m.concurrentStep cfg signals i = some m') : m'.pc.fits .concurrent := by
  unfold concurrentStep at he
  split at he
  · cases he
    split_ifs <;> rfl
  · cases he
    split_ifs <;> rfl
  · obtain ⟨⟨m₁, started⟩, -, rfl⟩ := Option.map_eq_some_iff.mp he
    cases started <;> rfl
  · obtain ⟨⟨m₁, started⟩, -, rfl⟩ := Option.map_eq_some_iff.mp he
    cases started <;> rfl
  · split_ifs at he
    cases he
    rfl
  · split_ifs at he
    cases he
    rfl
  · cases he
    rfl
  · cases he
    exact popReady_fits _ _
  · rename_i hpc
    exact waitForChild_fits (hpc ▸ hfits) he
  · cases he
    split_ifs <;> rfl
  · exact cleanUp_fits he _
  · exact reapStale_fits rfl he
  · cases he
    rfl
  · cases he
    rfl
  · cases he
    rfl
  · cases he

theorem Main.onceStep_fits (hfits : m.pc.fits .sequential)
    (he : m.onceStep cfg signals i = some m') : m'.pc.fits .sequential := by
  unfold onceStep at he
  split at he
  · obtain ⟨⟨m₁, started⟩, -, rfl⟩ := Option.map_eq_some_iff.mp he
    cases started <;> rfl
  · obtain ⟨⟨m₁, started⟩, -, rfl⟩ := Option.map_eq_some_iff.mp he
    cases started <;> rfl
  · rename_i hpc
    exact waitForChild_fits (hpc ▸ hfits) he
  · cases he

theorem Main.sequentialStep_fits (hfits : m.pc.fits .sequential)
    (he : m.sequentialStep cfg signals i = some m') : m'.pc.fits .sequential := by
  unfold sequentialStep at he
  split at he
  · cases he
    split_ifs <;> rfl
  · cases he
    split_ifs <;> rfl
  · cases he
    split_ifs <;> rfl
  · exact cleanUp_fits he _
  · exact reapStale_fits rfl he
  · cases he
    rfl
  · cases he
    rfl
  · exact onceStep_fits hfits he

theorem Main.step_fits (hfits : m.pc.fits cfg.mode) (he : m.step cfg signals i = some m') :
    m'.pc.fits cfg.mode := by
  unfold step at he
  cases hmode : cfg.mode with
  | sequential =>
    rw [hmode] at he hfits
    exact sequentialStep_fits hfits he
  | concurrent =>
    rw [hmode] at he hfits
    exact concurrentStep_fits hfits he

theorem runWorker_fits {drain : DrainTimeout τ} {start : τ} {w : Worker τ}
    (h : (runWorker cfg drain start).Reachable free w) : w.main.pc.fits cfg.mode := by
  refine h.invariant (I := fun w => w.main.pc.fits cfg.mode) ?_ fun w e w' hi _ he => ?_
  · change Pc.head.fits cfg.mode
    cases cfg.mode <;> rfl
  · cases e with
    | signal e =>
      obtain ⟨s, -, rfl⟩ := Option.map_eq_some_iff.mp he
      exact hi
    | childEnds pid status =>
      cases he
      exact hi
    | main i =>
      simp only [runWorker] at he
      split_ifs at he
      obtain ⟨m, hm, rfl⟩ := Option.map_eq_some_iff.mp he
      exact Main.step_fits hi hm

theorem Main.waitForChild_goes_on (cfg : WorkerConfig) (m : Main τ) (signals : Signals τ)
    (slot : LoopSlot) (wpc : WaitPc) (killed : Bool) (after : After) : ∃ i,
      (m.waitForChild cfg signals slot killed after wpc i).isSome := by
  cases wpc with
  | poll =>
    refine ⟨.wait4 ⟨"", "", ""⟩, ?_⟩
    simp only [waitForChild]
    split
    · rfl
    · split
      · rfl
      · split_ifs <;> rfl
  | requested | deadline | kill | select => exact ⟨.next, rfl⟩

theorem Main.goes_on (hc : Consistent cfg m) (hfits : m.pc.fits cfg.mode) (signals : Signals τ) :
    m.pc = .returned ∨ (∃ e, m.pc = .escaped e) ∨ ∃ i, (m.step cfg signals i).isSome := by
  have hok := hc.succeeds
  unfold step
  cases hmode : cfg.mode with
  | sequential =>
    rw [hmode] at hfits
    simp only [sequentialStep, onceStep]
    cases hpc : m.pc with
    | returned => exact .inl rfl
    | escaped e => exact .inr (.inl ⟨e, rfl⟩)
    | keyError | osError => rw [hpc] at hok; cases hok
    | fill | select | batch | drain => rw [hpc] at hfits; cases hfits
    | head | onceReturned | recheck | sleep | stopped => exact .inr (.inr ⟨.next, rfl⟩)
    | claimOneOff | claimPeriodic => exact .inr (.inr ⟨.claim .nothing, rfl⟩)
    | cleanup => exact .inr (.inr cleanUp_goes_on)
    | reapStale => exact .inr (.inr (reapStale_goes_on _))
    | wait slot wpc killed after =>
      obtain ⟨i, hi⟩ := waitForChild_goes_on cfg m signals slot wpc killed after
      exact .inr (.inr ⟨i, hi⟩)
  | concurrent =>
    rw [hmode] at hfits
    simp only [concurrentStep]
    cases hpc : m.pc with
    | returned => exact .inl rfl
    | escaped e => exact .inr (.inl ⟨e, rfl⟩)
    | keyError | osError => rw [hpc] at hok; cases hok
    | sleep | onceReturned => rw [hpc] at hfits; cases hfits
    | head | fill | recheck | stopped => exact .inr (.inr ⟨.next, rfl⟩)
    | claimOneOff | claimPeriodic => exact .inr (.inr ⟨.claim .nothing, rfl⟩)
    | select =>
      refine .inr (.inr ?_)
      by_cases hempty : m.children.entries = []
      · exact ⟨.next, by simp [hempty]⟩
      · exact ⟨.ready [], by simp [hempty]⟩
    | batch ready => cases ready <;> exact .inr (.inr ⟨.next, rfl⟩)
    | drain rest => cases rest <;> exact .inr (.inr ⟨.next, rfl⟩)
    | cleanup => exact .inr (.inr cleanUp_goes_on)
    | reapStale => exact .inr (.inr (reapStale_goes_on _))
    | wait slot wpc killed after =>
      obtain ⟨i, hi⟩ := waitForChild_goes_on cfg m signals slot wpc killed after
      exact .inr (.inr ⟨i, hi⟩)

end Modes

end PostgresQueue
