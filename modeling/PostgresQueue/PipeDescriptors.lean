import Mathlib.Data.List.Perm.Subperm
import PostgresQueue.Bookkeeping

namespace PostgresQueue

open Library

/-- How the calls between a claim and its child end. `pipe` gives the read end and the write end. -/
structure ForkCalls where
  resolveFunctionPath : Except TaskError Unit
  deserialize : Except TaskError Unit
  pipe : Except TaskError (ℕ × ℕ)
  fork : Except TaskError ℕ

namespace ForkCalls

variable (c : ForkCalls)

/-- `_fork_child` in the parent, and the descriptors that are open after it. -/
def forkChild (openFds : List ℕ) : Except TaskError (ℕ × ℕ) × List ℕ :=
  match c.pipe with
  | .error e => (.error e, openFds)
  | .ok (readFd, writeFd) =>
    let openFds := writeFd :: readFd :: openFds
    match c.fork with
    | .error e => (.error e, openFds)
    | .ok childPid => (.ok (childPid, readFd), openFds.erase writeFd)

def start (openFds : List ℕ) : Except TaskError (ℕ × ℕ) × List ℕ :=
  match c.resolveFunctionPath with
  | .error e => (.error e, openFds)
  | .ok () =>
    match c.deserialize with
    | .error e => (.error e, openFds)
    | .ok () => c.forkChild openFds

def attempt (run : ChildSlot) (elapsed : String) : Attempt :=
  match c.start [] with
  | (.error e, leaked) => .notStarted run e elapsed leaked
  | (.ok (pid, readFd), _) => .forked run pid readFd

def Fresh (openFds : List ℕ) : Prop :=
  ∀ ends, c.pipe = .ok ends → ends.1 ≠ ends.2 ∧ ends.1 ∉ openFds ∧ ends.2 ∉ openFds

instance (openFds : List ℕ) : Decidable (c.Fresh openFds) :=
  match h : c.pipe with
  | .error _ => isTrue fun _ he => by rw [h] at he; cases he
  | .ok ends => decidable_of_iff (ends.1 ≠ ends.2 ∧ ends.1 ∉ openFds ∧ ends.2 ∉ openFds) (by
      unfold Fresh
      rw [h]
      simp)

def ForkFails : Prop :=
  c.resolveFunctionPath = .ok () ∧ c.deserialize = .ok () ∧ c.pipe.isOk = true ∧ c.fork.isOk = false

theorem start_cases (openFds : List ℕ) :
    (∃ e, c.start openFds = (.error e, openFds) ∧ ¬c.ForkFails) ∨
    (∃ e ends, c.start openFds = (.error e, ends.2 :: ends.1 :: openFds) ∧ c.ForkFails ∧
      c.pipe = .ok ends) ∨
    ∃ pid ends, c.start openFds = (.ok (pid, ends.1), ends.1 :: openFds) ∧ ¬c.ForkFails ∧
      c.pipe = .ok ends := by
  unfold start forkChild ForkFails
  cases c.resolveFunctionPath with
  | error e => exact .inl ⟨e, rfl, fun h => by cases h.1⟩
  | ok =>
    cases c.deserialize with
    | error e => exact .inl ⟨e, rfl, fun h => by cases h.2.1⟩
    | ok =>
      cases c.pipe with
      | error e => exact .inl ⟨e, rfl, fun h => by cases h.2.2.1⟩
      | ok ends =>
        cases c.fork with
        | error e => exact .inr (.inl ⟨e, ends, rfl, ⟨rfl, rfl, rfl, rfl⟩, rfl⟩)
        | ok pid =>
          refine .inr (.inr ⟨pid, ends, ?_, (fun h => by cases h.2.2.2), rfl⟩)
          simp

end ForkCalls

def Input.starts : Input → Bool
  | .claim (.notStarted ..) | .claim (.forked ..) => true
  | _ => false

section Steps

variable {τ : Type}

inductive OsStep (i : Input) (m m' : Main τ) : Prop
  | keeps (input : i.starts = false) (os : m'.os = m.os) (reaped : m'.log.reaped = m.log.reaped)
  | leaks (run : ChildSlot) (e : TaskError) (elapsed : String) (leaked : List ℕ)
      (input : i = .claim (.notStarted run e elapsed leaked))
      (os : m'.os = { m.os with openFds := leaked ++ m.os.openFds })
      (reaped : m'.log.reaped = m.log.reaped)
  | forks (run : ChildSlot) (pid readFd : ℕ) (input : i = .claim (.forked run pid readFd))
      (fresh : m.os.CanFork pid readFd) (os : m'.os = m.os.fork pid readFd)
      (reaped : m'.log.reaped = m.log.reaped)
  | reaps (input : i.starts = false) (slot : LoopSlot) (child : ℕ × ChildExit)
      (opened : slot.readFd ∈ m.os.openFds)
      (os : m'.os = m.os.reap slot.pid slot.readFd)
      (reaped : m'.log.reaped = m.log.reaped ++ [child])

variable {cfg : WorkerConfig} {signals : Signals τ} {m m' : Main τ} {i : Input}

theorem OsStep.trans_keeps {m₁ : Main τ} (h : OsStep i m m₁) (hos : m'.os = m₁.os)
    (hreaped : m'.log.reaped = m₁.log.reaped) : OsStep i m m' := by
  cases h with
  | keeps input os reaped => exact .keeps input (hos.trans os) (hreaped.trans reaped)
  | leaks run e elapsed leaked input os reaped =>
    exact .leaks run e elapsed leaked input (hos.trans os) (hreaped.trans reaped)
  | forks run pid readFd input fresh os reaped =>
    exact .forks run pid readFd input fresh (hos.trans os) (hreaped.trans reaped)
  | reaps input slot child opened os reaped =>
    exact .reaps input slot child opened (hos.trans os) (hreaped.trans reaped)

theorem attempt_osStep {mode : Mode} {isPeriodic : Bool} {started : Started}
    (he : m.attempt mode isPeriodic i = some (m', started)) : OsStep i m m' := by
  unfold Main.attempt at he
  split at he
  · cases he
    exact .keeps rfl rfl rfl
  · split_ifs at he
    obtain ⟨o, -, heq⟩ := Option.map_eq_some_iff.mp he
    cases heq
    exact .leaks _ _ _ _ rfl rfl rfl
  · dsimp only at he
    split_ifs at he with hc
    cases he
    exact .forks _ _ _ rfl hc.2 rfl rfl
  · cases he

theorem claim_osStep {mode : Mode} {isPeriodic : Bool} {next : Main τ × Started → Main τ}
    (hnext : ∀ r, (next r).os = r.1.os ∧ (next r).log.reaped = r.1.log.reaped)
    (he : (m.attempt mode isPeriodic i).map next = some m') : OsStep i m m' := by
  obtain ⟨r, ha, rfl⟩ := Option.map_eq_some_iff.mp he
  exact (attempt_osStep ha).trans_keeps (hnext r).1 (hnext r).2

theorem cleanUp_osStep (he : m.cleanUp cfg i = some m') : OsStep i m m' := by
  unfold Main.cleanUp at he
  split at he
  · split at he
    · cases he
      exact .keeps rfl rfl rfl
    · cases he
      exact .keeps rfl rfl rfl
  · cases he

theorem reapStale_osStep {next : Pc} (he : m.reapStale cfg next i = some m') : OsStep i m m' := by
  unfold Main.reapStale at he
  split at he
  · split at he
    · cases he
      exact .keeps rfl rfl rfl
    · cases he
      exact .keeps rfl rfl rfl
  · cases he

theorem popReady_osStep (fd : ℕ) (rest : List ℕ) : OsStep .next m (m.popReady fd rest) := by
  unfold Main.popReady
  split
  · exact .keeps rfl rfl rfl
  · split
    · exact .keeps rfl rfl rfl
    · exact .keeps rfl rfl rfl

variable [LinearOrder τ]

theorem waitForChild_osStep {slot : LoopSlot} {killed : Bool} {after : After} {wpc : WaitPc}
    (he : m.waitForChild cfg signals slot killed after wpc i = some m') : OsStep i m m' := by
  unfold Main.waitForChild at he
  split at he
  · split at he
    · cases he
      exact .keeps rfl rfl rfl
    · split at he
      · cases he
        exact .keeps rfl rfl rfl
      · split_ifs at he with hopen
        · cases he
          exact .reaps rfl slot _ hopen rfl rfl
        · cases he
          exact .keeps rfl rfl rfl
  · cases he
    exact .keeps rfl rfl rfl
  · cases he
    exact .keeps rfl rfl rfl
  · cases he
    exact .keeps rfl rfl rfl
  · cases he
    exact .keeps rfl rfl rfl
  · cases he

theorem concurrentStep_osStep (he : m.concurrentStep cfg signals i = some m') : OsStep i m m' := by
  unfold Main.concurrentStep at he
  split at he
  · cases he
    exact .keeps rfl rfl rfl
  · cases he
    exact .keeps rfl rfl rfl
  · refine claim_osStep ?_ he
    rintro ⟨m₁, started⟩
    cases started <;> exact ⟨rfl, rfl⟩
  · refine claim_osStep ?_ he
    rintro ⟨m₁, started⟩
    cases started <;> exact ⟨rfl, rfl⟩
  · split_ifs at he
    cases he
    exact .keeps rfl rfl rfl
  · split_ifs at he
    cases he
    exact .keeps rfl rfl rfl
  · cases he
    exact .keeps rfl rfl rfl
  · cases he
    exact popReady_osStep _ _
  · exact waitForChild_osStep he
  · cases he
    exact .keeps rfl rfl rfl
  · exact cleanUp_osStep he
  · exact reapStale_osStep he
  · cases he
    exact .keeps rfl rfl rfl
  · cases he
    exact .keeps rfl rfl rfl
  · cases he
    exact .keeps rfl rfl rfl
  · cases he

theorem onceStep_osStep (he : m.onceStep cfg signals i = some m') : OsStep i m m' := by
  unfold Main.onceStep at he
  split at he
  · refine claim_osStep ?_ he
    rintro ⟨m₁, started⟩
    cases started <;> exact ⟨rfl, rfl⟩
  · refine claim_osStep ?_ he
    rintro ⟨m₁, started⟩
    cases started <;> exact ⟨rfl, rfl⟩
  · exact waitForChild_osStep he
  · cases he

theorem sequentialStep_osStep (he : m.sequentialStep cfg signals i = some m') : OsStep i m m' := by
  unfold Main.sequentialStep at he
  split at he
  · cases he
    exact .keeps rfl rfl rfl
  · cases he
    exact .keeps rfl rfl rfl
  · cases he
    exact .keeps rfl rfl rfl
  · exact cleanUp_osStep he
  · exact reapStale_osStep he
  · cases he
    exact .keeps rfl rfl rfl
  · cases he
    exact .keeps rfl rfl rfl
  · exact onceStep_osStep he

theorem step_osStep (he : m.step cfg signals i = some m') : OsStep i m m' := by
  unfold Main.step at he
  cases hmode : cfg.mode with
  | sequential =>
    rw [hmode] at he
    exact sequentialStep_osStep he
  | concurrent =>
    rw [hmode] at he
    exact concurrentStep_osStep he

end Steps

inductive DescriptorEvent (τ : Type)
  | attempt (c : ForkCalls) (run : ChildSlot) (elapsed : String)
  | other (e : WorkerEvent τ)

def WorkerEvent.starts {τ : Type} : WorkerEvent τ → Bool
  | .main i => i.starts
  | _ => false

def OwnsPipes {τ : Type} (w : Worker τ) : Prop :=
  w.main.os.openFds.Perm (w.main.live.map LoopSlot.readFd)

def ForksOrOpensNone {τ : Type} (_ : Worker τ) : DescriptorEvent τ → Prop
  | .attempt c _ _ => ¬c.ForkFails
  | .other _ => True

structure PipeInv {τ : Type} (cfg : WorkerConfig) (w : Worker τ) : Prop where
  consistent : Consistent cfg w.main
  nodup : w.main.os.openFds.Nodup

section Books

variable {τ : Type} {cfg : WorkerConfig} {w : Worker τ} {m m' : Main τ} {i : Input}

theorem PipeInv.owns_iff (h : PipeInv cfg w) :
    OwnsPipes w ↔ w.main.os.openFds.length + w.main.log.reaped.length = w.main.os.forks := by
  have hledger := h.consistent.ledger
  have hforks := hledger.forks.length_eq
  rw [List.length_append, List.length_map, List.length_map, List.length_range] at hforks
  have hsub : (w.main.live.map LoopSlot.readFd).Subperm w.main.os.openFds := by
    refine List.subperm_of_subset hledger.fds fun fd hfd => ?_
    obtain ⟨slot, hslot, rfl⟩ := List.mem_map.mp hfd
    exact hledger.opened slot hslot
  constructor
  · intro hperm
    have hlength := hperm.length_eq
    rw [List.length_map] at hlength
    omega
  · intro hbooks
    refine (hsub.perm_of_length_le ?_).symm
    rw [List.length_map]
    omega

structure Surplus (n : ℕ) (m m' : Main τ) : Prop where
  nodup : m'.os.openFds.Nodup
  length : m'.os.openFds.length + m'.log.reaped.length + m.os.forks =
    m.os.openFds.length + m.log.reaped.length + m'.os.forks + n

theorem filter_ne_length {l : List ℕ} {a : ℕ} (hl : l.Nodup) (ha : a ∈ l) :
    (l.filter fun b => b ≠ a).length + 1 = l.length := by
  have herase : (l.filter fun b => b ≠ a) = l.erase a := by
    rw [hl.erase_eq_filter]
    apply List.filter_congr
    intro b _
    by_cases hb : b = a <;> simp [hb]
  rw [herase]
  exact List.length_erase_add_one ha

theorem Surplus.of_eq (hnodup : m.os.openFds.Nodup) (hos : m'.os.openFds = m.os.openFds)
    (hforks : m'.os.forks = m.os.forks) (hreaped : m'.log.reaped = m.log.reaped) :
    Surplus 0 m m' := by
  refine ⟨hos ▸ hnodup, ?_⟩
  rw [hos, hforks, hreaped]
  omega

theorem OsStep.surplus (h : OsStep i m m') (hnodup : m.os.openFds.Nodup) :
    (∃ run e elapsed leaked, i = .claim (.notStarted run e elapsed leaked) ∧
      m'.os.openFds = leaked ++ m.os.openFds ∧ m'.os.forks = m.os.forks ∧
      m'.log.reaped = m.log.reaped) ∨ Surplus 0 m m' := by
  cases h with
  | keeps input os reaped => exact .inr (.of_eq hnodup (by rw [os]) (by rw [os]) reaped)
  | leaks run e elapsed leaked input os reaped =>
    exact .inl ⟨run, e, elapsed, leaked, input, by rw [os], by rw [os], reaped⟩
  | forks run pid readFd input fresh os reaped =>
    refine .inr ⟨?_, ?_⟩
    · rw [os]
      exact List.nodup_cons.mpr ⟨fresh.2, hnodup⟩
    · rw [os, reaped]
      simp only [Os.fork, List.length_cons]
      omega
  | reaps input slot child opened os reaped =>
    have hlength := filter_ne_length hnodup opened
    refine .inr ⟨?_, ?_⟩
    · rw [os]
      exact hnodup.filter _
    · rw [os, reaped]
      simp only [Os.reap, List.length_append, List.length_singleton]
      omega

theorem attempt_surplus {c : ForkCalls} {run : ChildSlot} {elapsed : String}
    (h : OsStep (.claim (c.attempt run elapsed)) m m') (hnodup : m.os.openFds.Nodup)
    (hfresh : c.Fresh m.os.openFds) :
    (¬c.ForkFails ∧ Surplus 0 m m') ∨ (c.ForkFails ∧ Surplus 2 m m') := by
  rcases c.start_cases [] with ⟨e, hstart, hok⟩ | ⟨e, ends, hstart, hfails, hpipe⟩ |
    ⟨pid, ends, hstart, hok, -⟩
  · refine .inl ⟨hok, ?_⟩
    rcases h.surplus hnodup with ⟨run', e', elapsed', leaked, hi, hopen, hforks, hreaped⟩ | hs
    · simp only [ForkCalls.attempt, hstart, Input.claim.injEq, Attempt.notStarted.injEq] at hi
      obtain ⟨-, -, -, rfl⟩ := hi
      exact .of_eq hnodup hopen hforks hreaped
    · exact hs
  · refine .inr ⟨hfails, ?_⟩
    obtain ⟨hne, hread, hwrite⟩ := hfresh ends hpipe
    rw [ForkCalls.attempt, hstart] at h
    cases h with
    | keeps input => cases input
    | leaks run' e' elapsed' leaked input os reaped =>
      cases input
      refine ⟨?_, ?_⟩
      · rw [os]
        simp [hnodup, hread, hwrite, hne.symm]
      · rw [os, reaped]
        simp only [List.length_append, List.length_cons, List.length_nil]
        omega
    | forks run' pid readFd input => cases input
    | reaps input => cases input
  · refine .inl ⟨hok, ?_⟩
    rcases h.surplus hnodup with ⟨run', e', elapsed', leaked, hi, -⟩ | hs
    · simp only [ForkCalls.attempt, hstart] at hi
      cases hi
    · exact hs

end Books

section Runs

variable {τ : Type} [LinearOrder τ]

/-- `run_worker`, where each claim ends as the calls after it do. -/
def pipedWorker (cfg : WorkerConfig) (drain : DrainTimeout τ) (start : τ) :
    System (Worker τ) (DescriptorEvent τ) where
  init := (runWorker cfg drain start).init
  step w
    | .attempt c run elapsed =>
      if c.Fresh w.main.os.openFds then
        (runWorker cfg drain start).step w (.main (.claim (c.attempt run elapsed)))
      else none
    | .other e => if e.starts then none else (runWorker cfg drain start).step w e

variable {cfg : WorkerConfig} {drain : DrainTimeout τ} {start : τ} {w w' : Worker τ}

theorem main_step {i : Input} (he : (runWorker cfg drain start).step w (.main i) = some w') :
    w.main.step cfg w.signals i = some w'.main := by
  simp only [runWorker] at he
  split_ifs at he
  obtain ⟨m, hm, rfl⟩ := Option.map_eq_some_iff.mp he
  exact hm

theorem other_surplus {e : WorkerEvent τ} (hnodup : w.main.os.openFds.Nodup)
    (hother : e.starts = false) (he : (runWorker cfg drain start).step w e = some w') :
    Surplus 0 w.main w'.main := by
  cases e with
  | signal e =>
    obtain ⟨s, -, rfl⟩ := Option.map_eq_some_iff.mp he
    exact .of_eq hnodup rfl rfl rfl
  | childEnds pid status =>
    cases he
    exact .of_eq hnodup rfl rfl rfl
  | main i =>
    rcases (step_osStep (main_step he)).surplus hnodup with ⟨run, e, elapsed, leaked, rfl, -⟩ | hs
    · cases hother
    · exact hs

theorem pipedWorker_event {e : DescriptorEvent τ}
    (he : (pipedWorker cfg drain start).step w e = some w') :
    ∃ e', (runWorker cfg drain start).step w e' = some w' := by
  cases e with
  | attempt c run elapsed =>
    simp only [pipedWorker] at he
    split_ifs at he
    exact ⟨_, he⟩
  | other e =>
    simp only [pipedWorker] at he
    split_ifs at he
    exact ⟨_, he⟩

theorem pipedWorker_surplus {e : DescriptorEvent τ} (hnodup : w.main.os.openFds.Nodup)
    (he : (pipedWorker cfg drain start).step w e = some w') :
    (ForksOrOpensNone w e ∧ Surplus 0 w.main w'.main) ∨
    (¬ForksOrOpensNone w e ∧ Surplus 2 w.main w'.main) := by
  cases e with
  | attempt c run elapsed =>
    simp only [pipedWorker] at he
    split_ifs at he with hfresh
    rcases attempt_surplus (step_osStep (main_step he)) hnodup hfresh with h | ⟨hfails, hs⟩
    · exact .inl h
    · exact .inr ⟨not_not.mpr hfails, hs⟩
  | other e =>
    simp only [pipedWorker] at he
    split_ifs at he with hother
    exact .inl ⟨trivial, other_surplus hnodup (Bool.not_eq_true _ ▸ hother) he⟩

theorem PipeInv.step {e : DescriptorEvent τ} (h : PipeInv cfg w)
    (he : (pipedWorker cfg drain start).step w e = some w') : PipeInv cfg w' := by
  obtain ⟨e', he'⟩ := pipedWorker_event he
  refine ⟨h.consistent.event he', ?_⟩
  rcases pipedWorker_surplus h.nodup he with ⟨-, hs⟩ | ⟨-, hs⟩
  · exact hs.nodup
  · exact hs.nodup

theorem PipeInv.init (cfg : WorkerConfig) (drain : DrainTimeout τ) (start : τ) :
    PipeInv cfg (runWorker cfg drain start).init :=
  ⟨Consistent.init cfg, List.nodup_nil⟩

theorem owns_step_iff {e : DescriptorEvent τ} (h : PipeInv cfg w) (howns : OwnsPipes w)
    (he : (pipedWorker cfg drain start).step w e = some w') :
    OwnsPipes w' ↔ ForksOrOpensNone w e := by
  have hbooks := h.owns_iff.mp howns
  rw [(h.step he).owns_iff]
  rcases pipedWorker_surplus h.nodup he with ⟨hok, hs⟩ | ⟨hfails, hs⟩
  · have hlength := hs.length
    exact iff_of_true (by omega) hok
  · have hlength := hs.length
    exact iff_of_false (by omega) hfails

/-- Along a run the open pipe descriptors are the read ends of the children not yet reaped,
exactly as long as no `os.fork` fails with its pipe open. -/
theorem no_pipe_leaks (cfg : WorkerConfig) (drain : DrainTimeout τ) (start : τ)
    (es : List (DescriptorEvent τ)) :
    (pipedWorker cfg drain start).Always OwnsPipes (pipedWorker cfg drain start).init es ↔
      (pipedWorker cfg drain start).EachStep ForksOrOpensNone
        (pipedWorker cfg drain start).init es := by
  apply System.always_iff_eachStep (I := PipeInv cfg)
  · intro w e w' h he
    exact h.step he
  · intro w e w' h howns he
    exact owns_step_iff h howns he
  · exact PipeInv.init cfg drain start
  · exact List.Perm.refl _

end Runs

section Sample

def sampleForkFailure : List (DescriptorEvent ℕ) :=
  [.other (.main .next), .other (.main .next),
    .attempt ⟨.ok (), .ok (), .ok (7, 8), .error (.exception "[Errno 12] Cannot allocate memory")⟩
      ⟨1, false, some 10, none⟩ "0:00:00"]

def sampleLeaked : Worker ℕ :=
  (pipedWorker (sampleConfig .concurrent) sampleDrain 0).run System.free sampleForkFailure

theorem pipe_leaked : sampleLeaked.main.os.openFds = [8, 7] ∧ sampleLeaked.main.live = [] ∧
    ¬(pipedWorker (sampleConfig .concurrent) sampleDrain 0).Always OwnsPipes
      (pipedWorker (sampleConfig .concurrent) sampleDrain 0).init sampleForkFailure := by
  have hopen : sampleLeaked.main.os.openFds = [8, 7] := by decide +kernel
  have hlive : sampleLeaked.main.live = [] := by rfl
  refine ⟨hopen, hlive, fun halways => ?_⟩
  have howns : OwnsPipes sampleLeaked := halways.of_steps (System.Steps.of_run (by decide +kernel))
  have hlength := howns.length_eq
  rw [hopen, hlive] at hlength
  cases hlength

end Sample

end PostgresQueue
