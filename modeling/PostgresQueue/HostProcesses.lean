import Mathlib.Data.List.Nodup
import PostgresQueue.Library.Transition

namespace PostgresQueue

open Library System

/-- A process that nobody has waited for yet, dead or alive. `tree` names the task child that it
descends from; nothing reads it. -/
structure HostProcess where
  pid : ℕ
  pgid : ℕ
  tree : Option ℕ
  alive : Bool
deriving DecidableEq

/-- A child that `_fork_child` has started and the worker has not reaped. It is `grouped` once it is
past its `os.setpgrp()`. -/
structure TaskChild where
  pid : ℕ
  tree : ℕ
  grouped : Bool
deriving DecidableEq

/-- The processes of a host. `killing` is where `_kill_child_group` found no group. -/
structure Host where
  procs : List HostProcess
  worker : ℕ
  children : List TaskChild
  forks : ℕ
  killing : Option ℕ
deriving DecidableEq

inductive HostAction
  | forkChild (new : ℕ)
  | setpgrp (pid : ℕ)
  | setpgid (pid group : ℕ)
  | fork (pid new : ℕ)
  | exits (pid : ℕ)
  | reaped (pid : ℕ)
  | killpg (child : ℕ)
  | kill (child : ℕ)
  | wait4 (child : ℕ)
deriving DecidableEq

namespace Host

def live (s : Host) (pid : ℕ) : Option HostProcess := s.procs.find? fun p => p.pid == pid && p.alive

/-- The system gives out no number that a process or a group still has. -/
def Fresh (s : Host) (pid : ℕ) : Prop := ∀ p ∈ s.procs, p.pid ≠ pid ∧ p.pgid ≠ pid

instance (s : Host) (pid : ℕ) : Decidable (s.Fresh pid) := by unfold Fresh; infer_instance

def Ready (s : Host) (pid : ℕ) : Prop := ∀ c ∈ s.children, c.pid = pid → c.grouped = true

instance (s : Host) (pid : ℕ) : Decidable (s.Ready pid) := by unfold Ready; infer_instance

def IsChild (s : Host) (pid : ℕ) : Prop := ∃ c ∈ s.children, c.pid = pid

instance (s : Host) (pid : ℕ) : Decidable (s.IsChild pid) := by unfold IsChild; infer_instance

def regroup (s : Host) (pid group : ℕ) : List HostProcess :=
  s.procs.map fun p => if p.pid = pid then { p with pgid := group } else p

/-- `SIGKILL`, which leaves a process no further step. -/
def killed (s : Host) (hit : HostProcess → Bool) : List HostProcess :=
  s.procs.map fun p => if hit p then { p with alive := false } else p

/-- What each process does by itself, the kernel that keeps the table, and the worker's
`os.fork`, `os.wait4` and `_kill_child_group`, whose two calls are two steps. -/
def act (s : Host) : HostAction → Option Host
  | .forkChild new =>
    match s.live s.worker with
    | some w =>
      if s.killing = none ∧ s.Fresh new then some { s with
        procs := ⟨new, w.pgid, some s.forks, true⟩ :: s.procs
        children := ⟨new, s.forks, false⟩ :: s.children
        forks := s.forks + 1 }
      else none
    | none => none
  | .setpgrp pid =>
    match s.live pid with
    | some _ => some { s with
        procs := s.regroup pid pid
        children := s.children.map fun c => if c.pid = pid then { c with grouped := true } else c }
    | none => none
  | .setpgid pid group =>
    match s.live pid with
    | some _ =>
      if s.Ready pid ∧ ∃ q ∈ s.procs, q.pgid = group then some { s with procs := s.regroup pid group }
      else none
    | none => none
  | .fork pid new =>
    match s.live pid with
    | some p =>
      if s.Ready pid ∧ s.Fresh new then
        some { s with procs := ⟨new, p.pgid, p.tree, true⟩ :: s.procs }
      else none
    | none => none
  | .exits pid => some { s with procs := s.killed fun p => p.pid == pid }
  | .reaped pid =>
    if s.IsChild pid ∨ pid = s.worker then none
    else some { s with procs := s.procs.filter fun p => p.alive || p.pid != pid }
  | .killpg pid =>
    if s.killing = none ∧ s.IsChild pid then
      if ∃ p ∈ s.procs, p.pgid = pid then some { s with procs := s.killed fun p => p.pgid == pid }
      else some { s with killing := some pid }
    else none
  | .kill pid =>
    if s.killing = some pid then
      some { s with procs := s.killed fun p => p.pid == pid, killing := none }
    else none
  | .wait4 pid =>
    if s.killing = none ∧ s.IsChild pid ∧ s.live pid = none then some { s with
      procs := s.procs.filter fun p => p.pid != pid
      children := s.children.filter fun c => c.pid != pid }
    else none

end Host

def HostAction.byWorker : HostAction → Bool
  | .forkChild _ | .killpg _ | .kill _ | .wait4 _ => true
  | .setpgrp _ | .setpgid .. | .fork .. | .exits _ | .reaped _ => false

def Host.step (s : Host) (a : HostAction) : Option Host :=
  if a.byWorker ∧ s.live s.worker = none then none else s.act a

structure Boot where
  procs : List HostProcess
  worker : ℕ
  nodup : (procs.map HostProcess.pid).Nodup
  treeless : ∀ p ∈ procs, p.tree = none
  mem_worker : ∃ p ∈ procs, p.pid = worker

def hostSystem (b : Boot) : System Host HostAction where
  init := ⟨b.procs, b.worker, [], 0, none⟩
  step := Host.step

section Steps

variable {s t : Host}

inductive HostStep (s : Host) : HostAction → Host → Prop
  | forkChild {new : ℕ} {w : HostProcess} : w ∈ s.procs → w.pid = s.worker → s.Fresh new →
      HostStep s (.forkChild new) { s with
        procs := ⟨new, w.pgid, some s.forks, true⟩ :: s.procs
        children := ⟨new, s.forks, false⟩ :: s.children
        forks := s.forks + 1 }
  | setpgrp {p : HostProcess} : p ∈ s.procs → p.alive = true → HostStep s (.setpgrp p.pid) { s with
        procs := s.regroup p.pid p.pid
        children := s.children.map fun c => if c.pid = p.pid then { c with grouped := true } else c }
  | setpgid {p q : HostProcess} : p ∈ s.procs → p.alive = true → s.Ready p.pid → q ∈ s.procs →
      HostStep s (.setpgid p.pid q.pgid) { s with procs := s.regroup p.pid q.pgid }
  | fork {p : HostProcess} {new : ℕ} : p ∈ s.procs → p.alive = true → s.Ready p.pid → s.Fresh new →
      HostStep s (.fork p.pid new) { s with procs := ⟨new, p.pgid, p.tree, true⟩ :: s.procs }
  | exits (pid : ℕ) : HostStep s (.exits pid) { s with procs := s.killed fun p => p.pid == pid }
  | reaped {pid : ℕ} : ¬s.IsChild pid → pid ≠ s.worker →
      HostStep s (.reaped pid) { s with procs := s.procs.filter fun p => p.alive || p.pid != pid }
  | killpg {pid : ℕ} {p : HostProcess} : s.killing = none → s.IsChild pid → p ∈ s.procs →
      p.pgid = pid → HostStep s (.killpg pid) { s with procs := s.killed fun p => p.pgid == pid }
  | noGroup {pid : ℕ} : s.killing = none → s.IsChild pid → (∀ p ∈ s.procs, p.pgid ≠ pid) →
      HostStep s (.killpg pid) { s with killing := some pid }
  | kill {pid : ℕ} : s.killing = some pid →
      HostStep s (.kill pid) { s with procs := s.killed fun p => p.pid == pid, killing := none }
  | wait4 {pid : ℕ} : s.killing = none → s.IsChild pid → HostStep s (.wait4 pid) { s with
      procs := s.procs.filter fun p => p.pid != pid
      children := s.children.filter fun c => c.pid != pid }

theorem Host.live_some {pid : ℕ} {p : HostProcess} (h : s.live pid = some p) :
    p ∈ s.procs ∧ p.pid = pid ∧ p.alive = true := by
  have hfound := List.find?_some h
  simp only [Bool.and_eq_true, beq_iff_eq] at hfound
  exact ⟨List.mem_of_find?_eq_some h, hfound⟩

theorem hostStep_cases {a : HostAction} (h : s.step a = some t) : HostStep s a t := by
  unfold Host.step at h
  split_ifs at h
  cases a with
  | forkChild new =>
    simp only [Host.act] at h
    split at h
    · rename_i w hw
      split_ifs at h with hc
      cases h
      obtain ⟨hm, hpid, -⟩ := Host.live_some hw
      exact .forkChild hm hpid hc.2
    · cases h
  | setpgrp pid =>
    simp only [Host.act] at h
    split at h
    · rename_i p hp
      cases h
      obtain ⟨hm, rfl, ha⟩ := Host.live_some hp
      exact .setpgrp hm ha
    · cases h
  | setpgid pid group =>
    simp only [Host.act] at h
    split at h
    · rename_i p hp
      split_ifs at h with hc
      cases h
      obtain ⟨hm, rfl, ha⟩ := Host.live_some hp
      obtain ⟨hready, q, hq, rfl⟩ := hc
      exact .setpgid hm ha hready hq
    · cases h
  | fork pid new =>
    simp only [Host.act] at h
    split at h
    · rename_i p hp
      split_ifs at h with hc
      cases h
      obtain ⟨hm, rfl, ha⟩ := Host.live_some hp
      exact .fork hm ha hc.1 hc.2
    · cases h
  | exits pid =>
    cases h
    exact .exits pid
  | reaped pid =>
    simp only [Host.act] at h
    split_ifs at h with hc
    cases h
    rw [not_or] at hc
    exact .reaped hc.1 hc.2
  | killpg pid =>
    simp only [Host.act] at h
    split_ifs at h with hc hg
    · cases h
      obtain ⟨p, hp, hpg⟩ := hg
      exact .killpg hc.1 hc.2 hp hpg
    · cases h
      exact .noGroup hc.1 hc.2 fun p hp hpg => hg ⟨p, hp, hpg⟩
  | kill pid =>
    simp only [Host.act] at h
    split_ifs at h with hc
    cases h
    exact .kill hc
  | wait4 pid =>
    simp only [Host.act] at h
    split_ifs at h with hc
    cases h
    exact .wait4 hc.1 hc.2.1

end Steps

end PostgresQueue
