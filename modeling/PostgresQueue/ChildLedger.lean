import Mathlib.Data.List.Range
import PostgresQueue.WorkerLoop

namespace PostgresQueue

open Library

variable {τ : Type}

structure Ledger (os : Os) (log : Log τ) (live : List LoopSlot) : Prop where
  unreaped : (os.unreaped.map fun c => (c.child, c.pid)).Perm (live.map fun s => (s.child, s.pid))
  pids : (live.map LoopSlot.pid).Nodup
  fds : (live.map LoopSlot.readFd).Nodup
  opened : ∀ s ∈ live, s.readFd ∈ os.openFds
  forks : (log.reaped.map Prod.fst ++ live.map LoopSlot.child).Perm (List.range os.forks)
  ended : log.claimed.Perm (log.ended.map Prod.fst ++ live.map LoopSlot.toChildSlot)

namespace Ledger

variable {os : Os} {log : Log τ} {live live' : List LoopSlot} {slot : LoopSlot}

theorem perm (h : Ledger os log live) (hp : live.Perm live') : Ledger os log live' :=
  ⟨h.unreaped.trans (hp.map _), (hp.map _).nodup_iff.mp h.pids, (hp.map _).nodup_iff.mp h.fds,
    fun s hs => h.opened s (hp.mem_iff.mpr hs), ((hp.map _).append_left _).symm.trans h.forks,
    h.ended.trans ((hp.map _).append_left _)⟩

theorem of_log (h : Ledger os log live) {log' : Log τ} (hclaimed : log'.claimed = log.claimed)
    (hended : log'.ended = log.ended) (hreaped : log'.reaped = log.reaped) : Ledger os log' live :=
  ⟨h.unreaped, h.pids, h.fds, h.opened, hreaped ▸ h.forks, hclaimed ▸ hended ▸ h.ended⟩

theorem mem_unreaped (h : Ledger os log live) {s : LoopSlot} (hs : s ∈ live) :
    ∃ c ∈ os.unreaped, c.child = s.child ∧ c.pid = s.pid := by
  have hm : (s.child, s.pid) ∈ os.unreaped.map fun c => (c.child, c.pid) :=
    h.unreaped.mem_iff.mpr (List.mem_map_of_mem hs)
  obtain ⟨c, hc, he⟩ := List.mem_map.mp hm
  simp only [Prod.mk.injEq] at he
  exact ⟨c, hc, he⟩

theorem unreaped_pids (h : Ledger os log live) : (os.unreaped.map OsChild.pid).Perm
    (live.map LoopSlot.pid) := by
  simpa [Function.comp_def] using h.unreaped.map Prod.snd

theorem child?_eq (h : Ledger os log live) {s : LoopSlot} (hs : s ∈ live) :
    ∃ c, os.child? s.pid = some c ∧ c.child = s.child ∧ c.pid = s.pid := by
  obtain ⟨c, hc, hchild, hpid⟩ := h.mem_unreaped hs
  cases hf : os.child? s.pid with
  | none => exact absurd hpid (by simpa using List.find?_eq_none.mp hf c hc)
  | some c' =>
    have hpid' : c'.pid = s.pid := by simpa using List.find?_some hf
    have hnodup := h.unreaped_pids.nodup_iff.mpr h.pids
    obtain rfl := List.inj_on_of_nodup_map hnodup (List.mem_of_find?_eq_some hf) hc
      (hpid'.trans hpid.symm)
    exact ⟨c', rfl, hchild, hpid⟩

theorem empty : Ledger ⟨0, [], []⟩ (⟨[], [], [], [], []⟩ : Log τ) [] := by
  constructor <;> simp

theorem fork (h : Ledger os log live) (hfork : os.CanFork slot.pid slot.readFd)
    (hslot : slot.child = os.forks) :
    Ledger (os.fork slot.pid slot.readFd)
      { log with claimed := log.claimed ++ [slot.toChildSlot] } (live ++ [slot]) := by
  obtain ⟨hpid, hfd⟩ := hfork
  constructor
  · simp only [Os.fork, List.map_cons, List.map_append, List.map_nil, hslot]
    exact (h.unreaped.cons _).trans (List.perm_append_singleton _ _).symm
  · rw [List.map_append, List.map_singleton, List.nodup_append]
    refine ⟨h.pids, by simp, fun p hp q hq => ?_⟩
    rw [List.mem_singleton.mp hq]
    rintro rfl
    exact hpid (h.unreaped_pids.mem_iff.mpr hp)
  · rw [List.map_append, List.map_singleton, List.nodup_append]
    refine ⟨h.fds, by simp, fun p hp q hq => ?_⟩
    rw [List.mem_singleton.mp hq]
    rintro rfl
    obtain ⟨s, hs, he⟩ := List.mem_map.mp hp
    exact hfd (he ▸ h.opened s hs)
  · intro s hs
    rcases List.mem_append.mp hs with hs | hs
    · exact List.mem_cons_of_mem _ (h.opened s hs)
    · rw [List.mem_singleton.mp hs]
      exact List.mem_cons_self
  · simp only [Os.fork, List.range_succ, List.map_append, List.map_singleton, hslot]
    rw [← List.append_assoc]
    exact h.forks.append_right _
  · simp only [List.map_append, List.map_singleton]
    rw [← List.append_assoc]
    exact h.ended.append_right _

theorem notStarted (h : Ledger os log live) (run : ChildSlot) (o : Outcome) (leaked : List ℕ) :
    Ledger { os with openFds := leaked ++ os.openFds }
      { log with claimed := log.claimed ++ [run], ended := log.ended ++ [(run, o)] } live := by
  refine ⟨h.unreaped, h.pids, h.fds, fun s hs => ?_, h.forks, ?_⟩
  · exact List.mem_append_right _ (h.opened s hs)
  · rw [List.map_append, List.map_singleton, List.append_assoc]
    refine (h.ended.append_right [run]).trans ?_
    rw [List.append_assoc]
    exact List.perm_append_comm.append_left _

theorem reap (h : Ledger os log (slot :: live)) {c : OsChild} (hc : os.child? slot.pid = some c)
    (exit : ChildExit) (o : Outcome) :
    Ledger (os.reap slot.pid slot.readFd)
      { log with
        ended := log.ended ++ [(slot.toChildSlot, o)]
        reaped := log.reaped ++ [(c.child, exit)] } live := by
  obtain ⟨c', hc', hchild, -⟩ := h.child?_eq List.mem_cons_self
  obtain rfl : c' = c := Option.some.inj (hc'.symm.trans hc)
  have hpids := List.nodup_cons.mp h.pids
  have hfds := List.nodup_cons.mp h.fds
  constructor
  · have hkeep : ((live.map fun s => (s.child, s.pid)).filter fun p => p.2 ≠ slot.pid) =
        live.map fun s => (s.child, s.pid) := by
      rw [List.filter_eq_self]
      rintro p hp
      obtain ⟨s, hs, rfl⟩ := List.mem_map.mp hp
      have hne : s.pid ≠ slot.pid := fun he => hpids.1 (he ▸ List.mem_map_of_mem hs)
      simpa using hne
    have hfilter := h.unreaped.filter fun p => p.2 ≠ slot.pid
    rw [List.map_cons, List.filter_cons_of_neg (by simp), hkeep, List.filter_map] at hfilter
    exact hfilter
  · exact hpids.2
  · exact hfds.2
  · intro s hs
    have hne : s.readFd ≠ slot.readFd := fun he => hfds.1 (he ▸ List.mem_map_of_mem hs)
    exact List.mem_filter.mpr ⟨h.opened s (List.mem_cons_of_mem _ hs), by simpa using hne⟩
  · simpa [Os.reap, hchild] using h.forks
  · simpa using h.ended

theorem ends (h : Ledger os log live) (pid : ℕ) (status : WaitStatus) :
    Ledger (os.ends pid status) log live := by
  refine ⟨?_, h.pids, h.fds, h.opened, h.forks, h.ended⟩
  have hsame : ((os.ends pid status).unreaped.map fun c => (c.child, c.pid)) =
      os.unreaped.map fun c => (c.child, c.pid) := by
    rw [Os.ends, List.map_map]
    apply List.map_congr_left
    intro c _
    simp only [Function.comp_apply]
    split_ifs <;> rfl
  rw [hsame]
  exact h.unreaped

end Ledger

end PostgresQueue
