import PostgresQueue.HostProcesses

namespace PostgresQueue

open Library System

/-- A process only joins groups of its own task, or of none. -/
def ownGroups (s : Host) : HostAction → Prop
  | .setpgid pid group => ∀ p ∈ s.procs, p.pid = pid → ∀ q ∈ s.procs, q.pgid = group → q.tree = p.tree
  | _ => True

instance (s : Host) (a : HostAction) : Decidable (ownGroups s a) :=
  match a with
  | .setpgid pid group => inferInstanceAs
    (Decidable (∀ p ∈ s.procs, p.pid = pid → ∀ q ∈ s.procs, q.pgid = group → q.tree = p.tree))
  | .forkChild _ | .setpgrp _ | .fork .. | .exits _ | .reaped _ | .killpg _ | .kill _ | .wait4 _ =>
    isTrue trivial

structure HostInv (s : Host) : Prop where
  pids : (s.procs.map HostProcess.pid).Nodup
  childPids : (s.children.map TaskChild.pid).Nodup
  present : ∀ c ∈ s.children, ∃ p ∈ s.procs, p.pid = c.pid ∧ p.tree = some c.tree
  group : ∀ c ∈ s.children, ∀ p ∈ s.procs, p.pgid = c.pid → p.tree = some c.tree
  worker : ∃ p ∈ s.procs, p.pid = s.worker ∧ p.tree = none
  trees : ∀ p ∈ s.procs, ∀ n, p.tree = some n → n < s.forks
  alone : ∀ c ∈ s.children, c.grouped = false → ∀ p ∈ s.procs, p.tree = some c.tree → p.pid = c.pid
  killing : ∀ pid, s.killing = some pid → s.IsChild pid

namespace HostInv

variable {s t : Host}

theorem eq_of_pid (h : HostInv s) {p q : HostProcess} (hp : p ∈ s.procs) (hq : q ∈ s.procs)
    (he : p.pid = q.pid) : p = q := List.inj_on_of_nodup_map h.pids hp hq he

theorem tree_of_pid (h : HostInv s) {c : TaskChild} (hc : c ∈ s.children) {p : HostProcess}
    (hp : p ∈ s.procs) (he : p.pid = c.pid) : p.tree = some c.tree := by
  obtain ⟨q, hq, hqc, ht⟩ := h.present c hc
  rw [h.eq_of_pid hp hq (he.trans hqc.symm), ht]

theorem mem_killed {hit : HostProcess → Bool} {q : HostProcess} :
    q ∈ s.killed hit ↔ ∃ p ∈ s.procs, q = if hit p then { p with alive := false } else p := by
  simp only [Host.killed, List.mem_map, eq_comm]

theorem mem_regroup {pid group : ℕ} {q : HostProcess} :
    q ∈ s.regroup pid group ↔
      ∃ p ∈ s.procs, q = if p.pid = pid then { p with pgid := group } else p := by
  simp only [Host.regroup, List.mem_map, eq_comm]

theorem killed_pids (s : Host) (hit : HostProcess → Bool) :
    (s.killed hit).map HostProcess.pid = s.procs.map HostProcess.pid := by
  rw [Host.killed, List.map_map]
  apply List.map_congr_left
  intro p _
  rw [Function.comp_apply]
  split_ifs <;> rfl

theorem regroup_pids (s : Host) (pid group : ℕ) :
    (s.regroup pid group).map HostProcess.pid = s.procs.map HostProcess.pid := by
  rw [Host.regroup, List.map_map]
  apply List.map_congr_left
  intro p _
  rw [Function.comp_apply]
  split_ifs <;> rfl

theorem killed (h : HostInv s) (hit : HostProcess → Bool) :
    HostInv { s with procs := s.killed hit } := by
  have hsame : ∀ q ∈ s.killed hit,
      ∃ p ∈ s.procs, q.pid = p.pid ∧ q.pgid = p.pgid ∧ q.tree = p.tree := by
    intro q hq
    obtain ⟨p, hp, rfl⟩ := mem_killed.mp hq
    refine ⟨p, hp, ?_⟩
    split_ifs <;> exact ⟨rfl, rfl, rfl⟩
  have hthere : ∀ p ∈ s.procs, ∃ q ∈ s.killed hit, q.pid = p.pid ∧ q.tree = p.tree := by
    intro p hp
    refine ⟨_, mem_killed.mpr ⟨p, hp, rfl⟩, ?_⟩
    split_ifs <;> exact ⟨rfl, rfl⟩
  refine ⟨?_, h.childPids, fun c hc => ?_, fun c hc q hq he => ?_, ?_, fun q hq n hn => ?_,
    fun c hc hgr q hq ht => ?_, h.killing⟩
  · exact (killed_pids s hit).symm ▸ h.pids
  · obtain ⟨p, hp, hpid, htree⟩ := h.present c hc
    obtain ⟨q, hq, hqp, hqt⟩ := hthere p hp
    exact ⟨q, hq, hqp.trans hpid, hqt.trans htree⟩
  · obtain ⟨p, hp, -, hpg, htree⟩ := hsame q hq
    exact htree.trans (h.group c hc p hp (hpg.symm.trans he))
  · obtain ⟨p, hp, hpid, htree⟩ := h.worker
    obtain ⟨q, hq, hqp, hqt⟩ := hthere p hp
    exact ⟨q, hq, hqp.trans hpid, hqt.trans htree⟩
  · obtain ⟨p, hp, -, -, htree⟩ := hsame q hq
    exact h.trees p hp n (htree.symm.trans hn)
  · obtain ⟨p, hp, hpid, -, htree⟩ := hsame q hq
    exact hpid.trans (h.alone c hc hgr p hp (htree.symm.trans ht))

theorem restrict (h : HostInv s) {procs : List HostProcess} {children : List TaskChild}
    (hp : procs.Sublist s.procs) (hc : children.Sublist s.children)
    (hkeep : ∀ c ∈ children, ∀ p ∈ s.procs, p.pid = c.pid → p ∈ procs)
    (hworker : ∀ p ∈ s.procs, p.pid = s.worker → p ∈ procs)
    (hkilling : s.killing = none ∨ children = s.children) :
    HostInv { s with procs := procs, children := children } where
  pids := h.pids.sublist (hp.map _)
  childPids := h.childPids.sublist (hc.map _)
  present := fun c hm => by
    obtain ⟨p, hpm, hpid, ht⟩ := h.present c (hc.subset hm)
    exact ⟨p, hkeep c hm p hpm hpid, hpid, ht⟩
  group := fun c hm p hpm => h.group c (hc.subset hm) p (hp.subset hpm)
  worker := by
    obtain ⟨p, hpm, hpid, ht⟩ := h.worker
    exact ⟨p, hworker p hpm hpid, hpid, ht⟩
  trees := fun p hpm => h.trees p (hp.subset hpm)
  alone := fun c hm hg p hpm => h.alone c (hc.subset hm) hg p (hp.subset hpm)
  killing := fun pid hk => by
    rcases hkilling with hn | rfl
    · rw [hn] at hk
      cases hk
    · exact h.killing pid hk

theorem regroup (h : HostInv s) {p : HostProcess} (hp : p ∈ s.procs) {group : ℕ}
    (hg : ∀ c ∈ s.children, group = c.pid → p.tree = some c.tree) :
    HostInv { s with procs := s.regroup p.pid group } := by
  have hsame : ∀ q ∈ s.regroup p.pid group, ∃ r ∈ s.procs, q.pid = r.pid ∧ q.tree = r.tree ∧
      (q.pgid = r.pgid ∨ r = p ∧ q.pgid = group) := by
    intro q hq
    obtain ⟨r, hr, rfl⟩ := mem_regroup.mp hq
    refine ⟨r, hr, ?_⟩
    split_ifs with he
    · exact ⟨rfl, rfl, .inr ⟨h.eq_of_pid hr hp he, rfl⟩⟩
    · exact ⟨rfl, rfl, .inl rfl⟩
  have hthere : ∀ r ∈ s.procs, ∃ q ∈ s.regroup p.pid group, q.pid = r.pid ∧ q.tree = r.tree := by
    intro r hr
    refine ⟨_, mem_regroup.mpr ⟨r, hr, rfl⟩, ?_⟩
    split_ifs <;> exact ⟨rfl, rfl⟩
  refine ⟨?_, h.childPids, fun c hc => ?_, fun c hc q hq he => ?_, ?_, fun q hq n hn => ?_,
    fun c hc hgr q hq ht => ?_, h.killing⟩
  · exact (regroup_pids s p.pid group).symm ▸ h.pids
  · obtain ⟨r, hr, hpid, htree⟩ := h.present c hc
    obtain ⟨q, hq, hqr, hqt⟩ := hthere r hr
    exact ⟨q, hq, hqr.trans hpid, hqt.trans htree⟩
  · obtain ⟨r, hr, -, htree, hpg | ⟨rfl, hpg⟩⟩ := hsame q hq
    · exact htree.trans (h.group c hc r hr (hpg.symm.trans he))
    · exact htree.trans (hg c hc (hpg.symm.trans he))
  · obtain ⟨r, hr, hpid, htree⟩ := h.worker
    obtain ⟨q, hq, hqr, hqt⟩ := hthere r hr
    exact ⟨q, hq, hqr.trans hpid, hqt.trans htree⟩
  · obtain ⟨r, hr, -, htree, -⟩ := hsame q hq
    exact h.trees r hr n (htree.symm.trans hn)
  · obtain ⟨r, hr, hpid, htree, -⟩ := hsame q hq
    exact hpid.trans (h.alone c hc hgr r hr (htree.symm.trans ht))

theorem grouped (h : HostInv s) (pid : ℕ) : HostInv { s with
    children := s.children.map fun c => if c.pid = pid then { c with grouped := true } else c } := by
  have hsame : ∀ c ∈ s.children.map (fun c => if c.pid = pid then { c with grouped := true } else c),
      ∃ d ∈ s.children, c.pid = d.pid ∧ c.tree = d.tree ∧ (c.grouped = false → c = d) := by
    intro c hc
    obtain ⟨d, hd, rfl⟩ := List.mem_map.mp hc
    refine ⟨d, hd, ?_⟩
    split_ifs
    · exact ⟨rfl, rfl, fun hf => by cases hf⟩
    · exact ⟨rfl, rfl, fun _ => rfl⟩
  refine ⟨h.pids, ?_, fun c hc => ?_, fun c hc p hp he => ?_, h.worker, h.trees,
    fun c hc hg p hp ht => ?_, fun k hk => ?_⟩
  · have hpids : (s.children.map fun c => if c.pid = pid then { c with grouped := true } else c).map
        TaskChild.pid = s.children.map TaskChild.pid := by
      rw [List.map_map]
      apply List.map_congr_left
      intro c _
      rw [Function.comp_apply]
      split_ifs <;> rfl
    exact hpids.symm ▸ h.childPids
  · obtain ⟨d, hd, hpid, htree, -⟩ := hsame c hc
    rw [hpid, htree]
    exact h.present d hd
  · obtain ⟨d, hd, hpid, htree, -⟩ := hsame c hc
    rw [htree]
    exact h.group d hd p hp (he.trans hpid)
  · obtain ⟨d, hd, -, -, heq⟩ := hsame c hc
    obtain rfl := heq hg
    exact h.alone c hd hg p hp ht
  · obtain ⟨c, hc, rfl⟩ := h.killing k hk
    refine ⟨_, List.mem_map_of_mem hc, ?_⟩
    split_ifs <;> rfl

theorem fork (h : HostInv s) {p : HostProcess} (hp : p ∈ s.procs) (hr : s.Ready p.pid) {new : ℕ}
    (hf : s.Fresh new) : HostInv { s with procs := ⟨new, p.pgid, p.tree, true⟩ :: s.procs } := by
  refine ⟨?_, h.childPids, fun c hc => ?_, fun c hc q hq he => ?_, ?_, fun q hq n hn => ?_,
    fun c hc hg q hq ht => ?_, h.killing⟩
  · refine List.nodup_cons.mpr ⟨fun hm => ?_, h.pids⟩
    obtain ⟨q, hq, he⟩ := List.mem_map.mp hm
    exact (hf q hq).1 he
  · obtain ⟨q, hq, hrest⟩ := h.present c hc
    exact ⟨q, List.mem_cons_of_mem _ hq, hrest⟩
  · rcases List.mem_cons.mp hq with rfl | hq
    exacts [h.group c hc p hp he, h.group c hc q hq he]
  · obtain ⟨q, hq, hrest⟩ := h.worker
    exact ⟨q, List.mem_cons_of_mem _ hq, hrest⟩
  · rcases List.mem_cons.mp hq with rfl | hq
    exacts [h.trees p hp n hn, h.trees q hq n hn]
  · rcases List.mem_cons.mp hq with rfl | hq
    · -- a child that is alone has not got as far as a fork
      have hgrouped := hr c hc (h.alone c hc hg p hp ht).symm
      rw [hg] at hgrouped
      cases hgrouped
    · exact h.alone c hc hg q hq ht

theorem forkChild (h : HostInv s) {w : HostProcess} (hw : w ∈ s.procs) (hpid : w.pid = s.worker)
    {new : ℕ} (hf : s.Fresh new) : HostInv { s with
      procs := ⟨new, w.pgid, some s.forks, true⟩ :: s.procs
      children := ⟨new, s.forks, false⟩ :: s.children
      forks := s.forks + 1 } := by
  have hwtree : w.tree = none := by
    obtain ⟨q, hq, hqpid, hqtree⟩ := h.worker
    rw [h.eq_of_pid hw hq (hpid.trans hqpid.symm), hqtree]
  have hold : ∀ c ∈ s.children, c.pid ≠ new := by
    intro c hc he
    obtain ⟨p, hp, hpc, -⟩ := h.present c hc
    exact (hf p hp).1 (hpc.trans he)
  refine ⟨?_, ?_, fun c hc => ?_, fun c hc q hq he => ?_, ?_, fun q hq n hn => ?_,
    fun c hc hg q hq ht => ?_, fun k hk => ?_⟩
  · refine List.nodup_cons.mpr ⟨fun hm => ?_, h.pids⟩
    obtain ⟨q, hq, he⟩ := List.mem_map.mp hm
    exact (hf q hq).1 he
  · refine List.nodup_cons.mpr ⟨fun hm => ?_, h.childPids⟩
    obtain ⟨c, hc, he⟩ := List.mem_map.mp hm
    exact hold c hc he
  · rcases List.mem_cons.mp hc with rfl | hc
    · exact ⟨_, List.mem_cons_self, rfl, rfl⟩
    · obtain ⟨q, hq, hrest⟩ := h.present c hc
      exact ⟨q, List.mem_cons_of_mem _ hq, hrest⟩
  · rcases List.mem_cons.mp hc with rfl | hc
    · rcases List.mem_cons.mp hq with rfl | hq
      · rfl
      · exact absurd he (hf q hq).2
    · rcases List.mem_cons.mp hq with rfl | hq
      · -- the new child is in the worker's group, which is no child's
        have htree := h.group c hc w hw he
        rw [hwtree] at htree
        cases htree
      · exact h.group c hc q hq he
  · obtain ⟨q, hq, hrest⟩ := h.worker
    exact ⟨q, List.mem_cons_of_mem _ hq, hrest⟩
  · rcases List.mem_cons.mp hq with rfl | hq
    · obtain rfl := Option.some.inj hn
      exact Nat.lt_succ_self _
    · exact Nat.lt_succ_of_lt (h.trees q hq n hn)
  · rcases List.mem_cons.mp hc with rfl | hc
    · rcases List.mem_cons.mp hq with rfl | hq
      · rfl
      · exact absurd (h.trees q hq _ ht) (Nat.lt_irrefl _)
    · rcases List.mem_cons.mp hq with rfl | hq
      · obtain ⟨p, hp, -, hptree⟩ := h.present c hc
        have hlt := h.trees p hp _ hptree
        have htree : s.forks = c.tree := Option.some.inj ht
        omega
      · exact h.alone c hc hg q hq ht
  · obtain ⟨c, hc, he⟩ := h.killing k hk
    exact ⟨c, List.mem_cons_of_mem _ hc, he⟩

theorem step {a : HostAction} (h : HostInv s) (hg : ownGroups s a) (hs : HostStep s a t) :
    HostInv t := by
  cases hs with
  | forkChild hw hpid hf => exact h.forkChild hw hpid hf
  | @setpgrp p hp _ =>
    refine (h.regroup hp fun c hc he => ?_).grouped p.pid
    exact h.tree_of_pid hc hp he
  | @setpgid p q hp _ _ hq =>
    refine h.regroup hp fun c hc he => ?_
    rw [← hg p hp rfl q hq rfl]
    exact h.group c hc q hq he
  | fork hp _ hr hf => exact h.fork hp hr hf
  | exits => exact h.killed _
  | @reaped pid hchild hworker =>
    refine h.restrict List.filter_sublist (List.Sublist.refl _) ?_ ?_ (.inr rfl)
    · intro c hc p hp he
      refine List.mem_filter.mpr ⟨hp, ?_⟩
      have hne : p.pid ≠ pid := fun hpp => hchild ⟨c, hc, he.symm.trans hpp⟩
      simp [hne]
    · intro p hp he
      refine List.mem_filter.mpr ⟨hp, ?_⟩
      have hne : p.pid ≠ pid := fun hpp => hworker (hpp.symm.trans he)
      simp [hne]
  | killpg => exact h.killed _
  | noGroup _ hc _ =>
    exact ⟨h.pids, h.childPids, h.present, h.group, h.worker, h.trees, h.alone,
      fun k hk => Option.some.inj hk ▸ hc⟩
  | @kill pid _ =>
    have hk := h.killed fun p => p.pid == pid
    exact ⟨hk.pids, hk.childPids, hk.present, hk.group, hk.worker, hk.trees, hk.alone,
      fun k hk => by cases hk⟩
  | @wait4 pid hn hc =>
    obtain ⟨c, hc, rfl⟩ := hc
    refine h.restrict List.filter_sublist List.filter_sublist ?_ ?_ (.inl hn)
    · intro d hd p hp he
      obtain ⟨-, hne⟩ := List.mem_filter.mp hd
      exact List.mem_filter.mpr ⟨hp, by simpa [he] using hne⟩
    · intro p hp he
      refine List.mem_filter.mpr ⟨hp, ?_⟩
      obtain ⟨w, hw, hwpid, hwtree⟩ := h.worker
      obtain rfl := h.eq_of_pid hp hw (he.trans hwpid.symm)
      have hne : p.pid ≠ c.pid := by
        intro hpc
        rw [h.tree_of_pid hc hp hpc] at hwtree
        cases hwtree
      simp [hne]

end HostInv

theorem hostInv_reachable {b : Boot} {s : Host} (h : (hostSystem b).Reachable ownGroups s) :
    HostInv s := by
  refine h.invariant ?_ fun s a t hi hg he => hi.step hg (hostStep_cases he)
  refine ⟨b.nodup, List.nodup_nil, fun c hc => absurd hc List.not_mem_nil,
    fun c hc => absurd hc List.not_mem_nil, ?_, fun p hp n hn => ?_,
    fun c hc => absurd hc List.not_mem_nil, fun k hk => by cases hk⟩
  · obtain ⟨p, hp, he⟩ := b.mem_worker
    exact ⟨p, hp, he, b.treeless p hp⟩
  · rw [b.treeless p hp] at hn
    cases hn

section Spares

variable {b : Boot} {s t : Host}

/-- `_kill_child_group` reaches nobody but the child it is called for and what the child has
started. -/
theorem kill_spares_others (h : (hostSystem b).Reachable ownGroups s) {a : HostAction} {pid : ℕ}
    (ha : a = .killpg pid ∨ a = .kill pid) (he : s.step a = some t) :
    ∃ c ∈ s.children, c.pid = pid ∧ t.children = s.children ∧
      ∀ p ∈ s.procs, p.tree ≠ some c.tree → p ∈ t.procs := by
  have hi := hostInv_reachable h
  rcases ha with rfl | rfl
  · cases hostStep_cases he with
    | killpg _ hchild =>
      obtain ⟨c, hc, rfl⟩ := hchild
      refine ⟨c, hc, rfl, rfl, fun p hp hne => HostInv.mem_killed.mpr ⟨p, hp, ?_⟩⟩
      rw [if_neg]
      intro hhit
      exact hne (hi.group c hc p hp (beq_iff_eq.mp hhit))
    | noGroup _ hchild =>
      obtain ⟨c, hc, rfl⟩ := hchild
      exact ⟨c, hc, rfl, rfl, fun p hp _ => hp⟩
  · cases hostStep_cases he with
    | kill hk =>
      obtain ⟨c, hc, rfl⟩ := hi.killing pid hk
      refine ⟨c, hc, rfl, rfl, fun p hp hne => HostInv.mem_killed.mpr ⟨p, hp, ?_⟩⟩
      rw [if_neg]
      intro hhit
      exact hne (hi.tree_of_pid hc hp (beq_iff_eq.mp hhit))

end Spares

def sampleBoot : Boot where
  procs := [⟨1, 1, none, true⟩, ⟨2, 1, none, true⟩]
  worker := 1
  nodup := by decide
  treeless := by decide
  mem_worker := by decide

def sampleForks : List HostAction :=
  [.forkChild 10, .forkChild 20, .setpgrp 10, .fork 10 11, .setpgrp 11]

def sampleHost : Host := (hostSystem sampleBoot).run ownGroups sampleForks

theorem kill_spares_others_two : ∃ t, sampleHost.step (.killpg 10) = some t ∧
    ∃ c ∈ sampleHost.children, c.pid = 10 ∧ t.children = sampleHost.children ∧
      ∀ p ∈ sampleHost.procs, p.tree ≠ some c.tree → p ∈ t.procs := by
  obtain ⟨t, ht⟩ : ∃ t, sampleHost.step (.killpg 10) = some t :=
    Option.isSome_iff_exists.mp (by decide +kernel)
  have hreach : (hostSystem sampleBoot).Reachable ownGroups sampleHost := .of_run (by decide +kernel)
  exact ⟨t, ht, kill_spares_others hreach (.inl rfl) ht⟩

end PostgresQueue
