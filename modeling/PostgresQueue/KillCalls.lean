import PostgresQueue.ProcessGroups

namespace PostgresQueue

open Library System

def staysGrouped (s : Host) (a : HostAction) : Prop :=
  ownGroups s a ∧
  match a with
  | .setpgrp pid => ∀ p ∈ s.procs, p.pid = pid → ∀ c ∈ s.children, p.tree = some c.tree → c.pid = pid
  | .setpgid pid _ => ∀ p ∈ s.procs, p.pid = pid → ∀ c ∈ s.children, p.tree ≠ some c.tree
  | _ => True

instance (s : Host) (a : HostAction) : Decidable (staysGrouped s a) :=
  match a with
  | .setpgrp pid => inferInstanceAs (Decidable (ownGroups s (.setpgrp pid) ∧
      ∀ p ∈ s.procs, p.pid = pid → ∀ c ∈ s.children, p.tree = some c.tree → c.pid = pid))
  | .setpgid pid group => inferInstanceAs (Decidable (ownGroups s (.setpgid pid group) ∧
      ∀ p ∈ s.procs, p.pid = pid → ∀ c ∈ s.children, p.tree ≠ some c.tree))
  | .forkChild _ | .fork .. | .exits _ | .reaped _ | .killpg _ | .kill _ | .wait4 _ =>
    isTrue ⟨trivial, trivial⟩

def Together (s : Host) : Prop :=
  ∀ c ∈ s.children, c.grouped = true → ∀ p ∈ s.procs, p.tree = some c.tree → p.pgid = c.pid

section Ends

variable {b : Boot} {s t u v w : Host}

theorem Together.step {a : HostAction} (h : Together s) (hi : HostInv s) (hg : staysGrouped s a)
    (hs : HostStep s a t) : Together t := by
  have hkilled : ∀ hit, ∀ c ∈ s.children, c.grouped = true → ∀ q ∈ s.killed hit,
      q.tree = some c.tree → q.pgid = c.pid := by
    intro hit c hc hgr q hq ht
    obtain ⟨p, hp, rfl⟩ := HostInv.mem_killed.mp hq
    split_ifs at ht ⊢ <;> exact h c hc hgr p hp ht
  cases hs with
  | forkChild =>
    intro c hc hgr q hq ht
    rcases List.mem_cons.mp hc with rfl | hc
    · cases hgr
    · rcases List.mem_cons.mp hq with rfl | hq
      · obtain ⟨p, hp, -, hptree⟩ := hi.present c hc
        have hlt := hi.trees p hp _ hptree
        have htree : s.forks = c.tree := Option.some.inj ht
        omega
      · exact h c hc hgr q hq ht
  | @setpgrp p hp _ =>
    intro c hc hgr q hq ht
    obtain ⟨d, hd, rfl⟩ := List.mem_map.mp hc
    obtain ⟨r, hr, rfl⟩ := HostInv.mem_regroup.mp hq
    have hdt : r.tree = some d.tree := by
      split_ifs at ht <;> exact ht
    by_cases hrp : r.pid = p.pid
    · have hdp : d.pid = p.pid := hg.2 p hp rfl d hd (hi.eq_of_pid hr hp hrp ▸ hdt)
      rw [if_pos hrp, if_pos hdp]
      exact hdp.symm
    · rw [if_neg hrp]
      by_cases hdp : d.pid = p.pid
      · rw [if_pos hdp]
        cases hdg : d.grouped with
        | true => exact h d hd hdg r hr hdt
        | false => exact absurd ((hi.alone d hd hdg r hr hdt).trans hdp) hrp
      · rw [if_neg hdp] at hgr ⊢
        exact h d hd hgr r hr hdt
  | @setpgid p q hp _ _ _ =>
    intro c hc hgr q' hq' ht
    obtain ⟨r, hr, rfl⟩ := HostInv.mem_regroup.mp hq'
    by_cases hrp : r.pid = p.pid
    · rw [if_pos hrp] at ht
      exact absurd (hi.eq_of_pid hr hp hrp ▸ ht) (hg.2 p hp rfl c hc)
    · rw [if_neg hrp] at ht ⊢
      exact h c hc hgr r hr ht
  | @fork p _ hp _ _ _ =>
    intro c hc hgr q hq ht
    rcases List.mem_cons.mp hq with rfl | hq
    exacts [h c hc hgr p hp ht, h c hc hgr q hq ht]
  | exits => exact hkilled _
  | reaped => exact fun c hc hgr q hq => h c hc hgr q (List.mem_of_mem_filter hq)
  | killpg => exact hkilled _
  | noGroup => exact h
  | kill => exact hkilled _
  | wait4 =>
    exact fun c hc hgr q hq => h c (List.mem_of_mem_filter hc) hgr q (List.mem_of_mem_filter hq)

theorem together_reachable (h : (hostSystem b).Reachable staysGrouped s) : Together s := by
  refine h.invariant_of_reachable (fun c hc => absurd hc List.not_mem_nil) ?_
  intro s a t hr hi hg he
  exact hi.step (hostInv_reachable (hr.mono fun _ _ hg => hg.1)) hg (hostStep_cases he)

def Extinct (n : ℕ) (s : Host) : Prop :=
  n < s.forks ∧ ∀ p ∈ s.procs, p.tree = some n → p.alive = false

theorem Extinct.step {n : ℕ} {a : HostAction} (h : Extinct n s) (hs : HostStep s a t) :
    Extinct n t := by
  have hkilled : ∀ hit, ∀ q ∈ s.killed hit, q.tree = some n → q.alive = false := by
    intro hit q hq ht
    obtain ⟨p, hp, rfl⟩ := HostInv.mem_killed.mp hq
    split_ifs at ht ⊢
    · rfl
    · exact h.2 p hp ht
  have hregroup : ∀ pid group, ∀ q ∈ s.regroup pid group, q.tree = some n → q.alive = false := by
    intro pid group q hq ht
    obtain ⟨p, hp, rfl⟩ := HostInv.mem_regroup.mp hq
    split_ifs at ht ⊢ <;> exact h.2 p hp ht
  cases hs with
  | forkChild =>
    refine ⟨Nat.lt_succ_of_lt h.1, fun q hq ht => ?_⟩
    rcases List.mem_cons.mp hq with rfl | hq
    · have htree : s.forks = n := Option.some.inj ht
      have hlt := h.1
      omega
    · exact h.2 q hq ht
  | setpgrp => exact ⟨h.1, hregroup _ _⟩
  | setpgid => exact ⟨h.1, hregroup _ _⟩
  | @fork p new hp ha =>
    refine ⟨h.1, fun q hq ht => ?_⟩
    rcases List.mem_cons.mp hq with rfl | hq
    · rw [h.2 p hp ht] at ha
      cases ha
    · exact h.2 q hq ht
  | exits => exact ⟨h.1, hkilled _⟩
  | killpg => exact ⟨h.1, hkilled _⟩
  | kill => exact ⟨h.1, hkilled _⟩
  | noGroup => exact h
  | reaped => exact ⟨h.1, fun q hq => h.2 q (List.mem_of_mem_filter hq)⟩
  | wait4 => exact ⟨h.1, fun q hq => h.2 q (List.mem_of_mem_filter hq)⟩

/-- A call of `_kill_child_group`, with what others do between its two system calls. -/
inductive KillCall (b : Boot) (s : Host) (pid : ℕ) : List HostAction → Host → Prop
  | group {t : Host} : s.step (.killpg pid) = some t → t.killing = none → KillCall b s pid [] t
  | process {t u v : Host} {others : List HostAction} : s.step (.killpg pid) = some t →
      t.killing = some pid →
      (hostSystem b).Steps (fun s a => staysGrouped s a ∧ a.byWorker = false) t others u →
      u.step (.kill pid) = some v → KillCall b s pid others v

def childKeys (s : Host) : List (ℕ × ℕ) := s.children.map fun c => (c.pid, c.tree)

theorem HostStep.origin {a : HostAction} (h : HostStep s a t) (ha : a.byWorker = false) :
    childKeys t = childKeys s ∧ ∀ q ∈ t.procs,
      (∃ p ∈ s.procs, p.pid = q.pid ∧ p.tree = q.tree) ∨ ∃ parent, a = .fork parent q.pid := by
  have hregroup : ∀ pid group, ∀ q ∈ s.regroup pid group,
      ∃ p ∈ s.procs, p.pid = q.pid ∧ p.tree = q.tree := by
    intro pid group q hq
    obtain ⟨p, hp, rfl⟩ := HostInv.mem_regroup.mp hq
    refine ⟨p, hp, ?_⟩
    split_ifs <;> exact ⟨rfl, rfl⟩
  cases h with
  | forkChild => cases ha
  | killpg => cases ha
  | noGroup => cases ha
  | kill => cases ha
  | wait4 => cases ha
  | @setpgrp p =>
    refine ⟨?_, fun q hq => .inl (hregroup _ _ q hq)⟩
    unfold childKeys
    rw [List.map_map]
    apply List.map_congr_left
    intro c _
    rw [Function.comp_apply]
    split_ifs <;> rfl
  | setpgid => exact ⟨rfl, fun q hq => .inl (hregroup _ _ q hq)⟩
  | @fork p new =>
    refine ⟨rfl, fun q hq => ?_⟩
    rcases List.mem_cons.mp hq with rfl | hq
    exacts [.inr ⟨p.pid, rfl⟩, .inl ⟨q, hq, rfl, rfl⟩]
  | exits =>
    refine ⟨rfl, fun q hq => .inl ?_⟩
    obtain ⟨p, hp, rfl⟩ := HostInv.mem_killed.mp hq
    refine ⟨p, hp, ?_⟩
    split_ifs <;> exact ⟨rfl, rfl⟩
  | reaped => exact ⟨rfl, fun q hq => .inl ⟨q, List.mem_of_mem_filter hq, rfl, rfl⟩⟩

theorem window_origin {others : List HostAction}
    (h : (hostSystem b).Steps (fun s a => staysGrouped s a ∧ a.byWorker = false) t others u)
    (hi : HostInv t) :
    HostInv u ∧ childKeys u = childKeys t ∧ ∀ q ∈ u.procs,
      (∃ p ∈ t.procs, p.pid = q.pid ∧ p.tree = q.tree) ∨ ∃ parent, .fork parent q.pid ∈ others := by
  induction h with
  | nil => exact ⟨hi, rfl, fun q hq => .inl ⟨q, hq, rfl, rfl⟩⟩
  | cons hg he _ ih =>
    have hs := hostStep_cases he
    obtain ⟨hkeys, horigin⟩ := hs.origin hg.2
    obtain ⟨hiu, hkeysu, horiginu⟩ := ih (hi.step hg.1.1 hs)
    refine ⟨hiu, hkeysu.trans hkeys, fun q hq => ?_⟩
    rcases horiginu q hq with ⟨p, hp, hpid, htree⟩ | ⟨parent, hm⟩
    · rcases horigin p hp with ⟨r, hr, hrpid, hrtree⟩ | ⟨parent, rfl⟩
      · exact .inl ⟨r, hr, hrpid.trans hpid, hrtree.trans htree⟩
      · exact .inr ⟨parent, hpid ▸ List.mem_cons_self⟩
    · exact .inr ⟨parent, List.mem_cons_of_mem _ hm⟩

theorem mem_childKeys {pid tree : ℕ} :
    (pid, tree) ∈ childKeys s ↔ ∃ c ∈ s.children, c.pid = pid ∧ c.tree = tree := by
  simp [childKeys]

theorem killCall_survivors (h : (hostSystem b).Reachable staysGrouped s) {c : TaskChild}
    (hc : c ∈ s.children) {others : List HostAction} (hk : KillCall b s c.pid others v) :
    (∃ p ∈ v.procs, p.pid = c.pid ∧ p.alive = false) ∧ c.tree < v.forks ∧
      ∀ p ∈ v.procs, p.tree = some c.tree → p.alive = true →
        c.grouped = false ∧ ∃ parent, .fork parent p.pid ∈ others := by
  have hi := hostInv_reachable (h.mono fun _ _ hg => hg.1)
  have hto := together_reachable h
  obtain ⟨child, hm, hpid, htree⟩ := hi.present c hc
  cases hk with
  | group he hnone =>
    cases hostStep_cases he with
    | noGroup => cases hnone
    | @killpg _ q _ _ hq hqg =>
      -- whether or not the child is past its `os.setpgrp()`, its task is in the group that was found
      have hall : ∀ p ∈ s.procs, p.tree = some c.tree → p.pgid = c.pid := by
        intro p hp ht
        cases hgr : c.grouped with
        | true => exact hto c hc hgr p hp ht
        | false =>
          have hqc := hi.alone c hc hgr q hq (hi.group c hc q hq hqg)
          rw [hi.eq_of_pid hp hq ((hi.alone c hc hgr p hp ht).trans hqc.symm), hqg]
      refine ⟨⟨{ child with alive := false }, ?_, hpid, rfl⟩, hi.trees child hm _ htree,
        fun p hp ht ha => ?_⟩
      · refine HostInv.mem_killed.mpr ⟨child, hm, ?_⟩
        rw [if_pos (beq_iff_eq.mpr (hall child hm htree))]
      · obtain ⟨r, hr, rfl⟩ := HostInv.mem_killed.mp hp
        split_ifs at ht ha with hhit
        exact absurd (beq_iff_eq.mpr (hall r hr ht)) hhit
  | @process t u _ _ he hsome hothers hkill =>
    have hit : HostInv t := hi.step (a := .killpg c.pid) trivial (hostStep_cases he)
    obtain ⟨hiu, hkeys, horigin⟩ := window_origin hothers hit
    cases hostStep_cases he with
    | killpg hn =>
      rw [hn] at hsome
      cases hsome
    | noGroup _ _ hno =>
      have hgr : c.grouped = false := by
        by_contra hgr
        exact hno child hm (hto c hc (eq_true_of_ne_false hgr) child hm htree)
      -- the worker reaps nobody before the second call
      have hmem : (c.pid, c.tree) ∈ childKeys u := by
        rw [hkeys]
        exact mem_childKeys.mpr ⟨c, hc, rfl, rfl⟩
      obtain ⟨d, hd, hdpid, hdtree⟩ := mem_childKeys.mp hmem
      obtain ⟨p, hp, hppid, hptree⟩ := hiu.present d hd
      cases hostStep_cases hkill with
      | kill =>
        refine ⟨⟨{ p with alive := false }, ?_, hppid.trans hdpid, rfl⟩, ?_, fun q hq ht ha => ?_⟩
        · refine HostInv.mem_killed.mpr ⟨p, hp, ?_⟩
          rw [if_pos (beq_iff_eq.mpr (hppid.trans hdpid))]
        · exact hiu.trees p hp _ (hptree.trans (congrArg some hdtree))
        · obtain ⟨r, hr, rfl⟩ := HostInv.mem_killed.mp hq
          split_ifs at ht ha ⊢ with hhit
          refine ⟨hgr, ?_⟩
          rcases horigin r hr with ⟨q, hq, hqpid, hqtree⟩ | hfork
          · have hqc := hi.alone c hc hgr q hq (hqtree.trans ht)
            exact absurd (beq_iff_eq.mpr (hqpid.symm.trans hqc)) hhit
          · exact hfork

end Ends

def ungroupedHost : Host := (hostSystem sampleBoot).run staysGrouped [.forkChild 10]

def raced : List HostAction := [.setpgrp 10, .fork 10 11]

def survivedHost : Host where
  procs := [⟨11, 10, some 0, true⟩, ⟨10, 10, some 0, false⟩, ⟨1, 1, none, true⟩, ⟨2, 1, none, true⟩]
  worker := 1
  children := [⟨10, 0, true⟩]
  forks := 1
  killing := none

theorem survivedHost_killCall : KillCall sampleBoot ungroupedHost 10 raced survivedHost := by
  refine .process (t := { ungroupedHost with killing := some 10 })
    (u := ⟨⟨11, 10, some 0, true⟩ :: ⟨10, 10, some 0, true⟩ :: sampleBoot.procs, 1,
      [⟨10, 0, true⟩], 1, some 10⟩) (by decide +kernel) (by decide +kernel) ?_ (by decide +kernel)
  exact Steps.of_runFrom (by decide +kernel)

end PostgresQueue
