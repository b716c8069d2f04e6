import PostgresQueue.ChildLedger

namespace PostgresQueue

open Library

variable {τ : Type}

namespace After

def rest : After → List LoopSlot
  | .drain rest => rest
  | _ => []

def draining : After → Bool
  | .drain _ => true
  | _ => false

def ready : After → List ℕ
  | .batch fds => fds
  | _ => []

end After

namespace Pc

def held : Pc → List LoopSlot
  | .wait slot _ _ after => slot :: after.rest
  | .drain rest => rest
  | _ => []

def draining : Pc → Bool
  | .wait _ _ _ after => after.draining
  | .drain _ | .returned => true
  | _ => false

def waiting : Pc → List LoopSlot
  | .wait slot _ _ _ => [slot]
  | _ => []

def ready : Pc → List ℕ
  | .batch fds => fds
  | .wait _ _ _ after => after.ready
  | _ => []

def claiming : Pc → Bool
  | .claimOneOff | .claimPeriodic => true
  | _ => false

def failed : Pc → Bool
  | .keyError | .osError => true
  | _ => false

structure Plain (pc : Pc) : Prop where
  held : pc.held = []
  draining : pc.draining = false
  waiting : pc.waiting = []
  ready : pc.ready = []
  failed : pc.failed = false

def isPlain : Pc → Bool
  | .batch ready => ready.isEmpty
  | .wait .. | .drain _ | .returned | .keyError | .osError => false
  | _ => true

theorem plain_of_isPlain {pc : Pc} (h : pc.isPlain = true) : pc.Plain := by
  cases pc with
  | batch ready => exact ⟨rfl, rfl, rfl, List.isEmpty_iff.mp h, rfl⟩
  | wait | drain | returned | keyError | osError => cases h
  | _ => exact ⟨rfl, rfl, rfl, rfl, rfl⟩

end Pc

def Main.live (m : Main τ) : List LoopSlot :=
  if m.pc.draining then m.pc.held else m.children.values ++ m.pc.held

def WorkerConfig.capacity (cfg : WorkerConfig) : ℕ :=
  match cfg.mode with
  | .sequential => 1
  | .concurrent => cfg.concurrency

structure Consistent (cfg : WorkerConfig) (m : Main τ) : Prop where
  ledger : Ledger m.os m.log m.live
  handed : m.log.handed = m.log.reaped.map Prod.fst ++ m.pc.waiting.map LoopSlot.child
  keyed : ∀ e ∈ m.children.entries, e.2.pid = e.1
  indexed : OrderedDict.Indexes LoopSlot.readFd m.children m.fdToPid
  readyNodup : m.pc.ready.Nodup
  readyFound : ∀ fd ∈ m.pc.ready, fd ∈ m.fdToPid.keys
  room : m.live.length ≤ cfg.capacity
  claimRoom : m.pc.claiming → m.live.length < cfg.capacity
  succeeds : m.pc.failed = false
  sequential : cfg.mode = .sequential → m.children.entries = []

namespace Consistent

variable {cfg : WorkerConfig} {m : Main τ} {slot : LoopSlot}

theorem init (cfg : WorkerConfig) : Consistent cfg (Main.init : Main τ) := by
  constructor
  case ledger => exact Ledger.empty
  case indexed => exact .empty
  all_goals simp [Main.init, Main.live, Pc.held, Pc.draining, Pc.waiting, Pc.ready, Pc.claiming,
    Pc.failed, OrderedDict.empty, OrderedDict.values]

theorem goto (h : Consistent cfg m) {pc : Pc} (hlive : (m.goto pc).live = m.live)
    (hwait : pc.waiting = m.pc.waiting) (hready : pc.ready = m.pc.ready)
    (hclaim : pc.claiming → m.live.length < cfg.capacity) (hok : pc.failed = false) :
    Consistent cfg (m.goto pc) where
  ledger := hlive ▸ h.ledger
  handed := h.handed.trans (congrArg (fun l => _ ++ l.map LoopSlot.child) hwait.symm)
  keyed := h.keyed
  indexed := h.indexed
  readyNodup := hready ▸ h.readyNodup
  readyFound := hready ▸ h.readyFound
  room := hlive ▸ h.room
  claimRoom := hlive ▸ hclaim
  succeeds := hok
  sequential := h.sequential

theorem live_plain (hp : m.pc.Plain) : m.live = m.children.values := by
  simp [Main.live, hp.draining, hp.held]

theorem goto_plain (h : Consistent cfg m) {pc : Pc} (hp : m.pc.Plain) (hq : pc.Plain)
    (hclaim : pc.claiming → m.live.length < cfg.capacity) : Consistent cfg (m.goto pc) := by
  have hlive : (m.goto pc).live = m.live := by
    rw [live_plain hp, live_plain (m := m.goto pc) hq]
    rfl
  exact h.goto hlive (hq.waiting.trans hp.waiting.symm) (hq.ready.trans hp.ready.symm) hclaim
    hq.failed

theorem jump (h : Consistent cfg m) {pc : Pc} (hp : m.pc.isPlain = true) (hq : pc.isPlain = true)
    (hclaim : pc.claiming = false) : Consistent cfg (m.goto pc) :=
  h.goto_plain (Pc.plain_of_isPlain hp) (Pc.plain_of_isPlain hq) fun hc => by
    rw [hclaim] at hc
    cases hc

theorem notStarted (h : Consistent cfg m) (run : ChildSlot) (o : Outcome) (leaked : List ℕ) :
    Consistent cfg (m.notStarted run o leaked) :=
  ⟨h.ledger.notStarted run o leaked, h.handed, h.keyed, h.indexed, h.readyNodup, h.readyFound,
    h.room, h.claimRoom, h.succeeds, h.sequential⟩

theorem fresh (h : Consistent cfg m) (hp : m.pc.Plain)
    (hfork : m.os.CanFork slot.pid slot.readFd) :
    slot.pid ∉ m.children.keys ∧ slot.readFd ∉ m.fdToPid.keys := by
  have hledger := h.ledger
  rw [live_plain hp] at hledger
  constructor
  · intro hk
    obtain ⟨e, he, hpid⟩ := List.mem_map.mp hk
    have hm := hledger.unreaped_pids.mem_iff.mpr (List.mem_map_of_mem (List.mem_map_of_mem he))
    exact hfork.1 ((hpid ▸ h.keyed e he) ▸ hm)
  · rw [h.indexed.keys_eq]
    intro hk
    obtain ⟨s, hs, he⟩ := List.mem_map.mp hk
    exact hfork.2 (he ▸ hledger.opened s hs)

theorem register (h : Consistent cfg m) (hmode : cfg.mode = .concurrent) (hp : m.pc.Plain)
    (hclaim : m.pc.claiming) (hfork : m.os.CanFork slot.pid slot.readFd)
    (hslot : slot.child = m.os.forks) :
    Consistent cfg (((m.forked slot).register slot).goto .fill) := by
  obtain ⟨hpid, hfd⟩ := h.fresh hp hfork
  have hentries : (m.children.set slot.pid slot).entries = m.children.entries ++ [(slot.pid, slot)] :=
    OrderedDict.set_entries hpid slot
  have hlive : (((m.forked slot).register slot).goto .fill).live = m.live ++ [slot] := by
    rw [live_plain hp, live_plain (m := ((m.forked slot).register slot).goto .fill)
      (Pc.plain_of_isPlain rfl)]
    change (m.children.set slot.pid slot).entries.map Prod.snd = _
    rw [hentries, List.map_append]
    rfl
  have hroom := h.claimRoom hclaim
  refine ⟨?_, ?_, ?_, h.indexed.set hpid hfd, List.nodup_nil, by simp [Main.goto, Pc.ready], ?_,
    (fun hc => by cases hc), rfl, fun hs => Mode.noConfusion (hs.symm.trans hmode)⟩
  · rw [hlive]
    exact h.ledger.fork hfork hslot
  · have hh := h.handed
    rw [hp.waiting] at hh
    exact hh
  · intro e he
    change e ∈ (m.children.set slot.pid slot).entries at he
    rw [hentries] at he
    rcases List.mem_append.mp he with he | he
    · exact h.keyed e he
    · rw [List.mem_singleton.mp he]
  · rw [hlive, List.length_append, List.length_singleton]
    exact hroom

theorem forkedOnce (h : Consistent cfg m) (hmode : cfg.mode = .sequential) (hp : m.pc.Plain)
    (hfork : m.os.CanFork slot.pid slot.readFd) (hslot : slot.child = m.os.forks) :
    Consistent cfg ((m.forked slot).handOver slot .once) := by
  have hempty := h.sequential hmode
  have hvalues : m.children.values = [] := by rw [OrderedDict.values, hempty, List.map_nil]
  have hlive : ((m.forked slot).handOver slot .once).live = m.live ++ [slot] := by
    rw [live_plain hp]
    rfl
  refine ⟨?_, ?_, h.keyed, h.indexed, List.nodup_nil, by simp [Main.handOver, Pc.ready, After.ready],
    ?_, (fun hc => by cases hc), rfl, fun _ => hempty⟩
  · rw [hlive]
    exact (h.ledger.fork hfork hslot).of_log rfl rfl rfl
  · have hh := h.handed
    rw [hp.waiting, List.map_nil, List.append_nil] at hh
    exact congrArg (fun l => l ++ [slot.child]) hh
  · rw [hlive, live_plain hp, hvalues, WorkerConfig.capacity, hmode]
    exact le_rfl

theorem popReady (h : Consistent cfg m) {fd : ℕ} {rest : List ℕ} (hpc : m.pc = .batch (fd :: rest)) :
    Consistent cfg (m.popReady fd rest) := by
  have hnodup : (fd :: rest).Nodup := by simpa [hpc, Pc.ready] using h.readyNodup
  have hfound : ∀ fd' ∈ fd :: rest, fd' ∈ m.fdToPid.keys := by
    simpa [hpc, Pc.ready] using h.readyFound
  obtain ⟨pid, slot, hfd, hix, hpop, hindexed⟩ := h.indexed.pop (hfound fd List.mem_cons_self)
  have hstep : m.popReady fd rest =
      { m with children := m.children.remove pid, fdToPid := m.fdToPid.remove fd }.handOver slot
        (.batch rest) := by
    simp only [Main.popReady, hix, hpop]
  have hperm := OrderedDict.remove_perm (OrderedDict.mem_of_pop? hpop)
  have hlive : m.live.Perm (m.popReady fd rest).live := by
    rw [hstep]
    simp only [Main.live, Main.handOver, hpc, Pc.draining, Pc.held, After.draining, After.rest,
      Bool.false_eq_true, if_false, List.append_nil]
    exact (hperm.map Prod.snd).trans (List.perm_append_singleton _ _).symm
  rw [hstep] at hlive ⊢
  refine ⟨(h.ledger.perm hlive).of_log rfl rfl rfl, ?_, ?_, hindexed, hnodup.of_cons, ?_,
    hlive.length_eq ▸ h.room, (fun hc => by cases hc), rfl, ?_⟩
  · have hh := h.handed
    rw [hpc] at hh
    simp only [Pc.waiting, List.map_nil, List.append_nil] at hh
    exact congrArg (fun l => l ++ [slot.child]) hh
  · intro e he
    exact h.keyed e (List.mem_of_mem_filter he)
  · intro fd' hm
    have hne : fd' ≠ fd := fun he => (List.nodup_cons.mp hnodup).1 (he ▸ hm)
    exact OrderedDict.mem_remove_keys.mpr ⟨hfound fd' (List.mem_cons_of_mem _ hm), hne⟩
  · intro hs
    change m.children.entries.filter _ = []
    rw [h.sequential hs]
    rfl

theorem drainNext (h : Consistent cfg m) {rest : List LoopSlot} (hpc : m.pc = .drain (slot :: rest)) :
    Consistent cfg (m.handOver slot (.drain rest)) := by
  have hlive : (m.handOver slot (.drain rest)).live = m.live := by
    simp [Main.live, Main.handOver, hpc, Pc.held, Pc.draining, After.rest, After.draining]
  refine ⟨hlive ▸ h.ledger.of_log rfl rfl rfl, ?_, h.keyed, h.indexed, List.nodup_nil,
    by simp [Main.handOver, Pc.ready, After.ready], hlive ▸ h.room, (fun hc => by cases hc), rfl,
    h.sequential⟩
  have hh := h.handed
  rw [hpc] at hh
  simp only [Pc.waiting, List.map_nil, List.append_nil] at hh
  exact congrArg (fun l => l ++ [slot.child]) hh

theorem reap (h : Consistent cfg m) {wpc : WaitPc} {killed : Bool} {after : After} {c : OsChild}
    (hpc : m.pc = .wait slot wpc killed after) (hc : m.os.child? slot.pid = some c)
    (status : WaitStatus) (texts : ChildTexts) :
    Consistent cfg ((m.reap cfg slot c status killed texts).goto (After.pc after)) := by
  have hlive : m.live.Perm
      (slot :: ((m.reap cfg slot c status killed texts).goto (After.pc after)).live) := by
    cases after with
    | drain rest =>
      simp [Main.live, hpc, Pc.draining, Pc.held, After.draining, After.rest, Main.goto, After.pc]
    | batch fds =>
      simp only [Main.live, hpc, Pc.draining, Pc.held, After.draining, After.rest, Main.goto,
        After.pc, Bool.false_eq_true, if_false, List.append_nil]
      exact List.perm_append_singleton _ _
    | once =>
      simp only [Main.live, hpc, Pc.draining, Pc.held, After.draining, After.rest, Main.goto,
        After.pc, Bool.false_eq_true, if_false, List.append_nil]
      exact List.perm_append_singleton _ _
  have hledger := h.ledger.perm hlive
  obtain ⟨c', hc', hchild, -⟩ := hledger.child?_eq List.mem_cons_self
  obtain rfl : c' = c := Option.some.inj (hc'.symm.trans hc)
  have hready : (After.pc after).ready = m.pc.ready := by
    rw [hpc]
    cases after <;> rfl
  have hlength := hlive.length_eq
  have hroom := h.room
  rw [List.length_cons] at hlength
  obtain ⟨o, -, hended⟩ := m.reap_ended cfg slot c' status killed texts
  refine ⟨(hledger.reap hc _ o).of_log rfl hended rfl, ?_, h.keyed, h.indexed, ?_, ?_, ?_, ?_, ?_,
    h.sequential⟩
  · have hh := h.handed
    rw [hpc] at hh
    have hwait : (After.pc after).waiting = [] := by cases after <;> rfl
    change m.log.handed = _ ++ (After.pc after).waiting.map LoopSlot.child
    rw [hwait, hh]
    simp [Main.goto, Main.reap, Pc.waiting, hchild]
  · exact hready ▸ h.readyNodup
  · exact hready ▸ h.readyFound
  · omega
  · cases after <;> exact fun hc => by cases hc
  · cases after <;> rfl

theorem waited (h : Consistent cfg m) {wpc : WaitPc} {killed : Bool} {after : After}
    (hpc : m.pc = .wait slot wpc killed after) :
    (∃ c, m.os.child? slot.pid = some c ∧ c.child = slot.child) ∧ slot.readFd ∈ m.os.openFds := by
  have hm : slot ∈ m.live := by
    unfold Main.live
    rw [hpc]
    split_ifs
    · exact List.mem_cons_self
    · exact List.mem_append_right _ List.mem_cons_self
  obtain ⟨c, hc, hchild, -⟩ := h.ledger.child?_eq hm
  exact ⟨⟨c, hc, hchild⟩, h.ledger.opened slot hm⟩

theorem goto_wait (h : Consistent cfg m) {wpc : WaitPc} {killed : Bool} {after : After}
    (hpc : m.pc = .wait slot wpc killed after) (wpc' : WaitPc) (killed' : Bool) :
    Consistent cfg (m.goto (.wait slot wpc' killed' after)) := by
  refine h.goto ?_ (by rw [hpc]; rfl) (by rw [hpc]; rfl) (fun hc => by cases hc) rfl
  rw [Main.live, Main.live, hpc]
  rfl

variable {i : Input} {m' : Main τ}

theorem attempt (h : Consistent cfg m) {isPeriodic : Bool} {started : Started}
    (he : m.attempt cfg.mode isPeriodic i = some (m', started)) :
    (Consistent cfg m' ∧ m'.pc = m.pc ∧ m'.live = m.live ∧ ∀ slot, started ≠ .child slot) ∨
      ∃ slot, started = .child slot ∧ m' = m.forked slot ∧ slot.child = m.os.forks ∧
        m.os.CanFork slot.pid slot.readFd := by
  unfold Main.attempt at he
  split at he
  · cases he
    exact .inl ⟨h, rfl, rfl, fun slot hs => by cases hs⟩
  · split_ifs at he
    obtain ⟨o, -, heq⟩ := Option.map_eq_some_iff.mp he
    cases heq
    exact .inl ⟨h.notStarted _ _ _, rfl, rfl, fun slot hs => by cases hs⟩
  · dsimp only at he
    split_ifs at he with hc
    cases he
    exact .inr ⟨_, rfl, rfl, rfl, hc.2⟩
  · cases he

theorem fillClaim (h : Consistent cfg m) (hmode : cfg.mode = .concurrent) (hp : m.pc.Plain)
    (hclaim : m.pc.claiming) {isPeriodic : Bool} {started : Started} {next : Pc} (hn : next.Plain)
    (he : m.attempt cfg.mode isPeriodic i = some (m', started)) :
    Consistent cfg (match started with
      | .child slot => (m'.register slot).goto .fill
      | _ => m'.goto next) := by
  rcases h.attempt he with ⟨h', hpc, hlive, hno⟩ | ⟨slot, rfl, rfl, hslot, hfork⟩
  · have hgoto : Consistent cfg (m'.goto next) :=
      h'.goto_plain (hpc ▸ hp) hn fun _ => hlive ▸ h.claimRoom hclaim
    cases started with
    | nothing => exact hgoto
    | failed => exact hgoto
    | child slot => exact absurd rfl (hno slot)
  · exact h.register hmode hp hclaim hfork hslot

theorem onceClaim (h : Consistent cfg m) (hmode : cfg.mode = .sequential) (hp : m.pc.Plain)
    (hclaim : m.pc.claiming) {isPeriodic : Bool} {started : Started} {next : Pc} (hn : next.Plain)
    (he : m.attempt cfg.mode isPeriodic i = some (m', started)) :
    Consistent cfg (match started with
      | .child slot => m'.handOver slot .once
      | .failed => m'.goto (.onceReturned true)
      | .nothing => m'.goto next) := by
  rcases h.attempt he with ⟨h', hpc, hlive, hno⟩ | ⟨slot, rfl, rfl, hslot, hfork⟩
  · cases started with
    | nothing => exact h'.goto_plain (hpc ▸ hp) hn fun _ => hlive ▸ h.claimRoom hclaim
    | failed =>
      exact h'.goto_plain (hpc ▸ hp) (Pc.plain_of_isPlain rfl) fun _ => hlive ▸ h.claimRoom hclaim
    | child slot => exact absurd rfl (hno slot)
  · exact h.forkedOnce hmode hp hfork hslot

theorem cleanUp (h : Consistent cfg m) (hpc : m.pc = .cleanup) (he : m.cleanUp cfg i = some m') :
    Consistent cfg m' := by
  unfold Main.cleanUp at he
  split at he
  · split at he
    · cases he
      have hg : Consistent cfg (m.goto .reapStale) := h.jump (hpc ▸ rfl) rfl rfl
      exact ⟨hg.ledger, hg.handed, hg.keyed, hg.indexed, hg.readyNodup, hg.readyFound, hg.room,
        hg.claimRoom, hg.succeeds, hg.sequential⟩
    · cases he
      exact h.jump (hpc ▸ rfl) rfl rfl
  · cases he

theorem reapStale (h : Consistent cfg m) (hpc : m.pc = .reapStale) {next : Pc}
    (hn : next.isPlain = true) (hclaim : next.claiming = false) (he : m.reapStale cfg next i = some m') :
    Consistent cfg m' := by
  unfold Main.reapStale at he
  split at he
  · split at he
    · cases he
      have hg : Consistent cfg (m.goto next) := h.jump (hpc ▸ rfl) hn hclaim
      exact ⟨hg.ledger, hg.handed, hg.keyed, hg.indexed, hg.readyNodup, hg.readyFound, hg.room,
        hg.claimRoom, hg.succeeds, hg.sequential⟩
    · cases he
      exact h.jump (hpc ▸ rfl) rfl rfl
  · cases he

theorem select (h : Consistent cfg m) (hpc : m.pc = .select) {fds : List ℕ} (hnodup : fds.Nodup)
    (hkeys : ∀ fd ∈ fds, fd ∈ m.fdToPid.keys) : Consistent cfg (m.goto (.batch fds)) := by
  have hlive : (m.goto (.batch fds)).live = m.live := by
    rw [Main.live, Main.live, hpc]
    rfl
  refine ⟨hlive ▸ h.ledger, ?_, h.keyed, h.indexed, hnodup, hkeys, hlive ▸ h.room,
    (fun hc => by cases hc), rfl, h.sequential⟩
  have hh := h.handed
  rw [hpc] at hh
  exact hh

theorem ends (h : Consistent cfg m) (pid : ℕ) (status : WaitStatus) :
    Consistent cfg { m with os := m.os.ends pid status } :=
  ⟨h.ledger.ends pid status, h.handed, h.keyed, h.indexed, h.readyNodup, h.readyFound, h.room,
    h.claimRoom, h.succeeds, h.sequential⟩

theorem live_waiting (m : Main τ) : ∃ others, m.live.Perm (m.pc.waiting ++ others) := by
  unfold Main.live
  cases m.pc with
  | wait slot wpc killed after =>
    split_ifs
    · exact ⟨after.rest, .refl _⟩
    · exact ⟨m.children.values ++ after.rest, List.perm_middle⟩
  | _ => exact ⟨_, .refl _⟩

theorem handed_nodup (h : Consistent cfg m) : m.log.handed.Nodup := by
  obtain ⟨others, hperm⟩ := live_waiting m
  have hforks := (h.ledger.perm hperm).forks
  rw [List.map_append, ← List.append_assoc] at hforks
  rw [h.handed]
  exact (hforks.nodup_iff.mpr List.nodup_range).of_append_left

theorem waiting_not_reaped (h : Consistent cfg m) {wpc : WaitPc} {killed : Bool} {after : After}
    (hpc : m.pc = .wait slot wpc killed after) : slot.child ∉ m.log.reaped.map Prod.fst := by
  have hnodup := h.handed_nodup
  rw [h.handed, hpc] at hnodup
  have hdisjoint := List.disjoint_of_nodup_append hnodup
  exact fun hm => hdisjoint hm (by simp [Pc.waiting])

theorem handed_or_live (h : Consistent cfg m) {child : ℕ} (hc : child < m.os.forks) :
    child ∈ m.log.handed ∨ ∃ slot ∈ m.live, slot.child = child := by
  have hm := h.ledger.forks.mem_iff.mpr (List.mem_range.mpr hc)
  rcases List.mem_append.mp hm with hr | hl
  · rw [h.handed]
    exact .inl (List.mem_append_left _ hr)
  · exact .inr (List.mem_map.mp hl)

theorem returned (h : Consistent cfg m) (hpc : m.pc = .returned) : m.os.unreaped = [] ∧
    m.log.handed.Perm (List.range m.os.forks) ∧
    (m.log.reaped.map Prod.fst).Perm (List.range m.os.forks) ∧
    m.log.claimed.Perm (m.log.ended.map Prod.fst) := by
  have hlive : m.live = [] := by simp [Main.live, hpc, Pc.draining, Pc.held]
  have hledger := h.ledger
  rw [hlive] at hledger
  have hforks : (m.log.reaped.map Prod.fst).Perm (List.range m.os.forks) := by
    simpa using hledger.forks
  have hhanded : m.log.handed = m.log.reaped.map Prod.fst := by
    simpa [hpc, Pc.waiting] using h.handed
  refine ⟨?_, hhanded ▸ hforks, hforks, by simpa using hledger.ended⟩
  simpa using hledger.unreaped

variable [LinearOrder τ] {signals : Signals τ}

theorem waitForChild (h : Consistent cfg m) {wpc : WaitPc} {killed : Bool} {after : After}
    (hpc : m.pc = .wait slot wpc killed after)
    (he : m.waitForChild cfg signals slot killed after wpc i = some m') : Consistent cfg m' := by
  obtain ⟨⟨c, hc, -⟩, hfd⟩ := h.waited hpc
  unfold Main.waitForChild at he
  split at he
  · rw [hc] at he
    dsimp only at he
    split at he
    · cases he
      exact h.goto_wait hpc _ _
    · rw [if_pos hfd] at he
      cases he
      exact h.reap hpc hc _ _
  · cases he
    exact h.goto_wait hpc _ _
  · cases he
    exact h.goto_wait hpc _ _
  · cases he
    have hw := h.goto_wait hpc .select true
    exact ⟨hw.ledger.of_log rfl rfl rfl, hw.handed, hw.keyed, hw.indexed, hw.readyNodup,
      hw.readyFound, hw.room, hw.claimRoom, hw.succeeds, hw.sequential⟩
  · cases he
    exact h.goto_wait hpc _ _
  · cases he

theorem concurrentStep (h : Consistent cfg m) (hmode : cfg.mode = .concurrent)
    (he : m.concurrentStep cfg signals i = some m') : Consistent cfg m' := by
  unfold Main.concurrentStep at he
  split at he
  · rename_i hpc
    cases he
    refine h.jump (hpc ▸ rfl) ?_ ?_
    · split_ifs <;> rfl
    · split_ifs <;> rfl
  · rename_i hpc
    cases he
    have hp : m.pc.Plain := Pc.plain_of_isPlain (hpc ▸ rfl)
    split_ifs with hroom
    · refine h.goto_plain hp (Pc.plain_of_isPlain rfl) fun _ => ?_
      rw [live_plain hp, OrderedDict.values, List.length_map, WorkerConfig.capacity, hmode]
      simp only [Bool.and_eq_true, decide_eq_true_eq] at hroom
      exact hroom.1
    · exact h.jump (hpc ▸ rfl) rfl rfl
  · rename_i hpc
    obtain ⟨⟨m₁, started⟩, ha, rfl⟩ := Option.map_eq_some_iff.mp he
    exact h.fillClaim hmode (Pc.plain_of_isPlain (hpc ▸ rfl)) (hpc ▸ rfl) (Pc.plain_of_isPlain rfl)
      ha
  · rename_i hpc
    obtain ⟨⟨m₁, started⟩, ha, rfl⟩ := Option.map_eq_some_iff.mp he
    exact h.fillClaim hmode (Pc.plain_of_isPlain (hpc ▸ rfl)) (hpc ▸ rfl) (Pc.plain_of_isPlain rfl)
      ha
  · rename_i fds hpc
    split_ifs at he with hready
    cases he
    exact h.select hpc hready.2.1 hready.2.2
  · rename_i hpc
    split_ifs at he
    cases he
    exact h.jump (hpc ▸ rfl) rfl rfl
  · rename_i hpc
    cases he
    exact h.jump (hpc ▸ rfl) rfl rfl
  · rename_i fd rest hpc
    cases he
    exact h.popReady hpc
  · rename_i hpc
    exact h.waitForChild hpc he
  · rename_i hpc
    cases he
    refine h.jump (hpc ▸ rfl) ?_ ?_
    · split_ifs <;> rfl
    · split_ifs <;> rfl
  · rename_i hpc
    exact h.cleanUp hpc he
  · rename_i hpc
    exact h.reapStale hpc rfl rfl he
  · rename_i hpc
    cases he
    have hlive : (m.goto (.drain m.children.values)).live = m.live :=
      (live_plain (Pc.plain_of_isPlain (hpc ▸ rfl))).symm
    exact h.goto hlive (hpc ▸ rfl) (hpc ▸ rfl) (fun hc => by cases hc) rfl
  · rename_i hpc
    cases he
    have hlive : (m.goto .returned).live = m.live := by
      rw [Main.live, Main.live, hpc]
      rfl
    exact h.goto hlive (hpc ▸ rfl) (hpc ▸ rfl) (fun hc => by cases hc) rfl
  · rename_i slot rest hpc
    cases he
    exact h.drainNext hpc
  · cases he

theorem onceStep (h : Consistent cfg m) (hmode : cfg.mode = .sequential)
    (he : m.onceStep cfg signals i = some m') : Consistent cfg m' := by
  unfold Main.onceStep at he
  split at he
  · rename_i hpc
    obtain ⟨⟨m₁, started⟩, ha, rfl⟩ := Option.map_eq_some_iff.mp he
    exact h.onceClaim hmode (Pc.plain_of_isPlain (hpc ▸ rfl)) (hpc ▸ rfl) (Pc.plain_of_isPlain rfl)
      ha
  · rename_i hpc
    obtain ⟨⟨m₁, started⟩, ha, rfl⟩ := Option.map_eq_some_iff.mp he
    exact h.onceClaim hmode (Pc.plain_of_isPlain (hpc ▸ rfl)) (hpc ▸ rfl) (Pc.plain_of_isPlain rfl)
      ha
  · rename_i hpc
    exact h.waitForChild hpc he
  · cases he

theorem sequentialStep (h : Consistent cfg m) (hmode : cfg.mode = .sequential)
    (he : m.sequentialStep cfg signals i = some m') : Consistent cfg m' := by
  unfold Main.sequentialStep at he
  split at he
  · rename_i hpc
    cases he
    have hp : m.pc.Plain := Pc.plain_of_isPlain (hpc ▸ rfl)
    refine h.goto_plain hp ?_ fun _ => ?_
    · split_ifs <;> exact Pc.plain_of_isPlain rfl
    · rw [live_plain hp, OrderedDict.values, h.sequential hmode, WorkerConfig.capacity, hmode]
      exact Nat.zero_lt_one
  · rename_i hpc
    cases he
    refine h.jump (hpc ▸ rfl) ?_ ?_
    · split_ifs <;> rfl
    · split_ifs <;> rfl
  · rename_i hpc
    cases he
    refine h.jump (hpc ▸ rfl) ?_ ?_
    · split_ifs <;> rfl
    · split_ifs <;> rfl
  · rename_i hpc
    exact h.cleanUp hpc he
  · rename_i hpc
    exact h.reapStale hpc rfl rfl he
  · rename_i hpc
    cases he
    exact h.jump (hpc ▸ rfl) rfl rfl
  · rename_i hpc
    cases he
    have hlive : (m.goto .returned).live = m.live := by
      have hp : m.pc.Plain := Pc.plain_of_isPlain (hpc ▸ rfl)
      rw [live_plain hp, OrderedDict.values, h.sequential hmode]
      rfl
    exact h.goto hlive (hpc ▸ rfl) (hpc ▸ rfl) (fun hc => by cases hc) rfl
  · exact h.onceStep hmode he

theorem step (h : Consistent cfg m) (he : m.step cfg signals i = some m') : Consistent cfg m' := by
  unfold Main.step at he
  cases hmode : cfg.mode with
  | sequential =>
    rw [hmode] at he
    exact h.sequentialStep hmode he
  | concurrent =>
    rw [hmode] at he
    exact h.concurrentStep hmode he

end Consistent

end PostgresQueue
