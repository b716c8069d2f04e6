import PostgresQueue.Library.ListAt
import PostgresQueue.Library.Transition
import PostgresQueue.Models

namespace PostgresQueue

open Library

abbrev Connection := ℕ

abbrev Pool := List Connection

structure Disposed where
  pool : Pool
  closed : List Connection
  raised : Option PyError

/-- SQLAlchemy's `Engine.dispose`: its flag `close`, what goes wrong in the call, and the pool. -/
abbrev Dispose := Bool → Option PyError → Pool → Disposed

structure Dispose.Documented (dispose : Dispose) : Prop where
  replaced : ∀ fault pool, (dispose false fault pool).pool = []
  untouched : ∀ fault pool, (dispose false fault pool).closed = []
  closes : ∀ fault pool, (dispose true fault pool).closed = pool
  keeps : ∀ fault pool, (dispose true fault pool).pool ⊆ pool

structure Session where
  pq : ℕ
  out : Option Connection
deriving DecidableEq

/-- The `PQ` instances of a process by number, `none` once collected. `live` is `_live_instances`. -/
structure Process where
  pools : List (Option Pool)
  live : List ℕ
  sessions : List Session
  alive : Bool

namespace Process

def pool (p : Process) (i : ℕ) : Option Pool := p.pools[i]?.join

def setPool (p : Process) (i : ℕ) (pool : Pool) : Process :=
  { p with pools := p.pools.set i (some pool) }

/-- `PQ.__init__`. -/
def init (p : Process) : Process :=
  { p with pools := p.pools ++ [some []], live := p.pools.length :: p.live }

def forget (p : Process) (i : ℕ) : Process :=
  { p with pools := p.pools.set i none, live := p.live.filter (· ≠ i) }

def setOut (p : Process) (k : ℕ) (x : Session) (out : Option Connection) : Process :=
  { p with sessions := p.sessions.set k { x with out := out } }

end Process

structure DisposedPools where
  process : Process
  closed : List Connection
  logged : List String

section Dispose

variable (dispose : Dispose)

def disposePools (close : Bool) (failure : String) (faults : ℕ → Option PyError) :
    List ℕ → Process → DisposedPools
  | [], p => ⟨p, [], []⟩
  | i :: rest, p =>
    match p.pool i with
    | none => disposePools close failure faults rest p
    | some pool =>
      let d := dispose close (faults i) pool
      let r := disposePools close failure faults rest (p.setPool i d.pool)
      match d.raised with
      | none => { r with closed := d.closed ++ r.closed }
      -- one failing instance must not stop the others
      | some _ => { r with closed := d.closed ++ r.closed, logged := failure :: r.logged }

def resetPoolsAfterFork (faults : ℕ → Option PyError) (p : Process) : DisposedPools :=
  disposePools dispose false "Failed to reset a PQ connection pool after fork" faults p.live p

def closePoolsBeforeExit (faults : ℕ → Option PyError) (p : Process) : DisposedPools :=
  disposePools dispose true "Failed to close a PQ connection pool" faults p.live p

end Dispose

/-- What a process does. A session that runs a statement checks out one of the pool's connections
or a new one; when it commits, rolls back or closes, the pool keeps the connection or closes it. -/
inductive ProcessAction
  | create
  | enter (pq : ℕ)
  | execute (session : ℕ) (pick : Option ℕ)
  | release (session : ℕ) (keep : Bool)
  | leave (session : ℕ) (keep : Bool)
  | discard (pq : ℕ) (n : ℕ)
  | close (pq : ℕ) (fault : Option PyError)
  | collect (pq : ℕ)
  | exit (faults : ℕ → Option PyError)
  | dies

structure Effect where
  process : Process
  opens : Bool
  queried : List Connection
  closed : List Connection

namespace Process

def release (p : Process) (k : ℕ) (x : Session) (keep : Bool) : Effect :=
  match x.out with
  | none => ⟨p, false, [], []⟩
  | some c =>
    match keep, p.pool x.pq with
    | true, some pool => ⟨(p.setOut k x none).setPool x.pq (pool ++ [c]), false, [c], []⟩
    | _, _ => ⟨p.setOut k x none, false, [c], [c]⟩

def execute (p : Process) (fresh : Connection) (k : ℕ) (x : Session) (pick : Option ℕ) :
    Option Effect :=
  match x.out, pick with
  | some c, _ => some ⟨p, false, [c], []⟩
  | none, none => some ⟨p.setOut k x (some fresh), true, [fresh], []⟩
  | none, some n =>
    (p.pool x.pq).bind fun pool => pool[n]?.map fun c =>
      ⟨(p.setOut k x (some c)).setPool x.pq (pool.eraseIdx n), false, [c], []⟩

variable (dispose : Dispose)

/-- `fresh` is the connection that the process gets if it opens one. An instance is collected
only when no session of it is open: `session` holds a reference. -/
def step (fresh : Connection) (p : Process) : ProcessAction → Option Effect
  | .create => some ⟨p.init, false, [], []⟩
  | .enter i =>
    (p.pool i).map fun _ => ⟨{ p with sessions := p.sessions ++ [⟨i, none⟩] }, false, [], []⟩
  | .execute k pick => p.sessions[k]?.bind fun x => p.execute fresh k x pick
  | .release k keep => p.sessions[k]?.map fun x => p.release k x keep
  | .leave k keep =>
    p.sessions[k]?.map fun x =>
      let e := p.release k x keep
      { e with process := { e.process with sessions := e.process.sessions.eraseIdx k } }
  | .discard i n =>
    (p.pool i).bind fun pool => pool[n]?.map fun c =>
      ⟨p.setPool i (pool.eraseIdx n), false, [], [c]⟩
  | .close i fault =>
    (p.pool i).map fun pool =>
      let d := dispose true fault pool
      ⟨p.setPool i d.pool, false, [], d.closed⟩
  | .collect i =>
    (p.pool i).bind fun pool =>
      if ∀ x ∈ p.sessions, x.pq ≠ i then some ⟨p.forget i, false, [], pool⟩ else none
  | .exit faults =>
    let r := closePoolsBeforeExit dispose faults p
    some ⟨{ r.process with alive := false }, false, [], r.closed⟩
  | .dies => some ⟨{ p with alive := false }, false, [], []⟩

end Process

structure Touch where
  pid : ℕ
  connection : Connection
  closes : Bool
deriving DecidableEq

structure Connections where
  processes : List Process
  opened : List ℕ
  touches : List Touch

def Connections.apply (s : Connections) (pid : ℕ) (e : Effect) : Connections where
  processes := s.processes.set pid e.process
  opened := if e.opens then s.opened ++ [pid] else s.opened
  touches := s.touches ++ e.queried.map (⟨pid, ·, false⟩) ++ e.closed.map (⟨pid, ·, true⟩)

inductive ConnectionAction
  | act (pid : ℕ) (a : ProcessAction)
  | fork (pid : ℕ) (faults : ℕ → Option PyError)

def Connections.living (s : Connections) (pid : ℕ) : Option Process :=
  s.processes[pid]?.filter Process.alive

/-- A tree of processes. A forked child starts as a copy of its parent and runs the fork hook. -/
def connectionSystem (dispose : Dispose) : System Connections ConnectionAction where
  init := ⟨[⟨[], [], [], true⟩], [], []⟩
  step s
    | .act pid a => (s.living pid).bind fun p => (p.step dispose s.opened.length a).map (s.apply pid)
    | .fork pid faults =>
      (s.living pid).map fun p =>
        let r := resetPoolsAfterFork dispose faults p
        { s with
          processes := s.processes ++ [r.process]
          touches := s.touches ++ r.closed.map (⟨s.processes.length, ·, true⟩) }

def forksOutsideSessions (s : Connections) : ConnectionAction → Prop
  | .act _ _ => True
  | .fork pid _ => ∀ p ∈ s.processes[pid]?, p.sessions = []

instance (s : Connections) (a : ConnectionAction) : Decidable (forksOutsideSessions s a) := by
  cases a <;> unfold forksOutsideSessions <;> infer_instance

namespace Process

variable {p : Process} {i j : ℕ} {pool pool' : Pool}

theorem pool_eq_some : p.pool i = some pool ↔ p.pools[i]? = some (some pool) := by
  unfold Process.pool
  exact Option.join_eq_some_iff

theorem setPool_pool (h : (p.setPool i pool).pool j = some pool') :
    (i = j ∧ pool' = pool) ∨ (i ≠ j ∧ p.pool j = some pool') := by
  rw [pool_eq_some, setPool, List.getElem?_set] at h
  split_ifs at h with hij hi
  · exact .inl ⟨hij, (Option.some.inj (Option.some.inj h)).symm⟩
  · exact .inr ⟨hij, pool_eq_some.mpr h⟩

theorem pool_setPool_of_ne (h : i ≠ j) : (p.setPool i pool).pool j = p.pool j := by
  unfold Process.pool setPool
  rw [List.getElem?_set_ne h]

structure Sound (own : Connection → Prop) (p : Process) : Prop where
  pooled : ∀ i pool, p.pool i = some pool → ∀ c ∈ pool, own c
  out : ∀ x ∈ p.sessions, ∀ c, x.out = some c → own c
  tracked : ∀ i pool, p.pool i = some pool → i ∈ p.live

variable {own own' : Connection → Prop}

theorem Sound.mono (h : p.Sound own) (hle : ∀ c, own c → own' c) : p.Sound own' where
  pooled i pool hp c hc := hle c (h.pooled i pool hp c hc)
  out x hx c hc := hle c (h.out x hx c hc)
  tracked := h.tracked

theorem Sound.setPool (h : p.Sound own) (hp : p.pool i = some pool) (ho : ∀ c ∈ pool', own c) :
    (p.setPool i pool').Sound own where
  pooled j q hq := by
    rcases setPool_pool hq with ⟨-, rfl⟩ | ⟨-, hq⟩
    · exact ho
    · exact h.pooled j q hq
  out := h.out
  tracked j q hq := by
    rcases setPool_pool hq with ⟨rfl, -⟩ | ⟨-, hq⟩
    · exact h.tracked i pool hp
    · exact h.tracked j q hq

theorem Sound.setSessions (h : p.Sound own) {sessions : List Session}
    (ho : ∀ x ∈ sessions, ∀ c, x.out = some c → own c) :
    Sound own { p with sessions := sessions } where
  pooled := h.pooled
  out := ho
  tracked := h.tracked

theorem Sound.setOut (h : p.Sound own) {k : ℕ} {x : Session} {out : Option Connection}
    (ho : ∀ c, out = some c → own c) : (p.setOut k x out).Sound own := by
  apply h.setSessions
  intro y hy
  rcases List.mem_or_eq_of_mem_set hy with hy | rfl
  · exact h.out y hy
  · exact ho

theorem Sound.setAlive (h : p.Sound own) (alive : Bool) : Sound own { p with alive := alive } :=
  ⟨h.pooled, h.out, h.tracked⟩

end Process

section Dispose

variable {dispose : Dispose} {failure : String}
  {faults : ℕ → Option PyError} {is : List ℕ} {p : Process}

theorem disposePools_cons {close : Bool} {i : ℕ} {pool : Pool} (h : p.pool i = some pool) :
    let d := dispose close (faults i) pool
    let r := disposePools dispose close failure faults is (p.setPool i d.pool)
    let r' := disposePools dispose close failure faults (i :: is) p
    r'.process = r.process ∧ r'.closed = d.closed ++ r.closed := by
  simp only [disposePools, h]
  split <;> exact ⟨rfl, rfl⟩

theorem disposePools_cons_none {close : Bool} {i : ℕ} (h : p.pool i = none) :
    disposePools dispose close failure faults (i :: is) p =
      disposePools dispose close failure faults is p := by
  simp only [disposePools, h]

theorem disposePools_kept {close : Bool} (is : List ℕ) (p : Process) :
    (disposePools dispose close failure faults is p).process.sessions = p.sessions ∧
      (disposePools dispose close failure faults is p).process.live = p.live ∧
      ∀ i pool, (disposePools dispose close failure faults is p).process.pool i = some pool →
        ∃ pool', p.pool i = some pool' := by
  induction is generalizing p with
  | nil => exact ⟨rfl, rfl, fun i pool hp => ⟨pool, hp⟩⟩
  | cons i is ih =>
    cases hp : p.pool i with
    | none =>
      rw [disposePools_cons_none hp]
      exact ih p
    | some pool =>
      rw [(disposePools_cons hp).1]
      obtain ⟨hsessions, hlive, hpools⟩ := ih (p.setPool i _)
      refine ⟨hsessions, hlive, fun j q hq => ?_⟩
      obtain ⟨q', hq'⟩ := hpools j q hq
      rcases Process.setPool_pool hq' with ⟨rfl, -⟩ | ⟨-, hq'⟩
      · exact ⟨pool, hp⟩
      · exact ⟨q', hq'⟩

theorem resetPoolsAfterFork_kept (dispose : Dispose) (faults : ℕ → Option PyError) (p : Process) :
    (resetPoolsAfterFork dispose faults p).process.sessions = p.sessions ∧
      (resetPoolsAfterFork dispose faults p).process.live = p.live ∧
      ∀ i pool, (resetPoolsAfterFork dispose faults p).process.pool i = some pool →
        ∃ pool', p.pool i = some pool' := disposePools_kept p.live p

theorem disposePools_closes_none (hd : dispose.Documented) (is : List ℕ) (p : Process) :
    (disposePools dispose false failure faults is p).closed = [] := by
  induction is generalizing p with
  | nil => rfl
  | cons i is ih =>
    cases hp : p.pool i with
    | none =>
      rw [disposePools_cons_none hp]
      exact ih p
    | some pool =>
      rw [(disposePools_cons hp).2, hd.untouched, ih]
      rfl

theorem disposePools_empties (hd : dispose.Documented)
    (h : ∀ i pool, p.pool i = some pool → i ∈ is ∨ pool = []) :
    ∀ i pool, (disposePools dispose false failure faults is p).process.pool i = some pool →
      pool = [] := by
  induction is generalizing p with
  | nil =>
    intro i pool hp
    exact (h i pool hp).resolve_left List.not_mem_nil
  | cons i is ih =>
    cases hp : p.pool i with
    | none =>
      rw [disposePools_cons_none hp]
      apply ih
      intro j q hq
      rcases h j q hq with hj | hq'
      · rcases List.mem_cons.mp hj with rfl | hj
        · cases hp.symm.trans hq
        · exact .inl hj
      · exact .inr hq'
    | some pool =>
      rw [(disposePools_cons hp).1]
      apply ih
      intro j q hq
      rcases Process.setPool_pool hq with ⟨-, rfl⟩ | ⟨hij, hq⟩
      · exact .inr (hd.replaced _ _)
      · rcases h j q hq with hj | hq'
        · exact .inl ((List.mem_cons.mp hj).resolve_left (Ne.symm hij))
        · exact .inr hq'

theorem disposePools_sound (hd : dispose.Documented) {own : Connection → Prop} (is : List ℕ)
    (h : p.Sound own) : (disposePools dispose true failure faults is p).process.Sound own ∧
      ∀ c ∈ (disposePools dispose true failure faults is p).closed, own c := by
  induction is generalizing p with
  | nil => exact ⟨h, nofun⟩
  | cons i is ih =>
    cases hp : p.pool i with
    | none =>
      rw [disposePools_cons_none hp]
      exact ih h
    | some pool =>
      have hown := h.pooled i pool hp
      rw [(disposePools_cons hp).1, (disposePools_cons hp).2]
      have hset := h.setPool hp fun c hc => hown c (hd.keeps (faults i) pool hc)
      refine ⟨(ih hset).1, fun c hc => ?_⟩
      rcases List.mem_append.mp hc with hc | hc
      · rw [hd.closes] at hc
        exact hown c hc
      · exact (ih hset).2 c hc

theorem disposePools_closes_all (hd : dispose.Documented) {i : ℕ} {pool : Pool}
    (hi : i ∈ is) (h : p.pool i = some pool) :
    pool ⊆ (disposePools dispose true failure faults is p).closed := by
  induction is generalizing p with
  | nil => cases hi
  | cons j is ih =>
    cases hp : p.pool j with
    | none =>
      rw [disposePools_cons_none hp]
      rcases List.mem_cons.mp hi with rfl | hi
      · cases hp.symm.trans h
      · exact ih hi h
    | some q =>
      rw [(disposePools_cons hp).2]
      by_cases hij : j = i
      · subst hij
        cases hp.symm.trans h
        rw [hd.closes]
        exact List.subset_append_left _ _
      · refine List.subset_append_of_subset_right _ (ih ?_ ?_)
        · exact (List.mem_cons.mp hi).resolve_left (Ne.symm hij)
        · rw [Process.pool_setPool_of_ne hij]
          exact h

end Dispose

structure Effect.Sound (own : Connection → Prop) (e : Effect) : Prop where
  process : e.process.Sound own
  queried : ∀ c ∈ e.queried, own c
  closed : ∀ c ∈ e.closed, own c

namespace Process.Sound

variable {dispose : Dispose} {p : Process} {own : Connection → Prop} {k : ℕ} {x : Session}
  {fresh : Connection} {e : Effect}

theorem release (h : p.Sound own) (hx : p.sessions[k]? = some x) (keep : Bool) :
    (p.release k x keep).Sound own := by
  cases hout : x.out with
  | none =>
    simp only [Process.release, hout]
    exact ⟨h, nofun, nofun⟩
  | some c =>
    have hc : own c := h.out x (List.mem_of_getElem? hx) c hout
    have hfreed : (p.setOut k x none).Sound own := h.setOut nofun
    simp only [Process.release, hout]
    split
    · rename_i pool hp
      refine ⟨hfreed.setPool hp ?_, by simpa using hc, nofun⟩
      intro d hd
      rcases List.mem_append.mp hd with hd | hd
      · exact h.pooled x.pq pool hp d hd
      · rw [List.mem_singleton.mp hd]
        exact hc
    · exact ⟨hfreed, by simpa using hc, by simpa using hc⟩

theorem execute (h : p.Sound own) (hx : p.sessions[k]? = some x) {pick : Option ℕ}
    (he : p.execute fresh k x pick = some e) (hopen : e.opens = true → own fresh) :
    e.Sound own := by
  unfold Process.execute at he
  split at he
  · rename_i c hout
    cases he
    have hc : own c := h.out x (List.mem_of_getElem? hx) c hout
    exact ⟨h, by simpa using hc, nofun⟩
  · cases he
    have hfresh := hopen rfl
    exact ⟨h.setOut fun c hc => Option.some.inj hc ▸ hfresh, by simpa using hfresh, nofun⟩
  · rename_i n _
    obtain ⟨pool, hp, he⟩ := Option.bind_eq_some_iff.mp he
    obtain ⟨c, hn, rfl⟩ := Option.map_eq_some_iff.mp he
    have hc : own c := h.pooled x.pq pool hp c (List.mem_of_getElem? hn)
    have hout : (p.setOut k x (some c)).Sound own := h.setOut fun d hd => Option.some.inj hd ▸ hc
    refine ⟨hout.setPool hp fun d hd => ?_, by simpa using hc, nofun⟩
    exact h.pooled x.pq pool hp d (List.eraseIdx_subset hd)

theorem init (h : p.Sound own) : p.init.Sound own := by
  have hpool : ∀ i pool, p.init.pool i = some pool →
      p.pool i = some pool ∨ (i = p.pools.length ∧ pool = []) := by
    intro i pool hp
    rcases getElem?_append_singleton (pool_eq_some.mp hp) with hp | ⟨hi, he⟩
    · exact .inl (pool_eq_some.mpr hp)
    · exact .inr ⟨hi, Option.some.inj he⟩
  refine ⟨fun i pool hp => ?_, h.out, fun i pool hp => ?_⟩
  · rcases hpool i pool hp with hp | ⟨-, rfl⟩
    · exact h.pooled i pool hp
    · exact nofun
  · rcases hpool i pool hp with hp | ⟨rfl, -⟩
    · exact List.mem_cons_of_mem _ (h.tracked i pool hp)
    · exact List.mem_cons_self

theorem forget (h : p.Sound own) (i : ℕ) : (p.forget i).Sound own := by
  have hpool : ∀ j pool, (p.forget i).pool j = some pool → j ≠ i ∧ p.pool j = some pool := by
    intro j pool hp
    rw [pool_eq_some, Process.forget, List.getElem?_set] at hp
    split_ifs at hp with hij hi
    · cases hp
    · exact ⟨Ne.symm hij, pool_eq_some.mpr hp⟩
  refine ⟨fun j pool hp => ?_, h.out, fun j pool hp => ?_⟩
  · exact h.pooled j pool (hpool j pool hp).2
  · obtain ⟨hne, hp⟩ := hpool j pool hp
    exact List.mem_filter.mpr ⟨h.tracked j pool hp, by simpa using hne⟩

theorem closePoolsBeforeExit (hd : dispose.Documented) (h : p.Sound own)
    (faults : ℕ → Option PyError) :
    (PostgresQueue.closePoolsBeforeExit dispose faults p).process.Sound own ∧
      ∀ c ∈ (PostgresQueue.closePoolsBeforeExit dispose faults p).closed, own c :=
  disposePools_sound hd p.live h

theorem step (hd : dispose.Documented) (h : p.Sound own) {a : ProcessAction}
    (he : p.step dispose fresh a = some e) (hopen : e.opens = true → own fresh) : e.Sound own := by
  cases a with
  | create =>
    cases he
    exact ⟨h.init, nofun, nofun⟩
  | enter i =>
    obtain ⟨pool, -, rfl⟩ := Option.map_eq_some_iff.mp he
    refine ⟨h.setSessions fun x hx => ?_, nofun, nofun⟩
    rcases List.mem_append.mp hx with hx | hx
    · exact h.out x hx
    · rw [List.mem_singleton.mp hx]
      exact nofun
  | execute k pick =>
    obtain ⟨x, hx, he⟩ := Option.bind_eq_some_iff.mp he
    exact h.execute hx he hopen
  | release k keep =>
    obtain ⟨x, hx, rfl⟩ := Option.map_eq_some_iff.mp he
    exact h.release hx keep
  | leave k keep =>
    obtain ⟨x, hx, rfl⟩ := Option.map_eq_some_iff.mp he
    have hr := h.release hx keep
    refine ⟨hr.process.setSessions fun y hy => ?_, hr.queried, hr.closed⟩
    exact hr.process.out y (List.eraseIdx_subset hy)
  | discard i n =>
    obtain ⟨pool, hp, he⟩ := Option.bind_eq_some_iff.mp he
    obtain ⟨c, hn, rfl⟩ := Option.map_eq_some_iff.mp he
    have hown := h.pooled i pool hp
    refine ⟨h.setPool hp fun d hd => hown d (List.eraseIdx_subset hd), nofun, ?_⟩
    simpa using hown c (List.mem_of_getElem? hn)
  | close i fault =>
    obtain ⟨pool, hp, rfl⟩ := Option.map_eq_some_iff.mp he
    have hown := h.pooled i pool hp
    refine ⟨h.setPool hp fun c hc => hown c (hd.keeps fault pool hc), nofun, ?_⟩
    exact fun c hc => hown c (hd.closes fault pool ▸ hc)
  | collect i =>
    obtain ⟨pool, hp, he⟩ := Option.bind_eq_some_iff.mp he
    split_ifs at he
    cases he
    exact ⟨h.forget i, nofun, h.pooled i pool hp⟩
  | exit faults =>
    cases he
    obtain ⟨hs, hclosed⟩ := h.closePoolsBeforeExit hd faults
    exact ⟨hs.setAlive false, nofun, hclosed⟩
  | dies =>
    cases he
    exact ⟨h.setAlive false, nofun, nofun⟩

theorem resetPoolsAfterFork_empty (hd : dispose.Documented) (h : p.Sound own)
    (faults : ℕ → Option PyError) : ∀ i pool,
    (resetPoolsAfterFork dispose faults p).process.pool i = some pool → pool = [] :=
  disposePools_empties hd fun i pool hp => .inl (h.tracked i pool hp)

theorem resetPoolsAfterFork (hd : dispose.Documented) (h : p.Sound own) (hs : p.sessions = [])
    (faults : ℕ → Option PyError) (own' : Connection → Prop) :
    (resetPoolsAfterFork dispose faults p).process.Sound own' := by
  have hempty := h.resetPoolsAfterFork_empty hd faults
  obtain ⟨hsessions, hlive, hpools⟩ := resetPoolsAfterFork_kept dispose faults p
  refine ⟨fun i pool hp => ?_, fun x hx => ?_, fun i pool hp => ?_⟩
  · rw [hempty i pool hp]
    exact nofun
  · have hnone : x ∈ p.sessions := hsessions ▸ hx
    rw [hs] at hnone
    cases hnone
  · obtain ⟨pool', hp'⟩ := hpools i pool hp
    exact hlive ▸ h.tracked i pool' hp'

end Process.Sound

namespace Connections

structure Apart (s : Connections) : Prop where
  processes : ∀ pid (p : Process), s.processes[pid]? = some p →
    p.Sound fun c => s.opened[c]? = some pid
  touches : ∀ t ∈ s.touches, s.opened[t.connection]? = some t.pid

variable {dispose : Dispose} {s s' : Connections} {pid : ℕ} {p : Process} {e : Effect}

theorem living_eq_some (h : s.living pid = some p) : s.processes[pid]? = some p :=
  (Option.filter_eq_some_iff.mp h).1

theorem opened_apply {c : Connection} {q : ℕ} (h : s.opened[c]? = some q) :
    (s.apply pid e).opened[c]? = some q := by
  simp only [apply]
  split_ifs
  · rw [List.getElem?_append_left (List.getElem?_eq_some_iff.mp h).1]
    exact h
  · exact h

theorem mem_touches_apply {t : Touch} : t ∈ (s.apply pid e).touches ↔ t ∈ s.touches ∨
    (∃ c ∈ e.queried, ⟨pid, c, false⟩ = t) ∨ ∃ c ∈ e.closed, ⟨pid, c, true⟩ = t := by
  simp only [apply, List.append_assoc, List.mem_append, List.mem_map]

theorem Apart.effect (hd : dispose.Documented) (h : s.Apart) {a : ProcessAction}
    (hp : s.processes[pid]? = some p) (he : p.step dispose s.opened.length a = some e) :
    e.Sound fun c => (s.apply pid e).opened[c]? = some pid := by
  refine ((h.processes pid p hp).mono fun c hc => opened_apply hc).step hd he fun hopen => ?_
  rw [apply, if_pos hopen, List.getElem?_concat_length]

theorem Apart.apply (h : s.Apart) (he : e.Sound fun c => (s.apply pid e).opened[c]? = some pid) :
    (s.apply pid e).Apart where
  processes q p' hp' := by
    simp only [Connections.apply, List.getElem?_set] at hp'
    split_ifs at hp' with hq hlt
    · cases hp'
      subst hq
      exact he.process
    · exact (h.processes q p' hp').mono fun c hc => opened_apply hc
  touches t ht := by
    rcases mem_touches_apply.mp ht with ht | ⟨c, hc, rfl⟩ | ⟨c, hc, rfl⟩
    · exact opened_apply (h.touches t ht)
    · exact he.queried c hc
    · exact he.closed c hc

theorem Apart.step (hd : dispose.Documented) (h : s.Apart) {a : ConnectionAction}
    (hg : forksOutsideSessions s a) (he : (connectionSystem dispose).step s a = some s') :
    s'.Apart := by
  cases a with
  | act pid a =>
    obtain ⟨p, hp, he⟩ := Option.bind_eq_some_iff.mp he
    obtain ⟨e, hstep, rfl⟩ := Option.map_eq_some_iff.mp he
    exact h.apply (h.effect hd (living_eq_some hp) hstep)
  | fork pid faults =>
    obtain ⟨p, hp, rfl⟩ := Option.map_eq_some_iff.mp he
    have hp := living_eq_some hp
    have hchild := (h.processes pid p hp).resetPoolsAfterFork hd (hg p hp) faults
    have hclosed : (resetPoolsAfterFork dispose faults p).closed = [] :=
      disposePools_closes_none hd _ _
    refine ⟨fun q p' hp' => ?_, fun t ht => ?_⟩
    · rcases getElem?_append_singleton hp' with hp' | ⟨rfl, rfl⟩
      · exact h.processes q p' hp'
      · exact hchild _
    · simp only [hclosed, List.map_nil, List.append_nil] at ht
      exact h.touches t ht

theorem apart_reachable (hd : dispose.Documented)
    (h : (connectionSystem dispose).Reachable forksOutsideSessions s) : s.Apart := by
  refine h.invariant ⟨fun pid p hp => ?_, nofun⟩ fun s a s' hi hg he => hi.step hd hg he
  have hm := List.mem_of_getElem? hp
  rw [List.mem_singleton.mp hm]
  exact ⟨fun i pool hp => by simp [Process.pool] at hp, nofun, fun i pool hp => by
    simp [Process.pool] at hp⟩

/-- What the fork hook and the close at exit are for. A step that forks leaves every connection
untouched and a child with empty pools, and one that exits closes what the process has checked in. -/
structure Separate (dispose : Dispose) (s : Connections) : Prop where
  unshared : ∀ t ∈ s.touches, ∀ u ∈ s.touches, t.connection = u.connection → t.pid = u.pid
  opener : ∀ t ∈ s.touches, s.opened[t.connection]? = some t.pid
  fork : ∀ pid faults s', (connectionSystem dispose).step s (.fork pid faults) = some s' →
    s'.touches = s.touches ∧ ∃ child : Process, s'.processes = s.processes ++ [child] ∧
      ∀ i pool, child.pool i = some pool → pool = []
  exit : ∀ pid faults s', (connectionSystem dispose).step s (.act pid (.exit faults)) = some s' →
    (∀ t ∈ s'.touches, t ∈ s.touches ∨
      (t.pid = pid ∧ t.closes = true ∧ s.opened[t.connection]? = some pid)) ∧
    ∀ p : Process, s.processes[pid]? = some p → ∀ i pool, p.pool i = some pool →
      ∀ c ∈ pool, ⟨pid, c, true⟩ ∈ s'.touches

theorem Apart.exit (hd : dispose.Documented) (h : s.Apart) {faults : ℕ → Option PyError}
    (he : (connectionSystem dispose).step s (.act pid (.exit faults)) = some s') :
    (∀ t ∈ s'.touches, t ∈ s.touches ∨
      (t.pid = pid ∧ t.closes = true ∧ s.opened[t.connection]? = some pid)) ∧
    ∀ p : Process, s.processes[pid]? = some p → ∀ i pool, p.pool i = some pool →
      ∀ c ∈ pool, ⟨pid, c, true⟩ ∈ s'.touches := by
  obtain ⟨p, hp, he⟩ := Option.bind_eq_some_iff.mp he
  obtain ⟨e, hstep, rfl⟩ := Option.map_eq_some_iff.mp he
  have hp := living_eq_some hp
  have hsound := h.processes pid p hp
  have hqueried : e.queried = [] := by
    cases hstep
    rfl
  have hclosed : e.closed = (closePoolsBeforeExit dispose faults p).closed := by
    cases hstep
    rfl
  constructor
  · intro t ht
    rw [mem_touches_apply, hqueried, hclosed] at ht
    rcases ht with ht | ⟨c, hc, -⟩ | ⟨c, hc, rfl⟩
    · exact .inl ht
    · cases hc
    · exact .inr ⟨rfl, rfl, (hsound.closePoolsBeforeExit hd faults).2 c hc⟩
  · intro p' hp' i pool hpool c hc
    cases hp.symm.trans hp'
    rw [mem_touches_apply, hclosed]
    refine .inr (.inr ⟨c, ?_, rfl⟩)
    exact disposePools_closes_all hd (hsound.tracked i pool hpool) hpool hc

/-- No connection is shared across a fork, in any tree of processes none of which forks while a
session is open in it. -/
theorem connections_separate (hd : dispose.Documented)
    (h : (connectionSystem dispose).Reachable forksOutsideSessions s) : s.Separate dispose := by
  have hs := apart_reachable hd h
  refine ⟨fun t ht u hu hc => ?_, hs.touches, fun pid faults s' he => ?_,
    fun pid faults s' he => hs.exit hd he⟩
  · have hopened := hs.touches t ht
    rw [hc, hs.touches u hu] at hopened
    exact (Option.some.inj hopened).symm
  · obtain ⟨p, hp, rfl⟩ := Option.map_eq_some_iff.mp he
    have hsound := hs.processes pid p (living_eq_some hp)
    have hclosed : (resetPoolsAfterFork dispose faults p).closed = [] :=
      disposePools_closes_none hd _ _
    refine ⟨?_, _, rfl, hsound.resetPoolsAfterFork_empty hd faults⟩
    simp only [hclosed, List.map_nil, List.append_nil]

end Connections

section Sample

/-- A listener that raises when the pool is replaced already. -/
def sampleDispose : Dispose := fun close fault pool => ⟨[], if close then pool else [], fault⟩

theorem sampleDispose_documented : sampleDispose.Documented :=
  ⟨fun _ _ => rfl, fun _ _ => rfl, fun _ _ => rfl, fun _ _ => List.nil_subset _⟩

def sampleForked : Connections :=
  (connectionSystem sampleDispose).run forksOutsideSessions [.act 0 .create, .act 0 .create,
    .act 0 (.enter 0), .act 0 (.execute 0 none), .act 0 (.leave 0 true),
    .fork 0 (fun i => if i = 1 then some .typeError else none), .act 1 (.enter 0),
    .act 1 (.execute 0 none), .act 1 (.leave 0 true), .act 1 (.exit fun _ => none),
    .act 0 (.enter 0), .act 0 (.execute 0 (some 0))]

theorem connections_separate_forked :
    sampleForked.touches.map (fun t => (t.pid, t.connection)) =
      [(0, 0), (0, 0), (1, 1), (1, 1), (1, 1), (0, 0)] ∧ sampleForked.Separate sampleDispose := by
  have hreached : (connectionSystem sampleDispose).Reachable forksOutsideSessions sampleForked :=
    .of_run (by decide +kernel)
  exact ⟨by decide +kernel, Connections.connections_separate sampleDispose_documented hreached⟩

example : ((connectionSystem sampleDispose).run System.free [.act 0 .create, .act 0 (.enter 0),
    .act 0 (.execute 0 none), .fork 0 (fun _ => none), .act 1 (.execute 0 none)]).touches =
      [⟨0, 0, false⟩, ⟨1, 0, false⟩] := by decide +kernel

end Sample

end PostgresQueue
