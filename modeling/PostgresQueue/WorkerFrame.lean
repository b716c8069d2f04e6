import PostgresQueue.Bookkeeping

namespace PostgresQueue

open Library System

inductive StopSignal
  | sigterm
  | sigint
deriving DecidableEq

def StopSignal.signum : StopSignal → ℕ
  | .sigterm => 15
  | .sigint => 2

/-- What `signal.getsignal` returns: `_handle_shutdown_signal`, another handler, or `None` for one
that was not installed from Python. -/
inductive Disposition (H : Type)
  | drain
  | previous (h : H)
  | foreign

/-- How `run_worker` ends. `loops` has the exception that the worker's loops did not catch. -/
inductive FrameEnd (E : Type)
  | returned
  | invalidTimeout (e : PyError)
  | notAHandler
  | loops (pc : Pc)
  | raised (e : E)

inductive FramePc (H E : Type)
  | validate
  | reset
  | install (todo : List StopSignal)
  | loops
  | restore (todo : List (StopSignal × Disposition H)) (r : FrameEnd E)
  | clear (r : FrameEnd E)
  | done (r : FrameEnd E)

/-- A call of `run_worker`, around its loops. `escaped`: a handler of before the call has raised
outside of the `try`. -/
structure Frame (H E τ : Type) where
  pc : FramePc H E
  dispositions : StopSignal → Disposition H
  previous : List (StopSignal × Disposition H)
  worker : Worker τ
  escaped : Bool

inductive FrameEvent (E τ : Type)
  | next
  | worker (e : WorkerEvent τ)
  /-- A signal, and what its handler raises if that is one of before the call. -/
  | arrives (sig : StopSignal) (raises : Option E)
  | raises (e : E)

/-- `math.isnan(drain_timeout) or math.isinf(drain_timeout) or drain_timeout < 0`. -/
def checkDrainTimeout (repr : PyFloat → String) : PyFloat → Except PyError Unit
  | .finite q =>
    if q < 0 then
      .error (.valueError ("drain_timeout must be a finite number >= 0 (got " ++
        repr (.finite q) ++ ")"))
    else .ok ()
  | x => .error (.valueError ("drain_timeout must be a finite number >= 0 (got " ++ repr x ++ ")"))

def FrameEnd.ofLoops {E : Type} : Pc → Option (FrameEnd E)
  | .returned => some .returned
  | .keyError => some (.loops .keyError)
  | .osError => some (.loops .osError)
  | .escaped e => some (.loops (.escaped e))
  | _ => none

section Frame

variable {H E τ : Type}

/-- The signals that `_install_shutdown_handlers` takes over. -/
def savedSignals (mainThread : Bool) : List StopSignal :=
  if mainThread then [.sigterm, .sigint] else []

def Worker.reset (w : Worker τ) : Worker τ := { w with signals.shutdown := ⟨none, none⟩ }

namespace Frame

def raise (f : Frame H E τ) (e : E) : Frame H E τ :=
  let unwound := { f.worker with signals.handlers := [] }
  match f.pc with
  | .loops => { f with pc := .restore f.previous (.raised e), worker := unwound }
  | _ => { f with pc := .done (.raised e), worker := unwound, escaped := true }

variable [LinearOrder τ] (repr : PyFloat → String) (timeout : PyFloat) (mainThread : Bool)
  (cfg : WorkerConfig) (drain : DrainTimeout τ)

def next (f : Frame H E τ) : Option (Frame H E τ) :=
  match f.pc with
  | .validate =>
    match checkDrainTimeout repr timeout with
    | .error e => some { f with pc := .done (.invalidTimeout e) }
    | .ok () => some { f with pc := .reset }
  | .reset => some { f with
      pc := .install (savedSignals mainThread)
      worker := f.worker.reset }
  | .install [] => some { f with pc := .loops }
  | .install (sig :: todo) => some { f with
      pc := .install todo
      previous := f.previous ++ [(sig, f.dispositions sig)]
      dispositions := fun s => if s = sig then .drain else f.dispositions s }
  | .loops => (FrameEnd.ofLoops f.worker.main.pc).map fun r => { f with pc := .restore f.previous r }
  | .restore [] r => some { f with pc := .clear r }
  -- `signal.signal` does not take the `None` that `signal.getsignal` returned
  | .restore ((_, .foreign) :: _) _ => some { f with pc := .done .notAHandler }
  | .restore ((sig, d) :: todo) r => some { f with
      pc := .restore todo r
      dispositions := fun s => if s = sig then d else f.dispositions s }
  | .clear r => some { f with
      pc := .done r
      worker := f.worker.reset }
  | .done _ => none

def stepWorker (f : Frame H E τ) (e : WorkerEvent τ) : Option (Frame H E τ) :=
  -- where a worker starts from plays no part in its steps
  ((runWorker cfg drain f.worker.signals.now).step f.worker e).map fun w => { f with worker := w }

def isDone (f : Frame H E τ) : Bool :=
  match f.pc with
  | .done _ => true
  | _ => false

def isLoops (f : Frame H E τ) : Bool :=
  match f.pc with
  | .loops => true
  | _ => false

def step (f : Frame H E τ) : FrameEvent E τ → Option (Frame H E τ)
  | .next => if f.worker.signals.handlers.isEmpty then f.next repr timeout mainThread else none
  | .worker (.signal (.arrives _)) => none
  | .worker (.main i) => if f.isLoops then f.stepWorker cfg drain (.main i) else none
  | .worker e => if f.isDone then none else f.stepWorker cfg drain e
  | .arrives sig raises =>
    if f.isDone then none
    -- Python runs the handlers of its own in the main thread
    else if !mainThread then some f
    else match f.dispositions sig, raises with
      | .drain, _ => f.stepWorker cfg drain (.signal (.arrives sig.signum))
      | .previous _, some e => some (f.raise e)
      | .previous _, none | .foreign, _ => some f
  | .raises e => if f.isLoops then some (f.raise e) else none

end Frame

/-- A process before it calls `run_worker`: what handles its signals, and what an earlier worker may
have left in `_shutdown`. -/
structure FrameBoot (H τ : Type) where
  dispositions : StopSignal → Disposition H
  undrained : ∀ sig, dispositions sig ≠ .drain
  left : ShutdownState τ
  now : τ

def frameSystem [LinearOrder τ] (repr : PyFloat → String) (timeout : PyFloat) (mainThread : Bool)
    (cfg : WorkerConfig) (drain : DrainTimeout τ) (b : FrameBoot H τ) :
    System (Frame H E τ) (FrameEvent E τ) where
  init := ⟨.validate, b.dispositions, [], ⟨⟨b.left, [], b.now, none⟩, Main.init⟩, false⟩
  step f := f.step repr timeout mainThread cfg drain

section Invariant

variable [LinearOrder τ] {repr : PyFloat → String} {timeout : PyFloat} {mainThread : Bool}
  {cfg : WorkerConfig} {drain : DrainTimeout τ} {b : FrameBoot H τ} {f f' : Frame H E τ}

def FrameBoot.drainOn (b : FrameBoot H τ) (taken : List StopSignal) (sig : StopSignal) :
    Disposition H := if sig ∈ taken then .drain else b.dispositions sig

def FrameBoot.save (b : FrameBoot H τ) (sig : StopSignal) : StopSignal × Disposition H :=
  (sig, b.dispositions sig)

def ReachesWorker (cfg : WorkerConfig) (drain : DrainTimeout τ) (w : Worker τ) : Prop :=
  ∃ start, (runWorker cfg drain start).Reachable free w

def LeftBehind (repr : PyFloat → String) (timeout : PyFloat) (mainThread : Bool) (b : FrameBoot H τ)
    (f : Frame H E τ) (r : FrameEnd E) : Prop :=
  (∃ e, checkDrainTimeout repr timeout = .error e ∧ r = .invalidTimeout e ∧
    f.dispositions = b.dispositions ∧ f.worker.signals.shutdown = b.left) ∨
  (checkDrainTimeout repr timeout = .ok () ∧
    (∃ sig ∈ savedSignals mainThread, b.dispositions sig = .foreign) ∧ r = .notAHandler ∧
    ∃ sig, f.dispositions sig = .drain) ∨
  (checkDrainTimeout repr timeout = .ok () ∧
    (∀ sig ∈ savedSignals mainThread, b.dispositions sig ≠ .foreign) ∧
    f.dispositions = b.dispositions ∧ f.worker.signals.shutdown = ⟨none, none⟩ ∧
    f.worker.signals.handlers = [])

structure NotYetInstalled (cfg : WorkerConfig) (drain : DrainTimeout τ) (b : FrameBoot H τ)
    (f : Frame H E τ) : Prop where
  dispositions : f.dispositions = b.dispositions
  previous : f.previous = []
  handlers : f.worker.signals.handlers = []
  shutdown : f.worker.signals.shutdown = b.left
  reaches : ReachesWorker cfg drain f.worker.reset

def FrameInv (repr : PyFloat → String) (timeout : PyFloat) (mainThread : Bool) (cfg : WorkerConfig)
    (drain : DrainTimeout τ) (b : FrameBoot H τ) (f : Frame H E τ) : Prop :=
  match f.pc with
  | .validate => NotYetInstalled cfg drain b f
  | .reset => checkDrainTimeout repr timeout = .ok () ∧ NotYetInstalled cfg drain b f
  | .install todo => checkDrainTimeout repr timeout = .ok () ∧ ReachesWorker cfg drain f.worker ∧
      ∃ taken, savedSignals mainThread = taken ++ todo ∧ f.previous = taken.map b.save ∧
        f.dispositions = b.drainOn taken
  | .loops => checkDrainTimeout repr timeout = .ok () ∧ ReachesWorker cfg drain f.worker ∧
      f.previous = (savedSignals mainThread).map b.save ∧
        f.dispositions = b.drainOn (savedSignals mainThread)
  | .restore todo _ => checkDrainTimeout repr timeout = .ok () ∧
      ∃ restored rest, savedSignals mainThread = restored ++ rest ∧ todo = rest.map b.save ∧
        f.dispositions = b.drainOn rest ∧ ∀ sig ∈ restored, b.dispositions sig ≠ .foreign
  | .clear _ => checkDrainTimeout repr timeout = .ok () ∧ f.dispositions = b.dispositions ∧
      ∀ sig ∈ savedSignals mainThread, b.dispositions sig ≠ .foreign
  | .done r => f.escaped = false → LeftBehind repr timeout mainThread b f r

omit [LinearOrder τ] in
theorem drainOn_nil (b : FrameBoot H τ) : b.drainOn [] = b.dispositions := by
  funext sig
  simp [FrameBoot.drainOn]

theorem nodup_savedSignals (mainThread : Bool) : (savedSignals mainThread).Nodup := by
  cases mainThread <;> decide

theorem ReachesWorker.step {w w' : Worker τ} (h : ReachesWorker cfg drain w) {start : τ}
    {e : WorkerEvent τ} (he : (runWorker cfg drain start).step w e = some w') : ReachesWorker cfg drain w' := by
  obtain ⟨first, hr⟩ := h
  exact ⟨first, hr.step trivial he⟩

theorem FrameInv.next
    (h : FrameInv repr timeout mainThread cfg drain b f)
    (hidle : f.worker.signals.handlers = []) (he : f.next repr timeout mainThread = some f') :
    FrameInv repr timeout mainThread cfg drain b f' := by
  unfold Frame.next at he
  unfold FrameInv at h
  cases hpc : f.pc with
  | validate =>
    rw [hpc] at h he
    dsimp only at h he
    cases hc : checkDrainTimeout repr timeout with
    | error e =>
      rw [hc] at he
      cases he
      exact fun _ => .inl ⟨e, hc, rfl, h.dispositions, h.shutdown⟩
    | ok =>
      rw [hc] at he
      cases he
      exact ⟨hc, h.dispositions, h.previous, h.handlers, h.shutdown, h.reaches⟩
  | reset =>
    rw [hpc] at h he
    cases he
    refine ⟨h.1, h.2.reaches, [], rfl, h.2.previous, ?_⟩
    rw [drainOn_nil]
    exact h.2.dispositions
  | install todo =>
    rw [hpc] at h he
    obtain ⟨hc, hreach, taken, hsaved, hprevious, hdispositions⟩ := h
    cases todo with
    | nil =>
      cases he
      rw [List.append_nil] at hsaved
      exact ⟨hc, hreach, hsaved ▸ hprevious, hsaved ▸ hdispositions⟩
    | cons sig todo =>
      cases he
      have hnodup := nodup_savedSignals mainThread
      rw [hsaved] at hnodup
      have hnew : sig ∉ taken := fun hm =>
        List.disjoint_of_nodup_append hnodup hm List.mem_cons_self
      refine ⟨hc, hreach, taken ++ [sig], by rw [hsaved, List.append_assoc]; rfl, ?_, ?_⟩
      · rw [List.map_append, hprevious, hdispositions]
        simp [FrameBoot.drainOn, FrameBoot.save, hnew]
      · funext s
        rw [hdispositions]
        unfold FrameBoot.drainOn
        by_cases hs : s = sig
        · simp [hs]
        · simp [hs]
  | loops =>
    rw [hpc] at h he
    obtain ⟨hc, -, hprevious, hdispositions⟩ := h
    obtain ⟨r, -, rfl⟩ := Option.map_eq_some_iff.mp he
    exact ⟨hc, [], _, rfl, hprevious, hdispositions, fun _ hm => absurd hm List.not_mem_nil⟩
  | restore todo r =>
    rw [hpc] at h he
    obtain ⟨hc, restored, rest, hsaved, rfl, hdispositions, hpython⟩ := h
    cases rest with
    | nil =>
      cases he
      rw [List.append_nil] at hsaved
      exact ⟨hc, hdispositions.trans (drainOn_nil b), hsaved ▸ hpython⟩
    | cons sig rest =>
      have hnodup := nodup_savedSignals mainThread
      rw [hsaved] at hnodup
      have hlater : sig ∉ rest := (List.nodup_cons.mp (List.nodup_append.mp hnodup).2.1).1
      cases hd : b.dispositions sig with
      | drain => exact absurd hd (b.undrained sig)
      | foreign =>
        simp only [List.map_cons, FrameBoot.save, hd] at he
        cases he
        refine fun _ => .inr (.inl ⟨hc, ⟨sig, ?_, hd⟩, rfl, sig, ?_⟩)
        · rw [hsaved]
          exact List.mem_append_right _ List.mem_cons_self
        · change f.dispositions sig = .drain
          rw [hdispositions]
          simp [FrameBoot.drainOn]
      | previous handler =>
        simp only [List.map_cons, FrameBoot.save, hd] at he
        cases he
        refine ⟨hc, restored ++ [sig], rest, by rw [hsaved, List.append_assoc]; rfl, rfl, ?_, ?_⟩
        · funext s
          rw [hdispositions]
          unfold FrameBoot.drainOn
          by_cases hs : s = sig
          · simp [hs, hlater, hd]
          · simp [hs]
        · intro s hm
          rcases List.mem_append.mp hm with hm | hm
          · exact hpython s hm
          · rw [List.mem_singleton.mp hm, hd]
            exact fun hn => by cases hn
  | clear r =>
    rw [hpc] at h he
    cases he
    exact fun _ => .inr (.inr ⟨h.1, h.2.2, h.2.1, rfl, hidle⟩)
  | done r =>
    rw [hpc] at he
    cases he

theorem FrameInv.raise (h : FrameInv repr timeout mainThread cfg drain b f) (e : E) :
    FrameInv repr timeout mainThread cfg drain b (f.raise e) := by
  unfold Frame.raise
  unfold FrameInv at h
  cases hpc : f.pc with
  | loops =>
    rw [hpc] at h
    obtain ⟨hc, -, hprevious, hdispositions⟩ := h
    exact ⟨hc, [], _, rfl, hprevious, hdispositions, fun _ hm => absurd hm List.not_mem_nil⟩
  | validate | reset | install | restore | clear | done => exact fun hquiet => by cases hquiet

theorem NotYetInstalled.stepWorker (h : NotYetInstalled cfg drain b f) {start : τ} {e : WorkerEvent τ}
    (harrives : ∀ signum, e ≠ .signal (.arrives signum)) (hmain : ∀ i, e ≠ .main i) {w : Worker τ}
    (he : (runWorker cfg drain start).step f.worker e = some w) :
    NotYetInstalled cfg drain b { f with worker := w } := by
  have hreset : (runWorker cfg drain start).step f.worker.reset e = some w.reset ∧
      w.signals.handlers = [] ∧ w.signals.shutdown = b.left := by
    cases e with
    | main i => exact absurd rfl (hmain i)
    | childEnds pid status =>
      cases he
      exact ⟨rfl, h.handlers, h.shutdown⟩
    | signal e =>
      obtain ⟨signals, hs, rfl⟩ := Option.map_eq_some_iff.mp he
      cases e with
      | arrives signum => exact absurd rfl (harrives signum)
      | runs =>
        simp only [Signals.step, h.handlers] at hs
        cases hs
      | ticks now =>
        simp only [Signals.step] at hs
        split_ifs at hs with hle
        cases hs
        refine ⟨?_, h.handlers, h.shutdown⟩
        simp only [runWorker, Worker.reset, Signals.step, if_pos hle, Option.map_some]
  exact ⟨h.dispositions, h.previous, hreset.2.1, hreset.2.2, h.reaches.step hreset.1⟩

theorem FrameInv.stepWorker (h : FrameInv repr timeout mainThread cfg drain b f)
    {e : WorkerEvent τ} (hdone : f.isDone = false)
    (harrives : ∀ signum, e = .signal (.arrives signum) → ∃ sig, f.dispositions sig = .drain)
    (hmain : ∀ i, e = .main i → f.isLoops) (he : f.stepWorker cfg drain e = some f') :
    FrameInv repr timeout mainThread cfg drain b f' := by
  obtain ⟨w, hw, rfl⟩ := Option.map_eq_some_iff.mp he
  have huntouched : f.isLoops = false → NotYetInstalled cfg drain b f →
      NotYetInstalled cfg drain b { f with worker := w } := by
    intro hloops hu
    refine hu.stepWorker (fun signum heq => ?_) (fun i heq => ?_) hw
    · obtain ⟨sig, hsig⟩ := harrives signum heq
      rw [hu.dispositions] at hsig
      exact b.undrained sig hsig
    · rw [hmain i heq] at hloops
      cases hloops
  unfold FrameInv at h ⊢
  cases hpc : f.pc with
  | validate =>
    rw [hpc] at h
    have hu := huntouched (by rw [Frame.isLoops, hpc]) h
    exact ⟨hu.dispositions, hu.previous, hu.handlers, hu.shutdown, hu.reaches⟩
  | reset =>
    rw [hpc] at h
    have hu := huntouched (by rw [Frame.isLoops, hpc]) h.2
    exact ⟨h.1, hu.dispositions, hu.previous, hu.handlers, hu.shutdown, hu.reaches⟩
  | install todo =>
    rw [hpc] at h
    exact ⟨h.1, h.2.1.step hw, h.2.2⟩
  | loops =>
    rw [hpc] at h
    exact ⟨h.1, h.2.1.step hw, h.2.2⟩
  | restore todo r =>
    rw [hpc] at h
    exact h
  | clear r =>
    rw [hpc] at h
    exact h
  | done r =>
    rw [Frame.isDone, hpc] at hdone
    cases hdone

theorem FrameInv.step (h : FrameInv repr timeout mainThread cfg drain b f) {e : FrameEvent E τ}
    (he : f.step repr timeout mainThread cfg drain e = some f') :
    FrameInv repr timeout mainThread cfg drain b f' := by
  cases e with
  | next =>
    simp only [Frame.step] at he
    split_ifs at he with hidle
    exact h.next (List.isEmpty_iff.mp hidle) he
  | raises e =>
    simp only [Frame.step] at he
    split_ifs at he
    cases he
    exact h.raise e
  | arrives sig raises =>
    simp only [Frame.step] at he
    split_ifs at he with hdone hmain
    · cases he
      exact h
    · cases hd : f.dispositions sig with
      | drain =>
        rw [hd] at he
        refine h.stepWorker (by simpa using hdone) (fun _ _ => ⟨sig, hd⟩) (fun i heq => ?_) he
        cases heq
      | foreign =>
        rw [hd] at he
        cases he
        exact h
      | previous handler =>
        rw [hd] at he
        cases raises with
        | none =>
          cases he
          exact h
        | some e =>
          cases he
          exact h.raise e
  | worker e =>
    cases e with
    | main i =>
      simp only [Frame.step] at he
      split_ifs at he with hloops
      refine h.stepWorker ?_ (fun _ heq => by cases heq) (fun _ _ => hloops) he
      unfold Frame.isLoops at hloops
      unfold Frame.isDone
      cases hpc : f.pc with
      | done =>
        rw [hpc] at hloops
        cases hloops
      | validate | reset | install | loops | restore | clear => rfl
    | childEnds pid status =>
      simp only [Frame.step] at he
      split_ifs at he with hdone
      exact h.stepWorker (by simpa using hdone) (fun _ heq => by cases heq)
        (fun _ heq => by cases heq) he
    | signal e =>
      cases e with
      | arrives => cases he
      | runs =>
        simp only [Frame.step] at he
        split_ifs at he with hdone
        exact h.stepWorker (by simpa using hdone) (fun _ heq => by cases heq)
          (fun _ heq => by cases heq) he
      | ticks =>
        simp only [Frame.step] at he
        split_ifs at he with hdone
        exact h.stepWorker (by simpa using hdone) (fun _ heq => by cases heq)
          (fun _ heq => by cases heq) he

theorem frameInv_reachable
    (h : (frameSystem repr timeout mainThread cfg drain b).Reachable free f) :
    FrameInv repr timeout mainThread cfg drain b f :=
  h.invariant ⟨rfl, rfl, rfl, rfl, b.now, Reachable.init⟩ fun _ _ _ hi _ he => hi.step he

/-- The loops of a worker run as if `run_worker` were nothing else, and in the main thread both
signals ask for a shutdown all along. -/
theorem loops_reach (h : (frameSystem repr timeout mainThread cfg drain b).Reachable free f)
    (hloops : f.pc = .loops) :
    (∃ start, (runWorker cfg drain start).Reachable free f.worker) ∧
      (mainThread = true → ∀ sig, f.dispositions sig = .drain) := by
  have hi := frameInv_reachable h
  unfold FrameInv at hi
  rw [hloops] at hi
  refine ⟨hi.2.1, fun hmain sig => ?_⟩
  rw [hi.2.2.2, hmain, FrameBoot.drainOn, if_pos]
  cases sig <;> decide

/-- A call of `run_worker` that ends leaves the handlers as they were, and no request to shut down,
exactly if Python knows them all. -/
theorem run_worker_leaves (h : (frameSystem repr timeout mainThread cfg drain b).Reachable free f)
    {r : FrameEnd E} (hdone : f.pc = .done r) (hquiet : f.escaped = false) :
    (∀ e, checkDrainTimeout repr timeout = .error e → r = .invalidTimeout e ∧
      f.dispositions = b.dispositions ∧ f.worker.signals.shutdown = b.left) ∧
    (checkDrainTimeout repr timeout = .ok () →
      (f.dispositions = b.dispositions ↔
        ∀ sig ∈ savedSignals mainThread, b.dispositions sig ≠ .foreign) ∧
      (f.dispositions = b.dispositions →
        f.worker.signals.shutdown = ⟨none, none⟩ ∧ f.worker.signals.handlers = []) ∧
      (f.dispositions ≠ b.dispositions → r = .notAHandler)) := by
  have hi := frameInv_reachable h
  unfold FrameInv at hi
  rw [hdone] at hi
  rcases hi hquiet with ⟨e, hc, rest⟩ | ⟨hc, ⟨sig, hm, hforeign⟩, hr, left, hleft⟩ |
    ⟨hc, hpython, hdispositions, hclean⟩
  · refine ⟨fun e' he' => ?_, fun hok => ?_⟩
    · rw [hc] at he'
      cases he'
      exact rest
    · rw [hc] at hok
      cases hok
  · have hne : f.dispositions ≠ b.dispositions := by
      intro heq
      rw [heq] at hleft
      exact b.undrained left hleft
    refine ⟨fun e' he' => ?_, fun _ => ⟨⟨fun heq => absurd heq hne, fun hall => ?_⟩,
      fun heq => absurd heq hne, fun _ => hr⟩⟩
    · rw [hc] at he'
      cases he'
    · exact absurd hforeign (hall sig hm)
  · refine ⟨fun e' he' => ?_, fun _ => ⟨⟨fun _ => hpython, fun _ => hdispositions⟩,
      fun _ => hclean, fun hne => absurd hdispositions hne⟩⟩
    rw [hc] at he'
    cases he'

end Invariant

end Frame

section Sample

def sampleFrameBoot (sigterm sigint : Disposition ℕ) (h : sigterm ≠ .drain) (h' : sigint ≠ .drain) :
    FrameBoot ℕ ℕ where
  dispositions
    | .sigterm => sigterm
    | .sigint => sigint
  undrained sig := by
    cases sig
    exacts [h, h']
  left := ⟨none, none⟩
  now := 0

def sampleFrameEvents : List (FrameEvent Unit ℕ) :=
  [.next, .next, .next, .arrives .sigterm none] ++
  List.replicate 4 (.worker (.signal .runs)) ++
  [.next, .next, .worker (.main .next), .worker (.main .next), .next, .next, .arrives .sigint none,
    .worker (.signal .runs), .next, .next, .next]

def sampleFrameSystem (b : FrameBoot ℕ ℕ) : System (Frame ℕ Unit ℕ) (FrameEvent Unit ℕ) :=
  frameSystem (fun _ => "") (.finite 20) true (sampleConfig .sequential) sampleDrain b

def pythonHandlers : FrameBoot ℕ ℕ :=
  sampleFrameBoot (.previous 0) (.previous 1) (fun h => by cases h) (fun h => by cases h)

def sampleFrame : Frame ℕ Unit ℕ := (sampleFrameSystem pythonHandlers).run free sampleFrameEvents

theorem run_worker_leaves_signalled : ∃ r, sampleFrame.pc = .done r ∧
    sampleFrame.worker.signals.first = some 0 ∧
    (∀ e, checkDrainTimeout (fun _ => "") (.finite 20) = .error e → r = .invalidTimeout e ∧
      sampleFrame.dispositions = pythonHandlers.dispositions ∧
      sampleFrame.worker.signals.shutdown = pythonHandlers.left) ∧
    (checkDrainTimeout (fun _ => "") (.finite 20) = .ok () →
      (sampleFrame.dispositions = pythonHandlers.dispositions ↔
        ∀ sig ∈ savedSignals true, pythonHandlers.dispositions sig ≠ .foreign) ∧
      (sampleFrame.dispositions = pythonHandlers.dispositions →
        sampleFrame.worker.signals.shutdown = ⟨none, none⟩ ∧
          sampleFrame.worker.signals.handlers = []) ∧
      (sampleFrame.dispositions ≠ pythonHandlers.dispositions → r = .notAHandler)) := by
  have hreach : (sampleFrameSystem pythonHandlers).Reachable free sampleFrame :=
    .of_run (by decide +kernel)
  have hdone : sampleFrame.isDone = true := by decide +kernel
  have hquiet : sampleFrame.escaped = false := by decide +kernel
  have hfirst : sampleFrame.worker.signals.first = some 0 := by decide +kernel
  unfold Frame.isDone at hdone
  cases hpc : sampleFrame.pc with
  | done r => exact ⟨r, rfl, hfirst, run_worker_leaves hreach hpc hquiet⟩
  | validate | reset | install | loops | restore | clear =>
    rw [hpc] at hdone
    cases hdone

end Sample

end PostgresQueue
