import Mathlib.Algebra.Order.Floor.Defs
import Mathlib.Data.Rat.Floor
import PostgresQueue.ChildResult
import PostgresQueue.Client
import PostgresQueue.Library.Control

namespace PostgresQueue

open Library

inductive BaseException
  | timeoutError
  | exception (text : String)
  | systemExit
  | keyboardInterrupt
  | cancelledError
  | other
deriving DecidableEq

def BaseException.isException : BaseException → Bool
  | .timeoutError | .exception _ => true
  | .systemExit | .keyboardInterrupt | .cancelledError | .other => false

/-- How a call in the child ends. `exits` is the alarm, or an `os._exit` of its own. -/
abbrev CallEnding := Ending BaseException ℕ Unit

/-- What a child does outside the code of pq's worker before that code goes on. -/
inductive WorkerStep
  | finishOneOff
  | clearLock
  | reapSibling
  | claim
deriving DecidableEq

abbrev ChildProc := Proc WorkerStep BaseException ℕ

def PyFloat.toInt : PyFloat → Except BaseException ℤ
  | .finite q => .ok (if 0 ≤ q then ⌊q⌋ else ⌈q⌉)
  | .inf _ => .error (.exception "cannot convert float infinity to integer")
  | .nan => .error (.exception "cannot convert float NaN to integer")

def alarmSeconds (maxRuntime : PyFloat) : Except BaseException ℤ := do
  let n ← maxRuntime.toInt
  if -2 ^ 31 ≤ n + 1 ∧ n + 1 < 2 ^ 31 then return n + 1
  else throw (.exception "Python int too large to convert to C int")

/-- How each call of a child ends. A missing hook is `none`; `post_execute` gets the error. -/
structure ChildCalls where
  closeReadFd : Except BaseException Unit
  setpgrp : Except BaseException Unit
  signalSigterm : Except BaseException Unit
  signalSigint : Except BaseException Unit
  signalSigalrm : Except BaseException Unit
  preExecute : Option CallEnding
  handler : CallEnding
  formatExc : CallEnding
  postExecute : Option (Option BaseException → CallEnding)
  writeError : CallEnding
  closePools : CallEnding

def attempt {α : Type} : Except BaseException α → ChildProc α
  | .ok a => .returns a
  | .error e => .ofEnding (.raises e)

def exceptException {α : Type} (x : ChildProc α) (handler : BaseException → ChildProc α) :
    ChildProc α :=
  x.tryExcept fun e => if e.isException then some (handler e) else none

namespace ChildCalls

variable (c : ChildCalls)

def work : ChildProc Unit := do
  match c.preExecute with
  | some pre => .ofEnding pre
  | none => pure ()
  .ofEnding c.handler

/-- The two `except` clauses. Only the second formats the traceback. -/
def onException (e : BaseException) : ChildProc (Option BaseException) := do
  if e ≠ .timeoutError then .ofEnding c.formatExc
  return some e

def post (error : Option BaseException) : ChildProc Unit :=
  exceptException
    (match c.postExecute with
      | some post => .ofEnding (post error)
      | none => pure ())
    fun _ => pure ()

def report (error : Option BaseException) : ChildProc ℕ :=
  match error with
  | none => return exitSuccess
  | some .timeoutError => return exitTimeout
  | some _ => do
    exceptException (.ofEnding c.writeError) fun _ => pure ()
    return exitFailure

end ChildCalls

/-- The value of `error` in the `finally` clause, which is assigned before the traceback is
formatted. -/
def errorAtFinally : CallEnding → Option BaseException
  | .raises e => if e.isException then some e else none
  | .returns () | .exits _ => none

def runInChild (maxRuntime : PyFloat) (c : ChildCalls) : ChildProc Unit := do
  attempt c.setpgrp
  attempt c.signalSigterm
  attempt c.signalSigint
  attempt c.signalSigalrm
  let _ ← attempt (alarmSeconds maxRuntime)
  let error ← Proc.tryFinally (exceptException (do c.work; return none) c.onException)
    fun _ => c.post (errorAtFinally c.work.ending)
  let exitCode ← c.report error
  .ofEnding c.closePools
  .exit exitCode

def forkChild (maxRuntime : PyFloat) (c : ChildCalls) : ChildProc Unit := do
  attempt c.closeReadFd
  runInChild maxRuntime c
  .exit exitFailure

section Worker

/-- A frame of the worker that the child has on its stack when it is forked: which claim, and
in the concurrent loop the sibling slots and how many of their pipes are ready. -/
inductive Site
  | processOneOff
  | processPeriodic (maxConcurrent : Option ℤ)
  | claimAndForkOneOff (children ready : ℕ)
  | claimAndForkPeriodic (maxConcurrent : Option ℤ) (children ready : ℕ)

def clearLockIfLimited (maxConcurrent : Option ℤ) : ChildProc Unit :=
  if maxConcurrent ≠ none then .emit .clearLock else pure ()

def sequentialLoop (body : ChildProc Unit) : ChildProc Unit :=
  Proc.tryExcept (do body; .emit .claim) fun e =>
    if e = .keyboardInterrupt then some (pure ()) else none

/-- `_reap_and_update` on slots in turn. `os.wait4` refuses the first, which is no child of this
process. -/
def reapSlots (slots : ℕ) : ChildProc Unit :=
  if 0 < slots then do
    .emit .reapSibling
    .ofEnding (.raises (.exception "[Errno 10] No child processes"))
  else pure ()

def concurrentLoop (children ready : ℕ) (body : ChildProc Unit) : ChildProc Unit :=
  Proc.tryExcept (do body; reapSlots ready; .emit .claim) fun e =>
    if e = .keyboardInterrupt then some (reapSlots children) else none

def Site.resume (site : Site) (child : ChildProc Unit) : ChildProc Unit :=
  match site with
  | .processOneOff => sequentialLoop do
    exceptException child fun _ => pure ()
    .emit .finishOneOff
  | .processPeriodic maxConcurrent => sequentialLoop
    (Proc.tryFinally (exceptException child fun _ => pure ())
      fun _ => clearLockIfLimited maxConcurrent)
  | .claimAndForkOneOff children ready => concurrentLoop children ready do
    exceptException child fun _ => .emit .finishOneOff
    .emit .claim
  | .claimAndForkPeriodic maxConcurrent children ready => concurrentLoop children ready
    (exceptException child fun _ => clearLockIfLimited maxConcurrent)

end Worker

def NeverReenters (maxRuntime : PyFloat) (c : ChildCalls) (site : Site) : Prop :=
  (forkChild maxRuntime c).Exits ∧ (runInChild maxRuntime c).Exits ∧
    (site.resume (forkChild maxRuntime c)).trace = []

namespace ChildCalls

variable (c : ChildCalls)

def workEnding : CallEnding :=
  match c.preExecute with
  | some (.raises e) => .raises e
  | some (.exits code) => .exits code
  | some (.returns ()) | none => c.handler

def postEnding (error : Option BaseException) : CallEnding :=
  match c.postExecute with
  | some post => post error
  | none => .returns ()

end ChildCalls

def Escapes (o : CallEnding) : Prop := ∃ e, o = .raises e ∧ e.isException = false

def Stops (o : CallEnding) : Prop := ∃ code, o = .exits code

def Failed (error : Option BaseException) : Prop := error ≠ none ∧ error ≠ some .timeoutError

namespace ChildCalls

def LeavesError (c : ChildCalls) : Option BaseException → Prop
  | none => c.workEnding = .returns ()
  | some e => c.workEnding = .raises e ∧ e.isException = true ∧
      (e ≠ .timeoutError → c.formatExc = .returns ())

def Unhandled (c : ChildCalls) : Option BaseException → Prop
  | none => Escapes c.workEnding
  | some e => c.workEnding = .raises e ∧ e.isException = true ∧ e ≠ .timeoutError ∧
      ∃ x, c.formatExc = .raises x

end ChildCalls

def FitsAlarm (maxRuntime : PyFloat) : Prop :=
  ∃ q, maxRuntime = .finite q ∧ -2 ^ 31 - 2 < q ∧ q < 2 ^ 31 - 1

structure SetUp (maxRuntime : PyFloat) (c : ChildCalls) : Prop where
  closeReadFd : c.closeReadFd = .ok ()
  setpgrp : c.setpgrp = .ok ()
  signalSigterm : c.signalSigterm = .ok ()
  signalSigint : c.signalSigint = .ok ()
  signalSigalrm : c.signalSigalrm = .ok ()
  alarm : FitsAlarm maxRuntime

structure Reported (c : ChildCalls) (error : Option BaseException) : Prop where
  writeError : Failed error → ¬Escapes c.writeError
  closePools : (Failed error → ¬Stops c.writeError) → ∀ e, c.closePools ≠ .raises e

structure Contained (maxRuntime : PyFloat) (c : ChildCalls) : Prop where
  setUp : SetUp maxRuntime c
  unhandled : ∀ error, c.Unhandled error → Stops (c.postEnding error)
  post : ∀ error, c.LeavesError error → ¬Escapes (c.postEnding error)
  reported : ∀ error, c.LeavesError error → ¬Stops (c.postEnding error) → Reported c error

theorem alarmSeconds_finite (q : ℚ) (n : ℤ) (hn : (if 0 ≤ q then ⌊q⌋ else ⌈q⌉) = n) :
    alarmSeconds (.finite q) = if -2 ^ 31 ≤ n + 1 ∧ n + 1 < 2 ^ 31 then .ok (n + 1)
      else .error (.exception "Python int too large to convert to C int") := by
  subst hn
  rfl

theorem fitsAlarm_iff (q : ℚ) : FitsAlarm (.finite q) ↔ -2 ^ 31 - 2 < q ∧ q < 2 ^ 31 - 1 := by
  simp [FitsAlarm]

theorem fitsAlarm_of_nonneg {q : ℚ} (h : 0 ≤ q) :
    FitsAlarm (.finite q) ↔ -2 ^ 31 ≤ ⌊q⌋ + 1 ∧ ⌊q⌋ + 1 < 2 ^ 31 := by
  rw [fitsAlarm_iff]
  have hfloor : 0 ≤ ⌊q⌋ := Int.floor_nonneg.mpr h
  have hlt : ⌊q⌋ < 2 ^ 31 - 1 ↔ q < 2 ^ 31 - 1 := by
    rw [Int.floor_lt]
    norm_num
  constructor
  · rintro ⟨-, h⟩
    have := hlt.mpr h
    omega
  · rintro ⟨-, h⟩
    exact ⟨by linarith, hlt.mp (by omega)⟩

theorem fitsAlarm_of_neg {q : ℚ} (h : q < 0) :
    FitsAlarm (.finite q) ↔ -2 ^ 31 ≤ ⌈q⌉ + 1 ∧ ⌈q⌉ + 1 < 2 ^ 31 := by
  rw [fitsAlarm_iff]
  have hceil : ⌈q⌉ ≤ 0 := Int.ceil_le.mpr (by push_cast; exact h.le)
  have hlt : -2 ^ 31 - 2 < ⌈q⌉ ↔ -2 ^ 31 - 2 < q := by
    rw [Int.lt_ceil]
    norm_num
  constructor
  · rintro ⟨h, -⟩
    have := hlt.mpr h
    omega
  · rintro ⟨h, -⟩
    exact ⟨hlt.mp (by omega), by linarith⟩

theorem fitsAlarm_finite (q : ℚ) (n : ℤ) (hn : (if 0 ≤ q then ⌊q⌋ else ⌈q⌉) = n) :
    FitsAlarm (.finite q) ↔ -2 ^ 31 ≤ n + 1 ∧ n + 1 < 2 ^ 31 := by
  subst hn
  split
  · rename_i h
    exact fitsAlarm_of_nonneg h
  · rename_i h
    exact fitsAlarm_of_neg (not_le.mp h)

theorem alarmSeconds_ok (maxRuntime : PyFloat) :
    (∃ n, alarmSeconds maxRuntime = .ok n) ↔ FitsAlarm maxRuntime := by
  cases maxRuntime with
  | nan => simp [alarmSeconds, PyFloat.toInt, FitsAlarm, bind, Except.bind]
  | inf => simp [alarmSeconds, PyFloat.toInt, FitsAlarm, bind, Except.bind]
  | finite q =>
    rw [fitsAlarm_finite q _ rfl, alarmSeconds_finite q _ rfl]
    generalize (if 0 ≤ q then ⌊q⌋ else ⌈q⌉) = n
    by_cases hfits : -2 ^ 31 ≤ n + 1 ∧ n + 1 < 2 ^ 31
    · rw [if_pos hfits]
      exact ⟨fun _ => hfits, fun _ => ⟨n + 1, rfl⟩⟩
    · rw [if_neg hfits]
      exact ⟨fun ⟨_, h⟩ => (nomatch h), fun h => absurd h hfits⟩

def caught : CallEnding → CallEnding
  | .returns () => .returns ()
  | .raises e => if e.isException then .returns () else .raises e
  | .exits code => .exits code

theorem exceptException_pass (o : CallEnding) :
    exceptException (.ofEnding o) (fun _ => pure ()) = ⟨[], caught o⟩ := by
  cases o with
  | returns => rfl
  | raises e => cases e <;> rfl
  | exits => rfl

theorem caught_exits (o : CallEnding) (code : ℕ) : caught o = .exits code ↔ o = .exits code := by
  cases o with
  | returns => simp [caught]
  | raises e => cases e <;> simp [caught, BaseException.isException]
  | exits => simp [caught]

theorem caught_returns (o : CallEnding) : caught o = .returns () ↔ ¬Escapes o ∧ ¬Stops o := by
  cases o with
  | returns => simp [caught, Escapes, Stops]
  | raises e => cases e <;> simp [caught, Escapes, Stops, BaseException.isException]
  | exits => simp [caught, Escapes, Stops]

theorem Stops.not_escapes {o : CallEnding} (h : Stops o) : ¬Escapes o := by
  obtain ⟨code, rfl⟩ := h
  rintro ⟨e, he, -⟩
  cases he

namespace ChildCalls

variable (c : ChildCalls)

theorem work_eq : c.work = ⟨[], c.workEnding⟩ := by
  unfold work workEnding
  cases c.preExecute with
  | none => rfl
  | some pre => cases pre <;> rfl

theorem post_eq (error : Option BaseException) : c.post error = ⟨[], caught (c.postEnding error)⟩ := by
  unfold post postEnding
  cases c.postExecute with
  | none => rfl
  | some post => exact exceptException_pass (post error)

def handledEnding (e : BaseException) : Ending BaseException ℕ (Option BaseException) :=
  if e = .timeoutError then .returns (some e)
  else match c.formatExc with
    | .returns () => .returns (some e)
    | .raises x => .raises x
    | .exits code => .exits code

theorem onException_eq (e : BaseException) : c.onException e = ⟨[], c.handledEnding e⟩ := by
  unfold onException handledEnding
  by_cases he : e = .timeoutError
  · rw [if_neg (not_not.mpr he), if_pos he]
    rfl
  · rw [if_pos he, if_neg he]
    cases c.formatExc <;> rfl

def tryEnding : Ending BaseException ℕ (Option BaseException) :=
  match c.workEnding with
  | .returns () => .returns none
  | .raises e => if e.isException then c.handledEnding e else .raises e
  | .exits code => .exits code

theorem try_eq : exceptException (do c.work; return none) c.onException = ⟨[], c.tryEnding⟩ := by
  rw [work_eq]
  unfold tryEnding
  cases c.workEnding with
  | returns => rfl
  | raises e =>
    change Proc.tryExcept ⟨[], .raises e⟩ _ = _
    unfold Proc.tryExcept
    by_cases he : e.isException = true
    · simp [he, c.onException_eq e]
    · simp [he]
  | exits => rfl

theorem tryEnding_returns (error : Option BaseException) :
    c.tryEnding = .returns error ↔ c.LeavesError error := by
  unfold tryEnding LeavesError handledEnding
  cases c.workEnding with
  | returns => cases error <;> simp
  | raises e => cases error <;> grind
  | exits => cases error <;> simp

theorem LeavesError.atFinally {c : ChildCalls} {error : Option BaseException}
    (h : c.LeavesError error) : errorAtFinally c.workEnding = error := by
  cases error with
  | none => rw [show c.workEnding = .returns () from h, errorAtFinally]
  | some e => rw [h.1, errorAtFinally, if_pos h.2.1]

theorem Unhandled.atFinally {c : ChildCalls} {error : Option BaseException}
    (h : c.Unhandled error) : errorAtFinally c.workEnding = error := by
  cases error with
  | none =>
    obtain ⟨e, he, hexc⟩ := h
    simp [he, errorAtFinally, hexc]
  | some e => rw [h.1, errorAtFinally, if_pos h.2.1]

theorem tryEnding_raises : (∃ e, c.tryEnding = .raises e) ↔ ∃ error, c.Unhandled error := by
  unfold tryEnding
  constructor
  · rintro ⟨e, he⟩
    cases hw : c.workEnding with
    | returns => simp [hw] at he
    | exits => simp [hw] at he
    | raises x =>
      simp only [hw] at he
      by_cases hx : x.isException = true
      · rw [if_pos hx, handledEnding] at he
        split_ifs at he with htimeout
        refine ⟨some x, hw, hx, htimeout, ?_⟩
        cases hf : c.formatExc with
        | returns => simp [hf] at he
        | raises y => exact ⟨y, rfl⟩
        | exits => simp [hf] at he
      · exact ⟨none, x, hw, by simpa using hx⟩
  · rintro ⟨error, h⟩
    cases error with
    | none =>
      obtain ⟨x, hw, hx⟩ := h
      exact ⟨x, by simp [hw, hx]⟩
    | some x =>
      obtain ⟨hw, hx, htimeout, y, hy⟩ := h
      exact ⟨y, by simp [hw, hx, handledEnding, htimeout, hy]⟩

theorem report_of_failed {error : Option BaseException} (h : Failed error) :
    c.report error = ⟨[], caught c.writeError⟩ >>= fun _ => pure exitFailure := by
  rw [← exceptException_pass]
  obtain ⟨hne, htimeout⟩ := h
  rcases error with - | e
  · exact absurd rfl hne
  · cases e with
    | timeoutError => exact absurd rfl htimeout
    | _ => rfl

theorem report_of_not_failed {error : Option BaseException} (h : ¬Failed error) :
    ∃ code, c.report error = pure code := by
  rcases error with - | e
  · exact ⟨exitSuccess, rfl⟩
  · cases e with
    | timeoutError => exact ⟨exitTimeout, rfl⟩
    | _ => exact absurd ⟨nofun, nofun⟩ h

theorem report_exits (error : Option BaseException) :
    (c.report error).Exits ↔ Failed error ∧ Stops c.writeError := by
  by_cases hf : Failed error
  · rw [report_of_failed c hf, Proc.bind_exits]
    simp [hf, Proc.Exits, caught_exits, Stops, pure, Proc.returns]
  · obtain ⟨code, hcode⟩ := report_of_not_failed c hf
    simp [hcode, hf, Proc.Exits, pure, Proc.returns]

theorem report_goes_on (error : Option BaseException) :
    (∃ code, (c.report error).ending = .returns code) ↔
      (Failed error → ¬Escapes c.writeError ∧ ¬Stops c.writeError) := by
  by_cases hf : Failed error
  · simp only [report_of_failed c hf, Proc.bind_returns, hf, forall_const, ← caught_returns]
    constructor
    · rintro ⟨code, u, hw, -⟩
      exact hw
    · intro hw
      exact ⟨exitFailure, (), hw, rfl⟩
  · obtain ⟨code, hcode⟩ := report_of_not_failed c hf
    rw [hcode]
    exact ⟨fun _ hf' => absurd hf' hf, fun _ => ⟨code, rfl⟩⟩

theorem close_exits (exitCode : ℕ) :
    (do Proc.ofEnding c.closePools; Proc.exit exitCode : ChildProc Unit).Exits ↔
      ∀ e, c.closePools ≠ .raises e := by
  rw [Proc.bind_exits]
  cases c.closePools <;> simp [Proc.ofEnding, Proc.exit, Proc.Exits]

theorem reported_exits (error : Option BaseException) :
    (do let exitCode ← c.report error; Proc.ofEnding c.closePools
        Proc.exit exitCode : ChildProc Unit).Exits ↔ Reported c error := by
  rw [Proc.bind_exits, report_exits]
  simp only [close_exits, exists_and_right, report_goes_on]
  constructor
  · rintro (⟨hf, hstops⟩ | ⟨hgoes, hclose⟩)
    · exact ⟨fun _ => hstops.not_escapes, fun hnot => absurd hstops (hnot hf)⟩
    · exact ⟨fun hf => (hgoes hf).1, fun _ => hclose⟩
  · rintro ⟨hwrite, hclose⟩
    by_cases hstops : Failed error ∧ Stops c.writeError
    · exact .inl hstops
    · have hnot : Failed error → ¬Stops c.writeError := fun hf hs => hstops ⟨hf, hs⟩
      exact .inr ⟨fun hf => ⟨hwrite hf, hnot hf⟩, hclose hnot⟩

theorem LeavesError.unique {c : ChildCalls} {error error' : Option BaseException}
    (h : c.LeavesError error) (h' : c.LeavesError error') : error' = error :=
  h'.atFinally.symm.trans h.atFinally

theorem LeavesError.not_unhandled {c : ChildCalls} {error error' : Option BaseException}
    (h : c.LeavesError error) : ¬c.Unhandled error' := by
  intro h'
  obtain ⟨e, he⟩ := c.tryEnding_raises.mpr ⟨error', h'⟩
  cases he.symm.trans ((c.tryEnding_returns error).mpr h)

theorem post_exits (error : Option BaseException) :
    (c.post error).Exits ↔ Stops (c.postEnding error) := by
  rw [post_eq]
  simp only [Proc.Exits, caught_exits, Stops]

theorem leavesError_iff {error : Option BaseException} (h : c.LeavesError error) :
    Stops (c.postEnding error) ∨
        (¬Escapes (c.postEnding error) ∧ ¬Stops (c.postEnding error)) ∧ Reported c error ↔
      (∀ error, c.LeavesError error → ¬Escapes (c.postEnding error)) ∧
        ∀ error, c.LeavesError error → ¬Stops (c.postEnding error) → Reported c error := by
  constructor
  · rintro (hstops | ⟨⟨hkept, -⟩, hreported⟩)
    · refine ⟨fun error' h' => ?_, fun error' h' hgoes => ?_⟩
      · rw [h.unique h']
        exact hstops.not_escapes
      · rw [h.unique h'] at hgoes
        exact absurd hstops hgoes
    · refine ⟨fun error' h' => ?_, fun error' h' _ => ?_⟩
      · rwa [h.unique h']
      · rwa [h.unique h']
  · rintro ⟨hkept, hreported⟩
    by_cases hstops : Stops (c.postEnding error)
    · exact .inl hstops
    · exact .inr ⟨⟨hkept error h, hstops⟩, hreported error h hstops⟩

theorem handled_exits :
    (do let error ← Proc.tryFinally (exceptException (do c.work; return none) c.onException)
          fun _ => c.post (errorAtFinally c.work.ending)
        let exitCode ← c.report error
        Proc.ofEnding c.closePools
        Proc.exit exitCode : ChildProc Unit).Exits ↔
      (∀ error, c.Unhandled error → Stops (c.postEnding error)) ∧
        (∀ error, c.LeavesError error → ¬Escapes (c.postEnding error)) ∧
          ∀ error, c.LeavesError error → ¬Stops (c.postEnding error) → Reported c error := by
  rw [Proc.bind_exits, Proc.tryFinally_exits]
  have hwork : c.work.ending = c.workEnding := by rw [work_eq]
  simp only [reported_exits, Proc.tryFinally_returns, try_eq, post_exits, hwork]
  cases htry : c.tryEnding with
  | returns error =>
    have hleaves := (c.tryEnding_returns error).mp htry
    rw [← c.leavesError_iff hleaves]
    simp [Proc.Exits, post_eq, caught_returns, hleaves.atFinally, hleaves.not_unhandled]
  | raises e =>
    obtain ⟨error, hraises⟩ := c.tryEnding_raises.mp ⟨e, htry⟩
    have hnone : ∀ error, ¬c.LeavesError error := fun _ h => h.not_unhandled hraises
    have hall : (∀ error, c.Unhandled error → Stops (c.postEnding error)) ↔
        Stops (c.postEnding (errorAtFinally c.workEnding)) := by
      constructor
      · intro h
        rw [hraises.atFinally]
        exact h error hraises
      · intro h error' h'
        rwa [h'.atFinally] at h
    simp [Proc.Exits, hnone, hall]
  | exits code =>
    have hnone : ∀ error, ¬c.LeavesError error := fun error h => by
      cases htry.symm.trans ((c.tryEnding_returns error).mpr h)
    have hhandled : ∀ error, ¬c.Unhandled error := fun error h => by
      obtain ⟨e, he⟩ := c.tryEnding_raises.mpr ⟨error, h⟩
      cases htry.symm.trans he
    simp [Proc.Exits, hnone, hhandled]

theorem report_silent (error : Option BaseException) : (c.report error).trace = [] := by
  by_cases hf : Failed error
  · rw [c.report_of_failed hf]
    exact Proc.bind_silent rfl fun _ => rfl
  · obtain ⟨code, hcode⟩ := c.report_of_not_failed hf
    rw [hcode]
    rfl

end ChildCalls

section Exits

variable (maxRuntime : PyFloat) (c : ChildCalls)

theorem attempt_exits {α β : Type} (x : Except BaseException α) (f : α → ChildProc β) :
    (attempt x >>= f).Exits ↔ ∃ a, x = .ok a ∧ (f a).Exits := by
  rw [Proc.bind_exits]
  cases x <;> simp [attempt, Proc.returns, Proc.ofEnding, Proc.Exits]

theorem attempt_unit_exits {β : Type} (x : Except BaseException Unit) (f : Unit → ChildProc β) :
    (attempt x >>= f).Exits ↔ x = .ok () ∧ (f ()).Exits :=
  (attempt_exits x f).trans ⟨fun ⟨_, h⟩ => h, fun h => ⟨(), h⟩⟩

theorem attempt_silent {α : Type} (x : Except BaseException α) : (attempt x).trace = [] := by
  cases x <;> rfl

theorem runInChild_silent : (runInChild maxRuntime c).trace = [] := by
  unfold runInChild
  apply Proc.bind_silent (attempt_silent _)
  intro _
  apply Proc.bind_silent (attempt_silent _)
  intro _
  apply Proc.bind_silent (attempt_silent _)
  intro _
  apply Proc.bind_silent (attempt_silent _)
  intro _
  apply Proc.bind_silent (attempt_silent _)
  intro _
  refine Proc.bind_silent (Proc.tryFinally_silent ?_ fun _ => ?_) fun error => ?_
  · rw [c.try_eq]
  · rw [c.post_eq]
  · exact Proc.bind_silent (c.report_silent error) fun _ => Proc.bind_silent rfl fun _ => rfl

theorem forkChild_silent : (forkChild maxRuntime c).trace = [] :=
  Proc.bind_silent (attempt_silent _) fun _ =>
    Proc.bind_silent (runInChild_silent maxRuntime c) fun _ => rfl

theorem runInChild_never_returns (a : Unit) : (runInChild maxRuntime c).ending ≠ .returns a := by
  unfold runInChild
  simp only [ne_eq, Proc.bind_returns, Proc.exit, reduceCtorEq, and_false, exists_false,
    not_false_eq_true]

theorem forkChild_exits :
    (forkChild maxRuntime c).Exits ↔ c.closeReadFd = .ok () ∧ (runInChild maxRuntime c).Exits := by
  unfold forkChild
  rw [attempt_unit_exits, Proc.bind_exits]
  simp only [runInChild_never_returns, false_and, exists_false, or_false]

theorem runInChild_exits : c.closeReadFd = .ok () ∧ (runInChild maxRuntime c).Exits ↔
    Contained maxRuntime c := by
  unfold runInChild
  simp only [attempt_unit_exits]
  rw [attempt_exits]
  simp only [c.handled_exits, exists_and_right, alarmSeconds_ok]
  constructor
  · rintro ⟨hclose, hpgrp, hterm, hint, halrm, halarm, hunhandled, hpost, hreported⟩
    exact ⟨⟨hclose, hpgrp, hterm, hint, halrm, halarm⟩, hunhandled, hpost, hreported⟩
  · rintro ⟨⟨hclose, hpgrp, hterm, hint, halrm, halarm⟩, hunhandled, hpost, hreported⟩
    exact ⟨hclose, hpgrp, hterm, hint, halrm, halarm, hunhandled, hpost, hreported⟩

end Exits

section Resume

variable {child : ChildProc Unit}

theorem exceptException_of_exits (handler : BaseException → ChildProc Unit) (h : child.Exits) :
    exceptException child handler = child := by
  obtain ⟨code, h⟩ := h
  exact Proc.tryExcept_of_exits h

theorem bind_of_exits {β : Type} (f : Unit → ChildProc β) (h : child.Exits) :
    (child >>= f).Exits ∧ (child >>= f).trace = child.trace := by
  obtain ⟨code, h⟩ := h
  rw [Proc.bind_of_exits h]
  exact ⟨⟨code, rfl⟩, rfl⟩

theorem sequentialLoop_of_exits (h : child.Exits) : (sequentialLoop child).trace = child.trace := by
  obtain ⟨⟨code, hexits⟩, htrace⟩ := bind_of_exits (fun _ => Proc.emit .claim) h
  unfold sequentialLoop
  rw [Proc.tryExcept_of_exits hexits, htrace]

theorem concurrentLoop_of_exits (children ready : ℕ) (h : child.Exits) :
    (concurrentLoop children ready child).trace = child.trace := by
  obtain ⟨⟨code, hexits⟩, htrace⟩ :=
    bind_of_exits (fun _ => do reapSlots ready; Proc.emit .claim) h
  unfold concurrentLoop
  rw [Proc.tryExcept_of_exits hexits, htrace]

theorem resume_of_exits (site : Site) (h : child.Exits) : (site.resume child).trace = child.trace := by
  cases site with
  | processOneOff =>
    obtain ⟨hexits, htrace⟩ := bind_of_exits (fun _ => Proc.emit .finishOneOff) h
    simp only [Site.resume, exceptException_of_exits _ h]
    rw [sequentialLoop_of_exits hexits, htrace]
  | processPeriodic maxConcurrent =>
    obtain ⟨code, hcode⟩ := h
    simp only [Site.resume, exceptException_of_exits _ ⟨code, hcode⟩,
      Proc.tryFinally_of_exits hcode]
    exact sequentialLoop_of_exits ⟨code, hcode⟩
  | claimAndForkOneOff children ready =>
    obtain ⟨hexits, htrace⟩ := bind_of_exits (fun _ => Proc.emit .claim) h
    simp only [Site.resume, exceptException_of_exits _ h]
    rw [concurrentLoop_of_exits children ready hexits, htrace]
  | claimAndForkPeriodic maxConcurrent children ready =>
    simp only [Site.resume, exceptException_of_exits _ h]
    exact concurrentLoop_of_exits children ready h

end Resume

theorem never_reenters (maxRuntime : PyFloat) (c : ChildCalls) (site : Site) :
    NeverReenters maxRuntime c site ↔ Contained maxRuntime c := by
  rw [← runInChild_exits, ← forkChild_exits]
  constructor
  · rintro ⟨hfork, -⟩
    exact hfork
  · intro hfork
    refine ⟨hfork, ((forkChild_exits maxRuntime c).mp hfork).2, ?_⟩
    rw [resume_of_exits site hfork, forkChild_silent]

def sampleCalls : ChildCalls where
  closeReadFd := .ok ()
  setpgrp := .ok ()
  signalSigterm := .ok ()
  signalSigint := .ok ()
  signalSigalrm := .ok ()
  preExecute := none
  handler := .returns ()
  formatExc := .returns ()
  postExecute := none
  writeError := .returns ()
  closePools := .returns ()

/-- `enqueue` takes `10 ^ 10` seconds, and `signal.alarm` does not. -/
theorem reenters_worker :
    validateMaxRuntime (sampleEnv : Env String).floatRepr (some (.finite (10 ^ 10))) = .ok () ∧
    (Site.processOneOff.resume (forkChild (.finite (10 ^ 10)) sampleCalls)).trace =
      [.finishOneOff, .claim] ∧
    ¬NeverReenters (.finite (10 ^ 10)) sampleCalls .processOneOff := by
  have htrace : (Site.processOneOff.resume (forkChild (.finite (10 ^ 10)) sampleCalls)).trace =
      [.finishOneOff, .claim] := by
    decide +kernel
  refine ⟨by decide +kernel, htrace, ?_⟩
  rintro ⟨-, -, h⟩
  rw [htrace] at h
  cases h

/-- A handler raises `SyntaxError("bad", ("f", 1, "x", "text"))`, whose traceback cannot be formatted. -/
example : ((Site.processPeriodic (some 1)).resume (forkChild (.finite 60)
    { sampleCalls with
      handler := .raises (.exception "bad (f, line 1)")
      formatExc := .raises (.exception "not all arguments") })).trace = [.clearLock, .claim] := by
  decide +kernel

example : ((Site.processPeriodic (some 1)).resume (forkChild (.finite 60)
    { sampleCalls with handler := .raises .systemExit })).trace = [.clearLock] := by
  decide +kernel

example : ((Site.claimAndForkOneOff 2 0).resume (forkChild (.finite 60)
    { sampleCalls with handler := .raises .keyboardInterrupt })).trace = [.reapSibling] := by
  decide +kernel

end PostgresQueue
