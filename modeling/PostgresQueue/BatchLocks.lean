import Mathlib.Data.String.Basic
import Mathlib.Data.Sum.Order
import PostgresQueue.Client
import PostgresQueue.Library.LockOrder

namespace PostgresQueue

open Library

variable {P : Type}

/-- What a statement locks: a row with a `client_id` under that, be it there already or still
being inserted, and any other row under its id. -/
abbrev RowLock := ClientId ⊕ₗ ℕ

def clientLock (c : ClientId) : RowLock := toLex (.inl c)

def rowLock (clientId : Option ClientId) (id : ℕ) : RowLock :=
  match clientId with
  | some c => clientLock c
  | none => toLex (.inr id)

def Task.lock (t : Task P) : RowLock := rowLock t.clientId t.id

/-- The transactions on `pq_tasks`. `_finish_one_off` locks its row if it finds it; a claim
looks for one that is free. -/
inductive TaskTxn (P : Type)
  | upsertMany (us : List (Upsert P))
  | upsert (u : Upsert P)
  | enqueue (clientId : Option ClientId) (id : ℕ)
  | finishOneOff (row : Option RowLock)
  | claim

def batchLocks (stmts : List (Upsert P × NewTask P)) : List RowLock :=
  (upsertOrder stmts).map fun a => clientLock a.1.1.clientId

def TaskTxn.locks (env : Env P) : TaskTxn P → List RowLock
  | .upsertMany us =>
    match upsertStatements env us with
    | .error _ => []
    | .ok stmts => batchLocks stmts
  | .upsert u => [clientLock u.clientId]
  | .enqueue clientId id => [rowLock clientId id]
  | .finishOneOff row => row.toList
  | .claim => []

inductive TxnAction (P : Type)
  | start (x : TaskTxn P)
  | acquire (t : ℕ)
  | claimRow (t : ℕ) (row : RowLock)
  | commit (t : ℕ)
  | rollback (t : ℕ)

def TxnAction.locking (env : Env P) : TxnAction P → LockAction RowLock
  | .start x => .start (x.locks env)
  | .acquire t => .acquire t
  | .claimRow t row => .take t row
  | .commit t => .commit t
  | .rollback t => .rollback t

def taskLocks (env : Env P) : System (List (LockTxn RowLock)) (TxnAction P) where
  init := []
  step s a := (Locking.system RowLock).step s (a.locking env)

theorem batchLocks_sorted (stmts : List (Upsert P × NewTask P)) :
    (batchLocks stmts).Pairwise (· ≤ ·) := by
  rw [batchLocks, List.pairwise_map]
  refine (List.pairwise_insertionSort _ _).imp fun hab => ?_
  exact Sum.Lex.inl_le_inl_iff.mpr hab

theorem TaskTxn.locks_sorted (env : Env P) (x : TaskTxn P) : (x.locks env).Pairwise (· ≤ ·) := by
  cases x with
  | upsertMany us =>
    cases hs : upsertStatements env us with
    | error e => simp [locks, hs]
    | ok stmts => simpa [locks, hs] using batchLocks_sorted stmts
  | upsert u => exact List.pairwise_singleton _ _
  | enqueue clientId id => exact List.pairwise_singleton _ _
  | finishOneOff row =>
    cases row with
    | none => exact List.Pairwise.nil
    | some row => exact List.pairwise_singleton _ _
  | claim => exact List.Pairwise.nil

theorem taskLocks_ordered {env : Env P} {s : List (LockTxn RowLock)}
    (h : (taskLocks env).Reachable System.free s) :
    (Locking.system RowLock).Reachable Locking.Ordered s := by
  refine h.invariant .init fun s a s' hi _ he => hi.step ?_ he
  cases a with
  | start x => exact x.locks_sorted env
  | _ => trivial

/-- Transactions of the queue never wait for each other in a cycle, and some transaction that
has not ended can always go on. -/
theorem batches_never_deadlock {env : Env P} {s : List (LockTxn RowLock)}
    (h : (taskLocks env).Reachable System.free s) :
    ¬Locking.Deadlock s ∧ ((∃ x ∈ s, x.done = false) → ∃ t,
      ((taskLocks env).step s (.acquire t)).isSome ∨ ((taskLocks env).step s (.commit t)).isSome) := by
  have hs := Locking.reachable_inOrder (taskLocks_ordered h)
  exact ⟨Locking.not_deadlock hs, Locking.progress hs⟩

section Sample

def sampleOrderAB : List (Upsert String) :=
  [{ sampleUpsert "x" with clientId := "a" }, { sampleUpsert "x" with clientId := "b" }]

def oppositeOrders : List (LockTxn RowLock) :=
  (taskLocks sampleEnv).run System.free [.start (.upsertMany sampleOrderAB),
    .start (.upsertMany sampleOrderAB.reverse), .acquire 0, .start .claim,
    .claimRow 2 (clientLock "c")]

theorem batches_never_deadlock_opposite : ¬Locking.Deadlock oppositeOrders ∧ ∃ t,
    ((taskLocks (sampleEnv : Env String)).step oppositeOrders (.acquire t)).isSome ∨
      ((taskLocks (sampleEnv : Env String)).step oppositeOrders (.commit t)).isSome := by
  have hreached : (taskLocks sampleEnv).Reachable System.free oppositeOrders :=
    .of_run (by decide +kernel)
  have hdone : ∃ x ∈ oppositeOrders, x.done = false := by decide +kernel
  obtain ⟨hno, hgo⟩ := batches_never_deadlock hreached
  exact ⟨hno, hgo hdone⟩

end Sample

end PostgresQueue
