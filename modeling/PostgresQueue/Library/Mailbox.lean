import PostgresQueue.Library.Transition

namespace PostgresQueue.Library

structure Mailbox (V : Type) where
  inbox : Option V
  busy : Bool
  received : List V
  delivered : List V

namespace Mailbox

variable {V : Type}

inductive Event (V : Type)
  | put (v : V)
  | take
  | done
  | reset

def empty : Mailbox V := ⟨none, false, [], []⟩

def step (m : Mailbox V) : Event V → Option (Mailbox V)
  | .put v => some { m with inbox := some v, received := m.received ++ [v] }
  | .take =>
    match m.inbox, m.busy with
    | some v, false => some ⟨none, true, m.received, m.delivered ++ [v]⟩
    | _, _ => none
  | .done => if m.busy then some { m with busy := false } else none
  | .reset => some { m with inbox := none, busy := false }

def system : System (Mailbox V) (Event V) := ⟨empty, step⟩

variable {m m' : Mailbox V} {e : Event V} {es : List (Event V)}
  {G : Mailbox V → Event V → Prop}

def passed (m : Mailbox V) : List V := m.delivered ++ m.inbox.toList

theorem step_take (h : m.step .take = some m') :
    ∃ v, m.inbox = some v ∧ m.busy = false ∧ m' = ⟨none, true, m.received, m.delivered ++ [v]⟩ := by
  simp only [step] at h
  split at h
  · cases h
    exact ⟨_, ‹_›, ‹_›, rfl⟩
  · cases h

theorem delivered_sublist (m : Mailbox V) : m.delivered.Sublist m.passed :=
  List.sublist_append_left _ _

theorem passed_step (h : m.passed.Sublist m.received) (he : m.step e = some m') :
    m'.passed.Sublist m'.received := by
  cases e with
  | put v =>
    cases he
    exact (m.delivered_sublist.trans h).append_right [v]
  | take =>
    obtain ⟨v, hv, -, rfl⟩ := step_take he
    simpa [passed, hv] using h
  | done =>
    simp only [step] at he
    split_ifs at he
    cases he
    exact h
  | reset =>
    cases he
    simpa [passed] using m.delivered_sublist.trans h

theorem passed_sublist (h : system.Steps G m es m') (hm : m.passed.Sublist m.received) :
    m'.passed.Sublist m'.received := by
  refine h.preserves (I := fun m => m.passed.Sublist m.received) (fun m e m' hm _ he => ?_) hm
  exact passed_step hm he

theorem getLast?_step (h : m.passed.getLast? = m.received.getLast?) (hreset : e ≠ .reset)
    (he : m.step e = some m') : m'.passed.getLast? = m'.received.getLast? := by
  cases e with
  | put v =>
    cases he
    simp [passed]
  | take =>
    obtain ⟨v, hv, -, rfl⟩ := step_take he
    simpa [passed, hv] using h
  | done =>
    simp only [step] at he
    split_ifs at he
    cases he
    exact h
  | reset => exact absurd rfl hreset

theorem getLast?_passed (h : system.Steps G m es m') (hreset : .reset ∉ es)
    (hm : m.passed.getLast? = m.received.getLast?) :
    m'.passed.getLast? = m'.received.getLast? := by
  induction h with
  | nil => exact hm
  | cons _ he _ ih =>
    rw [List.mem_cons, not_or] at hreset
    exact ih hreset.2 (getLast?_step hm (fun hr => hreset.1 hr.symm) he)

end Mailbox

end PostgresQueue.Library
