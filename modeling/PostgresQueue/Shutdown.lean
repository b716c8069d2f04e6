import Mathlib.Logic.Relation
import Mathlib.Order.Lattice
import PostgresQueue.Library.Transition

namespace PostgresQueue

open Library

/-- `t + drain_timeout` on readings of `time.monotonic()`. A rounded sum is still monotone. -/
structure DrainTimeout (τ : Type) [LinearOrder τ] where
  after : τ → τ
  mono : Monotone after

structure ShutdownState (τ : Type) where
  signum : Option ℕ
  deadline : Option τ

def ShutdownState.requested {τ : Type} (s : ShutdownState τ) : Bool := s.signum.isSome

/-- Where a call of `_handle_shutdown_signal` stands, before its next read or write. -/
inductive HandlerPc (τ : Type)
  | check
  | readClock
  | setDeadline (deadline : τ)
  | setSignum

structure Handler (τ : Type) where
  signum : ℕ
  pc : HandlerPc τ

/-- The main thread's view of its signals. The innermost handler stands first: it interrupts
the ones after it, and the worker itself runs only when none is left. -/
structure Signals (τ : Type) where
  shutdown : ShutdownState τ
  handlers : List (Handler τ)
  now : τ
  first : Option τ

namespace Signals

variable {τ : Type}

def requested (s : Signals τ) : Bool := s.shutdown.requested

def installed (now : τ) : Signals τ := ⟨⟨none, none⟩, [], now, none⟩

inductive Event (τ : Type)
  | arrives (signum : ℕ)
  | runs
  | ticks (now : τ)

variable [LinearOrder τ]

def handle (drain : DrainTimeout τ) (s : Signals τ) (h : Handler τ) (outer : List (Handler τ)) :
    Signals τ :=
  match h.pc with
  | .check =>
    if s.requested then { s with handlers := outer }
    else { s with handlers := ⟨h.signum, .readClock⟩ :: outer }
  | .readClock => { s with handlers := ⟨h.signum, .setDeadline (drain.after s.now)⟩ :: outer }
  | .setDeadline deadline => { s with
      shutdown.deadline := some deadline
      handlers := ⟨h.signum, .setSignum⟩ :: outer }
  | .setSignum => { s with
      shutdown.signum := some h.signum
      handlers := outer }

def step (drain : DrainTimeout τ) (s : Signals τ) : Event τ → Option (Signals τ)
  | .arrives signum => some { s with
      handlers := ⟨signum, .check⟩ :: s.handlers
      first := s.first.or (some s.now) }
  | .runs =>
    match s.handlers with
    | [] => none
    | h :: outer => some (s.handle drain h outer)
  | .ticks now => if s.now ≤ now then some { s with now := now } else none

def Late (drain : DrainTimeout τ) (s : Signals τ) (deadline : τ) : Prop :=
  ∃ t, s.first = some t ∧ drain.after t ≤ deadline

def Handler.Sound (drain : DrainTimeout τ) (s : Signals τ) (h : Handler τ) : Prop :=
  match h.pc with
  | .setDeadline deadline => s.Late drain deadline
  | .setSignum => s.shutdown.deadline.isSome
  | _ => True

structure Sound (drain : DrainTimeout τ) (s : Signals τ) : Prop where
  deadline : s.requested → s.shutdown.deadline.isSome
  late : ∀ d, s.shutdown.deadline = some d → s.Late drain d
  handlers : ∀ h ∈ s.handlers, Handler.Sound drain s h
  first : s.handlers ≠ [] → ∃ t, s.first = some t
  past : ∀ t, s.first = some t → t ≤ s.now

/-- From here on the deadline stays: the shutdown is requested, and every handler that still
runs has yet to see that. -/
structure Settled (s : Signals τ) (deadline : τ) : Prop where
  requested : s.requested
  deadline : s.shutdown.deadline = some deadline
  handlers : ∀ h ∈ s.handlers, h.pc = .check

variable {drain : DrainTimeout τ} {s s' : Signals τ} {e : Event τ}

theorem installed_sound (now : τ) : (installed now).Sound drain := by
  constructor <;> simp [installed, requested, ShutdownState.requested]

theorem Handler.Sound.mono {h : Handler τ} (hs : Handler.Sound drain s h)
    (hlate : ∀ d, s.Late drain d → s'.Late drain d)
    (hdeadline : s.shutdown.deadline.isSome → s'.shutdown.deadline.isSome) :
    Handler.Sound drain s' h := by
  unfold Handler.Sound at hs ⊢
  cases hpc : h.pc with
  | check => trivial
  | readClock => trivial
  | setDeadline d =>
    rw [hpc] at hs
    exact hlate d hs
  | setSignum =>
    rw [hpc] at hs
    exact hdeadline hs

theorem Sound.arrives (hs : s.Sound drain) (signum : ℕ) :
    Sound drain { s with
      handlers := ⟨signum, .check⟩ :: s.handlers
      first := s.first.or (some s.now) } := by
  have hlate : ∀ d, s.Late drain d → Late drain { s with
      handlers := ⟨signum, .check⟩ :: s.handlers
      first := s.first.or (some s.now) } d := by
    rintro d ⟨t, ht, hd⟩
    exact ⟨t, by simp [ht], hd⟩
  refine ⟨hs.deadline, fun d hd => hlate d (hs.late d hd), ?_, ?_, ?_⟩
  · intro h hm
    rcases List.mem_cons.mp hm with rfl | hm
    · trivial
    · exact (hs.handlers h hm).mono hlate fun hd => hd
  · intro _
    cases hf : s.first <;> simp
  · intro t ht
    cases hf : s.first with
    | none =>
      simp only [hf, Option.none_or, Option.some.injEq] at ht
      exact ht.ge
    | some t' =>
      simp only [hf, Option.some_or, Option.some.injEq] at ht
      exact hs.past t (hf.trans (congrArg some ht))

theorem Sound.handle (hs : s.Sound drain) {h : Handler τ} {outer : List (Handler τ)}
    (hh : s.handlers = h :: outer) : (s.handle drain h outer).Sound drain := by
  have hself : Handler.Sound drain s h := hs.handlers h (by simp [hh])
  have hrest : ∀ h' ∈ outer, Handler.Sound drain s h' := fun h' hm => hs.handlers h' (by simp [hh, hm])
  obtain ⟨first, hfirst⟩ := hs.first (by simp [hh])
  unfold Signals.handle
  unfold Handler.Sound at hself
  cases hpc : h.pc with
  | check =>
    dsimp only
    split_ifs with hr
    · exact ⟨hs.deadline, hs.late, hrest, fun _ => ⟨first, hfirst⟩, hs.past⟩
    · refine ⟨hs.deadline, hs.late, ?_, fun _ => ⟨first, hfirst⟩, hs.past⟩
      intro h' hm
      rcases List.mem_cons.mp hm with rfl | hm
      exacts [trivial, hrest h' hm]
  | readClock =>
    refine ⟨hs.deadline, hs.late, ?_, fun _ => ⟨first, hfirst⟩, hs.past⟩
    intro h' hm
    rcases List.mem_cons.mp hm with rfl | hm
    exacts [⟨first, hfirst, drain.mono (hs.past first hfirst)⟩, hrest h' hm]
  | setDeadline d =>
    rw [hpc] at hself
    refine ⟨fun _ => rfl, ?_, ?_, fun _ => ⟨first, hfirst⟩, hs.past⟩
    · rintro d' hd
      cases hd
      exact hself
    · intro h' hm
      rcases List.mem_cons.mp hm with rfl | hm
      exacts [rfl, (hrest h' hm).mono (fun _ hd => hd) fun _ => rfl]
  | setSignum =>
    rw [hpc] at hself
    exact ⟨fun _ => hself, hs.late, hrest, fun _ => ⟨first, hfirst⟩, hs.past⟩

theorem Sound.step (hs : s.Sound drain) (he : s.step drain e = some s') : s'.Sound drain := by
  cases e with
  | arrives signum =>
    cases he
    exact hs.arrives signum
  | runs =>
    simp only [Signals.step] at he
    split at he
    · cases he
    · rename_i h outer hh
      cases he
      exact hs.handle hh
  | ticks now =>
    simp only [Signals.step] at he
    split_ifs at he with hle
    cases he
    exact ⟨hs.deadline, hs.late, hs.handlers, hs.first, fun t ht => (hs.past t ht).trans hle⟩

theorem Sound.settled (hs : s.Sound drain) (hr : s.requested) (hh : s.handlers = []) :
    ∃ d, s.Settled d ∧ s.Late drain d := by
  obtain ⟨d, hd⟩ := Option.isSome_iff_exists.mp (hs.deadline hr)
  exact ⟨d, ⟨hr, hd, by simp [hh]⟩, hs.late d hd⟩

theorem Settled.step {d : τ} (hs : s.Settled d) (he : s.step drain e = some s') : s'.Settled d := by
  cases e with
  | arrives signum =>
    cases he
    refine ⟨hs.requested, hs.deadline, fun h hm => ?_⟩
    rcases List.mem_cons.mp hm with rfl | hm
    exacts [rfl, hs.handlers h hm]
  | runs =>
    simp only [Signals.step] at he
    split at he
    · cases he
    · rename_i h outer hh
      cases he
      have hcheck : h.pc = .check := hs.handlers h (by simp [hh])
      simp only [handle, hcheck, hs.requested, if_true]
      exact ⟨hs.requested, hs.deadline, fun h' hm => hs.handlers h' (by simp [hh, hm])⟩
  | ticks now =>
    simp only [Signals.step] at he
    split_ifs at he
    cases he
    exact ⟨hs.requested, hs.deadline, hs.handlers⟩

theorem first_step {t : τ} (hf : s.first = some t) (he : s.step drain e = some s') :
    s'.first = some t := by
  cases e with
  | arrives signum =>
    cases he
    simp [hf]
  | runs =>
    simp only [Signals.step] at he
    split at he
    · cases he
    · rename_i h outer hh
      cases he
      unfold handle
      split
      · split_ifs
        exacts [hf, hf]
      · exact hf
      · exact hf
      · exact hf
  | ticks now =>
    simp only [Signals.step] at he
    split_ifs at he
    cases he
    exact hf

theorem now_step (he : s.step drain e = some s') : s.now ≤ s'.now := by
  cases e with
  | arrives signum =>
    cases he
    exact le_rfl
  | runs =>
    simp only [Signals.step] at he
    split at he
    · cases he
    · rename_i h outer hh
      cases he
      unfold handle
      split
      · split_ifs
        exacts [le_rfl, le_rfl]
      · exact le_rfl
      · exact le_rfl
      · exact le_rfl
  | ticks now =>
    simp only [Signals.step] at he
    split_ifs at he with hle
    cases he
    exact hle

theorem Late.step {d : τ} (h : s.Late drain d) (he : s.step drain e = some s') : s'.Late drain d := by
  obtain ⟨t, ht, hd⟩ := h
  exact ⟨t, first_step ht he, hd⟩

theorem Late.mono {d d' : τ} (h : s.Late drain d) (hle : d ≤ d') : s.Late drain d' := by
  obtain ⟨t, ht, hd⟩ := h
  exact ⟨t, ht, hd.trans hle⟩

theorem requested_step (hr : s.requested) (he : s.step drain e = some s') : s'.requested := by
  cases e with
  | arrives signum =>
    cases he
    exact hr
  | runs =>
    simp only [Signals.step] at he
    split at he
    · cases he
    · rename_i h outer hh
      cases he
      unfold handle
      split
      · rw [if_pos hr]
        exact hr
      · exact hr
      · exact hr
      · rfl
  | ticks now =>
    simp only [Signals.step] at he
    split_ifs at he
    cases he
    exact hr

abbrev Runs (drain : DrainTimeout τ) : Signals τ → Signals τ → Prop :=
  Relation.ReflTransGen fun s t => s.step drain .runs = some t

theorem setSignum_ends (drain : DrainTimeout τ) {s : Signals τ} {signum : ℕ} {outer : List (Handler τ)}
    (h : s.handlers = ⟨signum, .setSignum⟩ :: outer) :
    ∃ t, Runs drain s t ∧ t.handlers = outer := by
  refine ⟨s.handle drain ⟨signum, .setSignum⟩ outer, .single ?_, rfl⟩
  simp only [Signals.step, h]

theorem setDeadline_ends (drain : DrainTimeout τ) {s : Signals τ} {signum : ℕ} {deadline : τ}
    {outer : List (Handler τ)} (h : s.handlers = ⟨signum, .setDeadline deadline⟩ :: outer) :
    ∃ t, Runs drain s t ∧ t.handlers = outer := by
  obtain ⟨t, ht, houter⟩ := setSignum_ends drain
    (s := s.handle drain ⟨signum, .setDeadline deadline⟩ outer) rfl
  exact ⟨t, ht.head (by simp only [Signals.step, h]), houter⟩

theorem readClock_ends (drain : DrainTimeout τ) {s : Signals τ} {signum : ℕ} {outer : List (Handler τ)}
    (h : s.handlers = ⟨signum, .readClock⟩ :: outer) :
    ∃ t, Runs drain s t ∧ t.handlers = outer := by
  obtain ⟨t, ht, houter⟩ := setDeadline_ends drain
    (s := s.handle drain ⟨signum, .readClock⟩ outer) rfl
  exact ⟨t, ht.head (by simp only [Signals.step, h]), houter⟩

theorem handler_ends (drain : DrainTimeout τ) {s : Signals τ} {h : Handler τ} {outer : List (Handler τ)}
    (hs : s.handlers = h :: outer) : ∃ t, Runs drain s t ∧ t.handlers = outer := by
  obtain ⟨signum, pc⟩ := h
  cases pc with
  | check =>
    have he : s.step drain .runs = some (s.handle drain ⟨signum, .check⟩ outer) := by
      simp only [step, hs]
    by_cases hr : s.requested
    · exact ⟨_, .single he, by simp [handle, hr]⟩
    · obtain ⟨t, ht, houter⟩ := readClock_ends drain
        (show (s.handle drain ⟨signum, .check⟩ outer).handlers = ⟨signum, .readClock⟩ :: outer by
          simp [handle, hr])
      exact ⟨t, ht.head he, houter⟩
  | readClock => exact readClock_ends drain hs
  | setDeadline deadline => exact setDeadline_ends drain hs
  | setSignum => exact setSignum_ends drain hs

theorem handlers_end (drain : DrainTimeout τ) (s : Signals τ) :
    ∃ t, Runs drain s t ∧ t.handlers = [] := by
  obtain ⟨handlers, hs⟩ : ∃ handlers, s.handlers = handlers := ⟨_, rfl⟩
  induction handlers generalizing s with
  | nil => exact ⟨s, .refl, hs⟩
  | cons h outer ih =>
    obtain ⟨t, ht, houter⟩ := handler_ends drain hs
    obtain ⟨u, hu, hnil⟩ := ih t houter
    exact ⟨u, ht.trans hu, hnil⟩

end Signals

end PostgresQueue
