import PostgresQueue.Bookkeeping
import PostgresQueue.Library.Pipe
import PostgresQueue.Library.Utf8

namespace PostgresQueue

open Library

/-- The child, as its pipe and `os.wait4` see it. It has finished when it came to its own
`os._exit`, after its `os.write`. -/
inductive PipeChild
  | running (writeEnd : Bool)
  | finished (code : ℕ)
  | died (status : WaitStatus)
deriving DecidableEq

namespace PipeChild

def status : PipeChild → Option WaitStatus
  | .running _ => none
  | .finished code => some (.exited code)
  | .died status => some status

def writes : PipeChild → Bool
  | .running writeEnd => writeEnd
  | .finished _ | .died _ => false

end PipeChild

inductive ReadPc
  | poll
  | requested
  | deadline
  | kill
  | timeout
  | select (timeout : ℚ)
  | read
  | drain
  | returned
deriving DecidableEq

/-- One wait for a child. `others` are the other processes that hold the write end, `sent` is what
the child has written so far. -/
structure ChildWait where
  pipe : Pipe UInt8
  unwritten : List UInt8
  sent : List UInt8
  child : PipeChild
  others : List ℕ
  signals : Signals ℚ
  pc : ReadPc
  killedByDrain : Bool
  errorBytes : List UInt8

inductive WaitEvent
  | signal (e : Signals.Event ℚ)
  | childWrites (n : ℕ)
  | childCloses
  | childFinishes (code : ℕ)
  | childDies (status : WaitStatus)
  | inherits (pid : ℕ)
  | closes (pid : ℕ)
  | otherWrites (bytes : List UInt8)
  | next
  | reads (n : ℕ)

def WaitEvent.own : WaitEvent → Bool
  | .next | .reads _ => true
  | _ => false

def selectTimeout (signals : Signals ℚ) : ℚ :=
  match signals.requested, signals.shutdown.deadline with
  | true, some deadline => max (min 1 (max 0 (deadline - signals.now))) (1 / 100)
  | _, _ => 1

namespace ChildWait

def init (capacity : ℕ) (pos : 0 < capacity) (message : List UInt8) (start : ℚ) : ChildWait where
  pipe := Pipe.empty capacity pos
  unwritten := message
  sent := []
  child := .running true
  others := []
  signals := Signals.installed start
  pc := .poll
  killedByDrain := false
  errorBytes := []

variable (s : ChildWait)

def Open : Prop := s.child.writes = true ∨ s.others ≠ []

instance : Decidable s.Open := inferInstanceAs (Decidable (_ ∨ _))

/-- `select` reports data and the end of file alike. -/
def Readable : Prop := s.pipe.content ≠ [] ∨ ¬s.Open

instance : Decidable s.Readable := inferInstanceAs (Decidable (_ ∨ _))

def next : Option ChildWait :=
  match s.pc with
  | .poll => some { s with pc := if s.child.status.isSome then .drain else .requested }
  | .requested => some { s with
      pc := if !s.killedByDrain && s.signals.requested then .deadline else .timeout }
  | .deadline => some { s with pc := if Main.deadlinePassed s.signals then .kill else .timeout }
  | .kill => some { s with pc := .timeout, killedByDrain := true }
  | .timeout => some { s with pc := .select (selectTimeout s.signals) }
  | .select _ => some { s with pc := if s.Readable then .read else .poll }
  | .read | .drain | .returned => none

/-- `os.read`: some of what the pipe holds; nothing at the end of file; and no end to the call while
the pipe is empty and open. -/
def osRead (limit n : ℕ) (more atEnd : ReadPc) : Option ChildWait :=
  if s.pipe.content = [] then
    if ¬s.Open ∧ n = 0 then some { s with pc := atEnd } else none
  else if 1 ≤ n ∧ n ≤ limit ∧ n ≤ s.pipe.content.length then
    some { s with
      pipe := (s.pipe.read n).2
      errorBytes := s.errorBytes ++ (s.pipe.read n).1
      pc := more }
  else none

def reads (n : ℕ) : Option ChildWait :=
  match s.pc with
  | .read => s.osRead 65536 n .poll .poll
  | .drain => s.osRead 4096 n .drain .returned
  | _ => none

def childWrites (n : ℕ) : Option ChildWait :=
  if s.child.writes = true ∧ 1 ≤ n ∧ n ≤ s.unwritten.length then
    (s.pipe.write? (s.unwritten.take n)).map fun pipe => { s with
      pipe := pipe
      unwritten := s.unwritten.drop n
      sent := s.sent ++ s.unwritten.take n }
  else none

def step (drain : DrainTimeout ℚ) : WaitEvent → Option ChildWait
  | .signal e => (s.signals.step drain e).map fun signals => { s with signals := signals }
  | .childWrites n => s.childWrites n
  | .childCloses =>
    if s.child.writes = true ∧ s.unwritten = [] then some { s with child := .running false } else none
  | .childFinishes code =>
    if s.child.status = none ∧ s.unwritten = [] then some { s with child := .finished code } else none
  | .childDies status =>
    if s.child.status = none then some { s with child := .died status } else none
  | .inherits pid => if s.Open then some { s with others := pid :: s.others } else none
  | .closes pid => some { s with others := s.others.filter fun p => p ≠ pid }
  | .otherWrites bytes =>
    if s.others ≠ [] then (s.pipe.write? bytes).map fun pipe => { s with pipe := pipe } else none
  | .next => if s.signals.handlers.isEmpty then s.next else none
  | .reads n => if s.signals.handlers.isEmpty then s.reads n else none

def errorText : String := Utf8.decodeReplace s.errorBytes

end ChildWait

/-- `_wait_for_child` with its child, the pipe between them, and whoever else holds the pipe. The
message is what the child's `os.write` is given. -/
def childWait (drain : DrainTimeout ℚ) (capacity : ℕ) (pos : 0 < capacity) (message : List UInt8)
    (start : ℚ) : System ChildWait WaitEvent where
  init := ChildWait.init capacity pos message start
  step s e := s.step drain e

namespace ChildWait

variable {drain : DrainTimeout ℚ} {s t : ChildWait} {e : WaitEvent}

structure Outside (s t : ChildWait) : Prop where
  pc : t.pc = s.pc
  killedByDrain : t.killedByDrain = s.killedByDrain
  errorBytes : t.errorBytes = s.errorBytes
  ended : s.child.status.isSome → t.child = s.child
  grows : s.pipe.content <+: t.pipe.content
  stays : ¬s.Open → t.pipe.content = s.pipe.content ∧ ¬t.Open

theorem Outside.readable (h : Outside s t) (hr : s.Readable) : t.Readable := by
  rcases hr with hne | hclosed
  · exact .inl (h.grows.ne_nil hne)
  · exact .inr (h.stays hclosed).2

theorem Outside.of_pipe (h : s.Open) {pipe : Pipe UInt8} (hgrows : s.pipe.content <+: pipe.content)
    (unwritten sent : List UInt8) :
    Outside s { s with pipe := pipe, unwritten := unwritten, sent := sent } :=
  ⟨rfl, rfl, rfl, fun _ => rfl, hgrows, fun hclosed => absurd h hclosed⟩

theorem Outside.of_child (hrunning : s.child.status = none) {child : PipeChild}
    (hchild : child.writes = true → s.child.writes = true) : Outside s { s with child := child } := by
  refine ⟨rfl, rfl, rfl, fun hended => ?_, List.prefix_rfl, fun hclosed => ⟨rfl, fun hopen => ?_⟩⟩
  · rw [hrunning] at hended
    cases hended
  · exact hclosed (hopen.imp_left hchild)

theorem writes_running (h : s.child.writes = true) : s.child.status = none := by
  cases hc : s.child with
  | running writeEnd => rfl
  | finished code =>
    rw [hc] at h
    cases h
  | died status =>
    rw [hc] at h
    cases h

theorem outside_of_step (he : s.step drain e = some t) (hown : e.own = false) : Outside s t := by
  cases e with
  | signal e =>
    obtain ⟨signals, -, rfl⟩ := Option.map_eq_some_iff.mp he
    exact ⟨rfl, rfl, rfl, fun _ => rfl, List.prefix_rfl, fun h => ⟨rfl, h⟩⟩
  | childWrites n =>
    simp only [step, childWrites] at he
    split_ifs at he with h
    obtain ⟨pipe, hpipe, rfl⟩ := Option.map_eq_some_iff.mp he
    exact .of_pipe (.inl h.1) ⟨_, (Pipe.write?_content hpipe).symm⟩ _ _
  | childCloses =>
    simp only [step] at he
    split_ifs at he with h
    cases he
    exact .of_child (writes_running h.1) nofun
  | childFinishes code =>
    simp only [step] at he
    split_ifs at he with h
    cases he
    exact .of_child h.1 nofun
  | childDies status =>
    simp only [step] at he
    split_ifs at he with h
    cases he
    exact .of_child h nofun
  | inherits pid =>
    simp only [step] at he
    split_ifs at he with h
    cases he
    exact ⟨rfl, rfl, rfl, fun _ => rfl, List.prefix_rfl, fun hclosed => absurd h hclosed⟩
  | closes pid =>
    cases he
    refine ⟨rfl, rfl, rfl, fun _ => rfl, List.prefix_rfl, fun hclosed => ⟨rfl, fun hopen => ?_⟩⟩
    apply hclosed
    apply hopen.imp_right
    intro hne hnone
    simp [hnone] at hne
  | otherWrites bytes =>
    simp only [step] at he
    split_ifs at he with h
    obtain ⟨pipe, hpipe, rfl⟩ := Option.map_eq_some_iff.mp he
    exact .of_pipe (.inr h) ⟨_, (Pipe.write?_content hpipe).symm⟩ _ _
  | next => cases hown
  | reads n => cases hown

theorem own_next (he : s.step drain .next = some t) :
    s.signals.handlers.isEmpty ∧ s.next = some t := by
  simp only [step] at he
  split_ifs at he with hidle
  exact ⟨hidle, he⟩

theorem own_reads {n : ℕ} (he : s.step drain (.reads n) = some t) :
    s.signals.handlers.isEmpty ∧ s.reads n = some t := by
  simp only [step] at he
  split_ifs at he with hidle
  exact ⟨hidle, he⟩

theorem step_cases (he : s.step drain e = some t) :
    (e.own = false ∧ Outside s t) ∨
    (s.signals.handlers.isEmpty ∧
      ((e = .next ∧ s.next = some t) ∨ ∃ n, e = .reads n ∧ s.reads n = some t)) := by
  cases hown : e.own with
  | false => exact .inl ⟨rfl, outside_of_step he hown⟩
  | true =>
    refine .inr ?_
    cases e with
    | next =>
      obtain ⟨hidle, hnext⟩ := own_next he
      exact ⟨hidle, .inl ⟨rfl, hnext⟩⟩
    | reads n =>
      obtain ⟨hidle, hreads⟩ := own_reads he
      exact ⟨hidle, .inr ⟨n, rfl, hreads⟩⟩
    | _ => cases hown

theorem next_cases (he : s.next = some t) :
    ∃ pc killed, t = { s with pc := pc, killedByDrain := killed } := by
  unfold next at he
  split at he <;> cases he <;> exact ⟨_, _, rfl⟩

theorem osRead_cases {limit n : ℕ} {more atEnd : ReadPc}
    (he : s.osRead limit n more atEnd = some t) :
    (s.pipe.content = [] ∧ ¬s.Open ∧ t = { s with pc := atEnd }) ∨
    (1 ≤ n ∧ n ≤ limit ∧ n ≤ s.pipe.content.length ∧ t = { s with
      pipe := (s.pipe.read n).2
      errorBytes := s.errorBytes ++ (s.pipe.read n).1
      pc := more }) := by
  unfold osRead at he
  split_ifs at he with hempty hend hn
  · cases he
    exact .inl ⟨hempty, hend.1, rfl⟩
  · cases he
    exact .inr ⟨hn.1, hn.2.1, hn.2.2, rfl⟩

theorem osRead_some {limit n : ℕ} {more atEnd : ReadPc} (hn : 1 ≤ n) (hlimit : n ≤ limit)
    (hlength : n ≤ s.pipe.content.length) : s.osRead limit n more atEnd = some { s with
      pipe := (s.pipe.read n).2
      errorBytes := s.errorBytes ++ (s.pipe.read n).1
      pc := more } := by
  have hne : s.pipe.content ≠ [] := by
    intro hnil
    rw [hnil, List.length_nil] at hlength
    omega
  rw [osRead, if_neg hne, if_pos ⟨hn, hlimit, hlength⟩]

theorem osRead_end {limit : ℕ} {more atEnd : ReadPc} (hempty : s.pipe.content = [])
    (hclosed : ¬s.Open) : s.osRead limit 0 more atEnd = some { s with pc := atEnd } := by
  rw [osRead, if_pos hempty, if_pos ⟨hclosed, rfl⟩]

theorem reads_cases {n : ℕ} (he : s.reads n = some t) :
    (s.pc = .read ∧ s.osRead 65536 n .poll .poll = some t) ∨
    (s.pc = .drain ∧ s.osRead 4096 n .drain .returned = some t) := by
  unfold reads at he
  split at he
  · exact .inl ⟨‹_›, he⟩
  · exact .inr ⟨‹_›, he⟩
  · cases he

theorem selectTimeout_bounds (signals : Signals ℚ) :
    0 ≤ selectTimeout signals ∧ selectTimeout signals ≤ 1 := by
  unfold selectTimeout
  split
  · constructor
    · exact le_max_of_le_right (by norm_num)
    · exact max_le (min_le_left _ _) (by norm_num)
  · exact ⟨zero_le_one, le_rfl⟩

structure Waits (s : ChildWait) : Prop where
  ended : s.pc = .drain ∨ s.pc = .returned → s.child.status.isSome
  readable : s.pc = .read → s.Readable
  selects : ∀ timeout, s.pc = .select timeout → 0 ≤ timeout ∧ timeout ≤ 1
  drained : s.pc = .returned → s.pipe.content = [] ∧ ¬s.Open

theorem Waits.outside (h : s.Waits) (ho : Outside s t) : t.Waits := by
  refine ⟨?_, ?_, ?_, ?_⟩
  · intro hpc
    rw [ho.pc] at hpc
    rw [ho.ended (h.ended hpc)]
    exact h.ended hpc
  · intro hpc
    exact ho.readable (h.readable (ho.pc ▸ hpc))
  · intro timeout hpc
    exact h.selects timeout (ho.pc ▸ hpc)
  · intro hpc
    obtain ⟨hempty, hclosed⟩ := h.drained (ho.pc ▸ hpc)
    obtain ⟨hsame, hclosed'⟩ := ho.stays hclosed
    exact ⟨hsame.trans hempty, hclosed'⟩

theorem waits_of_next (he : s.next = some t) : t.Waits := by
  unfold next at he
  split at he
  · cases he
    cases hended : s.child.status.isSome with
    | true => exact ⟨fun _ => hended, nofun, nofun, nofun⟩
    | false => exact ⟨by simp, nofun, nofun, nofun⟩
  · cases he
    split_ifs <;> exact ⟨by simp, nofun, nofun, nofun⟩
  · cases he
    split_ifs <;> exact ⟨by simp, nofun, nofun, nofun⟩
  · cases he
    exact ⟨by simp, nofun, nofun, nofun⟩
  · cases he
    refine ⟨by simp, nofun, fun timeout hpc => ?_, nofun⟩
    cases hpc
    exact selectTimeout_bounds s.signals
  · cases he
    split_ifs with hr
    · exact ⟨by simp, fun _ => hr, nofun, nofun⟩
    · exact ⟨by simp, nofun, nofun, nofun⟩
  all_goals cases he

theorem Waits.reads {n : ℕ} (h : s.Waits) (he : s.reads n = some t) : t.Waits := by
  rcases reads_cases he with ⟨hpc, he⟩ | ⟨hpc, he⟩
  · rcases osRead_cases he with ⟨-, -, rfl⟩ | ⟨-, -, -, rfl⟩
    · exact ⟨by simp, nofun, nofun, nofun⟩
    · exact ⟨by simp, nofun, nofun, nofun⟩
  · have hended := h.ended (.inl hpc)
    rcases osRead_cases he with ⟨hempty, hclosed, rfl⟩ | ⟨-, -, -, rfl⟩
    · exact ⟨fun _ => hended, nofun, nofun, fun _ => ⟨hempty, hclosed⟩⟩
    · exact ⟨fun _ => hended, nofun, nofun, nofun⟩

theorem Waits.step (h : s.Waits) (he : s.step drain e = some t) : t.Waits := by
  rcases step_cases he with ⟨-, ho⟩ | ⟨-, ⟨-, hnext⟩ | ⟨n, -, hreads⟩⟩
  · exact h.outside ho
  · exact waits_of_next hnext
  · exact h.reads hreads

theorem Waits.init (capacity : ℕ) (pos : 0 < capacity) (message : List UInt8) (start : ℚ) :
    (ChildWait.init capacity pos message start).Waits :=
  ⟨by simp [ChildWait.init], nofun, nofun, nofun⟩

def Proceeds (drain : DrainTimeout ℚ) (s t : ChildWait) : Prop :=
  s.step drain (.signal .runs) = some t ∨ s.step drain .next = some t

theorem proceeds_handlers {signals : Signals ℚ} (h : Signals.Runs drain s.signals signals) :
    Relation.ReflTransGen (Proceeds drain) s { s with signals := signals } := by
  induction h with
  | refl => exact .refl
  | tail _ he ih =>
    refine ih.tail (.inl ?_)
    simp only [step, he, Option.map_some]

end ChildWait

section Runs

variable {drain : DrainTimeout ℚ} {capacity : ℕ} {pos : 0 < capacity} {message : List UInt8}
  {start : ℚ} {s : ChildWait}

theorem childWait_waits {G : ChildWait → WaitEvent → Prop}
    (h : (childWait drain capacity pos message start).Reachable G s) : s.Waits := by
  apply h.invariant (ChildWait.Waits.init capacity pos message start)
  intro s e t hw _ he
  exact hw.step he

end Runs

def idleDrain : DrainTimeout ℚ := ⟨fun t => t + 20, fun _ _ h => by simpa using h⟩

end PostgresQueue
