import PostgresQueue.ErrorPipe

namespace PostgresQueue

open Library

def WaitEvent.isRead : WaitEvent → Bool
  | .reads _ => true
  | _ => false

namespace ChildWait

/-- How long the call that the wait stands at can last; `none` if that is up to the processes that
hold the pipe. -/
def waitBound (s : ChildWait) : Option ℚ :=
  match s.pc with
  | .select timeout => some timeout
  | .read | .drain => if s.Readable then some 0 else none
  | .poll | .requested | .deadline | .kill | .timeout | .returned => some 0

def Bounded (s : ChildWait) : Prop := ∃ bound, s.waitBound = some bound ∧ 0 ≤ bound ∧ bound ≤ 1

/-- When `os.wait4` reports the exit, no other process holds the write end. -/
def ReportsAlone (s : ChildWait) : WaitEvent → Prop
  | .next => s.pc = .poll → s.child.status.isSome → s.others = []
  | _ => True

def Closing (s : ChildWait) : Prop := (s.pc = .drain ∨ s.pc = .returned) ∧ ¬s.Open

def readsLeft (s : ChildWait) : ℕ := s.pipe.content.length + if s.pc = .drain then 1 else 0

def OwnStep (drain : DrainTimeout ℚ) (s t : ChildWait) : Prop :=
  Proceeds drain s t ∨ ∃ n, s.step drain (.reads n) = some t

variable {drain : DrainTimeout ℚ} {s t : ChildWait} {e : WaitEvent}

theorem OwnStep.event (h : OwnStep drain s t) : ∃ e, s.step drain e = some t := by
  rcases h with (he | he) | ⟨n, he⟩
  · exact ⟨.signal .runs, he⟩
  · exact ⟨.next, he⟩
  · exact ⟨.reads n, he⟩

theorem Waits.bounded (h : s.Waits) (hdrain : s.pc = .drain → s.Readable) : s.Bounded := by
  unfold Bounded waitBound
  cases hpc : s.pc with
  | select timeout => exact ⟨timeout, rfl, h.selects timeout hpc⟩
  | read => exact ⟨0, if_pos (h.readable hpc), le_rfl, zero_le_one⟩
  | drain => exact ⟨0, if_pos (hdrain hpc), le_rfl, zero_le_one⟩
  | _ => exact ⟨0, rfl, le_rfl, zero_le_one⟩

theorem not_open (hended : s.child.status.isSome) (hothers : s.others = []) : ¬s.Open := by
  rintro (hwrites | hne)
  · rw [writes_running hwrites] at hended
    cases hended
  · exact hne hothers

theorem osRead_open {limit n : ℕ} {more atEnd : ReadPc}
    (he : s.osRead limit n more atEnd = some t) : t.Open ↔ s.Open := by
  rcases osRead_cases he with ⟨-, -, rfl⟩ | ⟨-, -, -, rfl⟩ <;> rfl

theorem closed_step (h : ¬s.Open) (he : s.step drain e = some t) : ¬t.Open := by
  rcases step_cases he with ⟨-, ho⟩ | ⟨-, ⟨-, hnext⟩ | ⟨n, -, hreads⟩⟩
  · exact (ho.stays h).2
  · obtain ⟨pc, killed, rfl⟩ := next_cases hnext
    exact h
  · rcases reads_cases hreads with ⟨-, he⟩ | ⟨-, he⟩
    · exact fun hopen => h ((osRead_open he).mp hopen)
    · exact fun hopen => h ((osRead_open he).mp hopen)

theorem next_drains (he : s.next = some t) (hpc : t.pc = .drain) :
    s.pc = .poll ∧ s.child.status.isSome := by
  unfold next at he
  split at he
  · cases he
    cases hended : s.child.status.isSome with
    | true => exact ⟨‹_›, rfl⟩
    | false => simp [hended] at hpc
  · cases he
    dsimp only at hpc
    split_ifs at hpc
  · cases he
    dsimp only at hpc
    split_ifs at hpc
  · cases he
    cases hpc
  · cases he
    cases hpc
  · cases he
    dsimp only at hpc
    split_ifs at hpc
  all_goals cases he

theorem drains_from (he : s.step drain e = some t) (hpc : t.pc = .drain) :
    s.pc = .drain ∨ (e = .next ∧ s.next = some t) := by
  rcases step_cases he with ⟨-, ho⟩ | ⟨-, hnext | ⟨n, -, hreads⟩⟩
  · rw [ho.pc] at hpc
    exact .inl hpc
  · exact .inr hnext
  · rcases reads_cases hreads with ⟨-, he⟩ | ⟨hdrain, -⟩
    · rcases osRead_cases he with ⟨-, -, rfl⟩ | ⟨-, -, -, rfl⟩ <;> cases hpc
    · exact .inl hdrain

theorem reportsAlone_step (hdrain : s.pc = .drain → ¬s.Open) (hc : s.ReportsAlone e)
    (he : s.step drain e = some t) : t.pc = .drain → ¬t.Open := by
  intro hpc
  rcases drains_from he hpc with hs | ⟨rfl, hnext⟩
  · exact closed_step (hdrain hs) he
  · obtain ⟨hpoll, hended⟩ := next_drains hnext hpc
    have hclosed : ¬s.Open := not_open hended (hc hpoll hended)
    exact closed_step hclosed he

theorem Closing.next_none (h : s.Closing) : s.next = none := by
  rcases h.1 with hpc | hpc <;> simp only [next, hpc]

theorem Closing.not_read (h : s.Closing) : s.pc ≠ .read := by
  rcases h.1 with hpc | hpc <;> simp [hpc]

theorem closing_cases (h : s.Closing) (he : s.step drain e = some t) :
    (e.isRead = false ∧ Outside s t) ∨ (s.pc = .drain ∧ t = { s with pc := .returned }) ∨
    (s.pc = .drain ∧ ∃ n, 1 ≤ n ∧ n ≤ s.pipe.content.length ∧ t = { s with
      pipe := (s.pipe.read n).2
      errorBytes := s.errorBytes ++ (s.pipe.read n).1
      pc := .drain }) := by
  rcases step_cases he with ⟨hown, ho⟩ | ⟨-, ⟨-, hnext⟩ | ⟨n, -, hreads⟩⟩
  · refine .inl ⟨?_, ho⟩
    cases e with
    | reads n => cases hown
    | _ => rfl
  · rw [h.next_none] at hnext
    cases hnext
  · obtain ⟨hpc, he⟩ := (reads_cases hreads).resolve_left fun hr => h.not_read hr.1
    rcases osRead_cases he with ⟨-, -, rfl⟩ | ⟨hn, -, hlength, rfl⟩
    · exact .inr (.inl ⟨hpc, rfl⟩)
    · exact .inr (.inr ⟨hpc, n, hn, hlength, rfl⟩)

theorem closing_step (h : s.Closing) (he : s.step drain e = some t) : t.Closing := by
  refine ⟨?_, closed_step h.2 he⟩
  rcases closing_cases h he with ⟨-, ho⟩ | ⟨-, rfl⟩ | ⟨-, n, -, -, rfl⟩
  · rw [ho.pc]
    exact h.1
  · exact .inr rfl
  · exact .inl rfl

theorem readsLeft_step (h : s.Closing) (he : s.step drain e = some t) :
    t.readsLeft + (if e.isRead then 1 else 0) ≤ s.readsLeft := by
  have hone : (if e.isRead then 1 else 0) ≤ 1 := by split_ifs <;> omega
  rcases closing_cases h he with ⟨hread, ho⟩ | ⟨hpc, rfl⟩ | ⟨hpc, n, hn, hlength, rfl⟩
  · simp only [readsLeft, (ho.stays h.2).1, ho.pc, hread]
    exact le_rfl
  · simp only [readsLeft, hpc, if_true]
    exact Nat.add_le_add_left hone _
  · simp only [readsLeft, hpc, Pipe.read_content, List.length_drop, if_true]
    omega

theorem own_of_proceeds (h : Relation.ReflTransGen (Proceeds drain) s t) :
    Relation.ReflTransGen (OwnStep drain) s t :=
  Relation.ReflTransGen.mono (fun _ _ he => .inl he) _ _ h

theorem read_step (hpc : s.pc = .drain) (hhandlers : s.signals.handlers = []) (n : ℕ) :
    s.step drain (.reads n) = s.osRead 4096 n .drain .returned := by
  simp only [step, hhandlers, List.isEmpty_nil, if_true, reads, hpc]

theorem drains_out (drain : DrainTimeout ℚ) (hpc : s.pc = .drain)
    (hhandlers : s.signals.handlers = []) :
    ∃ t, Relation.ReflTransGen (OwnStep drain) s t ∧ t.pc = .drain ∧ t.pipe.content = [] ∧
      t.child = s.child ∧ t.others = s.others ∧ t.signals.handlers = [] := by
  obtain ⟨n, hn⟩ : ∃ n, s.pipe.content.length = n := ⟨_, rfl⟩
  induction n generalizing s with
  | zero => exact ⟨s, .refl, hpc, List.length_eq_zero_iff.mp hn, rfl, rfl, hhandlers⟩
  | succ n ih =>
    have hread : s.osRead 4096 1 .drain .returned = some { s with
        pipe := (s.pipe.read 1).2
        errorBytes := s.errorBytes ++ (s.pipe.read 1).1
        pc := .drain } := osRead_some le_rfl (by decide) (by omega)
    obtain ⟨t, hsteps, ht⟩ := ih (s := { s with
      pipe := (s.pipe.read 1).2
      errorBytes := s.errorBytes ++ (s.pipe.read 1).1
      pc := .drain }) rfl hhandlers (by simp [Pipe.read_content, hn])
    exact ⟨t, hsteps.head (.inr ⟨1, (read_step hpc hhandlers 1).trans hread⟩), ht⟩

theorem closing_returns (drain : DrainTimeout ℚ) (h : s.Closing) :
    ∃ t, Relation.ReflTransGen (OwnStep drain) s t ∧ t.pc = .returned := by
  rcases h.1 with hpc | hpc
  · obtain ⟨signals, hruns, hnil⟩ := s.signals.handlers_end drain
    have hhandlers := own_of_proceeds (proceeds_handlers hruns)
    obtain ⟨t, hsteps, htpc, hempty, hchild, hothers, htnil⟩ := drains_out drain
      (s := { s with signals := signals }) hpc hnil
    have hopen : t.Open ↔ s.Open := by
      unfold Open
      rw [hchild, hothers]
    have hclosed : ¬t.Open := fun ht => h.2 (hopen.mp ht)
    refine ⟨{ t with pc := .returned }, (hhandlers.trans hsteps).tail (.inr ⟨0, ?_⟩), rfl⟩
    exact (read_step htpc htnil 0).trans (osRead_end hempty hclosed)
  · exact ⟨s, .refl, hpc⟩

theorem comes_to_block (drain : DrainTimeout ℚ) (hpc : s.pc = .poll) (hended : s.child.status.isSome)
    (hothers : s.others ≠ []) :
    ∃ t, Relation.ReflTransGen (OwnStep drain) s t ∧ t.pc = .drain ∧ ¬t.Readable := by
  obtain ⟨signals, hruns, hnil⟩ := s.signals.handlers_end drain
  have hnext : Proceeds drain { s with signals := signals }
      { s with signals := signals, pc := .drain } := by
    refine .inr ?_
    simp only [step, hnil, List.isEmpty_nil, if_true, next, hpc, hended]
  have hreported := own_of_proceeds ((proceeds_handlers hruns).tail hnext)
  obtain ⟨t, hsteps, htpc, hempty, -, htothers, -⟩ := drains_out drain
    (s := { s with signals := signals, pc := .drain }) rfl hnil
  refine ⟨t, hreported.trans hsteps, htpc, ?_⟩
  rintro (hne | hclosed)
  · exact hne hempty
  · exact hclosed (.inr (htothers ▸ hothers))

theorem not_bounded (hpc : s.pc = .drain) (hr : ¬s.Readable) : ¬s.Bounded := by
  rintro ⟨bound, hbound, -⟩
  simp only [waitBound, hpc, hr, if_false] at hbound
  cases hbound

end ChildWait

section Runs

variable {drain : DrainTimeout ℚ} {capacity : ℕ} {pos : 0 < capacity} {message : List UInt8}
  {start : ℚ} {s t : ChildWait} {es : List WaitEvent}

theorem steps_of_own (h : Relation.ReflTransGen (ChildWait.OwnStep drain) s t) :
    ∃ es, (childWait drain capacity pos message start).Steps System.free s es t := by
  induction h with
  | refl => exact ⟨[], .nil s⟩
  | tail _ he ih =>
    obtain ⟨es, hes⟩ := ih
    obtain ⟨e, he⟩ := he.event
    have hstep : (childWait drain capacity pos message start).step _ e = some _ := he
    exact ⟨es ++ [e], hes.snoc trivial hstep⟩

theorem always_bounded_of_alone
    (h : (childWait drain capacity pos message start).EachStep ChildWait.ReportsAlone
      (childWait drain capacity pos message start).init es) :
    (childWait drain capacity pos message start).Always ChildWait.Bounded
      (childWait drain capacity pos message start).init es := by
  refine System.Always.of_eachStep
    (I := fun s => s.Waits ∧ (s.pc = .drain → ¬s.Open)) ?_ ?_ ?_ h
  · rintro s e t ⟨hw, hdrain⟩ hc he
    exact ⟨hw.step he, ChildWait.reportsAlone_step hdrain hc he⟩
  · rintro s ⟨hw, hdrain⟩
    exact hw.bounded fun hpc => .inr (hdrain hpc)
  · exact ⟨ChildWait.Waits.init capacity pos message start, nofun⟩

theorem always_bounded_iff (hw : s.Waits) (hpc : s.pc = .poll) (hended : s.child.status.isSome) :
    (∀ es, (childWait drain capacity pos message start).Always ChildWait.Bounded s es) ↔
      s.others = [] := by
  constructor
  · intro h
    by_contra hothers
    obtain ⟨t, hsteps, htpc, hr⟩ := ChildWait.comes_to_block drain hpc hended hothers
    obtain ⟨es, hes⟩ := steps_of_own hsteps
    exact ChildWait.not_bounded htpc hr ((h es).of_steps hes)
  · intro hothers es
    apply System.Always.of_invariant (I := fun s => s.Waits ∧ ¬s.Open)
    · rintro s e t ⟨hw, hclosed⟩ he
      exact ⟨hw.step he, ChildWait.closed_step hclosed he⟩
    · rintro s ⟨hw, hclosed⟩
      exact hw.bounded fun _ => .inr hclosed
    · exact ⟨hw, ChildWait.not_open hended hothers⟩

theorem reads_bounded {G : ChildWait → WaitEvent → Prop} (h : s.Closing)
    (hsteps : (childWait drain capacity pos message start).Steps G s es t) :
    t.Closing ∧ es.countP WaitEvent.isRead + t.readsLeft ≤ s.readsLeft := by
  induction hsteps with
  | nil => exact ⟨h, by simp⟩
  | cons _ he _ ih =>
    obtain ⟨ht, hle⟩ := ih (ChildWait.closing_step h he)
    have hstep := ChildWait.readsLeft_step h he
    rw [List.countP_cons]
    exact ⟨ht, by omega⟩

/-- No call of the wait is unbounded in a run where the exit is always reported with nobody else on
the pipe; a wait about to be told of the exit is safe from unbounded calls only then; and a wait
that has been told of it so reads what is there and returns. -/
theorem wait_bounded (drain : DrainTimeout ℚ) (capacity : ℕ) (pos : 0 < capacity)
    (message : List UInt8) (start : ℚ) :
    (∀ es, (childWait drain capacity pos message start).EachStep ChildWait.ReportsAlone
        (childWait drain capacity pos message start).init es →
      (childWait drain capacity pos message start).Always ChildWait.Bounded
        (childWait drain capacity pos message start).init es) ∧
    ∀ s, (childWait drain capacity pos message start).Reachable System.free s →
      (s.pc = .poll → s.child.status.isSome →
        ((∀ es, (childWait drain capacity pos message start).Always ChildWait.Bounded s es) ↔
          s.others = [])) ∧
      (s.pc = .drain → s.others = [] → ∀ es t,
        (childWait drain capacity pos message start).Steps System.free s es t →
          es.countP WaitEvent.isRead ≤ s.pipe.content.length + 1 ∧
          ∃ u, Relation.ReflTransGen (ChildWait.OwnStep drain) t u ∧ u.pc = .returned) := by
  refine ⟨fun es h => always_bounded_of_alone h, fun s hs => ⟨fun hpc hended => ?_, ?_⟩⟩
  · exact always_bounded_iff (childWait_waits hs) hpc hended
  · intro hpc hothers es t hsteps
    have hclosing : s.Closing :=
      ⟨.inl hpc, ChildWait.not_open ((childWait_waits hs).ended (.inl hpc)) hothers⟩
    obtain ⟨ht, hreads⟩ := reads_bounded hclosing hsteps
    have hleft : s.readsLeft = s.pipe.content.length + 1 := by
      rw [ChildWait.readsLeft, if_pos hpc]
    refine ⟨?_, ChildWait.closing_returns drain ht⟩
    omega

end Runs

section Sample

def sampleLetGo : List WaitEvent :=
  [.inherits 4242, .childWrites 2, .next, .next, .next, .next, .reads 2, .closes 4242,
    .childWrites 1, .childFinishes 1, .next]

def sampleReported : ChildWait :=
  (childWait idleDrain 2 (by decide) [0x45, 0x3A, 0x78] 0).run System.free sampleLetGo

theorem wait_bounded_let_go : sampleReported.pipe.content = [0x78] ∧ ∀ es t,
    (childWait idleDrain 2 (by decide) [0x45, 0x3A, 0x78] 0).Steps System.free sampleReported es t →
      es.countP WaitEvent.isRead ≤ 2 ∧
      ∃ u, Relation.ReflTransGen (ChildWait.OwnStep idleDrain) t u ∧ u.pc = .returned := by
  have hreached : (childWait idleDrain 2 (by decide) [0x45, 0x3A, 0x78] 0).Reachable System.free
      sampleReported := .of_run (by decide +kernel)
  have hcontent : sampleReported.pipe.content = [0x78] := by decide +kernel
  refine ⟨hcontent, fun es t hsteps => ?_⟩
  have hreturns := ((wait_bounded idleDrain 2 (by decide) [0x45, 0x3A, 0x78] 0).2 _ hreached).2
    (by decide +kernel) (by decide +kernel) es t hsteps
  rwa [hcontent] at hreturns

def sampleDetached : List WaitEvent :=
  [.inherits 4242, .next, .next, .next, .childFinishes 0, .next, .next,
    .signal (.arrives 15), .signal .runs, .signal .runs, .signal .runs, .signal .runs,
    .signal (.ticks 1000)]

def sampleStuck : ChildWait :=
  (childWait idleDrain 65536 (by decide) [] 0).run System.free sampleDetached

theorem wait_blocked : sampleStuck.child = .finished 0 ∧ sampleStuck.others = [4242] ∧
    sampleStuck.signals.requested = true ∧ Main.deadlinePassed sampleStuck.signals = true ∧
    (∀ n, sampleStuck.step idleDrain (.reads n) = none) ∧
    ¬(childWait idleDrain 65536 (by decide) [] 0).Always ChildWait.Bounded
      (childWait idleDrain 65536 (by decide) [] 0).init sampleDetached := by
  have hpc : sampleStuck.pc = .drain := by decide +kernel
  have hblocked : ¬sampleStuck.Readable := by decide +kernel
  refine ⟨by decide +kernel, by decide +kernel, by decide +kernel, by decide +kernel, ?_, ?_⟩
  · intro n
    have hempty : sampleStuck.pipe.content = [] := by decide +kernel
    have hopen : sampleStuck.Open := by decide +kernel
    rw [ChildWait.read_step hpc (List.isEmpty_iff.mp (by decide +kernel)), ChildWait.osRead,
      if_pos hempty, if_neg fun h => h.1 hopen]
  · intro halways
    have hsteps : (childWait idleDrain 65536 (by decide) [] 0).Steps System.free _ sampleDetached
        sampleStuck := .of_run (by decide +kernel)
    exact ChildWait.not_bounded hpc hblocked (halways.of_steps hsteps)

end Sample

end PostgresQueue
