import Mathlib.Data.Finset.Max
import Mathlib.Data.Fintype.EquivFin
import Mathlib.Logic.Relation
import PostgresQueue.Library.Transition

namespace PostgresQueue.Library

/-- A transaction: the locks that it keeps to its end, and those that its statements have still
to take, in their order. -/
structure LockTxn (ρ : Type) where
  held : List ρ
  todo : List ρ
  done : Bool
deriving DecidableEq

def LockTxn.ended {ρ : Type} : LockTxn ρ := ⟨[], [], true⟩

inductive LockAction (ρ : Type)
  | start (todo : List ρ)
  | extend (t : ℕ) (todo : List ρ)
  | acquire (t : ℕ)
  | take (t : ℕ) (r : ρ)
  | commit (t : ℕ)
  | rollback (t : ℕ)

namespace Locking

variable {ρ : Type}

def Free (s : List (LockTxn ρ)) (r : ρ) : Prop := ∀ x ∈ s, r ∉ x.held

instance [DecidableEq ρ] (s : List (LockTxn ρ)) (r : ρ) : Decidable (Free s r) :=
  inferInstanceAs (Decidable (∀ x ∈ s, r ∉ x.held))

section Step

variable [DecidableEq ρ] (s : List (LockTxn ρ))

def acquire (t : ℕ) (x : LockTxn ρ) : Option (List (LockTxn ρ)) :=
  match x.todo with
  | [] => none
  | r :: rest =>
    if r ∈ x.held then some (s.set t { x with todo := rest })
    else if Free s r then some (s.set t { x with held := r :: x.held, todo := rest })
    else none

def take (t : ℕ) (r : ρ) (x : LockTxn ρ) : Option (List (LockTxn ρ)) :=
  if x.held = [] ∧ x.todo = [] ∧ x.done = false ∧ Free s r then some (s.set t { x with held := [r] })
  else none

end Step

/-- Transactions under exclusive locks. `none`: the transaction has to wait, or has ended. -/
def system (ρ : Type) [DecidableEq ρ] : System (List (LockTxn ρ)) (LockAction ρ) where
  init := []
  step s
    | .start todo => some (s ++ [⟨[], todo, false⟩])
    | .extend t todo => s[t]?.bind fun x =>
      if x.todo = [] ∧ x.done = false then some (s.set t { x with todo := todo }) else none
    | .acquire t => s[t]?.bind (acquire s t)
    | .take t r => s[t]?.bind (take s t r)
    | .commit t => s[t]?.bind fun x =>
      if x.todo = [] ∧ x.done = false then some (s.set t .ended) else none
    | .rollback t => s[t]?.bind fun x => if x.done = false then some (s.set t .ended) else none

def Wants (s : List (LockTxn ρ)) (t : ℕ) (r : ρ) : Prop :=
  ∃ x, s[t]? = some x ∧ x.todo.head? = some r ∧ r ∉ x.held

def Holds (s : List (LockTxn ρ)) (t : ℕ) (r : ρ) : Prop := ∃ x, s[t]? = some x ∧ r ∈ x.held

def WaitsFor (s : List (LockTxn ρ)) (t u : ℕ) : Prop := ∃ r, Wants s t r ∧ Holds s u r

def Deadlock (s : List (LockTxn ρ)) : Prop := ∃ t, Relation.TransGen (WaitsFor s) t t

variable {s s' : List (LockTxn ρ)} {t u : ℕ} {r r' : ρ}

theorem Wants.unique (h : Wants s t r) (h' : Wants s t r') : r = r' := by
  obtain ⟨x, hx, hr, -⟩ := h
  obtain ⟨x', hx', hr', -⟩ := h'
  rw [hx] at hx'
  cases hx'
  exact Option.some.inj (hr.symm.trans hr')

def Exclusive (s : List (LockTxn ρ)) : Prop := ∀ t u r, Holds s t r → Holds s u r → t = u

theorem holds_set {x : LockTxn ρ} (h : Holds (s.set t x) u r) :
    (u = t ∧ r ∈ x.held) ∨ (u ≠ t ∧ Holds s u r) := by
  obtain ⟨y, hy, hr⟩ := h
  rw [List.getElem?_set] at hy
  split_ifs at hy with htu hlt
  · cases hy
    exact .inl ⟨htu.symm, hr⟩
  · exact .inr ⟨fun he => htu he.symm, y, hy, hr⟩

theorem Exclusive.set (h : Exclusive s) {x y : LockTxn ρ} (hx : s[t]? = some x)
    (hy : ∀ r ∈ y.held, r ∈ x.held ∨ Free s r) : Exclusive (s.set t y) := by
  have hother : ∀ u r, u ≠ t → Holds s u r → r ∉ y.held := by
    intro u r hne hu hr
    rcases hy r hr with hr | hfree
    · exact hne (h u t r hu ⟨x, hx, hr⟩)
    · obtain ⟨z, hz, hrz⟩ := hu
      exact hfree z (List.mem_of_getElem? hz) hrz
  intro u v r hu hv
  rcases holds_set hu with ⟨hut, hr⟩ | ⟨hne, hu'⟩ <;> rcases holds_set hv with ⟨hvt, hr'⟩ | ⟨hne', hv'⟩
  · exact hut.trans hvt.symm
  · exact absurd hr (hother v r hne' hv')
  · exact absurd hr' (hother u r hne hu')
  · exact h u v r hu' hv'

theorem WaitsFor.ne (h : WaitsFor s t u) : t ≠ u := by
  rintro rfl
  obtain ⟨r, ⟨x, hx, -, hnot⟩, y, hy, hr⟩ := h
  rw [hx] at hy
  cases hy
  exact hnot hr

theorem WaitsFor.lt_length (h : WaitsFor s t u) : t < s.length ∧ u < s.length := by
  obtain ⟨r, ⟨x, hx, -⟩, y, hy, -⟩ := h
  exact ⟨(List.getElem?_eq_some_iff.mp hx).1, (List.getElem?_eq_some_iff.mp hy).1⟩

theorem deadlock_pair {x y : LockTxn ρ} (h : Deadlock [x, y]) :
    WaitsFor [x, y] 0 1 ∧ WaitsFor [x, y] 1 0 := by
  have hother : ∀ t u, WaitsFor [x, y] t u → (t = 0 ∧ u = 1) ∨ (t = 1 ∧ u = 0) := by
    intro t u hw
    have hne := hw.ne
    obtain ⟨ht, hu⟩ := hw.lt_length
    simp only [List.length_cons, List.length_nil] at ht hu
    omega
  obtain ⟨t, hcycle⟩ := h
  obtain ⟨u, hw, hback⟩ := Relation.TransGen.head'_iff.mp hcycle
  rcases Relation.ReflTransGen.cases_head hback with he | ⟨v, hw', -⟩
  · exact absurd he.symm hw.ne
  · rcases hother t u hw with ⟨rfl, rfl⟩ | ⟨rfl, rfl⟩
    · rcases hother 1 v hw' with ⟨h10, -⟩ | ⟨-, rfl⟩
      exacts [absurd h10 one_ne_zero, ⟨hw, hw'⟩]
    · rcases hother 0 v hw' with ⟨-, rfl⟩ | ⟨h01, -⟩
      exacts [⟨hw', hw⟩, absurd h01.symm one_ne_zero]

theorem not_done {x : LockTxn ρ} {rest : List ρ} (h : x.done = true → x.todo = [])
    (htodo : x.todo = r :: rest) : x.done = false := by
  by_contra hd
  have hnil := h (by simpa using hd)
  rw [htodo] at hnil
  cases hnil

section Exclusive

variable [DecidableEq ρ]

theorem acquire_some (h : (system ρ).step s (.acquire t) = some s') :
    ∃ x r rest held, s[t]? = some x ∧ x.todo = r :: rest ∧
      s' = s.set t { x with held := held, todo := rest } ∧
      ((r ∈ x.held ∧ held = x.held) ∨ (r ∉ x.held ∧ Free s r ∧ held = r :: x.held)) := by
  obtain ⟨x, hx, he⟩ := Option.bind_eq_some_iff.mp h
  unfold acquire at he
  split at he
  · cases he
  · rename_i r rest htodo
    split_ifs at he with hr hfree
    · cases he
      exact ⟨x, r, rest, x.held, hx, htodo, rfl, .inl ⟨hr, rfl⟩⟩
    · cases he
      exact ⟨x, r, rest, r :: x.held, hx, htodo, rfl, .inr ⟨hr, hfree, rfl⟩⟩

theorem ended_some (h : (system ρ).step s (.commit t) = some s' ∨
    (system ρ).step s (.rollback t) = some s') : (∃ x, s[t]? = some x) ∧ s' = s.set t .ended := by
  rcases h with h | h
  · obtain ⟨x, hx, he⟩ := Option.bind_eq_some_iff.mp h
    split_ifs at he
    cases he
    exact ⟨⟨x, hx⟩, rfl⟩
  · obtain ⟨x, hx, he⟩ := Option.bind_eq_some_iff.mp h
    split_ifs at he
    cases he
    exact ⟨⟨x, hx⟩, rfl⟩

theorem acquire_unshared {x : LockTxn ρ} (hx : s[t]? = some x) {rest : List ρ}
    (htodo : x.todo = r :: rest) (hothers : ∀ u y, u ≠ t → s[u]? = some y → r ∉ y.held) :
    ∃ held, (∀ l, l ∈ held ↔ l = r ∨ l ∈ x.held) ∧
      (system ρ).step s (.acquire t) = some (s.set t { x with held := held, todo := rest }) := by
  by_cases hr : r ∈ x.held
  · refine ⟨x.held, fun l => ⟨.inr, ?_⟩, by simp [system, hx, acquire, htodo, hr]⟩
    rintro (rfl | hl)
    exacts [hr, hl]
  · have hfree : Free s r := by
      intro y hy
      obtain ⟨u, hu⟩ := List.mem_iff_getElem?.mp hy
      by_cases hut : u = t
      · rw [hut, hx] at hu
        exact Option.some.inj hu ▸ hr
      · exact hothers u y hut hu
    exact ⟨r :: x.held, fun l => List.mem_cons, by simp [system, hx, acquire, htodo, hr, hfree]⟩

theorem Exclusive.acquire (h : Exclusive s) (he : (system ρ).step s (.acquire t) = some s') :
    Exclusive s' := by
  obtain ⟨x, r, rest, held, hx, -, rfl, hheld⟩ := acquire_some he
  refine h.set hx fun l hl => ?_
  rcases hheld with ⟨-, rfl⟩ | ⟨-, hfree, rfl⟩
  · exact .inl hl
  · rcases List.mem_cons.mp hl with rfl | hl
    exacts [.inr hfree, .inl hl]

end Exclusive

def Took (x : LockTxn ρ) (before locks : List ρ) : Prop :=
  ∃ taken, locks = taken ++ x.todo ∧ ∀ r, r ∈ x.held ↔ r ∈ before ∨ r ∈ taken

theorem Took.start (locks : List ρ) : Took ⟨[], locks, false⟩ [] locks := ⟨[], by simp, by simp⟩

theorem Took.acquired {x : LockTxn ρ} {before locks rest held : List ρ} (h : Took x before locks)
    (htodo : x.todo = r :: rest)
    (hheld : (r ∈ x.held ∧ held = x.held) ∨ (r ∉ x.held ∧ Free s r ∧ held = r :: x.held)) :
    Took { x with held := held, todo := rest } before locks := by
  obtain ⟨taken, rfl, hmem⟩ := h
  refine ⟨taken ++ [r], by simp [htodo], fun l => ?_⟩
  have hl : l ∈ held ↔ l = r ∨ l ∈ x.held := by
    rcases hheld with ⟨hr, rfl⟩ | ⟨-, -, rfl⟩
    · refine ⟨.inr, ?_⟩
      rintro (rfl | hl)
      exacts [hr, hl]
    · exact List.mem_cons
  rw [hl, hmem, List.mem_append, List.mem_singleton]
  tauto

theorem Took.extend {x : LockTxn ρ} {locks : List ρ} (h : Took x [] locks) (htodo : x.todo = [])
    (next : List ρ) : Took { x with todo := next } locks next := by
  obtain ⟨taken, rfl, hmem⟩ := h
  exact ⟨[], rfl, fun r => by simp [hmem, htodo]⟩

section Sorted

variable [LinearOrder ρ] {l before after : List ρ} {k m : ρ}

theorem le_of_taken (h : (before ++ m :: after).Pairwise (· ≤ ·)) (hk : k ∈ before) : k ≤ m :=
  (List.pairwise_append.mp h).2.2 k hk m List.mem_cons_self

theorem taken_of_lt (h : (before ++ m :: after).Pairwise (· ≤ ·)) (hk : k ∈ before ++ m :: after)
    (hlt : k < m) : k ∈ before := by
  rcases List.mem_append.mp hk with hk | hk
  · exact hk
  · have htail := (List.pairwise_append.mp h).2.1
    rcases List.mem_cons.mp hk with rfl | hk
    · exact absurd hlt (lt_irrefl k)
    · exact absurd ((List.pairwise_cons.mp htail).1 k hk) (not_le.mpr hlt)

theorem split_sorted (h : l.Pairwise (· ≤ ·)) (hm : m ∈ l) :
    ∃ before after, l = before ++ m :: after ∧ ∀ k ∈ before, k ∈ l ∧ k < m := by
  obtain ⟨before, after, rfl, hne⟩ := List.eq_append_cons_of_mem hm
  refine ⟨before, after, rfl, fun k hk => ⟨List.mem_append_left _ hk, ?_⟩⟩
  exact lt_of_le_of_ne (le_of_taken h hk) fun he => hne (he ▸ hk)

theorem exists_least {p : ρ → Prop} (h : ∃ k ∈ l, p k) :
    ∃ m ∈ l, p m ∧ ∀ k ∈ l, p k → m ≤ k := by
  classical
  obtain ⟨k, hk, hpk⟩ := h
  have hne : (l.toFinset.filter p).Nonempty := ⟨k, by simp [hk, hpk]⟩
  obtain ⟨m, hm, hmin⟩ := (l.toFinset.filter p).exists_min_image id hne
  simp only [Finset.mem_filter, List.mem_toFinset] at hm
  exact ⟨m, hm.1, hm.2, fun k hk hpk => hmin k (by simp [hk, hpk])⟩

end Sorted

section Order

variable [LinearOrder ρ]

structure InOrder (x : LockTxn ρ) : Prop where
  sorted : x.todo.Pairwise (· ≤ ·)
  above : ∀ h ∈ x.held, ∀ r ∈ x.todo, h ≤ r
  ended : x.done → x.held = [] ∧ x.todo = []

def Ordered (s : List (LockTxn ρ)) : LockAction ρ → Prop
  | .start todo => todo.Pairwise (· ≤ ·)
  | .extend t todo => todo.Pairwise (· ≤ ·) ∧ ∀ x, s[t]? = some x → ∀ h ∈ x.held, ∀ r ∈ todo, h ≤ r
  | _ => True

variable {x : LockTxn ρ} {a : LockAction ρ}

theorem InOrder.endedTxn : InOrder (.ended : LockTxn ρ) := by
  constructor <;> simp [LockTxn.ended]

theorem InOrder.next (h : InOrder x) {rest : List ρ} (hx : x.todo = r :: rest) (hd : x.done = false)
    {held : List ρ} (hheld : ∀ l ∈ held, l = r ∨ l ∈ x.held) :
    InOrder { x with held := held, todo := rest } := by
  have hsorted := h.sorted
  rw [hx] at hsorted
  obtain ⟨hhead, htail⟩ := List.pairwise_cons.mp hsorted
  refine ⟨htail, fun l hl r' hr' => ?_, fun he => absurd he (by simp [hd])⟩
  rcases hheld l hl with rfl | hl
  · exact hhead r' hr'
  · exact (h.above l hl r (by simp [hx])).trans (hhead r' hr')

theorem set_inOrder (h : ∀ x ∈ s, InOrder x) (hx : InOrder x) : ∀ y ∈ s.set t x, InOrder y := by
  intro y hy
  rcases List.mem_or_eq_of_mem_set hy with hy | rfl
  exacts [h y hy, hx]

theorem step_inOrder (h : ∀ x ∈ s, InOrder x) (hg : Ordered s a)
    (he : (system ρ).step s a = some s') : ∀ x ∈ s', InOrder x := by
  cases a with
  | start todo =>
    cases he
    intro x hx
    rcases List.mem_append.mp hx with hx | hx
    · exact h x hx
    · rw [List.mem_singleton.mp hx]
      exact ⟨hg, by simp, by simp⟩
  | extend t todo =>
    obtain ⟨x, hx, he⟩ := Option.bind_eq_some_iff.mp he
    split_ifs at he with hc
    cases he
    refine set_inOrder h ⟨hg.1, hg.2 x hx, fun hd => absurd hd (by simp [hc.2])⟩
  | acquire t =>
    obtain ⟨x, r, rest, held, hx, htodo, rfl, hheld⟩ := acquire_some he
    have hin := h x (List.mem_of_getElem? hx)
    have hd : x.done = false := not_done (fun hd => (hin.ended hd).2) htodo
    rcases hheld with ⟨-, rfl⟩ | ⟨-, -, rfl⟩
    · exact set_inOrder h (hin.next htodo hd fun l hl => .inr hl)
    · exact set_inOrder h (hin.next htodo hd fun l hl => List.mem_cons.mp hl)
  | take t r =>
    obtain ⟨x, hx, he⟩ := Option.bind_eq_some_iff.mp he
    unfold take at he
    split_ifs at he with hc
    cases he
    refine set_inOrder h ⟨?_, ?_, fun hd => absurd hd (by simp [hc.2.2.1])⟩ <;> simp [hc.2.1]
  | commit t =>
    rw [(ended_some (.inl he)).2]
    exact set_inOrder h .endedTxn
  | rollback t =>
    rw [(ended_some (.inr he)).2]
    exact set_inOrder h .endedTxn

theorem reachable_inOrder (h : (system ρ).Reachable Ordered s) : ∀ x ∈ s, InOrder x := by
  apply h.invariant (I := fun s => ∀ x ∈ s, InOrder x)
  · simp [system]
  · exact fun s a s' hi hg he => step_inOrder hi hg he

theorem Wants.lt_of_holds (hs : ∀ x ∈ s, InOrder x) (h : Holds s u r) (h' : Wants s u r') : r < r' := by
  obtain ⟨x, hx, hr⟩ := h
  obtain ⟨x', hx', hr', hnot⟩ := h'
  rw [hx] at hx'
  cases hx'
  refine lt_of_le_of_ne ?_ fun he => hnot (he ▸ hr)
  exact (hs x (List.mem_of_getElem? hx)).above r hr r' (List.mem_of_mem_head? hr')

theorem wants_lt_of_transGen (hs : ∀ x ∈ s, InOrder x) (h : Relation.TransGen (WaitsFor s) t u)
    (ht : Wants s t r) (hu : Wants s u r') : r < r' := by
  induction h generalizing r' with
  | single hw =>
    obtain ⟨r₀, hwant, hheld⟩ := hw
    rw [ht.unique hwant]
    exact hu.lt_of_holds hs hheld
  | tail _ hw ih =>
    obtain ⟨r₀, hwant, hheld⟩ := hw
    exact (ih hwant).trans (hu.lt_of_holds hs hheld)

theorem not_deadlock (hs : ∀ x ∈ s, InOrder x) : ¬Deadlock s := by
  rintro ⟨t, hcycle⟩
  obtain ⟨u, ⟨r, hwant, -⟩, -⟩ := Relation.TransGen.head'_iff.mp hcycle
  exact lt_irrefl r (wants_lt_of_transGen hs hcycle hwant hwant)

theorem steps_or_waits (hx : s[t]? = some x) (hd : x.done = false) :
    ((system ρ).step s (.acquire t)).isSome ∨ ((system ρ).step s (.commit t)).isSome ∨
      ∃ r u, Wants s t r ∧ Holds s u r := by
  cases htodo : x.todo with
  | nil => exact .inr (.inl (by simp [system, hx, htodo, hd]))
  | cons r rest =>
    by_cases hr : r ∈ x.held
    · exact .inl (by simp [system, hx, acquire, htodo, hr])
    by_cases hfree : Free s r
    · exact .inl (by simp [system, hx, acquire, htodo, hr, hfree])
    · unfold Free at hfree
      obtain ⟨y, hy, hry⟩ : ∃ y ∈ s, r ∈ y.held := by simpa using hfree
      obtain ⟨u, hu⟩ := List.mem_iff_getElem?.mp hy
      exact .inr (.inr ⟨r, u, ⟨x, hx, by simp [htodo], hr⟩, ⟨y, hu, hry⟩⟩)

theorem greatest_wanted (h : Wants s t r) :
    ∃ m, (∃ u, Wants s u m) ∧ ∀ u r', Wants s u r' → r' ≤ m := by
  classical
  have hmem : ∀ u r', Wants s u r' → r' ∈ (s.filterMap fun x => x.todo.head?).toFinset := by
    rintro u r' ⟨x, hx, hr, -⟩
    rw [List.mem_toFinset, List.mem_filterMap]
    exact ⟨x, List.mem_of_getElem? hx, hr⟩
  let wanted := (s.filterMap fun x => x.todo.head?).toFinset.filter fun r' => ∃ u, Wants s u r'
  have hne : wanted.Nonempty := ⟨r, Finset.mem_filter.mpr ⟨hmem t r h, t, h⟩⟩
  obtain ⟨m, hm, hmax⟩ := wanted.exists_max_image id hne
  refine ⟨m, (Finset.mem_filter.mp hm).2, fun u r' hu => ?_⟩
  exact hmax r' (Finset.mem_filter.mpr ⟨hmem u r' hu, u, hu⟩)

theorem progress (hs : ∀ x ∈ s, InOrder x) (h : ∃ x ∈ s, x.done = false) :
    ∃ t, ((system ρ).step s (.acquire t)).isSome ∨ ((system ρ).step s (.commit t)).isSome := by
  by_contra hstuck
  have hwaits : ∀ t x, s[t]? = some x → x.done = false → ∃ r u, Wants s t r ∧ Holds s u r := by
    intro t x hx hd
    rcases steps_or_waits hx hd with ha | hc | hw
    exacts [absurd ⟨t, .inl ha⟩ hstuck, absurd ⟨t, .inr hc⟩ hstuck, hw]
  have hclimb : ∀ t r, Wants s t r → ∃ u r', Wants s u r' ∧ r < r' := by
    intro t r ht
    obtain ⟨x, hx, hr, -⟩ := id ht
    have hd : x.done = false := by
      by_contra hd
      have hnil := ((hs x (List.mem_of_getElem? hx)).ended (by simpa using hd)).2
      simp [hnil] at hr
    obtain ⟨r₀, u, hwant, hheld⟩ := hwaits t x hx hd
    obtain rfl := ht.unique hwant
    obtain ⟨y, hy, hry⟩ := id hheld
    have hdy : y.done = false := by
      by_contra hdy
      have hnil := ((hs y (List.mem_of_getElem? hy)).ended (by simpa using hdy)).1
      simp [hnil] at hry
    obtain ⟨r', -, hwant', -⟩ := hwaits u y hy hdy
    exact ⟨u, r', hwant', hwant'.lt_of_holds hs hheld⟩
  obtain ⟨x, hx, hd⟩ := h
  obtain ⟨t, ht⟩ := List.mem_iff_getElem?.mp hx
  obtain ⟨r, -, hwant, -⟩ := hwaits t x ht hd
  obtain ⟨m, hm, hmax⟩ := greatest_wanted hwant
  obtain ⟨u, hu⟩ := hm
  obtain ⟨v, r', hv, hlt⟩ := hclimb u m hu
  exact absurd (hmax v r' hv) (not_le.mpr hlt)

theorem Wants.lt_of_inOrder (hx : s[u]? = some x) (hin : InOrder x) (h : Holds s u r)
    (h' : Wants s u r') : r < r' := by
  obtain ⟨y, hy, hr⟩ := h
  obtain ⟨z, hz, hr', hnot⟩ := h'
  obtain rfl : x = y := Option.some.inj (hx.symm.trans hy)
  obtain rfl : x = z := Option.some.inj (hx.symm.trans hz)
  refine lt_of_le_of_ne (hin.above r hr r' (List.mem_of_mem_head? hr')) fun he => hnot (he ▸ hr)

theorem cycle_leaves_order (h : Relation.TransGen (WaitsFor s) t t) :
    ∃ u x, s[u]? = some x ∧ ¬InOrder x ∧ Relation.TransGen (WaitsFor s) t u ∧
      Relation.TransGen (WaitsFor s) u t := by
  by_contra hnone
  have hin : ∀ u x, s[u]? = some x → Relation.TransGen (WaitsFor s) t u →
      Relation.TransGen (WaitsFor s) u t → InOrder x := by
    intro u x hx htu hut
    by_contra hout
    exact hnone ⟨u, x, hx, hout, htu, hut⟩
  have hclimb : ∀ u, Relation.TransGen (WaitsFor s) t u → Relation.TransGen (WaitsFor s) u t →
      ∀ r r', Wants s t r → Wants s u r' → r < r' := by
    intro u htu
    induction htu with
    | single hw =>
      intro hut r r' ht hu
      obtain ⟨r₀, hwant, hheld⟩ := hw
      obtain ⟨y, hy, -⟩ := id hheld
      rw [ht.unique hwant]
      exact hu.lt_of_inOrder hy (hin _ y hy (.single ⟨r₀, hwant, hheld⟩) hut) hheld
    | @tail v u htv hw ih =>
      intro hut r r' ht hu
      obtain ⟨r₀, hwant, hheld⟩ := hw
      obtain ⟨y, hy, -⟩ := id hheld
      have hvu : WaitsFor s v u := ⟨r₀, hwant, hheld⟩
      have hlt := hu.lt_of_inOrder hy (hin u y hy (htv.tail hvu) hut) hheld
      exact (ih (hut.head hvu) r r₀ ht hwant).trans hlt
  obtain ⟨u, ⟨r, hwant, -⟩, -⟩ := Relation.TransGen.head'_iff.mp h
  exact lt_irrefl r (hclimb t h h r r hwant hwant)

end Order

section Cycles

theorem cycle_member (h : Relation.TransGen (WaitsFor s) t t) :
    ∃ x, s[t]? = some x ∧ x.held ≠ [] ∧ x.todo ≠ [] := by
  obtain ⟨u, ⟨r, ⟨x, hx, hwant, -⟩, -⟩, -⟩ := Relation.TransGen.head'_iff.mp h
  obtain ⟨v, -, r', -, y, hy, hheld⟩ := Relation.TransGen.tail'_iff.mp h
  obtain rfl : x = y := Option.some.inj (hx.symm.trans hy)
  refine ⟨x, hx, List.ne_nil_of_mem hheld, fun hnil => ?_⟩
  simp [hnil] at hwant

theorem deadlock_of_stuck (hended : ∀ x ∈ s, x.done = true → x.held = [])
    (hstuck : ∀ t x, s[t]? = some x → x.done = false → ∃ u, WaitsFor s t u)
    (hopen : ∃ x ∈ s, x.done = false) : Deadlock s := by
  by_contra hno
  let behind (a b : Fin s.length) : Prop := Relation.TransGen (WaitsFor s) b a
  have : IsTrans (Fin s.length) behind := ⟨fun a b c hab hbc => hbc.trans hab⟩
  have : Std.Irrefl behind := ⟨fun a ha => hno ⟨a, ha⟩⟩
  have hwf : WellFounded behind := Finite.wellFounded_of_trans_of_irrefl behind
  obtain ⟨x, hx, hd⟩ := hopen
  obtain ⟨t, ht, he⟩ := List.mem_iff_getElem.mp hx
  obtain ⟨m, hm, hmin⟩ := hwf.has_min {k | s[k].done = false} ⟨⟨t, ht⟩, he ▸ hd⟩
  obtain ⟨u, hw⟩ := hstuck m s[m] (List.getElem?_eq_getElem m.isLt) hm
  obtain ⟨r, -, y, hy, hheld⟩ := id hw
  obtain ⟨hu, rfl⟩ := List.getElem?_eq_some_iff.mp hy
  refine hmin ⟨u, hu⟩ ?_ (.single hw)
  -- it holds a lock, so it has not ended
  by_contra hdone
  have hnil := hended _ (List.getElem_mem hu) (by simpa using hdone)
  exact absurd hheld (by simp [hnil])

end Cycles

end Locking

end PostgresQueue.Library
