import Mathlib.Data.List.Basic
import Mathlib.Tactic.Common

namespace PostgresQueue.Library

/-- A labelled system; `none` means the action is not enabled (it has to wait). -/
structure System (σ α : Type) where
  init : σ
  step : σ → α → Option σ

namespace System

variable {σ τ α β : Type} {S : System σ α}

inductive Steps (S : System σ α) (G : σ → α → Prop) : σ → List α → σ → Prop
  | nil (s : σ) : Steps S G s [] s
  | cons {s t u : σ} {a : α} {as : List α} : G s a → S.step s a = some t → Steps S G t as u →
      Steps S G s (a :: as) u

def Reachable (S : System σ α) (G : σ → α → Prop) (s : σ) : Prop := ∃ as, S.Steps G S.init as s

def free : σ → α → Prop := fun _ _ => True

theorem Steps.preserves {G : σ → α → Prop} {I : σ → Prop}
    (hstep : ∀ s a t, I s → G s a → S.step s a = some t → I t) {s t : σ} {as : List α}
    (h : S.Steps G s as t) (hs : I s) : I t := by
  induction h with
  | nil => exact hs
  | cons hg he _ ih => exact ih (hstep _ _ _ hs hg he)

theorem Steps.snoc {G : σ → α → Prop} {s t u : σ} {as : List α} {a : α} (h : S.Steps G s as t)
    (hg : G t a) (he : S.step t a = some u) : S.Steps G s (as ++ [a]) u := by
  induction h with
  | nil => exact .cons hg he (.nil _)
  | cons hg' he' _ ih => exact .cons hg' he' (ih hg he)

theorem Steps.append {G : σ → α → Prop} {s t u : σ} {as bs : List α} (h : S.Steps G s as t)
    (h' : S.Steps G t bs u) : S.Steps G s (as ++ bs) u := by
  induction h with
  | nil => exact h'
  | cons hg he _ ih => exact .cons hg he (ih h')

theorem Steps.simulates {T : System τ β} {R : σ → τ → Prop} {G : σ → α → Prop} {H : τ → β → Prop}
    (hstep : ∀ s a s' t, R s t → G s a → S.step s a = some s' →
      ∃ bs t', T.Steps H t bs t' ∧ R s' t')
    {s s' : σ} {as : List α} (h : S.Steps G s as s') {t : τ} (hr : R s t) :
    ∃ bs t', T.Steps H t bs t' ∧ R s' t' := by
  induction h generalizing t with
  | nil => exact ⟨[], t, .nil t, hr⟩
  | cons hg he _ ih =>
    obtain ⟨bs, u, hbs, hu⟩ := hstep _ _ _ _ hr hg he
    obtain ⟨cs, v, hcs, hv⟩ := ih hu
    exact ⟨bs ++ cs, v, hbs.append hcs, hv⟩

theorem Steps.mono {G H : σ → α → Prop} (hgh : ∀ s a, G s a → H s a) {s t : σ} {as : List α}
    (h : S.Steps G s as t) : S.Steps H s as t := by
  induction h with
  | nil => exact .nil _
  | cons hg he _ ih => exact .cons (hgh _ _ hg) he ih

theorem Steps.forall_mem {C : α → Prop} {s t : σ} {as : List α}
    (h : S.Steps (fun _ a => C a) s as t) : ∀ a ∈ as, C a := by
  induction h with
  | nil => exact fun a ha => absurd ha List.not_mem_nil
  | cons hg _ _ ih => exact List.forall_mem_cons.mpr ⟨hg, ih⟩

theorem Steps.and_forall_mem {G : σ → α → Prop} {C : α → Prop} {s t : σ} {as : List α}
    (h : S.Steps G s as t) (hc : ∀ a ∈ as, C a) : S.Steps (fun s a => G s a ∧ C a) s as t := by
  induction h with
  | nil => exact .nil _
  | cons hg he _ ih =>
    obtain ⟨ha, has⟩ := List.forall_mem_cons.mp hc
    exact .cons ⟨hg, ha⟩ he (ih has)

theorem Steps.of_forall_mem {G : σ → α → Prop} {C : α → Prop} {s t : σ} {as : List α}
    (h : S.Steps G s as t) (hc : ∀ a ∈ as, C a) : S.Steps (fun _ a => C a) s as t :=
  (h.and_forall_mem hc).mono fun _ _ hg => hg.2

namespace Reachable

theorem init {G : σ → α → Prop} : S.Reachable G S.init := ⟨[], .nil _⟩

theorem step {G : σ → α → Prop} {s t : σ} {a : α} (h : S.Reachable G s) (hg : G s a)
    (he : S.step s a = some t) : S.Reachable G t := by
  obtain ⟨as, has⟩ := h
  exact ⟨as ++ [a], has.snoc hg he⟩

theorem mono {G H : σ → α → Prop} (hgh : ∀ s a, G s a → H s a) {s : σ} (h : S.Reachable G s) :
    S.Reachable H s := by
  obtain ⟨as, has⟩ := h
  exact ⟨as, has.mono hgh⟩

theorem invariant {G : σ → α → Prop} {I : σ → Prop} (hinit : I S.init)
    (hstep : ∀ s a t, I s → G s a → S.step s a = some t → I t) {s : σ} (h : S.Reachable G s) :
    I s := by
  obtain ⟨as, has⟩ := h
  exact has.preserves hstep hinit

theorem invariant_of_reachable {G : σ → α → Prop} {I : σ → Prop} (hinit : I S.init)
    (hstep : ∀ s a t, S.Reachable G s → I s → G s a → S.step s a = some t → I t) {s : σ}
    (h : S.Reachable G s) : I s := by
  have hboth : S.Reachable G s ∧ I s := by
    refine invariant (I := fun s => S.Reachable G s ∧ I s) ⟨init, hinit⟩ ?_ h
    rintro s a t ⟨hr, hi⟩ hg he
    exact ⟨hr.step hg he, hstep s a t hr hi hg he⟩
  exact hboth.2

end Reachable

instance (s : σ) (a : α) : Decidable (free s a) := isTrue trivial

section Run

variable (S) (G : σ → α → Prop) [∀ s a, Decidable (G s a)]

def runFrom : σ → List α → Option σ
  | s, [] => some s
  | s, a :: as => if G s a then (S.step s a).bind fun t => runFrom t as else none

def run (as : List α) : σ := (S.runFrom G S.init as).getD S.init

variable {S G}

theorem Steps.of_runFrom {s t : σ} {as : List α} (h : S.runFrom G s as = some t) :
    S.Steps G s as t := by
  induction as generalizing s with
  | nil => cases h; exact .nil _
  | cons a as ih =>
    simp only [runFrom] at h
    split_ifs at h with hg
    obtain ⟨u, hu, h⟩ := Option.bind_eq_some_iff.mp h
    exact .cons hg hu (ih h)

theorem Steps.of_run {as : List α} (h : (S.runFrom G S.init as).isSome) :
    S.Steps G S.init as (S.run G as) := by
  obtain ⟨s, hs⟩ := Option.isSome_iff_exists.mp h
  have he : S.run G as = s := by rw [run, hs, Option.getD_some]
  exact Steps.of_runFrom (he ▸ hs)

theorem Reachable.of_run {as : List α} (h : (S.runFrom G S.init as).isSome) :
    S.Reachable G (S.run G as) :=
  ⟨as, Steps.of_run h⟩

end Run

def Always (S : System σ α) (P : σ → Prop) : σ → List α → Prop
  | s, [] => P s
  | s, a :: as => P s ∧ ∀ t, S.step s a = some t → S.Always P t as

theorem Always.of_steps {G : σ → α → Prop} {P : σ → Prop} {s t : σ} {as : List α}
    (h : S.Always P s as) (ht : S.Steps G s as t) : P t := by
  induction ht with
  | nil => exact h
  | cons _ he _ ih => exact ih (h.2 _ he)

def EachStep (S : System σ α) (C : σ → α → Prop) : σ → List α → Prop
  | _, [] => True
  | s, a :: as => ∀ t, S.step s a = some t → C s a ∧ S.EachStep C t as

theorem eachStep_congr {C D : σ → α → Prop} (h : ∀ s a, C s a ↔ D s a) (s : σ) (as : List α) :
    S.EachStep C s as ↔ S.EachStep D s as := by
  induction as generalizing s with
  | nil => rfl
  | cons a as ih =>
    apply forall₂_congr
    intro t _
    rw [h s a, ih t]

theorem EachStep.last {G C : σ → α → Prop} {s t u : σ} {as : List α} {a : α}
    (h : S.EachStep C s (as ++ [a])) (ht : S.Steps G s as t) (he : S.step t a = some u) : C t a := by
  induction ht with
  | nil => exact (h u he).1
  | cons _ hs _ ih => exact ih (h _ hs).2 he

theorem Always.of_eachStep {I P : σ → Prop} {C : σ → α → Prop}
    (hstep : ∀ s a t, I s → C s a → S.step s a = some t → I t) (hp : ∀ s, I s → P s) {s : σ}
    {as : List α} (hi : I s) (h : S.EachStep C s as) : S.Always P s as := by
  induction as generalizing s with
  | nil => exact hp s hi
  | cons a as ih =>
    refine ⟨hp s hi, fun t he => ?_⟩
    obtain ⟨hc, hrest⟩ := h t he
    exact ih (hstep s a t hi hc he) hrest

theorem Always.of_invariant {I P : σ → Prop} (hstep : ∀ s a t, I s → S.step s a = some t → I t)
    (hp : ∀ s, I s → P s) {s : σ} (hi : I s) (as : List α) : S.Always P s as := by
  induction as generalizing s with
  | nil => exact hp s hi
  | cons a as ih => exact ⟨hp s hi, fun t he => ih (hstep s a t hi he)⟩

/-- Where one step keeps `P` exactly when it satisfies `C`, a run keeps `P` throughout
exactly when all its steps satisfy `C`. -/
theorem always_iff_eachStep {I P : σ → Prop} {C : σ → α → Prop}
    (hinv : ∀ s a t, I s → S.step s a = some t → I t)
    (hstep : ∀ s a t, I s → P s → S.step s a = some t → (P t ↔ C s a))
    {s : σ} (hi : I s) (hp : P s) (as : List α) : S.Always P s as ↔ S.EachStep C s as := by
  induction as generalizing s with
  | nil => simp [Always, EachStep, hp]
  | cons a as ih =>
    simp only [Always, EachStep, hp, true_and]
    apply forall₂_congr
    intro t he
    have hpc := hstep s a t hi hp he
    constructor
    · intro h
      have ht : P t := by
        cases as with
        | nil => exact h
        | cons b bs => exact h.1
      exact ⟨hpc.mp ht, (ih (hinv s a t hi he) ht).mp h⟩
    · rintro ⟨hc, h⟩
      have ht := hpc.mpr hc
      exact (ih (hinv s a t hi he) ht).mpr h

section Total

variable (S) in
def total (price : σ → α → ℕ) : σ → List α → ℕ
  | _, [] => 0
  | s, a :: as => price s a + ((S.step s a).map fun t => total price t as).getD 0

theorem total_cons {price : σ → α → ℕ} {s t : σ} {a : α} (he : S.step s a = some t) (as : List α) :
    S.total price s (a :: as) = price s a + S.total price t as := by
  rw [total, he, Option.map_some, Option.getD_some]

theorem Steps.total_le {G : σ → α → Prop} {I : σ → Prop} {potential : σ → ℕ}
    {spent earned : σ → α → ℕ} {c : ℕ} (hinv : ∀ s a t, I s → G s a → S.step s a = some t → I t)
    (hstep : ∀ s a t, I s → G s a → S.step s a = some t →
      spent s a + potential t ≤ potential s + c * earned s a) {s t : σ} {as : List α}
    (h : S.Steps G s as t) (hi : I s) :
    S.total spent s as + potential t ≤ potential s + c * S.total earned s as := by
  induction h with
  | nil => simp [total]
  | cons hg he _ ih =>
    have hfirst := hstep _ _ _ hi hg he
    have hrest := ih (hinv _ _ _ hi hg he)
    rw [total_cons he, total_cons he, Nat.mul_add]
    omega

end Total

end System

end PostgresQueue.Library
