import Mathlib.Data.List.Basic
import Mathlib.Tactic.Common

namespace PostgresQueue.Library

inductive Ending (ε χ α : Type)
  | returns (a : α)
  | raises (e : ε)
  | exits (code : χ)
deriving DecidableEq

def Ending.after {ε χ α : Type} (first : Ending ε χ α) : Ending ε χ Unit → Ending ε χ α
  | .returns () => first
  | .raises e => .raises e
  | .exits code => .exits code

def Ending.map {ε ε' χ χ' α α' : Type} (f : ε → ε') (g : χ → χ') (h : α → α') :
    Ending ε χ α → Ending ε' χ' α'
  | .returns a => .returns (h a)
  | .raises e => .raises (f e)
  | .exits code => .exits (g code)

/-- A piece of a process: the steps it takes, and how it ends. -/
@[ext] structure Proc (τ ε χ α : Type) where
  trace : List τ
  ending : Ending ε χ α

namespace Proc

variable {τ ε χ α β : Type}

def returns (a : α) : Proc τ ε χ α := ⟨[], .returns a⟩

def ofEnding (o : Ending ε χ α) : Proc τ ε χ α := ⟨[], o⟩

def exit (code : χ) : Proc τ ε χ α := ⟨[], .exits code⟩

def emit (t : τ) : Proc τ ε χ Unit := ⟨[t], .returns ()⟩

def andThen (x : Proc τ ε χ α) (f : α → Proc τ ε χ β) : Proc τ ε χ β :=
  match x.ending with
  | .returns a => ⟨x.trace ++ (f a).trace, (f a).ending⟩
  | .raises e => ⟨x.trace, .raises e⟩
  | .exits code => ⟨x.trace, .exits code⟩

instance : Monad (Proc τ ε χ) where
  pure := returns
  bind := andThen

def tryExcept (x : Proc τ ε χ α) (handler : ε → Option (Proc τ ε χ α)) : Proc τ ε χ α :=
  match x.ending with
  | .raises e =>
    match handler e with
    | some y => ⟨x.trace ++ y.trace, y.ending⟩
    | none => x
  | .returns _ | .exits _ => x

def tryFinally (x : Proc τ ε χ α) (y : Ending ε χ α → Proc τ ε χ Unit) : Proc τ ε χ α :=
  match x.ending with
  | .exits _ => x
  | .returns _ | .raises _ =>
    ⟨x.trace ++ (y x.ending).trace, x.ending.after (y x.ending).ending⟩

def Exits (x : Proc τ ε χ α) : Prop := ∃ code, x.ending = .exits code

section Bind

variable {x : Proc τ ε χ α} {f : α → Proc τ ε χ β}

@[simp] theorem pure_then (a : α) (f : α → Proc τ ε χ β) : (pure a >>= f) = f a := rfl

theorem bind_exits : Exits (x >>= f) ↔ Exits x ∨ ∃ a, x.ending = .returns a ∧ Exits (f a) := by
  change Exits (andThen x f) ↔ _
  unfold Exits andThen
  cases x.ending <;> simp

theorem bind_returns {b : β} : (x >>= f).ending = .returns b ↔
    ∃ a, x.ending = .returns a ∧ (f a).ending = .returns b := by
  change (andThen x f).ending = _ ↔ _
  unfold andThen
  cases x.ending <;> simp

theorem bind_of_exits {code : χ} (h : x.ending = .exits code) : (x >>= f) = ⟨x.trace, .exits code⟩ := by
  change andThen x f = _
  rw [andThen, h]

theorem bind_silent (hx : x.trace = []) (hf : ∀ a, (f a).trace = []) : (x >>= f).trace = [] := by
  change (andThen x f).trace = _
  unfold andThen
  cases x.ending with
  | returns a => simp only [hx, hf, List.append_nil]
  | raises e => exact hx
  | exits code => exact hx

end Bind

section Try

variable {x : Proc τ ε χ α}

theorem tryExcept_of_exits {handler : ε → Option (Proc τ ε χ α)} {code : χ}
    (h : x.ending = .exits code) : tryExcept x handler = x := by
  rw [tryExcept, h]

theorem tryFinally_of_exits {y : Ending ε χ α → Proc τ ε χ Unit} {code : χ}
    (h : x.ending = .exits code) : tryFinally x y = x := by
  rw [tryFinally, h]

theorem tryFinally_exits {y : Ending ε χ α → Proc τ ε χ Unit} :
    Exits (tryFinally x y) ↔ Exits x ∨ ¬Exits x ∧ Exits (y x.ending) := by
  unfold tryFinally Exits
  cases hx : x.ending with
  | exits code => simp [hx]
  | returns a => cases hy : (y (.returns a)).ending <;> simp [Ending.after]
  | raises e => cases hy : (y (.raises e)).ending <;> simp [Ending.after]

theorem tryFinally_returns {y : Ending ε χ α → Proc τ ε χ Unit} {a : α} :
    (tryFinally x y).ending = .returns a ↔
      x.ending = .returns a ∧ (y x.ending).ending = .returns () := by
  unfold tryFinally
  cases hx : x.ending with
  | exits code => simp [hx]
  | returns b => cases hy : (y (.returns b)).ending <;> simp [Ending.after]
  | raises e => cases hy : (y (.raises e)).ending <;> simp [Ending.after]

theorem tryFinally_silent {y : Ending ε χ α → Proc τ ε χ Unit} (hx : x.trace = [])
    (hy : ∀ ending, (y ending).trace = []) : (tryFinally x y).trace = [] := by
  unfold tryFinally
  cases x.ending with
  | exits code => exact hx
  | returns a => simp only [hx, hy, List.append_nil]
  | raises e => simp only [hx, hy, List.append_nil]

end Try

section Refines

variable {τ' ε' χ' α' β' : Type} {f : ε → ε'} {g : χ → χ'} {h : α → α'} {h' : β → β'}

/-- The two end alike, up to a coarser view of exceptions, exit codes and results. -/
def Refines (f : ε → ε') (g : χ → χ') (h : α → α') (x : Proc τ ε χ α) (y : Proc τ' ε' χ' α') : Prop :=
  x.ending.map f g h = y.ending

theorem refines_pure (a : α) : Refines f g h (pure a : Proc τ ε χ α) (pure (h a) : Proc τ' ε' χ' α') :=
  rfl

theorem refines_ofEnding (o : Ending ε χ α) : Refines f g h (ofEnding o : Proc τ ε χ α)
    (ofEnding (o.map f g h) : Proc τ' ε' χ' α') :=
  rfl

theorem Refines.bind {x : Proc τ ε χ α} {y : Proc τ' ε' χ' α'} {k : α → Proc τ ε χ β}
    {k' : α' → Proc τ' ε' χ' β'} (hx : Refines f g h x y)
    (hk : ∀ a, Refines f g h' (k a) (k' (h a))) : Refines f g h' (x >>= k) (y >>= k') := by
  change (andThen x k).ending.map f g h' = (andThen y k').ending
  unfold Refines at hx
  unfold andThen
  rw [← hx]
  cases x.ending with
  | returns a => exact hk a
  | raises e => rfl
  | exits code => rfl

theorem Refines.tryExcept {x : Proc τ ε χ α} {y : Proc τ' ε' χ' α'}
    {k : ε → Option (Proc τ ε χ α)} {k' : ε' → Option (Proc τ' ε' χ' α')} (hx : Refines f g h x y)
    (hk : ∀ e, Option.Rel (Refines f g h) (k e) (k' (f e))) :
    Refines f g h (x.tryExcept k) (y.tryExcept k') := by
  have hx' := hx
  unfold Refines at hx
  unfold Refines Proc.tryExcept
  rw [← hx]
  cases hend : x.ending with
  | returns a =>
    rw [hend] at hx
    exact (congrArg (Ending.map f g h) hend).trans hx
  | exits code =>
    rw [hend] at hx
    exact (congrArg (Ending.map f g h) hend).trans hx
  | raises e =>
    have hrel := hk e
    dsimp only [Ending.map]
    cases hke : k e with
    | none =>
      rw [hke] at hrel
      cases hke' : k' (f e) with
      | none => exact hx'
      | some b => rw [hke'] at hrel; cases hrel
    | some a =>
      rw [hke] at hrel
      cases hke' : k' (f e) with
      | none => rw [hke'] at hrel; cases hrel
      | some b =>
        rw [hke'] at hrel
        cases hrel with
        | some hab => exact hab

theorem Refines.tryFinally {x : Proc τ ε χ α} {y : Proc τ' ε' χ' α'}
    {k : Ending ε χ α → Proc τ ε χ Unit} {k' : Ending ε' χ' α' → Proc τ' ε' χ' Unit}
    (hx : Refines f g h x y) (hk : ∀ o, Refines f g id (k o) (k' (o.map f g h))) :
    Refines f g h (x.tryFinally k) (y.tryFinally k') := by
  have hk' := hk x.ending
  unfold Refines at hx hk'
  rw [hx] at hk'
  unfold Refines Proc.tryFinally
  rw [← hx] at hk' ⊢
  cases hend : x.ending with
  | exits code =>
    rw [hend] at hx
    exact (congrArg (Ending.map f g h) hend).trans hx
  | returns a =>
    rw [hend] at hk'
    dsimp only [Ending.map] at hk' ⊢
    rw [← hk']
    cases (k (.returns a)).ending <;> rfl
  | raises e =>
    rw [hend] at hk'
    dsimp only [Ending.map] at hk' ⊢
    rw [← hk']
    cases (k (.raises e)).ending <;> rfl

end Refines

end Proc

end PostgresQueue.Library
