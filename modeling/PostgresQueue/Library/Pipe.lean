import Mathlib.Data.List.Basic
import Mathlib.Tactic.Common

namespace PostgresQueue.Library

structure Pipe (α : Type) where
  capacity : ℕ
  content : List α
  pos : 0 < capacity
  fits : content.length ≤ capacity

namespace Pipe

variable {α : Type}

def empty (capacity : ℕ) (pos : 0 < capacity) : Pipe α := ⟨capacity, [], pos, Nat.zero_le _⟩

variable (p : Pipe α)

def room : ℕ := p.capacity - p.content.length

def write? (xs : List α) : Option (Pipe α) :=
  if h : p.content.length + xs.length ≤ p.capacity then
    some { p with content := p.content ++ xs, fits := by rwa [List.length_append] }
  else none

def read (n : ℕ) : List α × Pipe α :=
  (p.content.take n, { p with
    content := p.content.drop n
    fits := by
      rw [List.length_drop]
      exact Nat.le_trans (Nat.sub_le _ _) p.fits })

def Carries (sent received : List α) : Prop := received ++ p.content = sent

variable {p} {p' : Pipe α} {xs sent received : List α}

theorem write?_content (h : p.write? xs = some p') : p'.content = p.content ++ xs := by
  unfold write? at h
  split_ifs at h
  cases h
  rfl

theorem read_content (n : ℕ) : (p.read n).2.content = p.content.drop n := rfl

theorem content_ne_nil (h : p.room = 0) : p.content ≠ [] := by
  intro hempty
  have hpos := p.pos
  rw [room, hempty, List.length_nil] at h
  omega

theorem Carries.init (capacity : ℕ) (pos : 0 < capacity) :
    (empty capacity pos : Pipe α).Carries [] [] := rfl

theorem Carries.write (h : p.Carries sent received) (hw : p.write? xs = some p') :
    p'.Carries (sent ++ xs) received := by
  unfold Carries at h ⊢
  rw [write?_content hw, ← List.append_assoc, h]

theorem Carries.read (h : p.Carries sent received) (n : ℕ) :
    (p.read n).2.Carries sent (received ++ (p.read n).1) := by
  unfold Carries at h ⊢
  rw [List.append_assoc, Pipe.read, List.take_append_drop, h]

theorem Carries.complete (h : p.Carries sent received) (hempty : p.content = []) :
    received = sent := by
  rw [← h, hempty, List.append_nil]

end Pipe

end PostgresQueue.Library
