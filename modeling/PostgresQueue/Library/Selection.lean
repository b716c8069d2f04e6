import Mathlib.Data.List.Nodup
import Mathlib.Data.List.Perm.Subperm

namespace PostgresQueue.Library

/-- `taken` has been taken from `pool`, each time a least of what was left. -/
structure Taken {α : Type} (r : α → α → Prop) (pool taken : List α) : Prop where
  sorted : taken.Pairwise r
  nodup : taken.Nodup
  mem : ∀ a ∈ taken, a ∈ pool
  before : ∀ a ∈ taken, ∀ b ∈ pool, b ∉ taken → r a b

namespace Taken

variable {α : Type} {r : α → α → Prop} {pool taken : List α}

theorem start : Taken r pool [] :=
  ⟨.nil, .nil, fun _ h => absurd h List.not_mem_nil, fun _ h => absurd h List.not_mem_nil⟩

theorem take (h : Taken r pool taken) {a : α} (ha : a ∈ pool) (hnew : a ∉ taken)
    (hleast : ∀ b ∈ pool, b ∉ taken → r a b) : Taken r pool (taken ++ [a]) := by
  refine ⟨?_, ?_, fun b hb => ?_, fun b hb x hx hxt => ?_⟩
  · rw [List.pairwise_append]
    refine ⟨h.sorted, List.pairwise_singleton _ _, fun b hb x hx => ?_⟩
    rw [List.mem_singleton.mp hx]
    exact h.before b hb a ha hnew
  · rw [List.nodup_append]
    refine ⟨h.nodup, List.nodup_singleton a, fun b hb x hx hbx => ?_⟩
    rw [hbx, List.mem_singleton.mp hx] at hb
    exact hnew hb
  · rcases List.mem_append.mp hb with hb | hb
    · exact h.mem b hb
    · rwa [List.mem_singleton.mp hb]
  · rw [List.mem_append, not_or] at hxt
    rcases List.mem_append.mp hb with hb | hb
    · exact h.before b hb x hx hxt.1
    · rw [List.mem_singleton.mp hb]
      exact hleast x hx hxt.1

theorem subperm (h : Taken r pool taken) : taken.Subperm pool :=
  List.subperm_of_subset h.nodup h.mem

theorem perm_iff (h : Taken r pool taken) (hpool : pool.Nodup) :
    taken.Perm pool ↔ ∀ a ∈ pool, a ∈ taken := by
  constructor
  · intro hperm a ha
    exact hperm.mem_iff.mpr ha
  · intro hall
    rw [List.perm_ext_iff_of_nodup h.nodup hpool]
    exact fun a => ⟨h.mem a, hall a⟩

end Taken

end PostgresQueue.Library
