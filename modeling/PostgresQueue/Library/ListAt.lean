import Mathlib.Data.List.Basic
import Mathlib.Order.Basic

namespace PostgresQueue.Library

theorem split_at {α : Type} {xs : List α} {j : ℕ} {x : α} (h : xs[j]? = some x) :
    ∃ l r, xs = l ++ x :: r ∧ xs.eraseIdx j = l ++ r ∧ ∀ f, xs.modify j f = l ++ f x :: r := by
  obtain ⟨hj, rfl⟩ := List.getElem?_eq_some_iff.mp h
  refine ⟨xs.take j, xs.drop (j + 1), ?_, List.eraseIdx_eq_take_drop_succ xs j, fun f => ?_⟩
  · rw [List.getElem_cons_drop, List.take_append_drop]
  · exact List.modify_eq_take_cons_drop hj

theorem getElem?_modify_eq_some {α : Type} {xs : List α} {i j : ℕ} {f : α → α} {y : α}
    (h : (xs.modify i f)[j]? = some y) : (i = j ∧ ∃ x, xs[j]? = some x ∧ y = f x) ∨
      (i ≠ j ∧ xs[j]? = some y) := by
  rw [List.getElem?_modify] at h
  by_cases hij : i = j
  · simp only [hij, if_true, Option.map_eq_map, Option.map_eq_some_iff] at h
    obtain ⟨x, hx, rfl⟩ := h
    exact .inl ⟨hij, x, hx, rfl⟩
  · simp only [if_neg hij, Option.map_eq_map, Option.map_id'] at h
    exact .inr ⟨hij, h⟩

theorem getElem?_modify_of_ne {α : Type} {xs : List α} {i j : ℕ} {x : α} (hij : i ≠ j)
    (h : xs[j]? = some x) (f : α → α) : (xs.modify i f)[j]? = some x := by
  simp [hij, h]

theorem getElem?_append_singleton {α : Type} {xs : List α} {j : ℕ} {x y : α}
    (h : (xs ++ [x])[j]? = some y) : xs[j]? = some y ∨ (j = xs.length ∧ y = x) := by
  rcases Nat.lt_trichotomy j xs.length with hj | rfl | hj
  · rw [List.getElem?_append_left hj] at h
    exact .inl h
  · rw [List.getElem?_concat_length] at h
    exact .inr ⟨rfl, (Option.some.inj h).symm⟩
  · rw [List.getElem?_eq_none (by simp; omega)] at h
    cases h

theorem getElem?_append_singleton_of_ne {α : Type} {xs : List α} {j : ℕ} (hj : j ≠ xs.length)
    (x : α) : (xs ++ [x])[j]? = xs[j]? := by
  rcases Nat.lt_or_gt_of_ne hj with hlt | hgt
  · exact List.getElem?_append_left hlt
  · rw [List.getElem?_eq_none (by simp; omega), List.getElem?_eq_none (by omega)]

end PostgresQueue.Library
