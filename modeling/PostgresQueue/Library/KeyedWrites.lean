import Mathlib.Data.List.Sort
import Mathlib.Logic.Function.Basic

namespace PostgresQueue.Library

section Writes

variable {α β κ : Type} [DecidableEq κ] (f : β → α → β) (key : α → κ)

def write (m : κ → β) (a : α) : κ → β := Function.update m (key a) (f (m (key a)) a)

def writeAll (m : κ → β) (as : List α) : κ → β := as.foldl (write f key) m

theorem writeAll_apply (m : κ → β) (as : List α) (k : κ) :
    writeAll f key m as k = (as.filter fun a => key a = k).foldl f (m k) := by
  induction as generalizing m with
  | nil => rfl
  | cons a as ih =>
    change writeAll f key (write f key m a) as k = _
    rw [ih]
    by_cases hk : key a = k
    · subst hk
      simp [write]
    · simp [write, hk, Function.update_of_ne (Ne.symm hk)]

theorem writeAll_congr {as bs : List α}
    (h : ∀ k, (as.filter fun a => key a = k) = bs.filter fun a => key a = k) (m : κ → β) :
    writeAll f key m as = writeAll f key m bs := by
  funext k
  rw [writeAll_apply, writeAll_apply, h]

end Writes

section Stable

variable {α κ : Type} [LinearOrder κ] (key : α → κ)

theorem filter_insertionSort (as : List α) (k : κ) :
    ((as.insertionSort fun a b => key a ≤ key b).filter fun a => key a = k) =
      as.filter fun a => key a = k := by
  have hpair : (as.filter fun a => key a = k).Pairwise fun a b => key a ≤ key b := by
    refine List.pairwise_of_forall_mem_list fun a ha b hb => ?_
    rw [List.mem_filter, decide_eq_true_eq] at ha hb
    rw [ha.2, hb.2]
  have hsub := List.sublist_insertionSort hpair List.filter_sublist
  have hfilter := hsub.filter fun a => decide (key a = k)
  simp only [List.filter_filter, Bool.and_self] at hfilter
  have hlen := ((List.perm_insertionSort (fun a b => key a ≤ key b) as).filter
    fun a => decide (key a = k)).length_eq
  exact (hfilter.eq_of_length hlen.symm).symm

end Stable

section First

variable {α : Type} (r : α → α → Prop)

def IsFirst (as : List α) (a : α) : Prop :=
  ∃ before after, as = before ++ a :: after ∧ (∀ b ∈ before, ¬r b a) ∧ ∀ b ∈ after, r a b

variable {r}

theorem IsFirst.mem {as : List α} {a : α} (h : IsFirst r as a) : a ∈ as := by
  obtain ⟨before, after, rfl, -⟩ := h
  exact List.mem_append_right _ List.mem_cons_self

theorem isFirst_cons {as : List α} {a x : α} :
    IsFirst r (x :: as) a ↔ (a = x ∧ ∀ b ∈ as, r x b) ∨ (¬r x a ∧ IsFirst r as a) := by
  constructor
  · rintro ⟨before, after, he, hbefore, hafter⟩
    cases before with
    | nil =>
      cases he
      exact .inl ⟨rfl, hafter⟩
    | cons y before =>
      cases he
      rw [List.forall_mem_cons] at hbefore
      exact .inr ⟨hbefore.1, before, after, rfl, hbefore.2, hafter⟩
  · rintro (⟨rfl, h⟩ | ⟨hx, before, after, rfl, hbefore, hafter⟩)
    · exact ⟨[], as, rfl, nofun, h⟩
    · exact ⟨x :: before, after, rfl, List.forall_mem_cons.mpr ⟨hx, hbefore⟩, hafter⟩

variable [Std.Total r]

theorem IsFirst.least {as : List α} {a b : α} (h : IsFirst r as a) (hb : b ∈ as) : r a b := by
  obtain ⟨before, after, rfl, hbefore, hafter⟩ := h
  rcases List.mem_append.mp hb with hm | hm
  · exact (total_of r b a).resolve_left (hbefore b hm)
  · rcases List.mem_cons.mp hm with rfl | hm
    · exact (total_of r b b).elim id id
    · exact hafter b hm

theorem head?_insertionSort [IsTrans α r] [DecidableRel r] {as : List α} {a : α} :
    (as.insertionSort r).head? = some a ↔ IsFirst r as a := by
  induction as generalizing a with
  | nil => exact iff_of_false (fun h => by cases h) fun h => List.not_mem_nil h.mem
  | cons x as ih =>
    rw [isFirst_cons, List.insertionSort_cons]
    cases hs : as.insertionSort r with
    | nil =>
      obtain rfl : as = [] := List.length_eq_zero_iff.mp (by
        rw [← List.length_insertionSort r as, hs, List.length_nil])
      simp [IsFirst, eq_comm]
    | cons y ys =>
      have hy : IsFirst r as y := ih.mp (by rw [hs, List.head?_cons])
      have honly : IsFirst r as a → a = y := fun h => by
        have he := ih.mpr h
        rw [hs] at he
        exact (Option.some.inj he).symm
      rw [List.orderedInsert_cons]
      split_ifs with hxy
      · have hleast : ∀ b ∈ as, r x b := fun b hb => IsTrans.trans _ _ _ hxy (hy.least hb)
        simp only [List.head?_cons, Option.some.injEq]
        constructor
        · rintro rfl
          exact .inl ⟨rfl, hleast⟩
        · rintro (⟨rfl, -⟩ | ⟨hx, h⟩)
          · rfl
          · exact absurd (honly h ▸ hxy) hx
      · simp only [List.head?_cons, Option.some.injEq]
        constructor
        · rintro rfl
          exact .inr ⟨hxy, hy⟩
        · rintro (⟨-, h⟩ | ⟨-, h⟩)
          · exact absurd (h y hy.mem) hxy
          · exact (honly h).symm

end First

end PostgresQueue.Library
