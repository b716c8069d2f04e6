import Mathlib.Data.List.Nodup
import Mathlib.Data.List.Perm.Basic
import Mathlib.Tactic.Common

namespace PostgresQueue.Library

structure OrderedDict (κ α : Type) where
  entries : List (κ × α)
  nodup : (entries.map Prod.fst).Nodup

namespace OrderedDict

variable {κ ι α : Type}

def empty : OrderedDict κ α := ⟨[], List.nodup_nil⟩

def keys (d : OrderedDict κ α) : List κ := d.entries.map Prod.fst

def values (d : OrderedDict κ α) : List α := d.entries.map Prod.snd

theorem eq_of_key {d : OrderedDict κ α} {e e' : κ × α} (he : e ∈ d.entries) (he' : e' ∈ d.entries)
    (h : e.1 = e'.1) : e = e' :=
  List.inj_on_of_nodup_map d.nodup he he' h

section Updates

variable [DecidableEq κ]

def set (d : OrderedDict κ α) (k : κ) (a : α) : OrderedDict κ α :=
  if hk : k ∈ d.keys then
    ⟨d.entries.map fun e => if e.1 = k then (e.1, a) else e, by
      have hkeys : (d.entries.map fun e => if e.1 = k then (e.1, a) else e).map Prod.fst =
          d.entries.map Prod.fst := by
        rw [List.map_map]
        apply List.map_congr_left
        intro e _
        by_cases he : e.1 = k <;> simp [he]
      rw [hkeys]
      exact d.nodup⟩
  else
    ⟨d.entries ++ [(k, a)], by
      rw [List.map_append, List.nodup_append]
      refine ⟨d.nodup, by simp, ?_⟩
      rintro b hb c hc rfl
      obtain rfl : b = k := by simpa using hc
      exact hk hb⟩

def remove (d : OrderedDict κ α) (k : κ) : OrderedDict κ α :=
  ⟨d.entries.filter fun e => e.1 ≠ k, (List.filter_sublist.map _).nodup d.nodup⟩

/-- `none` is the `KeyError` of a key that is not there. -/
def pop? (d : OrderedDict κ α) (k : κ) : Option (α × OrderedDict κ α) :=
  (d.entries.find? fun e => e.1 = k).map fun e => (e.2, d.remove k)

theorem set_entries {d : OrderedDict κ α} {k : κ} (hk : k ∉ d.keys) (a : α) :
    (d.set k a).entries = d.entries ++ [(k, a)] := by
  rw [set, dif_neg hk]

theorem mem_of_mem_set {d : OrderedDict κ α} {k : κ} {a : α} {e : κ × α}
    (h : e ∈ (d.set k a).entries) : e = (k, a) ∨ e ∈ d.entries := by
  unfold set at h
  split_ifs at h with hk
  · obtain ⟨e', he', heq⟩ := List.mem_map.mp h
    split_ifs at heq with hk'
    · exact .inl (by rw [← heq, hk'])
    · exact .inr (heq ▸ he')
  · rcases List.mem_append.mp h with h | h
    · exact .inr h
    · exact .inl (List.mem_singleton.mp h)

def ofPairs (pairs : List (κ × α)) : OrderedDict κ α := pairs.foldl (fun d e => d.set e.1 e.2) empty

theorem foldl_set_entries {pairs : List (κ × α)} (d : OrderedDict κ α)
    (h : (pairs.map Prod.fst).Nodup) (hd : ∀ e ∈ pairs, e.1 ∉ d.keys) :
    (pairs.foldl (fun d e => d.set e.1 e.2) d).entries = d.entries ++ pairs := by
  induction pairs generalizing d with
  | nil => simp
  | cons e rest ih =>
    rw [List.map_cons, List.nodup_cons] at h
    have hset := set_entries (hd e List.mem_cons_self) e.2
    rw [List.foldl_cons, ih _ h.2, hset, List.append_assoc]
    · rfl
    · intro e' he'
      rw [keys, hset, List.map_append, List.mem_append]
      rintro (hk | hk)
      · exact hd e' (List.mem_cons_of_mem _ he') hk
      · have heq : e'.1 = e.1 := by simpa using hk
        exact h.1 (heq ▸ List.mem_map_of_mem he')

theorem ofPairs_entries {pairs : List (κ × α)} (h : (pairs.map Prod.fst).Nodup) :
    (ofPairs pairs).entries = pairs :=
  foldl_set_entries empty h fun _ _ => List.not_mem_nil

theorem mem_of_mem_ofPairs {pairs : List (κ × α)} {e : κ × α} (h : e ∈ (ofPairs pairs).entries) :
    e ∈ pairs := by
  have hfold : ∀ d : OrderedDict κ α,
      e ∈ (pairs.foldl (fun d e => d.set e.1 e.2) d).entries → e ∈ d.entries ∨ e ∈ pairs := by
    clear h
    induction pairs with
    | nil => exact fun d h => .inl h
    | cons e' rest ih =>
      intro d h
      rcases ih (d.set e'.1 e'.2) h with h | h
      · rcases mem_of_mem_set h with rfl | h
        · exact .inr List.mem_cons_self
        · exact .inl h
      · exact .inr (List.mem_cons_of_mem _ h)
  rcases hfold empty h with h | h
  · cases h
  · exact h

theorem pop?_of_mem {d : OrderedDict κ α} {k : κ} {a : α} (h : (k, a) ∈ d.entries) :
    d.pop? k = some (a, d.remove k) := by
  unfold pop?
  cases hf : d.entries.find? fun e => e.1 = k with
  | none => exact absurd (List.find?_eq_none.mp hf _ h) (by simp)
  | some e =>
    have hk : e.1 = k := by simpa using List.find?_some hf
    obtain rfl : e = (k, a) := d.eq_of_key (List.mem_of_find?_eq_some hf) h hk
    rfl

theorem mem_of_pop? {d d' : OrderedDict κ α} {k : κ} {a : α} (h : d.pop? k = some (a, d')) :
    (k, a) ∈ d.entries := by
  unfold pop? at h
  obtain ⟨e, hf, he⟩ := Option.map_eq_some_iff.mp h
  cases he
  obtain rfl : e.1 = k := by simpa using List.find?_some hf
  exact List.mem_of_find?_eq_some hf

theorem mem_remove_keys {d : OrderedDict κ α} {k k' : κ} :
    k' ∈ (d.remove k).keys ↔ k' ∈ d.keys ∧ k' ≠ k := by
  simp only [remove, keys, List.mem_map, List.mem_filter, decide_eq_true_eq]
  constructor
  · rintro ⟨e, ⟨he, hk⟩, rfl⟩
    exact ⟨⟨e, he, rfl⟩, hk⟩
  · rintro ⟨⟨e, he, rfl⟩, hk⟩
    exact ⟨e, ⟨he, hk⟩, rfl⟩

theorem remove_perm {d : OrderedDict κ α} {k : κ} {a : α} (h : (k, a) ∈ d.entries) :
    d.entries.Perm ((k, a) :: (d.remove k).entries) := by
  have hnodup : d.entries.Nodup := List.Nodup.of_map _ d.nodup
  have hnot : (k, a) ∉ (d.remove k).entries := by simp [remove]
  refine (List.perm_ext_iff_of_nodup hnodup
    (List.nodup_cons.mpr ⟨hnot, hnodup.filter _⟩)).mpr fun e => ?_
  rw [List.mem_cons, remove, List.mem_filter]
  constructor
  · intro he
    by_cases hk : e.1 = k
    · exact .inl (d.eq_of_key he h hk)
    · exact .inr ⟨he, by simpa using hk⟩
  · rintro (rfl | ⟨he, -⟩)
    exacts [h, he]

theorem length_set_le (d : OrderedDict κ α) (k : κ) (a : α) :
    (d.set k a).entries.length ≤ d.entries.length + 1 := by
  unfold set
  split_ifs <;> simp

theorem length_pop? {d d' : OrderedDict κ α} {k : κ} {a : α} (h : d.pop? k = some (a, d')) :
    d'.entries.length + 1 = d.entries.length := by
  have hperm := remove_perm (mem_of_pop? h)
  obtain ⟨e, -, he⟩ := Option.map_eq_some_iff.mp h
  rw [← (Prod.mk.inj he).2]
  exact hperm.length_eq.symm

end Updates

/-- The second dictionary finds an entry of the first by what `f` reads of its value. -/
def Indexes (f : α → ι) (d : OrderedDict κ α) (ix : OrderedDict ι κ) : Prop :=
  ix.entries = d.entries.map fun e => (f e.2, e.1)

namespace Indexes

variable {f : α → ι} {d : OrderedDict κ α} {ix : OrderedDict ι κ}

theorem empty : Indexes f (OrderedDict.empty : OrderedDict κ α) OrderedDict.empty := rfl

theorem keys_eq (h : Indexes f d ix) : ix.keys = d.values.map f := by
  rw [keys, values, h, List.map_map, List.map_map]
  rfl

theorem mem_iff (h : Indexes f d ix) {i : ι} {k : κ} :
    (i, k) ∈ ix.entries ↔ ∃ a, (k, a) ∈ d.entries ∧ f a = i := by
  rw [h, List.mem_map]
  constructor
  · rintro ⟨e, he, heq⟩
    cases heq
    exact ⟨e.2, he, rfl⟩
  · rintro ⟨a, ha, rfl⟩
    exact ⟨(k, a), ha, rfl⟩

variable [DecidableEq κ] [DecidableEq ι]

theorem set (h : Indexes f d ix) {k : κ} {a : α} (hk : k ∉ d.keys) (hi : f a ∉ ix.keys) :
    Indexes f (d.set k a) (ix.set (f a) k) := by
  rw [Indexes, set_entries hk, set_entries hi, h, List.map_append]
  rfl

theorem pop (h : Indexes f d ix) {i : ι} (hi : i ∈ ix.keys) :
    ∃ k a, f a = i ∧ ix.pop? i = some (k, ix.remove i) ∧ d.pop? k = some (a, d.remove k) ∧
      Indexes f (d.remove k) (ix.remove i) := by
  obtain ⟨⟨i, k⟩, hm, rfl⟩ := List.mem_map.mp hi
  obtain ⟨a, ha, rfl⟩ := h.mem_iff.mp hm
  refine ⟨k, a, rfl, pop?_of_mem hm, pop?_of_mem ha, ?_⟩
  -- An entry has the popped key exactly when its value has the popped index.
  have hsame : ∀ e ∈ d.entries, (f e.2 = f a ↔ e.1 = k) := by
    intro e he
    constructor
    · intro hf
      have hix : (f e.2, e.1) ∈ ix.entries := h.mem_iff.mpr ⟨e.2, he, rfl⟩
      exact congrArg Prod.snd (ix.eq_of_key hix hm hf)
    · intro hk
      rw [d.eq_of_key he ha hk]
  change ix.entries.filter _ = (d.entries.filter _).map _
  rw [h, List.filter_map]
  congr 1
  apply List.filter_congr
  intro e he
  simp [hsame e he]

end Indexes

end OrderedDict

end PostgresQueue.Library
