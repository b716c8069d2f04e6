import Mathlib.Data.List.Nodup
import Mathlib.Tactic.Common

namespace PostgresQueue.Library

/-- Rows under a primary key drawn from a counter and a uniqueness constraint on the
columns `uniq`. Rows that clash are one row, so a violating table cannot be built. -/
@[ext] structure Table {R U : Type} (key : R → ℕ) (uniq : R → U) (clash : U → U → Bool) where
  rows : List R
  next : ℕ
  key_lt : ∀ r ∈ rows, key r < next
  key_nodup : (rows.map key).Nodup
  clash_key : ∀ r ∈ rows, ∀ q ∈ rows, clash (uniq r) (uniq q) = true → key r = key q

namespace Table

variable {R U : Type} {key : R → ℕ} {uniq : R → U} {clash : U → U → Bool}

instance : Membership R (Table key uniq clash) := ⟨fun T r => r ∈ T.rows⟩

@[simp] theorem mem_rows {T : Table key uniq clash} {r : R} : r ∈ T.rows ↔ r ∈ T := Iff.rfl

theorem eq_of_key (T : Table key uniq clash) {r q : R} (hr : r ∈ T) (hq : q ∈ T)
    (h : key r = key q) : r = q :=
  List.inj_on_of_nodup_map T.key_nodup hr hq h

theorem eq_of_clash (T : Table key uniq clash) {r q : R} (hr : r ∈ T) (hq : q ∈ T)
    (h : clash (uniq r) (uniq q) = true) : r = q :=
  T.eq_of_key hr hq (T.clash_key r hr q hq h)

def empty : Table key uniq clash where
  rows := []
  next := 1
  key_lt := by simp
  key_nodup := by simp
  clash_key := by simp

theorem not_mem_empty (r : R) : r ∉ (empty : Table key uniq clash) := List.not_mem_nil

def find? (T : Table key uniq clash) (p : R → Bool) : Option R := T.rows.find? p

theorem mem_of_find? {T : Table key uniq clash} {p : R → Bool} {r : R} (h : T.find? p = some r) :
    r ∈ T ∧ p r = true :=
  ⟨List.mem_of_find?_eq_some h, List.find?_some h⟩

theorem find?_isSome {T : Table key uniq clash} {p : R → Bool} {r : R} (hr : r ∈ T)
    (hp : p r = true) : ∃ q, T.find? p = some q := by
  have h : (T.rows.find? p).isSome := List.find?_isSome.mpr ⟨r, hr, hp⟩
  exact Option.isSome_iff_exists.mp h

theorem find?_eq_some_of_key {T : Table key uniq clash} {p : R → Bool} {r : R} (hr : r ∈ T)
    (hp : p r = true) (hk : ∀ q ∈ T, p q = true → key q = key r) : T.find? p = some r := by
  obtain ⟨q, hq⟩ := find?_isSome hr hp
  obtain ⟨hm, hpq⟩ := mem_of_find? hq
  rw [hq, T.eq_of_key hm hr (hk q hm hpq)]

theorem find?_eq_none {T : Table key uniq clash} {p : R → Bool} :
    T.find? p = none ↔ ∀ r ∈ T, p r = false := by
  simp only [find?, List.find?_eq_none, Bool.not_eq_true]
  rfl

def conflict? (T : Table key uniq clash) (r : R) : Option R :=
  T.find? fun q => clash (uniq r) (uniq q) || clash (uniq q) (uniq r)

theorem no_clash_of_conflict? {T : Table key uniq clash} {r q : R} (h : T.conflict? r = none)
    (hq : q ∈ T) : clash (uniq r) (uniq q) = false ∧ clash (uniq q) (uniq r) = false := by
  simpa using find?_eq_none.mp h q hq

def insert (T : Table key uniq clash) (mk : ℕ → R) (hmk : ∀ n, key (mk n) = n)
    (h : T.conflict? (mk T.next) = none) : Table key uniq clash where
  rows := T.rows ++ [mk T.next]
  next := T.next + 1
  key_lt := by
    intro r hr
    rcases List.mem_append.mp hr with hr | hr
    · exact Nat.lt_succ_of_lt (T.key_lt r hr)
    · rw [List.mem_singleton.mp hr, hmk]
      exact Nat.lt_succ_self _
  key_nodup := by
    rw [List.map_append, List.nodup_append]
    refine ⟨T.key_nodup, by simp, ?_⟩
    intro a ha b hb
    obtain ⟨r, hr, rfl⟩ := List.mem_map.mp ha
    simp only [List.map_cons, List.map_nil, List.mem_singleton, hmk] at hb
    have := T.key_lt r hr
    omega
  clash_key := by
    intro r hr q hq hc
    rcases List.mem_append.mp hr with hr | hr <;> rcases List.mem_append.mp hq with hq | hq
    · exact T.clash_key r hr q hq hc
    · rw [List.mem_singleton.mp hq] at hc
      simp [(no_clash_of_conflict? h hr).2] at hc
    · rw [List.mem_singleton.mp hr] at hc
      simp [(no_clash_of_conflict? h hq).1] at hc
    · rw [List.mem_singleton.mp hr, List.mem_singleton.mp hq]

theorem mem_insert {T : Table key uniq clash} {mk : ℕ → R} {hmk : ∀ n, key (mk n) = n}
    {h : T.conflict? (mk T.next) = none} {r : R} :
    r ∈ T.insert mk hmk h ↔ r ∈ T ∨ r = mk T.next := by
  change r ∈ T.rows ++ [mk T.next] ↔ _
  rw [List.mem_append, List.mem_singleton]
  rfl

def update (T : Table key uniq clash) (p : R → Bool) (f : R → R)
    (hf : ∀ r, key (f r) = key r ∧ uniq (f r) = uniq r := by intro r; exact ⟨rfl, rfl⟩) :
    Table key uniq clash where
  rows := T.rows.map fun r => if p r then f r else r
  next := T.next
  key_lt := by
    intro r hr
    obtain ⟨q, hq, rfl⟩ := List.mem_map.mp hr
    have := T.key_lt q hq
    split_ifs
    · rwa [(hf q).1]
    · exact this
  key_nodup := by
    rw [List.map_map]
    have he : key ∘ (fun r => if p r then f r else r) = key := by
      funext r
      simp only [Function.comp_apply]
      split_ifs
      · exact (hf r).1
      · rfl
    rw [he]
    exact T.key_nodup
  clash_key := by
    have hk : ∀ r, key (if p r then f r else r) = key r := by
      intro r; split_ifs; exacts [(hf r).1, rfl]
    have hu : ∀ r, uniq (if p r then f r else r) = uniq r := by
      intro r; split_ifs; exacts [(hf r).2, rfl]
    intro r' hr' q' hq' hc
    obtain ⟨r, hr, rfl⟩ := List.mem_map.mp hr'
    obtain ⟨q, hq, rfl⟩ := List.mem_map.mp hq'
    rw [hu, hu] at hc
    rw [hk, hk]
    exact T.clash_key r hr q hq hc

section Update

variable {T : Table key uniq clash} {p : R → Bool} {f : R → R}
  {hf : ∀ r, key (f r) = key r ∧ uniq (f r) = uniq r}

theorem mem_update {r : R} : r ∈ T.update p f hf ↔
    ∃ q ∈ T, (p q = true ∧ r = f q) ∨ (p q = false ∧ r = q) := by
  change r ∈ T.rows.map _ ↔ _
  rw [List.mem_map]
  apply exists_congr
  intro q
  apply and_congr_right
  intro _
  cases p q <;> simp [eq_comm]

theorem update_eq_self_iff : T.update p f hf = T ↔ ∀ r ∈ T, p r = true → f r = r := by
  rw [Table.ext_iff]
  change T.rows.map (fun r => if p r then f r else r) = T.rows ∧ T.next = T.next ↔ _
  rw [and_iff_left rfl]
  nth_rewrite 2 [← List.map_id T.rows]
  rw [List.map_inj_left]
  apply forall₂_congr
  intro r _
  cases p r <;> simp

end Update

theorem insert_ne_self {T : Table key uniq clash} {mk : ℕ → R} (hmk : ∀ n, key (mk n) = n)
    (h : T.conflict? (mk T.next) = none) : T.insert mk hmk h ≠ T := by
  intro he
  have hnext : T.next + 1 = T.next := congrArg Table.next he
  omega

def delete (T : Table key uniq clash) (p : R → Bool) : Table key uniq clash where
  rows := T.rows.filter fun r => !p r
  next := T.next
  key_lt := fun r hr => T.key_lt r (List.mem_of_mem_filter hr)
  key_nodup := (List.filter_sublist.map key).nodup T.key_nodup
  clash_key := fun r hr q hq =>
    T.clash_key r (List.mem_of_mem_filter hr) q (List.mem_of_mem_filter hq)

theorem mem_delete {T : Table key uniq clash} {p : R → Bool} {r : R} :
    r ∈ T.delete p ↔ r ∈ T ∧ p r = false := by
  change r ∈ T.rows.filter _ ↔ _
  rw [List.mem_filter, Bool.not_eq_true']
  rfl

structure Replaces (T : Table key uniq clash) (r r' : R) (T' : Table key uniq clash) : Prop where
  mem : r ∈ T
  key_eq : key r' = key r
  uniq_eq : uniq r' = uniq r
  next_eq : T'.next = T.next
  mem_iff : ∀ q, q ∈ T' ↔ q = r' ∨ (q ∈ T ∧ key q ≠ key r)

structure Inserts (T : Table key uniq clash) (r : R) (T' : Table key uniq clash) : Prop where
  key_eq : key r = T.next
  next_eq : T'.next = T.next + 1
  mem_iff : ∀ q, q ∈ T' ↔ q = r ∨ q ∈ T

section Change

variable {T T' : Table key uniq clash} {r r' : R}

theorem insert_inserts {mk : ℕ → R} {hmk : ∀ n, key (mk n) = n}
    {h : T.conflict? (mk T.next) = none} : T.Inserts (mk T.next) (T.insert mk hmk h) :=
  ⟨hmk _, rfl, fun _ => mem_insert.trans or_comm⟩

theorem update_replaces {f : R → R} {hf : ∀ r, key (f r) = key r ∧ uniq (f r) = uniq r}
    (hr : r ∈ T) (he : f r = r') : T.Replaces r r' (T.update (fun q => key q == key r) f hf) := by
  subst he
  refine ⟨hr, (hf r).1, (hf r).2, rfl, fun q => ?_⟩
  rw [mem_update]
  constructor
  · rintro ⟨q₀, hq₀, ⟨hk, rfl⟩ | ⟨hk, rfl⟩⟩
    · exact .inl (by rw [T.eq_of_key hq₀ hr (beq_iff_eq.mp hk)])
    · exact .inr ⟨hq₀, by simpa using hk⟩
  · rintro (rfl | ⟨hq, hk⟩)
    · exact ⟨r, hr, .inl ⟨beq_self_eq_true _, rfl⟩⟩
    · exact ⟨q, hq, .inr ⟨by simpa using hk, rfl⟩⟩

namespace Replaces

theorem mem_new (h : T.Replaces r r' T') : r' ∈ T' := (h.mem_iff r').mpr (.inl rfl)

theorem keep (h : T.Replaces r r' T') {q : R} (hq : q ∈ T) (hk : key q ≠ key r) : q ∈ T' :=
  (h.mem_iff q).mpr (.inr ⟨hq, hk⟩)

theorem fate (h : T.Replaces r r' T') {q : R} (hq : q ∈ T) : (q = r ∧ r' ∈ T') ∨ q ∈ T' := by
  by_cases hk : key q = key r
  · exact .inl ⟨T.eq_of_key hq h.mem hk, h.mem_new⟩
  · exact .inr (h.keep hq hk)

theorem origin (h : T.Replaces r r' T') {q : R} (hq : q ∈ T') :
    q = r' ∨ (q ∈ T ∧ key q ≠ key r) := (h.mem_iff q).mp hq

end Replaces

namespace Inserts

theorem mem_new (h : T.Inserts r T') : r ∈ T' := (h.mem_iff r).mpr (.inl rfl)

theorem keep (h : T.Inserts r T') {q : R} (hq : q ∈ T) : q ∈ T' := (h.mem_iff q).mpr (.inr hq)

theorem key_ne (h : T.Inserts r T') {q : R} (hq : q ∈ T) : key q ≠ key r := by
  have := T.key_lt q hq
  rw [h.key_eq]
  omega

end Inserts

/-- Each row that has an old key comes from the row with that key, and stands in `S` to it. -/
structure Evolves (S : R → R → Prop) (T T' : Table key uniq clash) : Prop where
  next_le : T.next ≤ T'.next
  origin : ∀ q ∈ T', (∃ p ∈ T, key p = key q ∧ S p q) ∨ T.next ≤ key q

namespace Evolves

variable {S : R → R → Prop} {T'' : Table key uniq clash}

theorem of_sublist (hrefl : ∀ p, S p p) (hnext : T'.next = T.next) (h : ∀ q ∈ T', q ∈ T) :
    T.Evolves S T' :=
  ⟨Nat.le_of_eq hnext.symm, fun q hq => .inl ⟨q, h q hq, rfl, hrefl q⟩⟩

theorem trans (htrans : ∀ p q r, S p q → S q r → S p r) (h : T.Evolves S T')
    (h' : T'.Evolves S T'') : T.Evolves S T'' := by
  refine ⟨Nat.le_trans h.next_le h'.next_le, fun r hr => ?_⟩
  rcases h'.origin r hr with ⟨q, hq, hkq, hqr⟩ | hle
  · rcases h.origin q hq with ⟨p, hp, hkp, hpq⟩ | hle
    · exact .inl ⟨p, hp, hkp.trans hkq, htrans p q r hpq hqr⟩
    · exact .inr (hkq ▸ hle)
  · exact .inr (Nat.le_trans h.next_le hle)

theorem of_replaces (hrefl : ∀ p, S p p) (h : T.Replaces r r' T') (hs : S r r') :
    T.Evolves S T' := by
  refine ⟨Nat.le_of_eq h.next_eq.symm, fun q hq => .inl ?_⟩
  rcases h.origin hq with rfl | ⟨hq, -⟩
  · exact ⟨r, h.mem, h.key_eq.symm, hs⟩
  · exact ⟨q, hq, rfl, hrefl q⟩

theorem of_inserts (hrefl : ∀ p, S p p) (h : T.Inserts r T') : T.Evolves S T' := by
  refine ⟨by rw [h.next_eq]; exact Nat.le_succ _, fun q hq => ?_⟩
  rcases (h.mem_iff q).mp hq with rfl | hq
  · exact .inr (Nat.le_of_eq h.key_eq.symm)
  · exact .inl ⟨q, hq, rfl, hrefl q⟩

end Evolves

end Change

/-- `SELECT ... WHERE p`, where evaluating the condition on a row can raise. -/
def select {ε : Type} (p : R → Except ε Bool) : List R → Except ε (List R)
  | [] => .ok []
  | r :: rs => do
    let hit ← p r
    let rest ← select p rs
    return if hit then r :: rest else rest

theorem select_sublist {ε : Type} {p : R → Except ε Bool} {rs out : List R}
    (h : select p rs = .ok out) : out.Sublist rs := by
  induction rs generalizing out with
  | nil => cases h; exact .slnil
  | cons q rs ih =>
    cases hq : p q with
    | error e => simp [select, hq, bind, Except.bind] at h
    | ok hit =>
      cases hs : select p rs with
      | error e => simp [select, hq, hs, bind, Except.bind] at h
      | ok rest =>
        simp only [select, hq, hs, bind, Except.bind, pure, Except.pure, Except.ok.injEq] at h
        subst h
        split_ifs
        exacts [(ih hs).cons_cons q, (ih hs).cons q]

theorem select_isOk {ε : Type} {p : R → Except ε Bool} {rs : List R} :
    (∃ out, select p rs = .ok out) ↔ ∀ r ∈ rs, ∃ hit, p r = .ok hit := by
  induction rs with
  | nil => exact iff_of_true ⟨[], rfl⟩ fun _ h => nomatch h
  | cons q rs ih =>
    rw [List.forall_mem_cons, ← ih]
    cases hq : p q with
    | error e => simp [select, hq, bind, Except.bind]
    | ok hit =>
      cases hs : select p rs with
      | error e => simp [select, hq, hs, bind, Except.bind]
      | ok rest => simp [select, hq, hs, bind, Except.bind, pure, Except.pure]

theorem mem_select {ε : Type} {p : R → Except ε Bool} {rs out : List R} (h : select p rs = .ok out)
    {r : R} : r ∈ out ↔ r ∈ rs ∧ p r = .ok true := by
  induction rs generalizing out with
  | nil => cases h; simp
  | cons q rs ih =>
    cases hq : p q with
    | error e => simp [select, hq, bind, Except.bind] at h
    | ok hit =>
      cases hs : select p rs with
      | error e => simp [select, hq, hs, bind, Except.bind] at h
      | ok rest =>
        have ih := ih hs
        simp only [select, hq, hs, bind, Except.bind, pure, Except.pure, Except.ok.injEq] at h
        subst h
        have hne : hit = false → (r = q → p r ≠ .ok true) := by
          rintro rfl rfl hp; simp [hq] at hp
        cases hit with
        | true =>
          simp only [if_true, List.mem_cons, ih]
          constructor
          · rintro (rfl | ⟨hr, hp⟩)
            exacts [⟨.inl rfl, hq⟩, ⟨.inr hr, hp⟩]
          · rintro ⟨rfl | hr, hp⟩
            exacts [.inl rfl, .inr ⟨hr, hp⟩]
        | false =>
          simp only [Bool.false_eq_true, if_false, List.mem_cons, ih]
          constructor
          · rintro ⟨hr, hp⟩
            exact ⟨.inr hr, hp⟩
          · rintro ⟨hr | hr, hp⟩
            exacts [absurd hp (hne rfl hr), ⟨hr, hp⟩]

end Table

end PostgresQueue.Library
