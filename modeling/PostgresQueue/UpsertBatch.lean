import Mathlib.Data.Option.Basic
import Mathlib.Data.String.Basic
import PostgresQueue.Library.KeyedWrites
import PostgresQueue.Parking

namespace PostgresQueue

open Library

variable {P : Type} {env : Env P} {conn : Conn} {start : ℕ}

def Upsert.Valid (env : Env P) (u : Upsert P) : Prop :=
  ∃ new, upsertStatement env u = .ok new ∧ env.columnsOk new = true

def SameUpToFreshIds (start : ℕ) (tasks tasks' : Tasks P) : Prop :=
  ∃ f : ℕ → ℕ, (∀ id < start, f id = id) ∧ (∀ id, start ≤ id → start ≤ f id) ∧
    (tasks.rows.map fun t => { t with id := f t.id }).Perm tasks'.rows

structure SameButFresh (start : ℕ) (t q : Task P) : Prop where
  eq : q = { t with id := q.id }
  id_eq : t.id = q.id ∨ (start ≤ t.id ∧ start ≤ q.id)

def upsertRow (conn : Conn) (start : ℕ) (row : Option (Task P)) (a : Upsert P × NewTask P) :
    Option (Task P) :=
  match row with
  | none => some (a.2.row conn start)
  | some t => some (a.2.onConflict conn t)

def clientRow (tasks : Tasks P) (c : ClientId) : Option (Task P) :=
  tasks.find? fun t => t.clientId == some c

theorem clientRow_eq_some {tasks : Tasks P} {c : ClientId} {t : Task P} :
    clientRow tasks c = some t ↔ t ∈ tasks ∧ t.clientId = some c := by
  constructor
  · intro h
    simpa using Table.mem_of_find? h
  · rintro ⟨ht, hc⟩
    refine Table.find?_eq_some_of_key ht (by simp [hc]) fun q hq hqc => ?_
    refine tasks.clash_key q hq t ht ?_
    rw [beq_iff_eq] at hqc
    simp [sameClient, hqc, hc]

theorem clientRow_eq_none {tasks : Tasks P} {c : ClientId} :
    clientRow tasks c = none ↔ ∀ t ∈ tasks, t.clientId ≠ some c := by
  simp [clientRow, Table.find?_eq_none]

namespace SameButFresh

variable {t q r : Task P}

theorem refl (t : Task P) : SameButFresh start t t := ⟨rfl, .inl rfl⟩

theorem symm (h : SameButFresh start t q) : SameButFresh start q t := by
  refine ⟨?_, ?_⟩
  · rw [h.eq]
  · rcases h.id_eq with he | ⟨ht, hq⟩
    exacts [.inl he.symm, .inr ⟨hq, ht⟩]

theorem trans (h : SameButFresh start t q) (h' : SameButFresh start q r) :
    SameButFresh start t r := by
  refine ⟨?_, ?_⟩
  · rw [h'.eq, h.eq]
  · rcases h.id_eq with he | ⟨ht, hq⟩ <;> rcases h'.id_eq with he' | ⟨hq', hr⟩
    · exact .inl (he.trans he')
    · exact .inr ⟨he ▸ hq', hr⟩
    · exact .inr ⟨ht, he' ▸ hq⟩
    · exact .inr ⟨ht, hr⟩

theorem onConflict (h : SameButFresh start t q) (conn : Conn) (new : NewTask P) :
    SameButFresh start (new.onConflict conn t) (new.onConflict conn q) := by
  refine ⟨?_, h.id_eq⟩
  rw [h.eq]
  rfl

end SameButFresh

structure Holds (start : ℕ) (tasks : Tasks P) (m : ClientId → Option (Task P)) : Prop where
  next : start ≤ tasks.next
  row : ∀ c, Option.Rel (SameButFresh start) (clientRow tasks c) (m c)

section Execute

variable {tasks tasks' : Tasks P} {c : ClientId} {new : NewTask P} {id : ℕ}

theorem executeUpsert_total (conn : Conn) (hc : env.columnsOk new = true) (tasks : Tasks P) :
    ∃ id tasks', executeUpsert env conn new tasks = .ok (id, tasks') := by
  unfold executeUpsert
  rw [if_pos hc]
  split
  exacts [⟨_, _, rfl⟩, ⟨_, _, rfl⟩]

theorem executeUpsert_refused (hc : env.columnsOk new = false) (tasks : Tasks P) :
    executeUpsert env conn new tasks = .error .dataError := by
  simp [executeUpsert, hc]

theorem executeUpsert_other (h : executeUpsert env conn new tasks = .ok (id, tasks')) {t : Task P}
    (ht : t.clientId ≠ new.clientId) : t ∈ tasks' ↔ t ∈ tasks := by
  rcases executeUpsert_ok h with ⟨-, hins⟩ | ⟨q, -, -, hqc, hrep⟩
  · rw [hins.mem_iff]
    refine or_iff_right fun he => ht ?_
    rw [he]
    rfl
  · constructor
    · intro hm
      rcases hrep.origin hm with rfl | ⟨hm, -⟩
      exacts [absurd hqc ht, hm]
    · intro hm
      rcases hrep.fate hm with ⟨rfl, -⟩ | hm
      exacts [absurd hqc ht, hm]

theorem clientRow_other (h : executeUpsert env conn new tasks = .ok (id, tasks')) {k : ClientId}
    (hk : new.clientId ≠ some k) : clientRow tasks' k = clientRow tasks k := by
  ext t
  simp only [clientRow_eq_some]
  apply and_congr_left
  intro ht
  exact executeUpsert_other h (ht ▸ hk.symm)

theorem clientRow_written (h : executeUpsert env conn new tasks = .ok (id, tasks'))
    (hnew : new.clientId = some c) (u : Upsert P) :
    clientRow tasks' c = upsertRow conn tasks.next (clientRow tasks c) (u, new) := by
  rcases executeUpsert_ok h with ⟨-, hins⟩ | ⟨q, -, -, hqc, hrep⟩
  · have hnone : clientRow tasks c = none := by
      refine clientRow_eq_none.mpr fun t ht htc => hins.key_ne ht ?_
      refine Table.clash_key _ t (hins.keep ht) _ hins.mem_new ?_
      simp [sameClient, NewTask.row, htc, hnew]
    rw [hnone]
    exact clientRow_eq_some.mpr ⟨hins.mem_new, hnew⟩
  · have hsome : clientRow tasks c = some q := clientRow_eq_some.mpr ⟨hrep.mem, hqc.trans hnew⟩
    rw [hsome]
    exact clientRow_eq_some.mpr ⟨hrep.mem_new, hqc.trans hnew⟩

theorem Holds.execute {m : ClientId → Option (Task P)} (hh : Holds start tasks m)
    (h : executeUpsert env conn new tasks = .ok (id, tasks')) {u : Upsert P}
    (hnew : new.clientId = some u.clientId) :
    Holds start tasks' (write (upsertRow conn start) (fun a => a.1.clientId) m (u, new)) := by
  constructor
  · have := hh.next
    rcases executeUpsert_ok h with ⟨-, hins⟩ | ⟨q, -, -, -, hrep⟩
    · rw [hins.next_eq]
      omega
    · rwa [hrep.next_eq]
  · intro k
    by_cases hk : u.clientId = k
    · subst hk
      rw [write, Function.update_self, clientRow_written h hnew u]
      have hrow := hh.row u.clientId
      generalize clientRow tasks u.clientId = row at hrow ⊢
      generalize m u.clientId = held at hrow ⊢
      cases hrow with
      | some hrel => exact .some (hrel.onConflict conn new)
      | none => exact .some ⟨rfl, .inr ⟨hh.next, le_rfl⟩⟩
    · have hne : new.clientId ≠ some k := by simpa [hnew] using hk
      rw [write, Function.update_of_ne (Ne.symm hk), clientRow_other h hne]
      exact hh.row k

end Execute

section Batch

variable {tasks tasks' : Tasks P} {items : List ((Upsert P × NewTask P) × ℕ)}
  {written : List (ℕ × ℕ)}

theorem executeAll_total (conn : Conn) (hc : ∀ a ∈ items, env.columnsOk a.1.2 = true) (tasks : Tasks P) :
    ∃ written tasks', executeAll env conn items tasks = .ok (written, tasks') := by
  induction items generalizing tasks with
  | nil => exact ⟨_, _, rfl⟩
  | cons a rest ih =>
    obtain ⟨id, mid, hx⟩ := executeUpsert_total conn (hc a (by simp)) tasks
    obtain ⟨written, tasks', hr⟩ := ih (fun b hb => hc b (by simp [hb])) mid
    exact ⟨_, _, by simp only [executeAll, hx, hr, bind, Except.bind]; rfl⟩

theorem executeAll_refused (conn : Conn) (hc : ∃ a ∈ items, env.columnsOk a.1.2 = false) (tasks : Tasks P) :
    ∃ e, executeAll env conn items tasks = .error e := by
  induction items generalizing tasks with
  | nil => simp at hc
  | cons a rest ih =>
    cases hx : executeUpsert env conn a.1.2 tasks with
    | error e => exact ⟨e, by simp only [executeAll, hx, bind, Except.bind]⟩
    | ok first =>
      have hok : env.columnsOk a.1.2 = true := by
        by_contra hne
        rw [executeUpsert_refused (by simpa using hne)] at hx
        cases hx
      have hrest : ∃ b ∈ rest, env.columnsOk b.1.2 = false := by
        simpa [hok] using hc
      obtain ⟨e, he⟩ := ih hrest first.2
      exact ⟨e, by simp only [executeAll, hx, he, bind, Except.bind]⟩

theorem Holds.executeAll {m : ClientId → Option (Task P)} (hh : Holds start tasks m)
    (hitems : ∀ a ∈ items, a.1.2.clientId = some a.1.1.clientId)
    (h : PostgresQueue.executeAll env conn items tasks = .ok (written, tasks')) :
    Holds start tasks'
      (writeAll (upsertRow conn start) (fun a => a.1.clientId) m (items.map Prod.fst)) := by
  induction items generalizing tasks m written with
  | nil => cases h; exact hh
  | cons a rest ih =>
    simp only [PostgresQueue.executeAll, bind_ok] at h
    obtain ⟨⟨id, mid⟩, hx, ⟨restIds, last⟩, hr, he⟩ := h
    cases he
    exact ih (hh.execute hx (hitems a (by simp))) (fun b hb => hitems b (by simp [hb])) hr

theorem executeAll_anonymous (hitems : ∀ a ∈ items, a.1.2.clientId.isSome)
    (h : executeAll env conn items tasks = .ok (written, tasks')) {t : Task P}
    (ht : t.clientId = none) : t ∈ tasks' ↔ t ∈ tasks := by
  induction items generalizing tasks written with
  | nil => cases h; rfl
  | cons a rest ih =>
    simp only [executeAll, bind_ok] at h
    obtain ⟨⟨id, mid⟩, hx, ⟨restIds, last⟩, hr, he⟩ := h
    cases he
    have hsome := hitems a (by simp)
    have hne : t.clientId ≠ a.1.2.clientId := by
      rw [ht]
      exact fun he => by simp [← he] at hsome
    exact (ih (fun b hb => hitems b (by simp [hb])) hr).trans (executeUpsert_other hx hne)

theorem executeUpsert_keeps {new : NewTask P} {id : ℕ}
    (h : executeUpsert env conn new tasks = .ok (id, tasks')) {t : Task P} (ht : t ∈ tasks) :
    ∃ q ∈ tasks', q.id = t.id ∧ q.clientId = t.clientId := by
  rcases executeUpsert_ok h with ⟨-, hins⟩ | ⟨r, -, -, -, hrep⟩
  · exact ⟨t, hins.keep ht, rfl, rfl⟩
  · rcases hrep.fate ht with ⟨rfl, hm⟩ | hm
    exacts [⟨_, hm, rfl, rfl⟩, ⟨t, hm, rfl, rfl⟩]

theorem executeUpsert_id {new : NewTask P} {id : ℕ}
    (h : executeUpsert env conn new tasks = .ok (id, tasks')) :
    ∃ q ∈ tasks', q.id = id ∧ q.clientId = new.clientId := by
  rcases executeUpsert_ok h with ⟨rfl, hins⟩ | ⟨r, rfl, -, hrc, hrep⟩
  · exact ⟨_, hins.mem_new, rfl, rfl⟩
  · exact ⟨_, hrep.mem_new, rfl, hrc⟩

theorem executeAll_keeps (h : executeAll env conn items tasks = .ok (written, tasks')) {t : Task P}
    (ht : t ∈ tasks) : ∃ q ∈ tasks', q.id = t.id ∧ q.clientId = t.clientId := by
  induction items generalizing tasks written t with
  | nil => cases h; exact ⟨t, ht, rfl, rfl⟩
  | cons a rest ih =>
    simp only [executeAll, bind_ok] at h
    obtain ⟨⟨id, mid⟩, hx, ⟨restIds, last⟩, hr, he⟩ := h
    cases he
    obtain ⟨q, hq, hid, hc⟩ := executeUpsert_keeps hx ht
    obtain ⟨r, hm, hid', hc'⟩ := ih hr hq
    exact ⟨r, hm, hid'.trans hid, hc'.trans hc⟩

theorem executeAll_ids (h : executeAll env conn items tasks = .ok (written, tasks')) :
    written.map Prod.fst = items.map Prod.snd ∧
      ∀ w ∈ written, ∃ a ∈ items, a.2 = w.1 ∧
        ∃ q ∈ tasks', q.id = w.2 ∧ q.clientId = a.1.2.clientId := by
  induction items generalizing tasks written with
  | nil => cases h; simp
  | cons a rest ih =>
    simp only [executeAll, bind_ok] at h
    obtain ⟨⟨id, mid⟩, hx, ⟨restIds, last⟩, hr, he⟩ := h
    cases he
    obtain ⟨hmap, hall⟩ := ih hr
    refine ⟨by simp [hmap], fun w hw => ?_⟩
    rcases List.mem_cons.mp hw with rfl | hw
    · obtain ⟨q, hq, hid, hc⟩ := executeUpsert_id hx
      obtain ⟨r, hm, hid', hc'⟩ := executeAll_keeps hr hq
      exact ⟨a, by simp, rfl, r, hm, hid'.trans hid, hc'.trans hc⟩
    · obtain ⟨b, hb, hrest⟩ := hall w hw
      exact ⟨b, by simp [hb], hrest⟩

end Batch

section Loop

variable {us : List (Upsert P)} {stmts : List (Upsert P × NewTask P)} {tasks : Tasks P}

theorem upsertStatements_total (h : ∀ u ∈ us, u.Valid env) :
    ∃ stmts, upsertStatements env us = .ok stmts := by
  induction us with
  | nil => exact ⟨[], rfl⟩
  | cons u us ih =>
    obtain ⟨new, hn, -⟩ := h u (by simp)
    obtain ⟨stmts, hs⟩ := ih fun v hv => h v (by simp [hv])
    exact ⟨(u, new) :: stmts, by simp only [upsertStatements, hn, hs, bind, Except.bind]; rfl⟩

theorem upsert_eq (conn : Conn) {u : Upsert P} {new : NewTask P} (hu : upsertStatement env u = .ok new)
    (hc : env.columnsOk new = true) (tasks : Tasks P) :
    ∃ id, executeUpsert env conn new tasks = .ok (id, (upsert env conn u tasks).2) := by
  obtain ⟨id, tasks', hx⟩ := executeUpsert_total conn hc tasks
  exact ⟨id, by simp only [upsert, hu, session, hx]⟩

theorem Holds.upsertAll (conn : Conn) {m : ClientId → Option (Task P)} (hh : Holds start tasks m)
    (hs : upsertStatements env us = .ok stmts) (hc : ∀ a ∈ stmts, env.columnsOk a.2 = true) :
    Holds start (PostgresQueue.upsertAll env (us.map fun u => (conn, u)) tasks)
      (writeAll (upsertRow conn start) (fun a => a.1.clientId) m stmts) := by
  induction us generalizing tasks m stmts with
  | nil => cases hs; exact hh
  | cons u us ih =>
    simp only [upsertStatements, bind_ok] at hs
    obtain ⟨new, hu, rest, hr, he⟩ := hs
    cases he
    obtain ⟨id, hx⟩ := upsert_eq conn hu (hc (u, new) (by simp)) tasks
    have hnext := hh.execute hx (Call.newTask_ok hu).1
    have htail := ih hnext hr fun a ha => hc a (by simp [ha])
    exact htail

theorem upsertAll_anonymous (hs : upsertStatements env us = .ok stmts)
    (hc : ∀ a ∈ stmts, env.columnsOk a.2 = true) {t : Task P} (ht : t.clientId = none) :
    t ∈ upsertAll env (us.map fun u => (conn, u)) tasks ↔ t ∈ tasks := by
  induction us generalizing tasks stmts with
  | nil => rfl
  | cons u us ih =>
    simp only [upsertStatements, bind_ok] at hs
    obtain ⟨new, hu, rest, hr, he⟩ := hs
    cases he
    obtain ⟨id, hx⟩ := upsert_eq conn hu (hc (u, new) (by simp)) tasks
    have hne : t.clientId ≠ new.clientId := by simp [ht, (Call.newTask_ok hu).1]
    have htail : t ∈ upsertAll env (us.map fun u => (conn, u)) (upsert env conn u tasks).2 ↔
        t ∈ (upsert env conn u tasks).2 := ih hr fun a ha => hc a (by simp [ha])
    exact htail.trans (executeUpsert_other hx hne)

end Loop

section Order

variable (stmts : List (Upsert P × NewTask P))

theorem upsertOrder_filter (c : ClientId) :
    (((upsertOrder stmts).map Prod.fst).filter fun a => a.1.clientId = c) =
      stmts.filter fun a => a.1.clientId = c := by
  have hsort := filter_insertionSort (fun a : (Upsert P × NewTask P) × ℕ => a.1.1.clientId)
    stmts.zipIdx c
  calc ((upsertOrder stmts).map Prod.fst).filter (fun a => a.1.clientId = c)
      = ((upsertOrder stmts).filter fun a => a.1.1.clientId = c).map Prod.fst := List.filter_map
    _ = (stmts.zipIdx.filter fun a => a.1.1.clientId = c).map Prod.fst :=
        congrArg (List.map Prod.fst) hsort
    _ = (stmts.zipIdx.map Prod.fst).filter (fun a => a.1.clientId = c) := by
        rw [List.filter_map]
        rfl
    _ = stmts.filter fun a => a.1.clientId = c := by rw [List.zipIdx_map_fst]

theorem mem_upsertOrder {a : (Upsert P × NewTask P) × ℕ} (h : a ∈ upsertOrder stmts) :
    stmts[a.2]? = some a.1 :=
  List.mk_mem_zipIdx_iff_getElem?.mp ((upsertOrder_perm stmts).mem_iff.mp h)

end Order

section Renaming

variable {tasks tasks' : Tasks P}

def renamed (tasks tasks' : Tasks P) (id : ℕ) : ℕ :=
  match tasks.find? fun t => t.id == id with
  | none => id
  | some t =>
    match t.clientId with
    | none => id
    | some c => (clientRow tasks' c).elim id Task.id

theorem renamed_anonymous {t : Task P} (ht : t ∈ tasks) (hc : t.clientId = none) :
    renamed tasks tasks' t.id = t.id := by
  have hf := Table.find?_eq_some_of_key ht (beq_self_eq_true t.id) fun q _ hq => beq_iff_eq.mp hq
  simp only [renamed, hf, hc]

theorem renamed_client {t q : Task P} {c : ClientId} (ht : clientRow tasks c = some t)
    (hq : clientRow tasks' c = some q) : renamed tasks tasks' t.id = q.id := by
  obtain ⟨hm, hc⟩ := clientRow_eq_some.mp ht
  have hf := Table.find?_eq_some_of_key hm (beq_self_eq_true t.id) fun q _ hq => beq_iff_eq.mp hq
  simp only [renamed, hf, hc, hq, Option.elim_some]

structure Matched (start : ℕ) (tasks tasks' : Tasks P) : Prop where
  row : ∀ c, Option.Rel (SameButFresh start) (clientRow tasks c) (clientRow tasks' c)
  anonymous : ∀ t : Task P, t.clientId = none → (t ∈ tasks' ↔ t ∈ tasks)

namespace Matched

theorem symm (h : Matched start tasks tasks') : Matched start tasks' tasks := by
  refine ⟨fun c => ?_, fun t ht => (h.anonymous t ht).symm⟩
  have hrow := h.row c
  generalize clientRow tasks c = row at hrow ⊢
  generalize clientRow tasks' c = row' at hrow ⊢
  cases hrow with
  | some hrel => exact .some hrel.symm
  | none => exact .none

theorem renames (h : Matched start tasks tasks') {t : Task P} (ht : t ∈ tasks) :
    ∃ q ∈ tasks', q.id = renamed tasks tasks' t.id ∧ SameButFresh start t q := by
  cases hc : t.clientId with
  | none => exact ⟨t, (h.anonymous t hc).mpr ht, (renamed_anonymous ht hc).symm, .refl t⟩
  | some c =>
    have hleft := clientRow_eq_some.mpr ⟨ht, hc⟩
    have hrow := h.row c
    rw [hleft] at hrow
    cases hright : clientRow tasks' c with
    | none =>
      rw [hright] at hrow
      cases hrow
    | some q =>
      rw [hright] at hrow
      cases hrow with
      | some hrel =>
        exact ⟨q, (clientRow_eq_some.mp hright).1, (renamed_client hleft hright).symm, hrel⟩

theorem renamed_cases (h : Matched start tasks tasks') (id : ℕ) :
    renamed tasks tasks' id = id ∨ (start ≤ id ∧ start ≤ renamed tasks tasks' id) := by
  cases hf : tasks.find? fun t => t.id == id with
  | none => exact .inl (by simp only [renamed, hf])
  | some t =>
    obtain ⟨ht, hid⟩ := Table.mem_of_find? hf
    obtain rfl := beq_iff_eq.mp hid
    obtain ⟨q, -, hq, hrel⟩ := h.renames ht
    rw [← hq]
    exact hrel.id_eq.imp Eq.symm fun hfresh => hfresh

theorem sameUpToFreshIds (h : Matched start tasks tasks') :
    SameUpToFreshIds start tasks tasks' := by
  have hrename : ∀ t ∈ tasks, { t with id := renamed tasks tasks' t.id } ∈ tasks' := by
    intro t ht
    obtain ⟨q, hq, hid, hrel⟩ := h.renames ht
    rw [← hid, ← hrel.eq]
    exact hq
  refine ⟨renamed tasks tasks', fun id hid => ?_, fun id hid => ?_, ?_⟩
  · rcases h.renamed_cases id with he | ⟨hle, -⟩
    exacts [he, absurd hid (not_lt.mpr hle)]
  · rcases h.renamed_cases id with he | ⟨-, hle⟩
    exacts [he.symm ▸ hid, hle]
  · have hnodup : (tasks.rows.map fun t => { t with id := renamed tasks tasks' t.id }).Nodup := by
      refine (List.Nodup.of_map _ tasks.key_nodup).map_on fun t ht q hq he => ?_
      have hc : t.clientId = q.clientId := by simpa using congrArg Task.clientId he
      cases htc : t.clientId with
      | none =>
        have hid := congrArg Task.id he
        simp only [renamed_anonymous ht htc, renamed_anonymous hq (hc ▸ htc)] at hid
        exact tasks.eq_of_key ht hq hid
      | some c => exact tasks.eq_of_clash ht hq (by simp [sameClient, ← hc, htc])
    refine (List.perm_ext_iff_of_nodup hnodup (List.Nodup.of_map _ tasks'.key_nodup)).mpr
      fun q => ⟨fun hq => ?_, fun hq => ?_⟩
    · obtain ⟨t, ht, rfl⟩ := List.mem_map.mp hq
      exact hrename t ht
    · obtain ⟨t, ht, hid, hrel⟩ := h.symm.renames hq
      refine List.mem_map.mpr ⟨t, ht, ?_⟩
      have hclient : q.clientId = t.clientId := by rw [hrel.eq]
      cases hc : q.clientId with
      | none =>
        rw [renamed_anonymous hq hc] at hid
        exact tasks'.eq_of_key (hrename t ht) hq
          ((renamed_anonymous ht (hclient ▸ hc)).trans hid)
      | some c =>
        exact tasks'.eq_of_clash (hrename t ht) hq (by simp [sameClient, ← hclient, hc])

end Matched

end Renaming

section Batch

variable {us : List (Upsert P)} {stmts : List (Upsert P × NewTask P)} {tasks : Tasks P}

theorem columnsOk_of_valid (hs : upsertStatements env us = .ok stmts) (h : ∀ u ∈ us, u.Valid env)
    {a : Upsert P × NewTask P} (ha : a ∈ stmts) : env.columnsOk a.2 = true := by
  obtain ⟨hmap, hall⟩ := upsertStatements_ok hs
  have hmem : a.1 ∈ us := hmap ▸ List.mem_map_of_mem ha
  obtain ⟨new, hn, hc⟩ := h a.1 hmem
  rw [hall a ha] at hn
  exact Except.ok.inj hn ▸ hc

theorem upsertMany_valid (conn : Conn) (h : ∀ u ∈ us, u.Valid env) (tasks : Tasks P) :
    ∃ stmts written tasks', upsertStatements env us = .ok stmts ∧
      executeAll env conn (upsertOrder stmts) tasks = .ok (written, tasks') ∧
      upsertMany env conn us tasks =
        (.ok ((List.range us.length).map fun i => (written.lookup i).getD 0), tasks') := by
  obtain ⟨stmts, hs⟩ := upsertStatements_total h
  have hcols : ∀ a ∈ upsertOrder stmts, env.columnsOk a.1.2 = true := fun a ha =>
    columnsOk_of_valid hs h (List.mem_of_getElem? (mem_upsertOrder stmts ha))
  obtain ⟨written, tasks', hx⟩ := executeAll_total conn hcols tasks
  refine ⟨stmts, written, tasks', hs, hx, ?_⟩
  simp only [upsertMany, hs, session, hx, bind, Except.bind]
  rfl

theorem Holds.refl (tasks : Tasks P) : Holds tasks.next tasks (clientRow tasks) := by
  refine ⟨le_rfl, fun c => ?_⟩
  cases clientRow tasks c with
  | none => exact .none
  | some t => exact .some (.refl t)

theorem Holds.agree {tasks' : Tasks P} {m : ClientId → Option (Task P)} (h : Holds start tasks m)
    (h' : Holds start tasks' m) (c : ClientId) :
    Option.Rel (SameButFresh start) (clientRow tasks c) (clientRow tasks' c) := by
  have hrow := h.row c
  have hrow' := h'.row c
  generalize clientRow tasks c = row at hrow ⊢
  generalize clientRow tasks' c = row' at hrow' ⊢
  generalize m c = held at hrow hrow'
  cases hrow with
  | none => cases hrow'; exact .none
  | some hrel =>
    cases hrow' with
    | some hrel' => exact .some (hrel.trans hrel'.symm)

theorem upsertMany_matched (h : ∀ u ∈ us, u.Valid env) (hs : upsertStatements env us = .ok stmts)
    {written : List (ℕ × ℕ)} {tasks' : Tasks P}
    (hx : executeAll env conn (upsertOrder stmts) tasks = .ok (written, tasks')) :
    Matched tasks.next tasks' (upsertAll env (us.map fun u => (conn, u)) tasks) := by
  have hcols : ∀ a ∈ stmts, env.columnsOk a.2 = true := fun a ha => columnsOk_of_valid hs h ha
  have hclient : ∀ a ∈ upsertOrder stmts, a.1.2.clientId = some a.1.1.clientId := by
    intro a ha
    have hm := List.mem_of_getElem? (mem_upsertOrder stmts ha)
    exact (Call.newTask_ok ((upsertStatements_ok hs).2 a.1 hm)).1
  have hbatch := (Holds.refl tasks).executeAll hclient hx
  have hloop := (Holds.refl tasks).upsertAll conn hs hcols
  rw [writeAll_congr _ _ (upsertOrder_filter stmts)] at hbatch
  refine ⟨hbatch.agree hloop, fun t ht => ?_⟩
  have hsome : ∀ a ∈ upsertOrder stmts, a.1.2.clientId.isSome := fun a ha => by simp [hclient a ha]
  exact (upsertAll_anonymous hs hcols ht).trans (executeAll_anonymous hsome hx ht).symm

theorem lookup_of_mem_keys {written : List (ℕ × ℕ)} {i : ℕ} (h : i ∈ written.map Prod.fst) :
    ∃ id, written.lookup i = some id ∧ (i, id) ∈ written := by
  obtain ⟨w, hw, rfl⟩ := List.mem_map.mp h
  have hsome : (written.lookup w.1).isSome :=
    List.lookup_isSome_iff.mpr ⟨w, hw, beq_self_eq_true w.1⟩
  obtain ⟨id, hl⟩ := Option.isSome_iff_exists.mp hsome
  obtain ⟨before, after, rfl, -⟩ := List.lookup_eq_some_iff.mp hl
  exact ⟨id, hl, List.mem_append_right _ List.mem_cons_self⟩

theorem upsertMany_id (hs : upsertStatements env us = .ok stmts) {written : List (ℕ × ℕ)}
    {tasks' : Tasks P} (hx : executeAll env conn (upsertOrder stmts) tasks = .ok (written, tasks'))
    {i : ℕ} {u : Upsert P} (hu : us[i]? = some u) :
    ∃ t ∈ tasks', ((List.range us.length).map fun i => (written.lookup i).getD 0)[i]? = some t.id ∧
      t.clientId = some u.clientId := by
  obtain ⟨hmap, hstmt⟩ := upsertStatements_ok hs
  obtain ⟨hkeys, hrows⟩ := executeAll_ids hx
  have hi : i < us.length := (List.getElem?_eq_some_iff.mp hu).1
  have hlen : stmts.length = us.length := by rw [← hmap, List.length_map]
  have hkey : i ∈ written.map Prod.fst := by
    rw [hkeys, ((upsertOrder_perm stmts).map Prod.snd).mem_iff, List.zipIdx_map_snd,
      List.mem_range'_1]
    omega
  obtain ⟨id, hl, hm⟩ := lookup_of_mem_keys hkey
  obtain ⟨a, ha, hai, t, ht, hid, hc⟩ := hrows (i, id) hm
  have hget := mem_upsertOrder stmts ha
  refine ⟨t, ht, ?_, ?_⟩
  · rw [List.getElem?_map, List.getElem?_range hi]
    simp [hl, hid]
  · have hua : us[i]? = some a.1.1 := by
      rw [← hmap, List.getElem?_map, ← (show a.2 = i from hai), hget]
      rfl
    rw [hua] at hu
    cases hu
    exact hc.trans (Call.newTask_ok (hstmt a.1 (List.mem_of_getElem? hget))).1

theorem upsertMany_invalid (conn : Conn) (h : ∃ u ∈ us, ¬u.Valid env) (tasks : Tasks P) :
    ∃ e, upsertMany env conn us tasks = (.error e, tasks) := by
  cases hs : upsertStatements env us with
  | error e => exact ⟨e, by simp only [upsertMany, hs]⟩
  | ok stmts =>
    obtain ⟨hmap, hstmt⟩ := upsertStatements_ok hs
    have hrefused : ∃ a ∈ upsertOrder stmts, env.columnsOk a.1.2 = false := by
      obtain ⟨u, hu, hinvalid⟩ := h
      rw [← hmap] at hu
      obtain ⟨a, ha, rfl⟩ := List.mem_map.mp hu
      obtain ⟨i, hi⟩ := List.mem_iff_getElem?.mp ha
      refine ⟨(a, i), (upsertOrder_perm stmts).mem_iff.mpr
        (List.mk_mem_zipIdx_iff_getElem?.mpr hi), ?_⟩
      by_contra hcols
      exact hinvalid ⟨a.2, hstmt a ha, by simpa using hcols⟩
    obtain ⟨e, he⟩ := executeAll_refused conn hrefused tasks
    exact ⟨e, by simp only [upsertMany, hs, session, he, bind, Except.bind]⟩

end Batch

/-- A batch refines the loop of its upserts, and a batch with an invalid item changes nothing. -/
theorem upsertMany_refines (env : Env P) (conn : Conn) (us : List (Upsert P)) (tasks : Tasks P) :
    ((∀ u ∈ us, u.Valid env) → ∃ ids tasks', upsertMany env conn us tasks = (.ok ids, tasks') ∧
      SameUpToFreshIds tasks.next tasks' (upsertAll env (us.map fun u => (conn, u)) tasks) ∧
      ids.length = us.length ∧ ∀ (i : ℕ) (u : Upsert P), us[i]? = some u →
        ∃ t ∈ tasks', ids[i]? = some t.id ∧ t.clientId = some u.clientId) ∧
    ((∃ u ∈ us, ¬u.Valid env) → ∃ e, upsertMany env conn us tasks = (.error e, tasks)) := by
  refine ⟨fun h => ?_, fun h => upsertMany_invalid conn h tasks⟩
  obtain ⟨stmts, written, tasks', hs, hx, hmany⟩ := upsertMany_valid conn h tasks
  exact ⟨_, tasks', hmany, (upsertMany_matched h hs hx).sameUpToFreshIds, by simp,
    fun i u hu => upsertMany_id hs hx hu⟩

theorem sampleUpsert_valid (arguments : String) : (sampleUpsert arguments).Valid sampleEnv :=
  ⟨sampleNew arguments, rfl, rfl⟩

def sampleBatch : List (Upsert String) := [sampleUpsert "b", sampleUpsert "c"]

theorem upsertMany_refines_repeated : ∃ ids tasks',
    upsertMany sampleEnv sampleConn sampleBatch sampleTasks = (.ok ids, tasks') ∧
      SameUpToFreshIds sampleTasks.next tasks'
        (upsertAll sampleEnv (sampleBatch.map fun u => (sampleConn, u)) sampleTasks) ∧
      ids.length = sampleBatch.length ∧
        ∀ (i : ℕ) (u : Upsert String), sampleBatch[i]? = some u →
          ∃ t ∈ tasks', ids[i]? = some t.id ∧ t.clientId = some u.clientId := by
  refine (upsertMany_refines sampleEnv sampleConn sampleBatch sampleTasks).1 fun u hu => ?_
  simp only [sampleBatch, List.mem_cons, List.not_mem_nil, or_false] at hu
  rcases hu with rfl | rfl
  exacts [sampleUpsert_valid "b", sampleUpsert_valid "c"]

end PostgresQueue
