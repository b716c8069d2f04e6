import PostgresQueue.Library.Transition
import PostgresQueue.UpsertBatch
import PostgresQueue.Worker

namespace PostgresQueue

open Library

variable {P : Type}

inductive ClientCall (P : Type)
  | enqueue (conn : Conn) (c : Call P) (clientId : Option ClientId)
  | upsert (conn : Conn) (u : Upsert P)
  | upsertMany (conn : Conn) (us : List (Upsert P))

def Stored (conn : Conn) (new : NewTask P) (tasks : Tasks P) : Prop :=
  ∃ t ∈ tasks, t.clientId = new.clientId ∧ new.onConflict conn t = t

namespace ClientCall

variable (env : Env P)

def run (tasks : Tasks P) : ClientCall P → Tasks P
  | .enqueue conn c clientId => (PostgresQueue.enqueue env conn c clientId tasks).2
  | .upsert conn u => (PostgresQueue.upsert env conn u tasks).2
  | .upsertMany conn us => (PostgresQueue.upsertMany env conn us tasks).2

/-- The call raises, or everything it would write is stored already; in a batch the last item
of each `client_id` counts. -/
def Idle (tasks : Tasks P) : ClientCall P → Prop
  | .enqueue _ c clientId => ∀ new, c.newTask env clientId = .ok new → env.columnsOk new = true →
    clientId.isSome ∧ ∃ t ∈ tasks, t.clientId = clientId
  | .upsert conn u => ∀ new, upsertStatement env u = .ok new → env.columnsOk new = true →
    Stored conn new tasks
  | .upsertMany conn us => ∀ stmts, upsertStatements env us = .ok stmts →
    (∀ a ∈ stmts, env.columnsOk a.2 = true) → ∀ c a,
      (stmts.filter fun a => a.1.clientId = c).getLast? = some a → Stored conn a.2 tasks

end ClientCall

section Conflict

variable {tasks : Tasks P} {new : NewTask P}

theorem sameClient_row (conn : Conn) (new : NewTask P) (id : ℕ) (t : Task P) :
    (sameClient (new.row conn id).clientId t.clientId ||
      sameClient t.clientId (new.row conn id).clientId) = true ↔
        new.clientId.isSome ∧ t.clientId = new.clientId := by
  simp only [NewTask.row, sameClient, Bool.or_eq_true, Bool.and_eq_true, beq_iff_eq]
  constructor
  · rintro (⟨hs, he⟩ | ⟨hs, he⟩)
    · exact ⟨hs, he.symm⟩
    · exact ⟨he ▸ hs, he⟩
  · rintro ⟨hs, he⟩
    exact .inl ⟨hs, he.symm⟩

theorem conflict?_eq_none (conn : Conn) : tasks.conflict? (new.row conn tasks.next) = none ↔
    ¬(new.clientId.isSome ∧ ∃ t ∈ tasks, t.clientId = new.clientId) := by
  unfold Table.conflict?
  rw [Table.find?_eq_none]
  constructor
  · rintro h ⟨hs, t, ht, hc⟩
    have hne := h t ht
    rw [(sameClient_row conn new tasks.next t).mpr ⟨hs, hc⟩] at hne
    cases hne
  · intro h t ht
    by_contra hne
    rw [Bool.not_eq_false, sameClient_row] at hne
    exact h ⟨hne.1, t, ht, hne.2⟩

theorem conflict?_eq_some (conn : Conn) {t : Task P}
    (h : tasks.conflict? (new.row conn tasks.next) = some t) :
    t ∈ tasks ∧ new.clientId.isSome ∧ t.clientId = new.clientId := by
  obtain ⟨ht, hp⟩ := Table.mem_of_find? h
  exact ⟨ht, (sameClient_row conn new tasks.next t).mp hp⟩

theorem eq_of_clientId {t q : Task P} (ht : t ∈ tasks) (hq : q ∈ tasks) (hsome : t.clientId.isSome)
    (hc : q.clientId = t.clientId) : q = t := by
  refine tasks.eq_of_clash hq ht ?_
  simp [sameClient, hc, hsome]

theorem insertTask_idle (env : Env P) (conn : Conn) (new : NewTask P) (tasks : Tasks P) :
    (session tasks (insertTask env conn new)).2 = tasks ↔ (env.columnsOk new = true →
      new.clientId.isSome ∧ ∃ t ∈ tasks, t.clientId = new.clientId) := by
  unfold session insertTask
  cases hcols : env.columnsOk new with
  | false => simp
  | true =>
    rw [if_pos rfl]
    split
    · rename_i hinsert
      split at hinsert
      · rename_i hnone
        cases hinsert
        refine iff_of_false (Table.insert_ne_self (fun _ => rfl) hnone) fun h => ?_
        exact (conflict?_eq_none conn).mp hnone (h rfl)
      · cases hinsert
    · rename_i hinsert
      split at hinsert
      · cases hinsert
      · rename_i t hsome
        obtain ⟨ht, hs, hc⟩ := conflict?_eq_some conn hsome
        exact iff_of_true rfl fun _ => ⟨hs, t, ht, hc⟩

theorem executeUpsert_idle {env : Env P} {conn : Conn} {tasks' : Tasks P} {id : ℕ}
    (hsome : new.clientId.isSome)
    (h : executeUpsert env conn new tasks = .ok (id, tasks')) :
    tasks' = tasks ↔ Stored conn new tasks := by
  unfold executeUpsert at h
  split_ifs at h
  split at h
  · rename_i hnone
    cases h
    refine iff_of_false (Table.insert_ne_self (fun _ => rfl) hnone) ?_
    rintro ⟨t, ht, hc, -⟩
    exact (conflict?_eq_none conn).mp hnone ⟨hsome, t, ht, hc⟩
  · rename_i t hconflict
    cases h
    obtain ⟨ht, -, hc⟩ := conflict?_eq_some conn hconflict
    rw [Table.update_eq_self_iff]
    constructor
    · intro hsame
      exact ⟨t, ht, hc, hsame t ht (beq_self_eq_true _)⟩
    · rintro ⟨q, hq, hqc, hsame⟩ r hr hid
      have hrt : r = t := tasks.eq_of_key hr ht (beq_iff_eq.mp hid)
      have hqt : q = t := eq_of_clientId ht hq (hc ▸ hsome) (hqc.trans hc.symm)
      rw [hrt, ← hqt, hsame]

end Conflict

section Overwrite

variable {conn : Conn} {env : Env P}

theorem onConflict_onConflict (old new : NewTask P) (t : Task P) :
    new.onConflict conn (old.onConflict conn t) = new.onConflict conn t := by
  by_cases h : t.status = .running
  · have hold : (old.onConflict conn t).status = .running := by
      rw [old.onConflict_running conn h]
      exact h
    rw [new.onConflict_running conn hold, new.onConflict_running conn h,
      old.onConflict_running conn h]
  · have hold : (old.onConflict conn t).status ≠ .running := by
      rw [old.onConflict_idle conn h]
      exact TaskStatus.noConfusion
    rw [new.onConflict_idle conn hold, new.onConflict_idle conn h, old.onConflict_idle conn h]
    rfl

def overwrite (conn : Conn) (news : List (NewTask P)) (t : Task P) : Task P :=
  news.foldl (fun t new => if new.clientId = t.clientId then new.onConflict conn t else t) t

theorem overwrite_append (news : List (NewTask P)) (new : NewTask P) (t : Task P) :
    overwrite conn (news ++ [new]) t =
      if new.clientId = (overwrite conn news t).clientId then
        new.onConflict conn (overwrite conn news t)
      else overwrite conn news t := by
  rw [overwrite, List.foldl_append]
  rfl

theorem overwrite_clientId (news : List (NewTask P)) (t : Task P) :
    (overwrite conn news t).clientId = t.clientId := by
  induction news generalizing t with
  | nil => rfl
  | cons new news ih =>
    rw [overwrite, List.foldl_cons, ← overwrite, ih]
    split_ifs <;> rfl

theorem overwrite_eq (news : List (NewTask P)) (t : Task P) : overwrite conn news t =
    match (news.filter fun new => new.clientId = t.clientId).getLast? with
    | none => t
    | some new => new.onConflict conn t := by
  induction news using List.reverseRecOn with
  | nil => rfl
  | append_singleton news new ih =>
    rw [overwrite_append, overwrite_clientId, List.filter_append]
    by_cases hc : new.clientId = t.clientId
    · rw [if_pos hc, ih]
      simp only [hc, decide_true, List.filter_cons_of_pos, List.filter_nil, List.getLast?_append,
        List.getLast?_singleton, Option.some_or]
      split
      · rfl
      · exact onConflict_onConflict _ new t
    · rw [if_neg hc, ih]
      simp [hc]

variable {tasks : Tasks P} {news : List (NewTask P)}

theorem present_of_stored (hsome : ∀ new ∈ news, new.clientId.isSome)
    (hstored : ∀ c new, (news.filter fun new => new.clientId = some c).getLast? = some new →
      Stored conn new tasks) : ∀ new ∈ news, ∃ t ∈ tasks, t.clientId = new.clientId := by
  intro new hnew
  obtain ⟨c, hc⟩ := Option.isSome_iff_exists.mp (hsome new hnew)
  have hmem : new ∈ news.filter fun new => new.clientId = some c :=
    List.mem_filter.mpr ⟨hnew, decide_eq_true hc⟩
  obtain ⟨last, hlast⟩ := Option.isSome_iff_exists.mp
    (List.getLast?_isSome.mpr (List.ne_nil_of_mem hmem))
  obtain ⟨t, ht, htc, -⟩ := hstored c last hlast
  have hlastc := (List.mem_filter.mp (List.mem_of_getLast? hlast)).2
  exact ⟨t, ht, htc.trans ((of_decide_eq_true hlastc).trans hc.symm)⟩

theorem overwrite_stored (hsome : ∀ new ∈ news, new.clientId.isSome)
    (hpresent : ∀ new ∈ news, ∃ t ∈ tasks, t.clientId = new.clientId) :
    (∀ t ∈ tasks, overwrite conn news t = t) ↔
      ∀ c new, (news.filter fun new => new.clientId = some c).getLast? = some new →
        Stored conn new tasks := by
  constructor
  · intro hkeeps c new hlast
    obtain ⟨hnew, hc⟩ := List.mem_filter.mp (List.mem_of_getLast? hlast)
    obtain ⟨t, ht, htc⟩ := hpresent new hnew
    have hkept := hkeeps t ht
    rw [overwrite_eq, htc, of_decide_eq_true hc, hlast] at hkept
    exact ⟨t, ht, htc, hkept⟩
  · intro hstored t ht
    rw [overwrite_eq]
    cases hlast : (news.filter fun new => new.clientId = t.clientId).getLast? with
    | none => rfl
    | some new =>
      obtain ⟨hnew, htc⟩ := List.mem_filter.mp (List.mem_of_getLast? hlast)
      have hc : new.clientId = t.clientId := of_decide_eq_true htc
      obtain ⟨c, hnc⟩ := Option.isSome_iff_exists.mp (hsome new hnew)
      rw [← hc, hnc] at hlast
      obtain ⟨q, hq, hqc, hkeeps⟩ := hstored c new hlast
      have hqt : q = t := eq_of_clientId ht hq (hc ▸ hsome new hnew) (hqc.trans hc)
      rw [← hqt]
      exact hkeeps

end Overwrite

section Batch

variable {env : Env P} {conn : Conn} {items : List ((Upsert P × NewTask P) × ℕ)}
  {tasks tasks' : Tasks P} {written : List (ℕ × ℕ)}

theorem executeUpsert_present {new : NewTask P} {id : ℕ} {t : Task P} (ht : t ∈ tasks)
    (hsome : new.clientId.isSome) (hc : t.clientId = new.clientId)
    (h : executeUpsert env conn new tasks = .ok (id, tasks')) :
    tasks'.next = tasks.next ∧
      tasks'.rows = tasks.rows.map fun q =>
        if new.clientId = q.clientId then new.onConflict conn q else q := by
  unfold executeUpsert at h
  split_ifs at h
  split at h
  · rename_i hnone
    exact absurd ⟨hsome, t, ht, hc⟩ ((conflict?_eq_none conn).mp hnone)
  · rename_i existing hconflict
    cases h
    obtain ⟨hm, -, hmc⟩ := conflict?_eq_some conn hconflict
    refine ⟨rfl, ?_⟩
    apply List.map_congr_left
    intro q hq
    have hiff : (q.id == existing.id) = true ↔ new.clientId = q.clientId := by
      constructor
      · intro hid
        rw [tasks.eq_of_key hq hm (beq_iff_eq.mp hid), hmc]
      · intro hqc
        rw [eq_of_clientId hm hq (hmc ▸ hsome) (hqc.symm.trans hmc.symm)]
        exact beq_self_eq_true _
    by_cases hqc : new.clientId = q.clientId
    · rw [if_pos hqc, if_pos (hiff.mpr hqc)]
    · rw [if_neg hqc, if_neg fun hid => hqc (hiff.mp hid)]

theorem executeAll_present (hsome : ∀ a ∈ items, a.1.2.clientId.isSome)
    (hpresent : ∀ a ∈ items, ∃ t ∈ tasks, t.clientId = a.1.2.clientId)
    (h : executeAll env conn items tasks = .ok (written, tasks')) :
    tasks'.next = tasks.next ∧
      tasks'.rows = tasks.rows.map (overwrite conn (items.map fun a => a.1.2)) := by
  induction items generalizing tasks written with
  | nil =>
    cases h
    exact ⟨rfl, (List.map_id _).symm⟩
  | cons a rest ih =>
    simp only [executeAll, bind_ok] at h
    obtain ⟨⟨id, mid⟩, hx, ⟨restIds, last⟩, hr, he⟩ := h
    cases he
    obtain ⟨t, ht, hc⟩ := hpresent a List.mem_cons_self
    obtain ⟨hnext, hrows⟩ := executeUpsert_present ht (hsome a List.mem_cons_self) hc hx
    have hmid : ∀ b ∈ rest, ∃ q ∈ mid, q.clientId = b.1.2.clientId := by
      intro b hb
      obtain ⟨q, hq, hqc⟩ := hpresent b (List.mem_cons_of_mem _ hb)
      obtain ⟨r, hr, -, hrc⟩ := executeUpsert_keeps hx hq
      exact ⟨r, hr, hrc.trans hqc⟩
    obtain ⟨hnext', hrows'⟩ := ih (fun b hb => hsome b (List.mem_cons_of_mem _ hb)) hmid hr
    refine ⟨hnext'.trans hnext, ?_⟩
    rw [hrows', hrows, List.map_map]
    rfl

theorem executeAll_finds (h : executeAll env conn items tasks = .ok (written, tasks')) :
    ∀ a ∈ items, ∃ t ∈ tasks', t.clientId = a.1.2.clientId := by
  induction items generalizing tasks written with
  | nil => exact fun a ha => absurd ha List.not_mem_nil
  | cons b rest ih =>
    simp only [executeAll, bind_ok] at h
    obtain ⟨⟨id, mid⟩, hx, ⟨restIds, last⟩, hr, he⟩ := h
    cases he
    intro a ha
    rcases List.mem_cons.mp ha with rfl | ha
    · obtain ⟨q, hq, -, hc⟩ := executeUpsert_id hx
      obtain ⟨r, hm, -, hrc⟩ := executeAll_keeps hr hq
      exact ⟨r, hm, hrc.trans hc⟩
    · exact ih hr a ha

theorem executeAll_eq_iff (hsome : ∀ a ∈ items, a.1.2.clientId.isSome)
    (hpresent : ∀ a ∈ items, ∃ t ∈ tasks, t.clientId = a.1.2.clientId)
    (h : executeAll env conn items tasks = .ok (written, tasks')) :
    tasks' = tasks ↔ ∀ t ∈ tasks, overwrite conn (items.map fun a => a.1.2) t = t := by
  obtain ⟨hnext, hmap⟩ := executeAll_present hsome hpresent h
  rw [Table.ext_iff, and_iff_left hnext, hmap]
  nth_rewrite 2 [← List.map_id tasks.rows]
  rw [List.map_inj_left]
  rfl

theorem executeAll_idle (hsome : ∀ a ∈ items, a.1.2.clientId.isSome)
    (h : executeAll env conn items tasks = .ok (written, tasks')) :
    tasks' = tasks ↔ ∀ c new, ((items.map fun a => a.1.2).filter fun new =>
      new.clientId = some c).getLast? = some new → Stored conn new tasks := by
  have hnews : ∀ new ∈ items.map fun a => a.1.2, new.clientId.isSome :=
    List.forall_mem_map.mpr hsome
  constructor
  · intro hsame
    have hpresent : ∀ a ∈ items, ∃ t ∈ tasks, t.clientId = a.1.2.clientId :=
      hsame ▸ executeAll_finds h
    apply (overwrite_stored hnews (List.forall_mem_map.mpr hpresent)).mp
    exact (executeAll_eq_iff hsome hpresent h).mp hsame
  · intro hstored
    have hpresent := present_of_stored hnews hstored
    have hitems : ∀ a ∈ items, ∃ t ∈ tasks, t.clientId = a.1.2.clientId :=
      fun a ha => hpresent a.1.2 (List.mem_map_of_mem ha)
    apply (executeAll_eq_iff hsome hitems h).mpr
    exact (overwrite_stored hnews hpresent).mpr hstored

end Batch

section Calls

variable {env : Env P} {tasks : Tasks P}

theorem enqueue_idle (conn : Conn) (c : Call P) (clientId : Option ClientId) :
    (enqueue env conn c clientId tasks).2 = tasks ↔
      (ClientCall.enqueue conn c clientId).Idle env tasks := by
  unfold enqueue
  rw [ClientCall.Idle]
  cases hnew : c.newTask env clientId with
  | error e => exact iff_of_true rfl fun new h => by cases h
  | ok new =>
    dsimp only
    rw [insertTask_idle, (Call.newTask_ok hnew).1]
    constructor
    · intro h new' hnew' hcols
      cases hnew'
      exact h hcols
    · intro h hcols
      exact h new rfl hcols

theorem upsert_idle (conn : Conn) (u : Upsert P) :
    (upsert env conn u tasks).2 = tasks ↔ (ClientCall.upsert conn u).Idle env tasks := by
  unfold upsert
  rw [ClientCall.Idle]
  cases hnew : upsertStatement env u with
  | error e => exact iff_of_true rfl fun new h => by cases h
  | ok new =>
    have hsome : new.clientId.isSome := by rw [(Call.newTask_ok hnew).1]; rfl
    cases hcols : env.columnsOk new with
    | false =>
      have hrefused : executeUpsert env conn new tasks = .error .dataError :=
        executeUpsert_refused hcols tasks
      simp only [session, hrefused]
      refine iff_of_true trivial fun new' hnew' hok => ?_
      cases hnew'
      rw [hcols] at hok
      cases hok
    | true =>
      obtain ⟨id, tasks', hx⟩ := executeUpsert_total conn hcols tasks
      simp only [session, hx]
      rw [executeUpsert_idle hsome hx]
      constructor
      · intro h new' hnew' _
        cases hnew'
        exact h
      · intro h
        exact h new rfl hcols

theorem news_filter {us : List (Upsert P)} {stmts : List (Upsert P × NewTask P)}
    (hs : upsertStatements env us = .ok stmts) (c : ClientId) :
    (((upsertOrder stmts).map fun a => a.1.2).filter fun new => new.clientId = some c) =
      (stmts.filter fun a => a.1.clientId = c).map Prod.snd := by
  have hclient : ∀ a ∈ (upsertOrder stmts).map Prod.fst, a.2.clientId = some a.1.clientId := by
    intro a ha
    obtain ⟨b, hb, rfl⟩ := List.mem_map.mp ha
    have hm := List.mem_of_getElem? (mem_upsertOrder stmts hb)
    exact (Call.newTask_ok ((upsertStatements_ok hs).2 b.1 hm)).1
  calc ((upsertOrder stmts).map fun a => a.1.2).filter (fun new => new.clientId = some c)
      = (((upsertOrder stmts).map Prod.fst).map Prod.snd).filter
          (fun new => new.clientId = some c) := by
        rw [List.map_map]
        rfl
    _ = (((upsertOrder stmts).map Prod.fst).filter
          fun a => a.2.clientId = some c).map Prod.snd := List.filter_map
    _ = (((upsertOrder stmts).map Prod.fst).filter fun a => a.1.clientId = c).map Prod.snd := by
        congr 1
        apply List.filter_congr
        intro a ha
        simp only [hclient a ha, Option.some.injEq]
    _ = (stmts.filter fun a => a.1.clientId = c).map Prod.snd := by rw [upsertOrder_filter]

theorem upsertMany_idle (conn : Conn) (us : List (Upsert P)) :
    (upsertMany env conn us tasks).2 = tasks ↔ (ClientCall.upsertMany conn us).Idle env tasks := by
  unfold upsertMany
  rw [ClientCall.Idle]
  cases hs : upsertStatements env us with
  | error e => exact iff_of_true rfl fun stmts h => by cases h
  | ok stmts =>
    have hitems : ∀ a ∈ upsertOrder stmts, a.1 ∈ stmts := fun a ha =>
      List.mem_of_getElem? (mem_upsertOrder stmts ha)
    have hsome : ∀ a ∈ upsertOrder stmts, a.1.2.clientId.isSome := by
      intro a ha
      rw [(Call.newTask_ok ((upsertStatements_ok hs).2 a.1 (hitems a ha))).1]
      rfl
    by_cases hcols : ∀ a ∈ stmts, env.columnsOk a.2 = true
    · obtain ⟨written, tasks', hx⟩ := executeAll_total conn
        (fun a ha => hcols a.1 (hitems a ha)) tasks
      have hidle := executeAll_idle hsome hx
      simp only [news_filter hs, List.getLast?_map, Option.map_eq_some_iff] at hidle
      simp only [session, hx, bind, Except.bind, pure, Except.pure]
      rw [hidle]
      constructor
      · intro h stmts' hstmts _ c a hlast
        cases hstmts
        exact h c a.2 ⟨a, hlast, rfl⟩
      · rintro h c new ⟨a, hlast, rfl⟩
        exact h stmts rfl hcols c a hlast
    · obtain ⟨a, ha, hrefused⟩ : ∃ a ∈ upsertOrder stmts, env.columnsOk a.1.2 = false := by
        obtain ⟨a, ha, hne⟩ : ∃ a ∈ stmts, env.columnsOk a.2 = false := by simpa using hcols
        obtain ⟨i, hi⟩ := List.mem_iff_getElem?.mp ha
        exact ⟨(a, i), (upsertOrder_perm stmts).mem_iff.mpr
          (List.mk_mem_zipIdx_iff_getElem?.mpr hi), hne⟩
      obtain ⟨e, he⟩ := executeAll_refused conn ⟨a, ha, hrefused⟩ tasks
      simp only [session, he, bind, Except.bind]
      refine iff_of_true trivial fun stmts' hstmts hok => ?_
      cases hstmts
      exact absurd hok hcols

theorem ClientCall.run_idle (c : ClientCall P) : c.run env tasks = tasks ↔ c.Idle env tasks := by
  cases c with
  | enqueue conn c clientId => exact enqueue_idle conn c clientId
  | upsert conn u => exact upsert_idle conn u
  | upsertMany conn us => exact upsertMany_idle conn us

end Calls

structure Seen (P : Type) where
  tasks : Tasks P
  claimed : List (Task P)

def Seen.claim (v : Seen P) (mode : Mode) (c : Claim) : Seen P :=
  match mode.claim c v.tasks with
  | none => v
  | some (t, tasks) => ⟨tasks, v.claimed ++ [t]⟩

inductive BlockPhase
  | running
  | raised
  | committed
deriving DecidableEq

/-- A block `with pq.session()` with the caller's own tables, as they are and as its session has
written them. `intended` is what `seen` would be if the calls were part of the block's transaction;
`pending` are the calls that its commit would then bring. -/
structure CallerBlock (P D : Type) where
  seen : Seen P
  intended : Seen P
  pending : List (ClientCall P)
  data : D
  session : D
  phase : BlockPhase

inductive BlockEvent (P D : Type)
  | writes (f : D → D)
  | calls (c : ClientCall P)
  | claims (mode : Mode) (c : Claim)
  | others (f : Tasks P → Tasks P)
  | raises
  | commits

def BlockEvent.call? {D : Type} : BlockEvent P D → Option (ClientCall P)
  | .calls c => some c
  | _ => none

namespace CallerBlock

variable {D : Type} (env : Env P) (b : CallerBlock P D)

def step : BlockEvent P D → Option (CallerBlock P D)
  | .writes f => if b.phase = .running then some { b with session := f b.session } else none
  | .calls c =>
    if b.phase = .running then some { b with
      seen.tasks := c.run env b.seen.tasks
      pending := b.pending ++ [c] }
    else none
  | .claims mode c => some { b with
      seen := b.seen.claim mode c
      intended := b.intended.claim mode c }
  | .others f => some { b with
      seen.tasks := f b.seen.tasks
      intended.tasks := f b.intended.tasks }
  | .raises =>
    if b.phase = .running then some { b with pending := [], session := b.data, phase := .raised }
    else none
  | .commits =>
    if b.phase = .running then some { b with
      intended.tasks := b.pending.foldl (ClientCall.run env) b.intended.tasks
      pending := []
      data := b.session
      phase := .committed }
    else none

/-- Before the commit nobody sees, or claims, anything that the block has enqueued. -/
def Transactional : Prop := b.phase = .committed ∨ b.seen = b.intended

def WritesNothing : BlockEvent P D → Prop
  | .calls c => c.Idle env b.seen.tasks
  | _ => True

def Undisturbed (_ : CallerBlock P D) : BlockEvent P D → Prop
  | .claims .. | .others _ => False
  | _ => True

end CallerBlock

def sessionBlock {D : Type} (env : Env P) (tasks : Tasks P) (data : D) :
    System (CallerBlock P D) (BlockEvent P D) where
  init := ⟨⟨tasks, []⟩, ⟨tasks, []⟩, [], data, data, .running⟩
  step b e := b.step env e

section Blocks

variable {D : Type} {env : Env P} {tasks : Tasks P} {data : D} {b b' : CallerBlock P D}
  {e : BlockEvent P D}

theorem committed_step (hphase : b.phase = .committed) (he : b.step env e = some b') :
    b'.phase = .committed ∧ b.WritesNothing env e := by
  cases e with
  | claims mode c =>
    cases he
    exact ⟨hphase, trivial⟩
  | others f =>
    cases he
    exact ⟨hphase, trivial⟩
  | _ =>
    simp only [CallerBlock.step, hphase, reduceCtorEq, if_false] at he

theorem transactional_step (h : b.Transactional) (he : b.step env e = some b') :
    b'.Transactional ↔ b.WritesNothing env e := by
  rcases h with hphase | hseen
  · obtain ⟨hphase', hnothing⟩ := committed_step hphase he
    exact iff_of_true (.inl hphase') hnothing
  · cases e with
    | writes f =>
      simp only [CallerBlock.step] at he
      split_ifs at he
      cases he
      exact iff_of_true (.inr hseen) trivial
    | calls c =>
      simp only [CallerBlock.step] at he
      split_ifs at he with hphase
      cases he
      rw [CallerBlock.WritesNothing, ← c.run_idle]
      constructor
      · rintro (hcommitted | hsame)
        · rw [hphase] at hcommitted
          cases hcommitted
        · rw [← hseen] at hsame
          exact congrArg Seen.tasks hsame
      · intro hsame
        refine .inr ?_
        rw [← hseen, hsame]
    | claims mode c =>
      cases he
      exact iff_of_true (.inr (by rw [hseen])) trivial
    | others f =>
      cases he
      exact iff_of_true (.inr (by rw [hseen])) trivial
    | raises =>
      simp only [CallerBlock.step] at he
      split_ifs at he
      cases he
      exact iff_of_true (.inr hseen) trivial
    | commits =>
      simp only [CallerBlock.step] at he
      split_ifs at he
      cases he
      exact iff_of_true (.inl rfl) trivial

/-- What the transaction is for: until it commits the block has changed nothing. -/
structure Untouched (tasks : Tasks P) (data : D) (b : CallerBlock P D) : Prop where
  intended : b.phase ≠ .committed → b.intended.tasks = tasks
  data : b.phase ≠ .committed → b.data = data

theorem Untouched.step (h : Untouched tasks data b) (hg : b.Undisturbed e)
    (he : b.step env e = some b') : Untouched tasks data b' := by
  cases e with
  | claims mode c => cases hg
  | others f => cases hg
  | commits =>
    simp only [CallerBlock.step] at he
    split_ifs at he
    cases he
    exact ⟨fun hphase => absurd rfl hphase, fun hphase => absurd rfl hphase⟩
  | _ =>
    simp only [CallerBlock.step] at he
    split_ifs at he with hphase
    cases he
    have hne : b.phase ≠ .committed := by rw [hphase]; exact BlockPhase.noConfusion
    exact ⟨fun _ => h.intended hne, fun _ => h.data hne⟩

theorem sessionBlock_untouched {es : List (BlockEvent P D)}
    (h : (sessionBlock env tasks data).Steps CallerBlock.Undisturbed
      (sessionBlock env tasks data).init es b) : Untouched tasks data b := by
  refine h.preserves (fun b e b' hb hg he => ?_) ⟨fun _ => rfl, fun _ => rfl⟩
  exact Untouched.step hb hg he

theorem sessionBlock_calls {es : List (BlockEvent P D)}
    (h : (sessionBlock env tasks data).Steps CallerBlock.Undisturbed b es b') :
    b'.seen.tasks = (es.filterMap BlockEvent.call?).foldl (ClientCall.run env) b.seen.tasks := by
  induction h with
  | nil => rfl
  | @cons b b₁ b' e es hg he _ ih =>
    have he : b.step env e = some b₁ := he
    rw [ih]
    cases e with
    | claims mode c => cases hg
    | others f => cases hg
    | _ =>
      simp only [CallerBlock.step] at he
      split_ifs at he
      cases he
      rfl

/-- A block is transactional at each of its moments exactly if no call of it writes anything. Where
nobody else is at the table, a block that raises has its own writes undone, but not its calls. -/
theorem transactional_iff (env : Env P) (tasks : Tasks P) (data : D) :
    (∀ es, (sessionBlock env tasks data).Always CallerBlock.Transactional
        (sessionBlock env tasks data).init es ↔
      (sessionBlock env tasks data).EachStep (CallerBlock.WritesNothing env)
        (sessionBlock env tasks data).init es) ∧
    ∀ es b, (sessionBlock env tasks data).Steps CallerBlock.Undisturbed
        (sessionBlock env tasks data).init es b → b.phase = .raised →
      b.data = data ∧ b.intended.tasks = tasks ∧
      b.seen.tasks = (es.filterMap BlockEvent.call?).foldl (ClientCall.run env) tasks ∧
      ((sessionBlock env tasks data).EachStep (CallerBlock.WritesNothing env)
        (sessionBlock env tasks data).init es → b.seen.tasks = tasks) := by
  have hiff : ∀ es, (sessionBlock env tasks data).Always CallerBlock.Transactional
        (sessionBlock env tasks data).init es ↔
      (sessionBlock env tasks data).EachStep (CallerBlock.WritesNothing env)
        (sessionBlock env tasks data).init es := by
    intro es
    apply System.always_iff_eachStep (I := fun _ => True)
    · exact fun _ _ _ _ _ => trivial
    · exact fun b e b' _ h he => transactional_step h he
    · trivial
    · exact .inr rfl
  refine ⟨hiff, fun es b hsteps hphase => ?_⟩
  have hne : b.phase ≠ .committed := by rw [hphase]; exact BlockPhase.noConfusion
  have huntouched := sessionBlock_untouched hsteps
  refine ⟨huntouched.data hne, huntouched.intended hne, sessionBlock_calls hsteps, fun heach => ?_⟩
  have hseen := (((hiff es).mpr heach).of_steps hsteps).resolve_left hne
  rw [hseen]
  exact huntouched.intended hne

end Blocks

section Sample

def sampleRaising : List (BlockEvent String ℕ) :=
  [.writes fun orders => orders + 1, .calls (.enqueue sampleConn (sampleUpsert "order").toCall none),
    .claims .sequential ⟨0, none, 5, []⟩, .raises]

def sampleRolledBack : CallerBlock String ℕ :=
  (sessionBlock sampleEnv Table.empty 0).run System.free sampleRaising

theorem enqueue_outlives_rollback : sampleRolledBack.phase = .raised ∧ sampleRolledBack.data = 0 ∧
    sampleRolledBack.seen.tasks.rows.map Task.status = [.running] ∧
    sampleRolledBack.seen.claimed.map Task.id = [1] ∧
    sampleRolledBack.intended.tasks.rows = [] ∧ sampleRolledBack.intended.claimed = [] ∧
    ¬(sessionBlock sampleEnv Table.empty 0).Always CallerBlock.Transactional
      (sessionBlock sampleEnv Table.empty 0).init sampleRaising := by
  have hphase : sampleRolledBack.phase = .raised := by decide +kernel
  have hclaimed : sampleRolledBack.seen.claimed.map Task.id = [1] := by decide +kernel
  have hintended : sampleRolledBack.intended.claimed = [] := by decide +kernel
  refine ⟨hphase, by decide +kernel, by decide +kernel, hclaimed, by decide +kernel, hintended, ?_⟩
  intro halways
  have hsteps : (sessionBlock sampleEnv Table.empty 0).Steps System.free _ sampleRaising
      sampleRolledBack := .of_run (by decide +kernel)
  rcases halways.of_steps hsteps with hcommitted | hseen
  · rw [hphase] at hcommitted
    cases hcommitted
  · rw [hseen, hintended] at hclaimed
    cases hclaimed

end Sample

end PostgresQueue
