import PostgresQueue.Library.ListAt
import PostgresQueue.TaskSystem

namespace PostgresQueue

open Library

variable {P Q : Type} {stamp : P → ℕ → Q} {env : Env Q}

/-- One accepted version: a fresh row, or a rewritten row that nobody has locked. -/
inductive Accept (s : State Q) (conn : Conn) (new : NewTask Q) : State Q → Prop
  | inserted {tasks : Tasks Q} : s.tasks.Inserts (new.row conn s.tasks.next) tasks →
      Accept s conn new (s.accept tasks [.accepted conn new])
  | conflicted {tasks : Tasks Q} {t : Task Q} : new.clientId.isSome →
      t.clientId = new.clientId → t.id ∉ s.lockedIds →
      s.tasks.Replaces t (new.onConflict conn t) tasks →
      Accept s conn new (s.accept tasks [.accepted conn new])

inductive AcceptAll (conn : Conn) : State Q → List (NewTask Q) → State Q → Prop
  | nil (s : State Q) : AcceptAll conn s [] s
  | cons {s t u : State Q} {new : NewTask Q} {rest : List (NewTask Q)} : Accept s conn new t →
      AcceptAll conn t rest u → AcceptAll conn s (new :: rest) u

inductive Quiet (env : Env Q) (s : State Q) : Action P → State Q → Prop
  | claim {worker : ℕ} {mode : Mode} {c : Claim} {t : Task Q} {tasks : Tasks Q} :
      s.claim mode c = some (c.markRunning t, tasks) → t.status = .pending →
      t.id ∉ s.lockedIds → s.tasks.Replaces t (c.markRunning t) tasks →
      Quiet env s (.claim worker mode c) { s with
        tasks := tasks
        runs := s.runs ++ [⟨c.markRunning t, c.startedAt, worker, mode, .claimed⟩] }
  | start {i : ℕ} {r : Run Q} : s.runs[i]? = some r → r.phase = .claimed → r.worker ∉ s.dead →
      Quiet env s (.start i) (s.setPhase i .alive)
  | finishes {i : ℕ} {r : Run Q} {e : RunEnd} : s.runs[i]? = some r →
      r.phase = .claimed ∨ r.phase = .alive → Quiet env s (.finishes i e) (s.setPhase i (.ended e))
  | record {i : ℕ} {r : Run Q} {e : RunEnd} {o : Outcome} {clock : Timestamptz} :
      s.runs[i]? = some r → r.phase = .ended e → e.outcome r.mode = some o →
      r.task.id ∉ s.lockedIds → Quiet env s (.record i clock) { s.setPhase i .recorded with
        tasks := finishOneOff env clock r.task.id (some r.startedAt) o s.tasks }
  | dies (worker : ℕ) : Quiet env s (.dies worker) { s with dead := worker :: s.dead }
  | reapBegin (r : Reap) :
      Quiet env s (.reapBegin r) { s with reaps := s.reaps ++ [⟨r, false, [], []⟩] }
  | reapFail {j : ℕ} {x : ReapTxn Q} {t : Task Q} : s.reaps[j]? = some x → t ∈ s.tasks →
      t.id ∉ s.lockedIds → t.status = .running → t.requeue = none →
      Quiet env s (.reapFail j t.id) (s.setReap j fun x => { x with failing := t :: x.failing })
  | reapSecond {j : ℕ} {x : ReapTxn Q} : s.reaps[j]? = some x →
      Quiet env s (.reapSecond j) (s.setReap j fun x => { x with second := true })
  | reapRequeue {j : ℕ} {x : ReapTxn Q} {t : Task Q} : s.reaps[j]? = some x → t ∈ s.tasks →
      t.id ∉ s.lockedIds → t.status = .running → t.requeue ≠ none →
      Quiet env s (.reapRequeue j t.id)
        (s.setReap j fun x => { x with requeueing := x.requeueing ++ [t] })
  | reapCommit {j : ℕ} {x : ReapTxn Q} {tasks : Tasks Q} : s.reaps[j]? = some x →
      x.reap.write env x.failing x.requeueing s.tasks = .ok tasks →
      Quiet env s (.reapCommit j) (s.endReap j tasks)
  | reapDrop {a : Action P} {j : ℕ} {x : ReapTxn Q} : s.reaps[j]? = some x →
      Quiet env s a (s.endReap j s.tasks)
  | cancel {id : ℕ} : id ∉ s.lockedIds → Quiet env s (.cancel id)
      (s.delete (PostgresQueue.cancel id s.tasks)
        ((s.tasks.rows.filter fun t => t.id == id).map fun t => .removed t.clientId))
  | clear {a : Action P} {p : Task Q → Bool} :
      (∀ t, p t = true → t.status = .completed ∨ t.status = .failed) →
      Quiet env s a (s.delete (s.tasks.delete p) [])
  | clearAll : s.lockedIds = [] → Quiet env s .clearAll
      (s.delete (PostgresQueue.clearAll s.tasks) (s.tasks.rows.map fun t => .removed t.clientId))

theorem executeAll_accepts {conn : Conn} {items : List ((Upsert Q × NewTask Q) × ℕ)} {s : State Q}
    {ids : List (ℕ × ℕ)} {tasks : Tasks Q}
    (hlock : ∀ a ∈ items, ∀ t ∈ s.tasks, t.clientId = a.1.2.clientId → a.1.2.clientId.isSome →
      t.id ∉ s.lockedIds)
    (hnext : ∀ id ∈ s.lockedIds, id < s.tasks.next)
    (h : executeAll env conn items s.tasks = .ok (ids, tasks)) :
    AcceptAll conn s (items.map fun a => a.1.2)
      (s.accept tasks (items.reverse.map fun a => .accepted conn a.1.2)) := by
  induction items generalizing s ids with
  | nil => cases h; exact .nil s
  | cons a rest ih =>
    obtain ⟨⟨u, new⟩, i⟩ := a
    simp only [executeAll, bind_ok] at h
    obtain ⟨⟨id, mid⟩, hx, ⟨restIds, last⟩, hr, he⟩ := h
    cases he
    let t := s.accept mid [.accepted conn new]
    have hout : s.accept last ((((u, new), i) :: rest).reverse.map fun a => .accepted conn a.1.2) =
        t.accept last (rest.reverse.map fun a => .accepted conn a.1.2) := by
      simp [t, State.accept]
    rw [hout]
    rcases executeUpsert_ok hx with ⟨-, hins⟩ | ⟨q, -, hsome, hc, hrep⟩
    · refine .cons (.inserted hins) (ih ?_ ?_ hr)
      · intro a ha q hq hqc hqs
        rcases (hins.mem_iff q).mp hq with rfl | hq
        · intro hl
          exact absurd (hnext _ hl) (by simp [NewTask.row])
        · exact hlock a (by simp [ha]) q hq hqc hqs
      · intro id hl
        have := hnext id hl
        change id < mid.next
        rw [hins.next_eq]
        omega
    · have hfree := hlock ((u, new), i) (by simp) q hrep.mem hc hsome
      refine .cons (.conflicted hsome hc hfree hrep) (ih ?_ ?_ hr)
      · intro a ha p hp hpc hps
        rcases hrep.origin hp with rfl | ⟨hp, -⟩
        · exact hfree
        · exact hlock a (by simp [ha]) p hp hpc hps
      · intro id hl
        change id < mid.next
        rw [hrep.next_eq]
        exact hnext id hl

structure LockInv (s : State Q) : Prop where
  failing : ∀ x ∈ s.reaps, ∀ t ∈ x.failing, t ∈ s.tasks ∧ t.status = .running ∧ t.requeue = none
  requeueing : ∀ x ∈ s.reaps, ∀ t ∈ x.requeueing,
    t ∈ s.tasks ∧ t.status = .running ∧ t.requeue ≠ none
  nodup : s.lockedIds.Nodup

namespace LockInv

variable {s : State Q}

theorem row (h : LockInv s) {id : ℕ} (hl : id ∈ s.lockedIds) :
    ∃ t ∈ s.tasks, t.id = id ∧ t.status = .running := by
  simp only [State.lockedIds, ReapTxn.locked, List.mem_flatMap, List.mem_map, List.mem_append] at hl
  obtain ⟨x, hx, t, ht | ht, rfl⟩ := hl
  · exact ⟨t, (h.failing x hx t ht).1, rfl, (h.failing x hx t ht).2.1⟩
  · exact ⟨t, (h.requeueing x hx t ht).1, rfl, (h.requeueing x hx t ht).2.1⟩

theorem lt_next (h : LockInv s) {id : ℕ} (hl : id ∈ s.lockedIds) : id < s.tasks.next := by
  obtain ⟨t, ht, rfl, -⟩ := h.row hl
  exact s.tasks.key_lt t ht

theorem status (h : LockInv s) {t : Task Q} (ht : t ∈ s.tasks) (hl : t.id ∈ s.lockedIds) :
    t.status = .running := by
  obtain ⟨q, hq, he, hs⟩ := h.row hl
  rw [← s.tasks.eq_of_key hq ht he]
  exact hs

end LockInv

theorem Accept.eq {s s' : State Q} {conn : Conn} {new : NewTask Q} (h : Accept s conn new s') :
    s'.runs = s.runs ∧ s'.reaps = s.reaps ∧ s'.dead = s.dead ∧
      s'.history = .accepted conn new :: s.history := by
  cases h <;> exact ⟨rfl, rfl, rfl, rfl⟩

theorem LockInv.of_rows {s : State Q} (h : LockInv s) {tasks : Tasks Q} {runs : List (Run Q)}
    {dead : List ℕ} {history : List (Event Q)}
    (hkeep : ∀ t ∈ s.tasks, t.id ∈ s.lockedIds → t ∈ tasks) :
    LockInv ⟨tasks, runs, s.reaps, dead, history⟩ := by
  have hmem : ∀ x ∈ s.reaps, ∀ t ∈ x.failing ++ x.requeueing, t.id ∈ s.lockedIds := fun x hx t ht =>
    List.mem_flatMap.mpr ⟨x, hx, List.mem_map_of_mem ht⟩
  refine ⟨fun x hx t ht => ?_, fun x hx t ht => ?_, h.nodup⟩
  · obtain ⟨hm, hs, hq⟩ := h.failing x hx t ht
    exact ⟨hkeep t hm (hmem x hx t (by simp [ht])), hs, hq⟩
  · obtain ⟨hm, hs, hq⟩ := h.requeueing x hx t ht
    exact ⟨hkeep t hm (hmem x hx t (by simp [ht])), hs, hq⟩

theorem LockInv.accept {s s' : State Q} {conn : Conn} {new : NewTask Q} (h : LockInv s)
    (ha : Accept s conn new s') : LockInv s' := by
  cases ha with
  | inserted hins => exact h.of_rows fun t ht _ => hins.keep ht
  | conflicted _ _ hfree hrep =>
    exact h.of_rows fun t ht hl => hrep.keep ht fun he => hfree (he ▸ hl)

theorem LockInv.acceptAll {s s' : State Q} {conn : Conn} {news : List (NewTask Q)} (h : LockInv s)
    (ha : AcceptAll conn s news s') : LockInv s' := by
  induction ha with
  | nil => exact h
  | cons ha _ ih => exact ih (h.accept ha)

section Reaps

variable {s : State Q} {j : ℕ} {x : ReapTxn Q}

theorem ReapTxn.locked_requeueing (x : ReapTxn Q) (t : Task Q) :
    ({ x with requeueing := x.requeueing ++ [t] } : ReapTxn Q).locked.Perm (t.id :: x.locked) := by
  simp only [ReapTxn.locked, ← List.append_assoc, List.map_append, List.map_cons, List.map_nil]
  exact List.perm_append_singleton _ _

theorem lockedIds_split (hx : s.reaps[j]? = some x) :
    s.lockedIds.Perm (x.locked ++ (s.reaps.eraseIdx j).flatMap ReapTxn.locked) := by
  obtain ⟨l, r, he, her, -⟩ := split_at hx
  rw [State.lockedIds, her, he]
  simp only [List.flatMap_append, List.flatMap_cons, ← List.append_assoc]
  exact List.Perm.append_right _ List.perm_append_comm

theorem lockedIds_setReap (hx : s.reaps[j]? = some x) (f : ReapTxn Q → ReapTxn Q) :
    (s.setReap j f).lockedIds.Perm ((f x).locked ++ (s.reaps.eraseIdx j).flatMap ReapTxn.locked) := by
  obtain ⟨l, r, he, her, hm⟩ := split_at hx
  rw [State.lockedIds, State.setReap, hm, her]
  simp only [List.flatMap_append, List.flatMap_cons, ← List.append_assoc]
  exact List.Perm.append_right _ List.perm_append_comm

theorem mem_setReap {f : ReapTxn Q → ReapTxn Q} {y : ReapTxn Q} (hx : s.reaps[j]? = some x)
    (hy : y ∈ (s.setReap j f).reaps) : y = f x ∨ y ∈ s.reaps := by
  obtain ⟨l, r, he, -, hm⟩ := split_at hx
  rw [State.setReap, hm] at hy
  rw [he]
  simp only [List.mem_append, List.mem_cons] at hy ⊢
  tauto

theorem LockInv.lock (h : LockInv s) (hx : s.reaps[j]? = some x) {f : ReapTxn Q → ReapTxn Q}
    {t : Task Q} (hfree : t.id ∉ s.lockedIds) (hf : (f x).locked.Perm (t.id :: x.locked))
    (hfailing : ∀ q ∈ (f x).failing, q ∈ s.tasks ∧ q.status = .running ∧ q.requeue = none)
    (hrequeueing : ∀ q ∈ (f x).requeueing, q ∈ s.tasks ∧ q.status = .running ∧ q.requeue ≠ none) :
    LockInv (s.setReap j f) := by
  refine ⟨fun y hy => ?_, fun y hy => ?_, ?_⟩
  · rcases mem_setReap hx hy with rfl | hy
    exacts [hfailing, h.failing y hy]
  · rcases mem_setReap hx hy with rfl | hy
    exacts [hrequeueing, h.requeueing y hy]
  · have hp := (lockedIds_setReap hx f).trans
      ((hf.append_right _).trans ((lockedIds_split hx).symm.cons t.id))
    exact hp.nodup_iff.mpr (List.nodup_cons.mpr ⟨hfree, h.nodup⟩)

theorem LockInv.endReap (h : LockInv s) (hx : s.reaps[j]? = some x) {tasks : Tasks Q}
    (hkeep : ∀ t ∈ s.tasks, t.id ∉ x.locked → t ∈ tasks) : LockInv (s.endReap j tasks) := by
  have hnd := (lockedIds_split hx).nodup_iff.mp h.nodup
  rw [List.nodup_append] at hnd
  have hsub : ∀ y ∈ s.reaps.eraseIdx j, y ∈ s.reaps := fun y hy => List.mem_of_mem_eraseIdx hy
  have hdis : ∀ y ∈ s.reaps.eraseIdx j, ∀ t ∈ y.failing ++ y.requeueing, t.id ∉ x.locked :=
    fun y hy t ht hl =>
      hnd.2.2 _ hl _ (List.mem_flatMap.mpr ⟨y, hy, List.mem_map_of_mem ht⟩) rfl
  refine ⟨fun y hy t ht => ?_, fun y hy t ht => ?_, hnd.2.1⟩
  · obtain ⟨hm, hs, hq⟩ := h.failing y (hsub y hy) t ht
    exact ⟨hkeep t hm (hdis y hy t (by simp [ht])), hs, hq⟩
  · obtain ⟨hm, hs, hq⟩ := h.requeueing y (hsub y hy) t ht
    exact ⟨hkeep t hm (hdis y hy t (by simp [ht])), hs, hq⟩

end Reaps

def Labelled (stamp : P → ℕ → Q) (s s' : State Q) (news : List (NewTask Q)) : Prop :=
  ∃ labels : List ℕ, labels.Nodup ∧ (∀ n ∈ labels, s.history.length ≤ n ∧ n < s'.history.length) ∧
    List.Forall₂ (fun new n => ∃ p, new.payload = stamp p n) news labels

theorem Call.stamp_payload {c : Call P} {n : ℕ} {clientId : Option ClientId} {new : NewTask Q}
    (h : (c.stamp stamp n).newTask env clientId = .ok new) : ∃ p, new.payload = stamp p n := by
  obtain ⟨-, ha⟩ := Call.newTask_ok h
  unfold Call.stamp at ha
  cases hc : c.arguments with
  | error e => simp [hc, Except.map] at ha
  | ok p =>
    simp only [hc, Except.map, Except.ok.injEq] at ha
    exact ⟨p, ha.symm⟩

theorem stampAll_getElem? (n i : ℕ) (us : List (Upsert P)) :
    (stampAll stamp n us)[i]? = us[i]?.map fun u => u.stamp stamp (n + i) := by
  induction us generalizing n i with
  | nil => simp [stampAll]
  | cons u us ih =>
    cases i with
    | zero => simp [stampAll]
    | succ i => simp [stampAll, ih, Nat.add_assoc, Nat.add_comm 1 i]

theorem labelled_one {s : State Q} {conn : Conn} {new : NewTask Q} {tasks : Tasks Q} {p : P}
    (hp : new.payload = stamp p s.history.length) :
    Labelled stamp s (s.accept tasks [.accepted conn new]) [new] :=
  ⟨[s.history.length], by simp, by simp [State.accept], .cons ⟨p, hp⟩ .nil⟩

theorem labelled_nil {s s' : State Q} : Labelled stamp s s' [] := ⟨[], by simp, by simp, .nil⟩

theorem labelled_batch {s : State Q} {conn : Conn} {us : List (Upsert P)} {tasks : Tasks Q}
    {stmts : List (Upsert Q × NewTask Q)}
    (hs : upsertStatements env (stampAll stamp s.history.length us) = .ok stmts) :
    Labelled stamp s
      (s.accept tasks ((upsertOrder stmts).reverse.map fun a => .accepted conn a.1.2))
      ((upsertOrder stmts).map fun a => a.1.2) := by
  obtain ⟨hfst, hall⟩ := upsertStatements_ok hs
  have hperm := upsertOrder_perm stmts
  refine ⟨(upsertOrder stmts).map fun a => s.history.length + a.2, ?_, ?_, ?_⟩
  · have hidx : ((upsertOrder stmts).map Prod.snd).Nodup :=
      (hperm.map Prod.snd).nodup_iff.mpr (by rw [List.zipIdx_map_snd]; exact List.nodup_range')
    have hmap := hidx.map (f := fun i => s.history.length + i) fun _ _ h => Nat.add_left_cancel h
    rwa [List.map_map] at hmap
  · intro n hn
    obtain ⟨⟨a, i⟩, ha, rfl⟩ := List.mem_map.mp hn
    have hi := List.snd_lt_of_mem_zipIdx (hperm.mem_iff.mp ha)
    have hlen := hperm.length_eq
    rw [List.length_zipIdx] at hlen
    simp only [State.accept, List.length_append, List.length_map, List.length_reverse, hlen]
    omega
  · rw [List.forall₂_map_left_iff, List.forall₂_map_right_iff, List.forall₂_same]
    rintro ⟨⟨u, new⟩, i⟩ ha
    have hget : stmts[i]? = some (u, new) :=
      List.mk_mem_zipIdx_iff_getElem?.mp (hperm.mem_iff.mp ha)
    have hu : (stampAll stamp s.history.length us)[i]? = some u := by
      rw [← hfst, List.getElem?_map, hget]
      rfl
    rw [stampAll_getElem?] at hu
    obtain ⟨u₀, -, rfl⟩ := Option.map_eq_some_iff.mp hu
    exact Call.stamp_payload (hall _ (List.mem_of_getElem? hget))

theorem lockedClient_false {s : State Q} {c : ClientId} (h : ¬s.lockedClient c = true) {t : Task Q}
    (ht : t ∈ s.tasks) (hc : t.clientId = some c) : t.id ∉ s.lockedIds := by
  intro hl
  apply h
  simp only [State.lockedClient, List.any_eq_true]
  exact ⟨t, ht, by simp [hc, hl]⟩

theorem upsertMany_accepts {s : State Q} (hl : LockInv s) {conn : Conn} {us : List (Upsert P)}
    {ids : List ℕ} {tasks : Tasks Q} {stmts : List (Upsert Q × NewTask Q)}
    (hfree : ¬((stampAll stamp s.history.length us).any fun u => s.lockedClient u.clientId) = true)
    (hs : upsertStatements env (stampAll stamp s.history.length us) = .ok stmts)
    (h : upsertMany env conn (stampAll stamp s.history.length us) s.tasks = (.ok ids, tasks)) :
    AcceptAll conn s ((upsertOrder stmts).map fun a => a.1.2)
      (s.accept tasks ((upsertOrder stmts).reverse.map fun a => .accepted conn a.1.2)) := by
  obtain ⟨stmts', written, hs', hx, -⟩ := upsertMany_ok h
  rw [hs] at hs'
  cases hs'
  refine executeAll_accepts ?_ (fun id hid => hl.lt_next hid) hx
  rintro ⟨⟨u, new⟩, i⟩ ha t ht hc -
  obtain ⟨hfst, hall⟩ := upsertStatements_ok hs
  have hmem : (u, new) ∈ stmts :=
    List.mem_of_getElem? (List.mk_mem_zipIdx_iff_getElem?.mp ((upsertOrder_perm stmts).mem_iff.mp ha))
  have hu : u ∈ stampAll stamp s.history.length us := by
    rw [← hfst]
    exact List.mem_map_of_mem hmem
  rw [(Call.newTask_ok (hall _ hmem)).1] at hc
  refine lockedClient_false (fun hlc => hfree ?_) ht hc
  exact List.any_eq_true.mpr ⟨u, hu, hlc⟩

def Accepts (stamp : P → ℕ → Q) (s s' : State Q) : Prop :=
  ∃ conn news, AcceptAll conn s news s' ∧ Labelled stamp s s' news

theorem accepts_nothing (s : State Q) : Accepts stamp s s :=
  ⟨⟨0, id, fun _ => "", fun _ t => t, fun _ => rfl⟩, [], .nil s, labelled_nil⟩

section Cases

variable {s s' : State Q}

theorem step_enqueue {conn : Conn} {c : Call P} {clientId : Option ClientId}
    (h : step stamp env s (.enqueue conn c clientId) = some s') : Accepts stamp s s' := by
  unfold step at h
  dsimp only at h
  split at h
  · rename_i id tasks new he hn
    cases h
    obtain ⟨new', hn', hi⟩ := enqueue_ok he
    rw [hn] at hn'
    cases hn'
    obtain ⟨p, hp⟩ := Call.stamp_payload hn
    exact ⟨conn, [new], .cons (.inserted (insertTask_ok hi).2) (.nil _), labelled_one hp⟩
  · cases h
    exact accepts_nothing s

theorem step_upsert {conn : Conn} {u : Upsert P}
    (h : step stamp env s (.upsert conn u) = some s') : Accepts stamp s s' := by
  unfold step at h
  dsimp only at h
  split_ifs at h with hc
  split at h
  · rename_i id tasks new he hn
    cases h
    obtain ⟨new', hn', hi⟩ := upsert_ok he
    rw [hn] at hn'
    cases hn'
    obtain ⟨p, hp⟩ := Call.stamp_payload hn
    refine ⟨conn, [new], .cons ?_ (.nil _), labelled_one hp⟩
    rcases executeUpsert_ok hi with ⟨-, hins⟩ | ⟨t, -, hsome, hcl, hrep⟩
    · exact .inserted hins
    · refine .conflicted hsome hcl (lockedClient_false hc hrep.mem ?_) hrep
      rw [hcl, (Call.newTask_ok hn).1]
  · cases h
    exact accepts_nothing s

theorem step_upsertMany (hl : LockInv s) {conn : Conn} {us : List (Upsert P)}
    (h : step stamp env s (.upsertMany conn us) = some s') : Accepts stamp s s' := by
  unfold step at h
  dsimp only at h
  split_ifs at h with hc
  split at h
  · rename_i ids tasks stmts he hs
    cases h
    exact ⟨conn, _, upsertMany_accepts hl hc hs he, labelled_batch hs⟩
  · cases h
    exact accepts_nothing s

theorem step_claim {worker : ℕ} {mode : Mode} {c : Claim}
    (h : step stamp env s (.claim worker mode c : Action P) = some s') :
    s' = s ∨ Quiet env s (.claim worker mode c : Action P) s' := by
  unfold step at h
  dsimp only at h
  split_ifs at h
  split at h
  · cases h
    exact .inl rfl
  · rename_i t' tasks he
    cases h
    have hrun := he
    rw [State.claim, Mode.claim_eq] at hrun
    obtain ⟨t, hw, hskip, rfl, hrep⟩ := Claim.run_some hrun
    exact .inr (.claim he (Claim.claimWhere_pending hw)
      (fun hlk => hskip (List.mem_append_left _ hlk)) hrep)

theorem step_finishes {i : ℕ} {e : RunEnd}
    (h : step stamp env s (.finishes i e : Action P) = some s') :
    Quiet env s (.finishes i e : Action P) s' := by
  unfold step at h
  dsimp only at h
  split at h
  · rename_i r msg hr
    split_ifs at h with hp
    cases h
    exact .finishes hr (.inl hp.1)
  · rename_i r elapsed exit hr
    split_ifs at h with hp
    cases h
    exact .finishes hr (.inr hp)
  · cases h

theorem step_record {i : ℕ} {clock : Timestamptz}
    (h : step stamp env s (.record i clock : Action P) = some s') :
    Quiet env s (.record i clock : Action P) s' := by
  unfold step at h
  dsimp only at h
  split at h
  · rename_i r hr
    split at h
    · rename_i e hp
      split at h
      · rename_i o ho
        split_ifs at h with hd
        cases h
        exact .record hr hp ho fun hlk => hd (.inr hlk)
      · cases h
    · cases h
  · cases h

theorem step_reapFail {j id : ℕ} (h : step stamp env s (.reapFail j id : Action P) = some s') :
    Quiet env s (.reapFail j id : Action P) s' := by
  unfold step at h
  dsimp only at h
  split at h
  · rename_i x t hx ht
    split_ifs at h with hc
    cases h
    obtain ⟨hm, hid⟩ := Table.mem_of_find? ht
    obtain rfl := beq_iff_eq.mp hid
    obtain ⟨hs, hq, -⟩ := Reap.failWhere_true hc.2.2
    exact .reapFail hx hm hc.2.1 hs hq
  · cases h

theorem step_reapRequeue {j id : ℕ}
    (h : step stamp env s (.reapRequeue j id : Action P) = some s') :
    Quiet env s (.reapRequeue j id : Action P) s' := by
  unfold step at h
  dsimp only at h
  split at h
  · rename_i x t hx ht
    split_ifs at h with hc
    cases h
    obtain ⟨hm, hid⟩ := Table.mem_of_find? ht
    obtain rfl := beq_iff_eq.mp hid
    obtain ⟨hs, hq, -⟩ := Reap.requeueWhere_true hc.2.2
    exact .reapRequeue hx hm hc.2.1 hs hq
  · cases h

theorem step_reapCommit {j : ℕ} (h : step stamp env s (.reapCommit j : Action P) = some s') :
    Quiet env s (.reapCommit j : Action P) s' := by
  unfold step at h
  dsimp only at h
  split at h
  · rename_i x hx
    split at h
    · rename_i tasks hw
      cases h
      exact .reapCommit hx hw
    · cases h
      exact .reapDrop hx
  · cases h

theorem step_cases {a : Action P} (hl : LockInv s) (h : step stamp env s a = some s') :
    Accepts stamp s s' ∨ Quiet env s a s' := by
  cases a with
  | enqueue => exact .inl (step_enqueue h)
  | upsert => exact .inl (step_upsert h)
  | upsertMany => exact .inl (step_upsertMany hl h)
  | claim =>
    rcases step_claim h with rfl | hq
    exacts [.inl (accepts_nothing s'), .inr hq]
  | start i =>
    unfold step at h
    dsimp only at h
    split at h
    · rename_i r hr
      split_ifs at h with hp
      cases h
      exact .inr (.start hr hp.1 hp.2)
    · cases h
  | finishes => exact .inr (step_finishes h)
  | record => exact .inr (step_record h)
  | dies worker => cases h; exact .inr (.dies worker)
  | reapBegin r => cases h; exact .inr (.reapBegin r)
  | reapFail => exact .inr (step_reapFail h)
  | reapSecond j =>
    unfold step at h
    dsimp only at h
    split_ifs at h with hj
    cases h
    exact .inr (.reapSecond (List.getElem?_eq_getElem hj))
  | reapRequeue => exact .inr (step_reapRequeue h)
  | reapCommit => exact .inr (step_reapCommit h)
  | reapAbort j =>
    unfold step at h
    dsimp only at h
    split_ifs at h with hj
    cases h
    exact .inr (.reapDrop (List.getElem?_eq_getElem hj))
  | cancel id =>
    unfold step at h
    dsimp only at h
    split_ifs at h with hc
    cases h
    exact .inr (.cancel hc)
  | clearCompleted before =>
    cases h
    exact .inr (.clear fun t ht => .inl (by simp only [Bool.and_eq_true, beq_iff_eq] at ht; exact ht.1))
  | clearFailed before =>
    cases h
    exact .inr (.clear fun t ht => .inr (by simp only [Bool.and_eq_true, beq_iff_eq] at ht; exact ht.1))
  | clearAll =>
    unfold step at h
    dsimp only at h
    split_ifs at h with hc
    cases h
    exact .inr (.clearAll hc)

end Cases

theorem LockInv.write {s : State Q} {j : ℕ} {x : ReapTxn Q} {tasks : Tasks Q} (h : LockInv s)
    (hx : s.reaps[j]? = some x)
    (hw : x.reap.write env x.failing x.requeueing s.tasks = .ok tasks) :
    tasks.next = s.tasks.next ∧ (∀ t ∈ x.requeueing, ∃ q, t.applyRequeue env = .ok q) ∧
      ∀ q, q ∈ tasks ↔ (∃ t ∈ x.failing, q = x.reap.fail env t) ∨
        (∃ t ∈ x.requeueing, t.applyRequeue env = .ok q) ∨ (q ∈ s.tasks ∧ q.id ∉ x.locked) := by
  have hm := List.mem_of_getElem? hx
  have hmem : ∀ t ∈ x.failing ++ x.requeueing, t ∈ s.tasks := by
    intro t ht
    rcases List.mem_append.mp ht with ht | ht
    exacts [(h.failing x hm t ht).1, (h.requeueing x hm t ht).1]
  have hids : ((x.failing ++ x.requeueing).map Task.id).Nodup :=
    (List.nodup_append.mp ((lockedIds_split hx).nodup_iff.mp h.nodup)).1
  obtain ⟨hn, hok, hiff⟩ := Reap.write_ok hmem hids hw
  refine ⟨hn, hok, fun q => (hiff q).trans (or_congr_right (or_congr_right ?_))⟩
  apply and_congr_right
  intro _
  simp only [ReapTxn.locked, List.mem_map, not_exists, not_and]
  exact ⟨fun h t ht he => h t ht he.symm, fun h t ht he => h t ht he.symm⟩

theorem LockInv.reapBegin {s : State Q} (h : LockInv s) (r : Reap) :
    LockInv { s with reaps := s.reaps ++ [⟨r, false, [], []⟩] } := by
  refine ⟨fun x hx => ?_, fun x hx => ?_, ?_⟩
  · rcases List.mem_append.mp hx with hx | hx
    · exact h.failing x hx
    · rw [List.mem_singleton.mp hx]; simp
  · rcases List.mem_append.mp hx with hx | hx
    · exact h.requeueing x hx
    · rw [List.mem_singleton.mp hx]; simp
  · simpa [State.lockedIds, ReapTxn.locked] using h.nodup

theorem LockInv.reapSecond {s : State Q} (h : LockInv s) {j : ℕ} {x : ReapTxn Q}
    (hx : s.reaps[j]? = some x) : LockInv (s.setReap j fun x => { x with second := true }) := by
  have hm := List.mem_of_getElem? hx
  refine ⟨fun y hy => ?_, fun y hy => ?_, ?_⟩
  · rcases mem_setReap hx hy with rfl | hy
    exacts [h.failing x hm, h.failing y hy]
  · rcases mem_setReap hx hy with rfl | hy
    exacts [h.requeueing x hm, h.requeueing y hy]
  · exact ((lockedIds_setReap hx _).trans (lockedIds_split hx).symm).nodup_iff.mpr h.nodup

theorem LockInv.quiet {s s' : State Q} {a : Action P} (h : LockInv s) (hq : Quiet env s a s') :
    LockInv s' := by
  cases hq with
  | claim _ _ hfree hrep => exact h.of_rows fun t ht hl => hrep.keep ht fun he => hfree (he ▸ hl)
  | start | finishes | dies => exact h.of_rows fun t ht _ => ht
  | record _ _ _ hfree =>
    exact h.of_rows fun t ht hl => finishOneOff_keep ht fun hw => hfree ((finishWhere_true hw).1 ▸ hl)
  | reapBegin r => exact h.reapBegin r
  | @reapFail j x t hx ht hfree hs hq =>
    have hm := List.mem_of_getElem? hx
    refine h.lock hx hfree (.refl _) (fun q hq' => ?_) (h.requeueing x hm)
    rcases List.mem_cons.mp hq' with rfl | hq'
    exacts [⟨ht, hs, hq⟩, h.failing x hm q hq']
  | reapSecond hx => exact h.reapSecond hx
  | @reapRequeue j x t hx ht hfree hs hq =>
    have hm := List.mem_of_getElem? hx
    apply h.lock hx hfree (x.locked_requeueing t) (h.failing x hm)
    intro q hq'
    rcases List.mem_append.mp hq' with hq' | hq'
    · exact h.requeueing x hm q hq'
    · obtain rfl := List.mem_singleton.mp hq'
      exact ⟨ht, hs, hq⟩
  | reapCommit hx hw =>
    exact h.endReap hx fun t ht hl => ((h.write hx hw).2.2 t).mpr (.inr (.inr ⟨ht, hl⟩))
  | reapDrop hx => exact h.endReap hx fun t ht _ => ht
  | cancel hfree =>
    refine h.of_rows fun t ht hl => Table.mem_delete.mpr ⟨ht, ?_⟩
    exact beq_eq_false_iff_ne.mpr fun he => hfree (he ▸ hl)
  | clear hp =>
    refine h.of_rows fun t ht hl => Table.mem_delete.mpr ⟨ht, ?_⟩
    rw [← Bool.not_eq_true]
    intro hpt
    have hs := h.status ht hl
    rcases hp t hpt with hc | hc <;> simp [hc] at hs
  | clearAll hnil =>
    apply h.of_rows
    intro t ht hl
    rw [hnil] at hl
    cases hl

theorem lockInv_reachable {G : State Q → Action P → Prop} {s : State Q}
    (h : (taskSystem stamp env).Reachable G s) : LockInv s := by
  refine h.invariant ?_ fun s a s' hl _ he => ?_
  · refine ⟨fun x hx => ?_, fun x hx => ?_, List.nodup_nil⟩
    all_goals cases hx
  · rcases step_cases hl he with ⟨conn, news, ha, -⟩ | hq
    exacts [hl.acceptAll ha, hl.quiet hq]

theorem AcceptAll.preserves {I : State Q → Prop} {conn : Conn} {s s' : State Q}
    {news : List (NewTask Q)} (h : AcceptAll conn s news s') (hl : LockInv s)
    (haccept : ∀ s conn new s', LockInv s → I s → Accept s conn new s' → I s') (hi : I s) : I s' := by
  induction h with
  | nil => exact hi
  | cons ha _ ih => exact ih (hl.accept ha) (haccept _ _ _ _ hl hi ha)

theorem reachable_invariant {G : State Q → Action P → Prop} {I : State Q → Prop}
    (hinit : I State.initial)
    (haccept : ∀ s conn new s', LockInv s → I s → Accept s conn new s' → I s')
    (hquiet : ∀ s a s', LockInv s → I s → G s a → Quiet env s a s' → I s') {s : State Q}
    (h : (taskSystem stamp env).Reachable G s) : I s := by
  apply h.invariant_of_reachable hinit
  intro s a s' hr hi hg he
  have hl := lockInv_reachable hr
  rcases step_cases hl he with ⟨conn, news, ha, -⟩ | hq
  · exact ha.preserves hl haccept hi
  · exact hquiet s a s' hl hi hg hq

end PostgresQueue
