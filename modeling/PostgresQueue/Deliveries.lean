import PostgresQueue.AtMostOnce
import PostgresQueue.JsonbColumn
import PostgresQueue.NoLostUpdate
import PostgresQueue.Registry

namespace PostgresQueue

open Library System

section Calls

variable {F M O : Type}

/-- What a client asks for: `func(*args, **kwargs)`. -/
structure HandlerCall (F O : Type) where
  func : F
  args : List (PyValue O)
  kwargs : OrderedDict PyText (PyValue O)

/-- A payload as the column gives it back, with the call it was made from, at which the code never
looks. -/
structure CallPayload (F O : Type) where
  json : JsonText
  call : HandlerCall F O

inductive StartError
  | registry (e : RegistryError)
  | storage (e : StorageError)

variable (modules : ModuleEnv F M) (floatRepr : PyFloat → String) (p : Pickling O)
  (column : JsonbColumn)

structure HandlerCall.StoredAs (call : HandlerCall F O) (path : String) (json : JsonText) : Prop where
  path : getFunctionPath (modules.attributes call.func) = .ok path
  json : ∃ payload text, serialize floatRepr p call.args call.kwargs = .ok payload ∧
    dumps floatRepr payload = .ok text ∧ column text = some json

/-- The handler and its arguments, as both worker paths take them from the claimed row. -/
def handlerCall (name : String) (json : JsonText) :
    Except StartError (F × List (PyValue O) × List (PyKey O × PyValue O)) :=
  match resolveFunctionPath modules name with
  | .error e => .error (.registry e)
  | .ok handler =>
    match deserialize p (loads json) with
    | .error e => .error (.storage e)
    | .ok (args, kwargs) => .ok (handler, args, kwargs)

def HandlerCall.DeliveredBy (call : HandlerCall F O) (name : String) (json : JsonText) : Prop :=
  ∃ args kwargs named, handlerCall modules p name json = .ok (call.func, args, kwargs) ∧
    List.Forall₂ (Arrives floatRepr p) call.args args ∧
    List.Forall₂ (fun e r => r.1 = .str e.1 ∧ Arrives floatRepr p e.2 r.2) call.kwargs.entries named ∧
    named.Perm kwargs

variable {modules floatRepr p column}

theorem HandlerCall.StoredAs.deliveredBy {call : HandlerCall F O} {path : String} {json : JsonText}
    (h : call.StoredAs modules floatRepr p column path json) (hp : p.Inverts)
    (hcolumn : column.Keeps floatRepr) (hback : LeadsBack modules call.func)
    (hnames : ∀ k ∈ call.kwargs.keys, NoPair k) : call.DeliveredBy modules floatRepr p path json := by
  obtain ⟨payload, text, hserialize, hdumps, hread⟩ := h.json
  obtain ⟨args, kwargs, named, hrestored, hargs, hnamed, hperm⟩ :=
    deserialize_kept hp hserialize hdumps (hcolumn text json hread) hnames
  have hresolve : resolveFunctionPath modules path = .ok call.func := by
    rcases hback with ⟨msg, hrefused⟩ | ⟨path', hpath, hresolve⟩
    · rw [h.path] at hrefused
      cases hrefused
    · rw [h.path] at hpath
      cases hpath
      exact hresolve
  refine ⟨args, kwargs, named, ?_, hargs, hnamed, hperm⟩
  unfold handlerCall
  rw [hresolve, hrestored]

end Calls

section Origins

variable {P Q : Type} {stamp : P → ℕ → Q} {env : Env Q}

def Action.calls : Action P → List (Option ClientId × Call P)
  | .enqueue _ c clientId => [(clientId, c)]
  | .upsert _ u => [(some u.clientId, u.toCall)]
  | .upsertMany _ us => us.map fun u => (some u.clientId, u.toCall)
  | .claim .. | .start _ | .finishes .. | .record .. | .dies _ | .reapBegin _ | .reapFail ..
  | .reapSecond _ | .reapRequeue .. | .reapCommit _ | .reapAbort _ | .cancel _ | .clearCompleted _
  | .clearFailed _ | .clearAll => []

theorem upsertMany_calls {n : ℕ} {us : List (Upsert P)} {stmts : List (Upsert Q × NewTask Q)}
    (hs : upsertStatements env (stampAll stamp n us) = .ok stmts) {a : (Upsert Q × NewTask Q) × ℕ}
    (ha : a ∈ upsertOrder stmts) :
    ∃ u ∈ us, ∃ k, (u.toCall.stamp stamp k).newTask env (some u.clientId) = .ok a.1.2 := by
  obtain ⟨hfst, hall⟩ := upsertStatements_ok hs
  have hget := List.mem_zipIdx' ((upsertOrder_perm stmts).mem_iff.mp ha)
  have hmem : a.1 ∈ stmts := by
    rw [hget.2]
    exact List.getElem_mem _
  have hu : a.1.1 ∈ stampAll stamp n us := hfst ▸ List.mem_map_of_mem hmem
  obtain ⟨i, hi⟩ := List.mem_iff_getElem?.mp hu
  rw [stampAll_getElem?, Option.map_eq_some_iff] at hi
  obtain ⟨u, hi, he⟩ := hi
  refine ⟨u, List.mem_of_getElem? hi, n + i, ?_⟩
  have hstmt := hall _ hmem
  rw [← he] at hstmt
  exact hstmt

theorem Quiet.accepted_before {s s' : State Q} {a : Action P} (h : Quiet env s a s')
    (hl : LockInv s) {conn : Conn} {new : NewTask Q} (hm : Event.accepted conn new ∈ s'.history) :
    Event.accepted conn new ∈ s.history := by
  obtain ⟨gone, hhist, -, -⟩ := h.fate hl
  rw [hhist] at hm
  rcases List.mem_append.mp hm with hm | hm
  · obtain ⟨clientId, -, heq⟩ := List.mem_map.mp hm
    cases heq
  · exact hm

theorem history_calls {s s' : State Q} {a : Action P} (hl : LockInv s)
    (h : step stamp env s a = some s') {conn : Conn} {new : NewTask Q}
    (hm : Event.accepted conn new ∈ s'.history) :
    Event.accepted conn new ∈ s.history ∨
      ∃ c ∈ a.calls, ∃ n, (c.2.stamp stamp n).newTask env c.1 = .ok new := by
  cases a with
  | enqueue conn' c clientId =>
    unfold step at h
    dsimp only at h
    split at h
    · rename_i id tasks new' he hn
      cases h
      rcases List.mem_cons.mp hm with heq | hm
      · cases heq
        exact .inr ⟨_, List.mem_singleton_self _, _, hn⟩
      · exact .inl hm
    · cases h
      exact .inl hm
  | upsert conn' u =>
    unfold step at h
    dsimp only at h
    split_ifs at h
    split at h
    · rename_i id tasks new' he hn
      cases h
      rcases List.mem_cons.mp hm with heq | hm
      · cases heq
        exact .inr ⟨_, List.mem_singleton_self _, _, hn⟩
      · exact .inl hm
    · cases h
      exact .inl hm
  | upsertMany conn' us =>
    unfold step at h
    dsimp only at h
    split_ifs at h
    split at h
    · rename_i ids tasks stmts he hs
      cases h
      rcases List.mem_append.mp hm with hm | hm
      · obtain ⟨a, ha, heq⟩ := List.mem_map.mp hm
        cases heq
        obtain ⟨u, hu, k, hk⟩ := upsertMany_calls hs (List.mem_reverse.mp ha)
        exact .inr ⟨_, List.mem_map_of_mem hu, k, hk⟩
      · exact .inl hm
    · cases h
      exact .inl hm
  | claim =>
    rcases step_claim h with rfl | hq
    exacts [.inl hm, .inl (hq.accepted_before hl hm)]
  | finishes => exact .inl ((step_finishes h).accepted_before hl hm)
  | record => exact .inl ((step_record h).accepted_before hl hm)
  | reapFail => exact .inl ((step_reapFail h).accepted_before hl hm)
  | reapRequeue => exact .inl ((step_reapRequeue h).accepted_before hl hm)
  | reapCommit => exact .inl ((step_reapCommit h).accepted_before hl hm)
  | start i =>
    unfold step at h
    dsimp only at h
    split at h
    · split_ifs at h
      cases h
      exact .inl hm
    · cases h
  | reapSecond | reapAbort =>
    unfold step at h
    dsimp only at h
    split_ifs at h
    cases h
    exact .inl hm
  | dies | reapBegin | clearCompleted | clearFailed =>
    cases h
    exact .inl hm
  | cancel id =>
    unfold step at h
    dsimp only at h
    split_ifs at h with hc
    cases h
    have hq : Quiet env s (.cancel id : Action P) _ := .cancel hc
    exact .inl (hq.accepted_before hl hm)
  | clearAll =>
    unfold step at h
    dsimp only at h
    split_ifs at h with hc
    cases h
    have hq : Quiet env s (.clearAll : Action P) _ := .clearAll hc
    exact .inl (hq.accepted_before hl hm)

def State.Submitted (env : Env Q) (s : State Q) (clientId : Option ClientId) (v : Version Q) : Prop :=
  ∃ conn new, Event.accepted conn new ∈ s.history ∧ new.clientId = clientId ∧ new.Describes env conn v

structure Task.Traced (env : Env Q) (s : State Q) (t : Task Q) : Prop where
  own : s.Submitted env t.clientId t.version
  parked : ∀ spec, t.requeue = some spec → ∃ conn new,
    Event.accepted conn new ∈ s.history ∧ new.clientId = t.clientId ∧ spec = new.requeue conn

structure OriginInv (env : Env Q) (s : State Q) : Prop where
  rows : ∀ t ∈ s.tasks, t.Traced env s
  taken : ∀ claimed ∈ s.taken, s.Submitted env claimed.1.clientId claimed.1.version

section Trace

variable {s s' : State Q} {t q : Task Q}

theorem State.Submitted.mono {clientId : Option ClientId} {v : Version Q}
    (h : s.Submitted env clientId v) (hs : ∀ e ∈ s.history, e ∈ s'.history) :
    s'.Submitted env clientId v := by
  obtain ⟨conn, new, hm, hc, hd⟩ := h
  exact ⟨conn, new, hs _ hm, hc, hd⟩

namespace Task.Traced

theorem mono (h : t.Traced env s) (hs : ∀ e ∈ s.history, e ∈ s'.history) : t.Traced env s' := by
  refine ⟨h.own.mono hs, fun spec hspec => ?_⟩
  obtain ⟨conn, new, hm, hrest⟩ := h.parked spec hspec
  exact ⟨conn, new, hs _ hm, hrest⟩

theorem onConflict {conn : Conn} {new : NewTask Q} (h : t.Traced env s)
    (hm : Event.accepted conn new ∈ s.history) (hc : t.clientId = new.clientId) :
    (new.onConflict conn t).Traced env s := by
  by_cases hr : t.status = .running
  · rw [new.onConflict_running conn hr]
    exact ⟨h.own, fun spec hspec => ⟨conn, new, hm, hc.symm, (Option.some.inj hspec).symm⟩⟩
  · rw [new.onConflict_idle conn hr]
    exact ⟨⟨conn, new, hm, hc.symm, .inl rfl⟩, fun spec hspec => by cases hspec⟩

theorem becomes (h : t.Traced env s) (hb : t.Becomes env q) : q.Traced env s := by
  cases hb with
  | same => exact h
  | requeued hs ha =>
    obtain ⟨spec, v, hspec, hv, rfl⟩ := Task.applyRequeue_ok.mp ha
    obtain ⟨conn, new, hm, hc, rfl⟩ := h.parked spec hspec
    exact ⟨⟨conn, new, hm, hc, .inr hv⟩, fun spec hspec => by cases hspec⟩
  | closed => exact ⟨h.own, h.parked⟩
  | reaped => exact ⟨h.own, h.parked⟩

end Task.Traced

theorem OriginInv.accept {conn : Conn} {new : NewTask Q} (h : OriginInv env s)
    (ha : Accept s conn new s') : OriginInv env s' := by
  have hmono : ∀ e ∈ s.history, e ∈ s'.history := by
    rw [ha.eq.2.2.2]
    exact fun e he => List.mem_cons_of_mem _ he
  have hnew : Event.accepted conn new ∈ s'.history := by
    rw [ha.eq.2.2.2]
    exact List.mem_cons_self
  refine ⟨fun q hq => ?_, fun claimed hm => ?_⟩
  · cases ha with
    | inserted hins =>
      rcases (hins.mem_iff q).mp hq with rfl | hq
      · exact ⟨⟨conn, new, hnew, rfl, .inl rfl⟩, fun spec hspec => by cases hspec⟩
      · exact (h.rows q hq).mono hmono
    | conflicted _ hc _ hrep =>
      rcases hrep.origin hq with rfl | ⟨hq, -⟩
      · exact ((h.rows _ hrep.mem).mono hmono).onConflict hnew hc
      · exact (h.rows q hq).mono hmono
  · rw [ha.taken] at hm
    exact (h.taken claimed hm).mono hmono

theorem OriginInv.quiet {a : Action P} (h : OriginInv env s) (hl : LockInv s)
    (hq : Quiet env s a s') : OriginInv env s' := by
  obtain ⟨gone, hhist, -, -⟩ := hq.fate hl
  have hmono : ∀ e ∈ s.history, e ∈ s'.history := by
    rw [hhist]
    exact fun e he => List.mem_append_right _ he
  rcases hq.rows hl with ⟨worker, mode, c, t, -, -, -, hrep, hr⟩ | ⟨ht, hrow⟩
  · have hclaimed := (h.rows t hrep.mem).mono hmono
    constructor
    · intro q hq
      rcases hrep.origin hq with rfl | ⟨hq, -⟩
      · exact ⟨hclaimed.own, hclaimed.parked⟩
      · exact (h.rows q hq).mono hmono
    · intro claimed hm
      rw [State.taken, hr, List.map_append] at hm
      rcases List.mem_append.mp hm with hm | hm
      · exact (h.taken claimed hm).mono hmono
      · obtain rfl := List.mem_singleton.mp hm
        exact hclaimed.own
  · constructor
    · intro q hq
      obtain ⟨t, ht, hb⟩ := hrow q hq
      exact ((h.rows t ht).becomes hb).mono hmono
    · rw [ht]
      exact fun claimed hm => (h.taken claimed hm).mono hmono

end Trace

theorem originInv_reachable {G : State Q → Action P → Prop} {s : State Q}
    (h : (taskSystem stamp env).Reachable G s) : OriginInv env s := by
  refine reachable_invariant ?_ ?_ ?_ h
  · exact ⟨fun t ht => absurd ht (Table.not_mem_empty t), fun c hc => absurd hc List.not_mem_nil⟩
  · exact fun s conn new s' _ hi ha => hi.accept ha
  · exact fun s a s' hl hi _ hq => hi.quiet hl hq

theorem NewTask.Describes.eq {conn : Conn} {new : NewTask Q} {v : Version Q}
    (h : new.Describes env conn v) : v = { new.version conn with runAt := v.runAt } := by
  rcases h with rfl | h
  · rfl
  · obtain ⟨runAt, -, rfl⟩ := (new.requeue_encodes conn).mp h
    rfl

end Origins

section Delivered

variable {F M O : Type}

/-- What a client submits is made by `get_function_path` and `serialize` from one call. -/
def storesCalls (modules : ModuleEnv F M) (floatRepr : PyFloat → String) (p : Pickling O)
    (column : JsonbColumn) (a : Action (CallPayload F O)) : Prop :=
  ∀ c ∈ a.calls, ∀ path payload, c.2.task = .ok path → c.2.arguments = .ok payload →
    payload.call.StoredAs modules floatRepr p column path payload.json

variable {modules : ModuleEnv F M} {floatRepr : PyFloat → String} {p : Pickling O}
  {column : JsonbColumn} {env : Env (CallPayload F O × ℕ)} {s : State (CallPayload F O × ℕ)}

theorem Call.stamp_stored {c : Call (CallPayload F O)} {n : ℕ} {clientId : Option ClientId}
    {new : NewTask (CallPayload F O × ℕ)} (h : (c.stamp Prod.mk n).newTask env clientId = .ok new) :
    c.task = .ok new.name ∧ c.arguments = .ok new.payload.1 := by
  simp only [Call.newTask, bind_ok] at h
  obtain ⟨-, -, name, hname, payload, hpayload, he⟩ := h
  cases he
  refine ⟨hname, ?_⟩
  unfold Call.stamp at hpayload
  cases hc : c.arguments with
  | error e => simp [hc, Except.map] at hpayload
  | ok payload =>
    simp only [hc, Except.map, Except.ok.injEq] at hpayload
    rw [← hpayload]

theorem history_stored
    (h : (taskSystem Prod.mk env).Reachable (fun _ a => storesCalls modules floatRepr p column a) s)
    {conn : Conn} {new : NewTask (CallPayload F O × ℕ)}
    (hm : Event.accepted conn new ∈ s.history) :
    new.payload.1.call.StoredAs modules floatRepr p column new.name new.payload.1.json := by
  refine Reachable.invariant_of_reachable (I := fun s => ∀ conn new, .accepted conn new ∈ s.history →
    new.payload.1.call.StoredAs modules floatRepr p column new.name new.payload.1.json) ?_ ?_ h conn new hm
  · exact fun conn new hm => absurd hm List.not_mem_nil
  · intro s a s' hr hi hg he conn new hm
    rcases history_calls (lockInv_reachable hr) he hm with hm | ⟨c, hc, n, hn⟩
    · exact hi conn new hm
    · obtain ⟨htask, harguments⟩ := Call.stamp_stored hn
      exact hg c hc _ _ htask harguments

/-- Each run calls what one accepted call of a client asked for, and no two runs answer the same
call. -/
theorem runs_deliver_calls (hp : p.Inverts) (hcolumn : column.Keeps floatRepr)
    (h : (taskSystem Prod.mk env).Reachable (fun _ a => storesCalls modules floatRepr p column a) s) :
    ∃ origin : Fin s.runs.length → Fin s.history.length, Function.Injective origin ∧
      ∀ i, ∃ conn new, s.history[origin i] = .accepted conn new ∧
        new.clientId = s.runs[i].task.clientId ∧ new.Describes env conn s.runs[i].task.version ∧
        (LeadsBack modules new.payload.1.call.func →
          (∀ k ∈ new.payload.1.call.kwargs.keys, NoPair k) →
          new.payload.1.call.DeliveredBy modules floatRepr p s.runs[i].task.name
            s.runs[i].task.payload.1.json) := by
  have hrun : ∀ i : Fin s.runs.length, ∃ k : Fin s.history.length, ∃ conn new,
      s.history[k] = .accepted conn new ∧ new.clientId = s.runs[i].task.clientId ∧
        new.Describes env conn s.runs[i].task.version := by
    intro i
    have htaken : (s.runs[i].task, s.runs[i].startedAt) ∈ s.taken :=
      List.mem_map_of_mem (List.getElem_mem i.isLt)
    obtain ⟨conn, new, hm, hc, hd⟩ := (originInv_reachable h).taken _ htaken
    obtain ⟨k, hk, he⟩ := List.mem_iff_getElem.mp hm
    exact ⟨⟨k, hk⟩, conn, new, he, hc, hd⟩
  choose origin conn new haccepted hclient hdescribes using hrun
  have hpayload : ∀ i, s.runs[i].task.payload = (new i).payload := fun i =>
    congrArg Version.payload (hdescribes i).eq
  refine ⟨origin, ?_, fun i => ⟨conn i, new i, haccepted i, hclient i, hdescribes i, ?_⟩⟩
  · intro i j hij
    have hevent := (haccepted i).symm.trans ((congrArg (s.history[·]) hij).trans (haccepted j))
    have hlabel : s.runs[i].task.payload.2 = s.runs[j].task.payload.2 := by
      rw [hpayload, hpayload, (Event.accepted.inj hevent).2]
    have hexecuted : ∀ k : Fin s.runs.length,
        s.executed[k.val]? = some s.runs[k].task.payload.2 := by
      intro k
      rw [State.executed, State.taken, List.map_map, List.getElem?_map,
        List.getElem?_eq_getElem k.isLt]
      rfl
    apply Fin.ext
    have hnodup := (onceInv_reachable h).1.executed_nodup
    refine (List.getElem?_inj ?_ hnodup).mp ?_
    · exact (List.getElem?_eq_some_iff.mp (hexecuted i)).1
    · rw [hexecuted, hexecuted, hlabel]
  · intro hback hnames
    have hname : s.runs[i].task.name = (new i).name := congrArg Version.name (hdescribes i).eq
    rw [hname, hpayload]
    exact (history_stored h (haccepted i ▸ List.getElem_mem _)).deliveredBy hp hcolumn hback hnames

def sampleHandlerCall : HandlerCall SampleCallable Unit where
  func := .function
  args := [.str (pyText "gASPlC4="), emptySet]
  kwargs := (sampleKwargs (pyText "zebra") (.list [])).set (pyText "args") (.list [])

def samplePayload (kwargs : List PyText) : JsonText :=
  .object [(pyText "args", .array [.str (pyText "gASPlC4="), .str (pyText "gASPlC4=")]),
    (pyText "kwargs", .object (kwargs.map fun name => (name, .array []))),
    (pyText "pickled_args", .array [.int 1]), (pyText "pickled_kwargs", .array [])]

def sampleColumn : JsonbColumn
  | .object [(args, .array [.str text, .str pickled]),
      (kwargs, .object [(zebra, .array []), (name, .array [])]), (indices, .array [.int 1]),
      (keys, .array [])] =>
    if [args, text, pickled, kwargs, zebra, name, indices, keys] = [pyText "args",
        pyText "gASPlC4=", pyText "gASPlC4=", pyText "kwargs", pyText "zebra", pyText "args",
        pyText "pickled_args", pyText "pickled_kwargs"] then
      some (samplePayload [pyText "args", pyText "zebra"])
    else none
  | _ => none

theorem samplePayload_keptAs (floatRepr : PyFloat → String) :
    (samplePayload [pyText "zebra", pyText "args"]).KeptAs floatRepr
      (samplePayload [pyText "args", pyText "zebra"]) := by
  have hstr : ∀ text, JsonText.KeptAs floatRepr (.str (pyText text)) (.str (pyText text)) := by
    intro text
    have hkept : JsonText.KeptAs floatRepr (.str (pyText text)) (.str (unescaped (pyText text))) :=
      .str (pyText text)
    rwa [(unescaped_eq_iff _).mpr (noPair_pyText text)] at hkept
  have hnil : JsonText.KeptAs floatRepr (.array []) (.array []) := .array .nil
  refine .object (.cons (.array (.cons (hstr _) (.cons (hstr _) .nil))) (.cons ?_
    (.cons (.array (.cons (.int 1) .nil)) (.cons hnil .nil)))) (List.Perm.refl _)
  exact .object (.cons hnil (.cons hnil .nil)) (.swap ..)

theorem sampleColumn_keeps (floatRepr : PyFloat → String) : sampleColumn.Keeps floatRepr := by
  intro text json h
  unfold sampleColumn at h
  split at h
  · split_ifs at h with hnames
    simp only [List.cons.injEq, and_true] at hnames
    obtain ⟨rfl, rfl, rfl, rfl, rfl, rfl, rfl, rfl⟩ := hnames
    cases h
    exact samplePayload_keptAs floatRepr
  · cases h

def sampleCallPayload : CallPayload SampleCallable Unit where
  json := samplePayload [pyText "args", pyText "zebra"]
  call := sampleHandlerCall

def sampleCall : Call (CallPayload SampleCallable Unit) where
  task := .ok "jobs:handler"
  arguments := .ok sampleCallPayload
  runAt := some (.aware 0)
  priority := 0
  maxRuntimeSeconds := none
  now := 0

def calledTwice : List (Action (CallPayload SampleCallable Unit)) :=
  [.enqueue sampleConn sampleCall none, .upsert sampleConn ⟨sampleCall, "report"⟩,
    .claim 0 .sequential ⟨10, none, 10, []⟩, .upsert sampleConn ⟨sampleCall, "report"⟩,
    .claim 1 .concurrent ⟨10, none, 20, []⟩]

def delivered : State (CallPayload SampleCallable Unit × ℕ) :=
  (taskSystem Prod.mk sampleEnv).run free calledTwice

theorem sampleCall_storesCalls {a : Action (CallPayload SampleCallable Unit)}
    (h : ∀ c ∈ a.calls, c.2 = sampleCall) :
    storesCalls sampleModules (fun _ => "") samplePickling sampleColumn a := by
  intro c hc
  rw [h c hc]
  rintro path payload ⟨⟩ ⟨⟩
  exact ⟨rfl, _, _, rfl, rfl, rfl⟩

theorem calledTwice_storesCalls : ∀ a ∈ calledTwice,
    storesCalls sampleModules (fun _ => "") samplePickling sampleColumn a := by
  have hcall : ∀ a ∈ calledTwice, ∀ c ∈ a.calls, c.2 = sampleCall := by
    simp [calledTwice, Action.calls]
  exact fun a ha => sampleCall_storesCalls (hcall a ha)

theorem delivered_reachable : (taskSystem Prod.mk sampleEnv).Reachable
    (fun _ a => storesCalls sampleModules (fun _ => "") samplePickling sampleColumn a) delivered :=
  ⟨_, (Steps.of_run (by decide +kernel)).of_forall_mem calledTwice_storesCalls⟩

theorem runs_deliver_calls_twice : delivered.runs.length = 2 ∧
    ∃ origin : Fin delivered.runs.length → Fin delivered.history.length,
      Function.Injective origin ∧
      ∀ i, ∃ conn new, delivered.history[origin i] = .accepted conn new ∧
        new.clientId = delivered.runs[i].task.clientId ∧
        new.Describes sampleEnv conn delivered.runs[i].task.version ∧
        (LeadsBack sampleModules new.payload.1.call.func →
          (∀ k ∈ new.payload.1.call.kwargs.keys, NoPair k) →
          new.payload.1.call.DeliveredBy sampleModules (fun _ => "") samplePickling
            delivered.runs[i].task.name delivered.runs[i].task.payload.1.json) :=
  ⟨by decide +kernel, runs_deliver_calls samplePickling_inverts (sampleColumn_keeps _)
    delivered_reachable⟩

end Delivered

end PostgresQueue
