import PostgresQueue.Serialization

namespace PostgresQueue

open Library

theorem except_bind_ok {ε α β : Type} {x : Except ε α} {f : α → Except ε β} {b : β} :
    x >>= f = .ok b ↔ ∃ a, x = .ok a ∧ f a = .ok b := by
  cases x <;> simp [bind, Except.bind]

section Prepare

variable {O : Type} (floatRepr : PyFloat → String) (p : Pickling O)

def DumpsTo (v : PyValue O) (j : JsonText) : Prop := dumps floatRepr v = .ok j

/-- What a handler is to get for an argument, where `Reads` says which JSON is read for a value. -/
inductive DeliversAs (Reads : PyValue O → JsonText → Prop) : PyValue O → PyValue O → Prop
  | json {v : PyValue O} {j : JsonText} : isModel v = false → Reads v j →
      DeliversAs Reads v (loads j)
  | model {v : PyValue O} {j : JsonText} : isModel v = true → Reads (p.modelDump v) j →
      DeliversAs Reads v (loads j)
  | pickled {v : PyValue O} : isModel v = false → isJsonSerializable floatRepr v = false →
      DeliversAs Reads v v

/-- With nothing between the encoding and the decoding. -/
def Delivers : PyValue O → PyValue O → Prop := DeliversAs floatRepr p (DumpsTo floatRepr)

def flagged (i : ℕ) : List Bool → List ℕ
  | [] => []
  | flag :: flags => if flag then i :: flagged (i + 1) flags else flagged (i + 1) flags

variable {floatRepr p}

theorem prepareValue_ok {v prepared : PyValue O} {isPickled : Bool}
    (h : prepareValue floatRepr p v = .ok (prepared, isPickled)) :
    (isModel v = true ∧ prepared = p.modelDump v ∧ isPickled = false) ∨
    (isModel v = false ∧ isJsonSerializable floatRepr v = true ∧ prepared = v ∧ isPickled = false) ∨
    (isModel v = false ∧ isJsonSerializable floatRepr v = false ∧ isPickled = true ∧
      ∃ pickled, p.dillDumps v = .ok pickled ∧ prepared = .str (pyText (p.b64encode pickled))) := by
  unfold prepareValue at h
  split_ifs at h with hm hj
  · cases h
    exact .inl ⟨hm, rfl, rfl⟩
  · cases h
    exact .inr (.inl ⟨by simpa using hm, hj, rfl, rfl⟩)
  · obtain ⟨pickled, hp, heq⟩ := except_bind_ok.mp h
    cases heq
    exact .inr (.inr ⟨by simpa using hm, by simpa using hj, rfl, pickled, hp, rfl⟩)

theorem serializeArgs_ok {i : ℕ} {args serializedArgs : List (PyValue O)} {indices : List ℕ}
    (h : serializeArgs floatRepr p i args = .ok (serializedArgs, indices)) :
    ∃ prepared, List.Forall₂ (fun v pr => prepareValue floatRepr p v = .ok pr) args prepared ∧
      serializedArgs = prepared.map Prod.fst ∧ indices = flagged i (prepared.map Prod.snd) := by
  induction args generalizing i serializedArgs indices with
  | nil =>
    cases h
    exact ⟨[], .nil, rfl, rfl⟩
  | cons arg args ih =>
    obtain ⟨⟨prepared, isPickled⟩, hprepare, h⟩ := except_bind_ok.mp h
    obtain ⟨⟨rest, restIndices⟩, hrest, h⟩ := except_bind_ok.mp h
    cases h
    obtain ⟨prs, hprs, rfl, rfl⟩ := ih hrest
    exact ⟨(prepared, isPickled) :: prs, .cons hprepare hprs, rfl, rfl⟩

theorem serializeKwargs_ok {kwargs serializedKwargs : List (PyText × PyValue O)} {keys : List PyText}
    (h : serializeKwargs floatRepr p kwargs = .ok (serializedKwargs, keys)) :
    ∃ prepared : List (PyText × PyValue O × Bool),
      List.Forall₂ (fun e pr => pr.1 = e.1 ∧ prepareValue floatRepr p e.2 = .ok pr.2) kwargs prepared ∧
      serializedKwargs = prepared.map (fun pr => (pr.1, pr.2.1)) ∧
      keys = (prepared.filter fun pr => pr.2.2).map Prod.fst := by
  induction kwargs generalizing serializedKwargs keys with
  | nil =>
    cases h
    exact ⟨[], .nil, rfl, rfl⟩
  | cons e kwargs ih =>
    obtain ⟨key, value⟩ := e
    obtain ⟨⟨prepared, isPickled⟩, hprepare, h⟩ := except_bind_ok.mp h
    obtain ⟨⟨rest, restKeys⟩, hrest, h⟩ := except_bind_ok.mp h
    cases h
    obtain ⟨prs, hprs, rfl, rfl⟩ := ih hrest
    refine ⟨(key, prepared, isPickled) :: prs, .cons ⟨rfl, hprepare⟩ hprs, rfl, ?_⟩
    cases isPickled <;> simp

end Prepare

section Decode

variable {O : Type} {floatRepr : PyFloat → String}

theorem loadsAll_eq (js : List JsonText) : (loadsAll js : List (PyValue O)) = js.map loads := by
  induction js with
  | nil => rfl
  | cons j js ih => rw [loadsAll, ih, List.map_cons]

theorem loadsMembers_eq (members : List (PyText × JsonText)) :
    (loadsMembers members : List (PyText × PyValue O)) =
      members.map fun e => (unescaped e.1, loads e.2) := by
  induction members with
  | nil => rfl
  | cons e members ih =>
    obtain ⟨name, j⟩ := e
    rw [loadsMembers, ih, List.map_cons]

theorem dumpsAll_ok {vs : List (PyValue O)} {js : List JsonText} :
    dumpsAll floatRepr vs = .ok js ↔ List.Forall₂ (fun v j => dumps floatRepr v = .ok j) vs js := by
  induction vs generalizing js with
  | nil =>
    constructor
    · intro h
      cases h
      exact .nil
    · intro h
      cases h
      rfl
  | cons v vs ih =>
    simp only [dumpsAll, except_bind_ok]
    constructor
    · rintro ⟨j, hj, js', hjs, heq⟩
      cases heq
      exact .cons hj (ih.mp hjs)
    · intro h
      cases h with
      | cons hj hjs => exact ⟨_, hj, _, ih.mpr hjs, rfl⟩

theorem dumpsItems_ok {items : List (PyKey O × PyValue O)} {members : List (PyText × JsonText)} :
    dumpsItems floatRepr items = .ok members ↔ List.Forall₂ (fun e m =>
      keyText floatRepr e.1 = .ok m.1 ∧ dumps floatRepr e.2 = .ok m.2) items members := by
  induction items generalizing members with
  | nil =>
    constructor
    · intro h
      cases h
      exact .nil
    · intro h
      cases h
      rfl
  | cons e items ih =>
    obtain ⟨k, v⟩ := e
    simp only [dumpsItems, except_bind_ok]
    constructor
    · rintro ⟨name, hname, j, hj, rest, hrest, heq⟩
      cases heq
      exact .cons ⟨hname, hj⟩ (ih.mp hrest)
    · intro h
      cases h with
      | cons hm hrest => exact ⟨_, hm.1, _, hm.2, _, ih.mpr hrest, rfl⟩

theorem dumps_list {vs : List (PyValue O)} {j : JsonText} :
    dumps floatRepr (.list vs) = .ok j ↔
      ∃ js, List.Forall₂ (fun v j => dumps floatRepr v = .ok j) vs js ∧ j = .array js := by
  simp only [dumps, except_bind_ok, dumpsAll_ok]
  constructor
  · rintro ⟨js, hjs, heq⟩
    cases heq
    exact ⟨js, hjs, rfl⟩
  · rintro ⟨js, hjs, rfl⟩
    exact ⟨js, hjs, rfl⟩

theorem dumps_kwargsDict {kwargs : List (PyText × PyValue O)} {j : JsonText} :
    dumps floatRepr (kwargsDict kwargs) = .ok j ↔ ∃ members, List.Forall₂ (fun e m =>
      m.1 = e.1 ∧ dumps floatRepr e.2 = .ok m.2) kwargs members ∧ j = .object members := by
  simp only [kwargsDict, dumps, except_bind_ok, dumpsItems_ok, List.forall₂_map_left_iff]
  constructor
  · rintro ⟨members, hm, heq⟩
    cases heq
    refine ⟨members, hm.imp fun e m h => ⟨?_, h.2⟩, rfl⟩
    exact (Except.ok.inj h.1).symm
  · rintro ⟨members, hm, rfl⟩
    exact ⟨members, hm.imp fun e m h => ⟨congrArg Except.ok h.1.symm, h.2⟩, rfl⟩

end Decode

section Restore

variable {O : Type} {floatRepr : PyFloat → String} {p : Pickling O}
  {Reads : PyValue O → JsonText → Prop}

structure KeepsText (Reads : PyValue O → JsonText → Prop) : Prop where
  int : ∀ i j, Reads (.int i) j → j = .int i
  str : ∀ s j, NoPair s → Reads (.str s) j → j = .str s

theorem dumpsTo_keepsText : KeepsText (DumpsTo floatRepr : PyValue O → JsonText → Prop) := by
  constructor
  · intro i j h
    obtain ⟨_, -, heq⟩ := except_bind_ok.mp h
    exact (Except.ok.inj heq).symm
  · intro s j _ h
    exact (Except.ok.inj h).symm

theorem encodeAscii_pyText {text : String} (h : ∀ c ∈ text.toList, c.toNat < 128) :
    encodeAscii (pyText text) = .ok text := by
  have hlist : ∀ cs : List Char, (∀ c ∈ cs, c.toNat < 128) →
      encodeAscii (cs.map .inl) = .ok (String.ofList cs) := by
    intro cs hcs
    induction cs with
    | nil => rfl
    | cons c cs ih =>
      have htail := ih fun d hd => hcs d (List.mem_cons_of_mem _ hd)
      simp only [List.map_cons, encodeAscii, htail, if_pos (hcs c List.mem_cons_self)]
      change Except.ok (String.singleton c ++ String.ofList cs) = _
      rw [String.ofList_cons]
  rw [pyText, hlist _ h, String.ofList_toList]

theorem restoreValue_ok (hp : p.Inverts) (hr : KeepsText Reads) {v prepared : PyValue O}
    {isPickled : Bool} {j : JsonText}
    (hprepare : prepareValue floatRepr p v = .ok (prepared, isPickled)) (hj : Reads prepared j) :
    ∃ w, restoreValue p (loads j) isPickled = .ok w ∧ DeliversAs floatRepr p Reads v w := by
  rcases prepareValue_ok hprepare with ⟨hm, rfl, rfl⟩ | ⟨hm, -, rfl, rfl⟩ |
    ⟨hm, hrefused, rfl, pickled, hpickled, rfl⟩
  · exact ⟨loads j, rfl, .model hm hj⟩
  · exact ⟨loads j, rfl, .json hm hj⟩
  · obtain rfl := hr.str _ _ (noPair_pyText _) hj
    refine ⟨v, ?_, .pickled hm hrefused⟩
    have htext : unescaped (pyText (p.b64encode pickled)) = pyText (p.b64encode pickled) :=
      (unescaped_eq_iff _).mpr (noPair_pyText _)
    simp only [restoreValue, if_true, loads, htext, encodeAscii_pyText (hp.ascii v pickled hpickled)]
    change (p.b64decode _ >>= p.dillLoads) = _
    rw [hp.base64 v pickled hpickled]
    exact hp.dill v pickled hpickled

theorem mem_flagged {i k : ℕ} {flags : List Bool} (h : k ∈ flagged i flags) : i ≤ k := by
  induction flags generalizing i with
  | nil => cases h
  | cons flag flags ih =>
    unfold flagged at h
    split_ifs at h
    · rcases List.mem_cons.mp h with rfl | h
      · exact le_rfl
      · exact (Nat.le_succ i).trans (ih h)
    · exact (Nat.le_succ i).trans (ih h)

theorem mem_flagged_cons {i k : ℕ} {flag : Bool} {flags : List Bool} :
    k ∈ flagged i (flag :: flags) ↔ (k = i ∧ flag = true) ∨ k ∈ flagged (i + 1) flags := by
  rw [flagged]
  cases flag <;> simp

theorem restoreArgs_ok (hp : p.Inverts) (hr : KeepsText Reads) {args : List (PyValue O)}
    {prepared : List (PyValue O × Bool)} {js : List JsonText} {i : ℕ} {indices : List (PyValue O)}
    (hprs : List.Forall₂ (fun v pr => prepareValue floatRepr p v = .ok pr) args prepared)
    (hjs : List.Forall₂ Reads (prepared.map Prod.fst) js)
    (hset : ∀ k, i ≤ k →
      (indices.any (equalsIndex k) = true ↔ k ∈ flagged i (prepared.map Prod.snd))) :
    ∃ restored, restoreArgs p indices i (js.map loads) = .ok restored ∧
      List.Forall₂ (DeliversAs floatRepr p Reads) args restored := by
  induction hprs generalizing i js with
  | nil =>
    cases hjs
    exact ⟨[], rfl, .nil⟩
  | @cons v pr args prepared hv hprs ih =>
    obtain ⟨value, isPickled⟩ := pr
    cases hjs with
    | @cons _ j _ js hj hjs =>
      have hflag : indices.any (equalsIndex i) = isPickled := by
        have hiff := hset i le_rfl
        rw [List.map_cons, mem_flagged_cons] at hiff
        have hnot : i ∉ flagged (i + 1) (prepared.map Prod.snd) := fun hm =>
          absurd (mem_flagged hm) (by omega)
        rw [Bool.eq_iff_iff, hiff]
        simp [hnot]
      obtain ⟨w, hw, hdelivers⟩ := restoreValue_ok hp hr hv hj
      obtain ⟨restored, hrest, hall⟩ := ih (i := i + 1) hjs fun k hk => by
        have hiff := hset k (by omega)
        rw [List.map_cons, mem_flagged_cons] at hiff
        rw [hiff]
        have hne : k ≠ i := by omega
        simp [hne]
      refine ⟨w :: restored, ?_, .cons hdelivers hall⟩
      simp only [List.map_cons, restoreArgs, hflag, hw, hrest]
      rfl

theorem restoreKwargs_ok (hp : p.Inverts) (hr : KeepsText Reads)
    {kwargs : List (PyText × PyValue O)} {prepared : List (PyText × PyValue O × Bool)} {members : List (PyText × JsonText)}
    {keys : List (PyValue O)}
    (hprs : List.Forall₂ (fun e pr => pr.1 = e.1 ∧ prepareValue floatRepr p e.2 = .ok pr.2)
      kwargs prepared)
    (hms : List.Forall₂ (fun e m => m.1 = e.1 ∧ Reads e.2 m.2)
      (prepared.map fun pr => (pr.1, pr.2.1)) members)
    (hset : ∀ pr ∈ prepared, keys.any (equalsKey (.str pr.1)) = pr.2.2) :
    ∃ restored, restoreKwargs p keys (members.map fun m => (.str m.1, loads m.2)) = .ok restored ∧
      List.Forall₂ (fun e r => r.1 = .str e.1 ∧ DeliversAs floatRepr p Reads e.2 r.2) kwargs
        restored := by
  induction hprs generalizing members with
  | nil =>
    cases hms
    exact ⟨[], rfl, .nil⟩
  | @cons e pr kwargs prepared hv hprs ih =>
    obtain ⟨name, value, isPickled⟩ := pr
    obtain ⟨rfl, hv⟩ := hv
    cases hms with
    | @cons _ m _ members hm hms =>
      obtain ⟨mname, j⟩ := m
      obtain ⟨rfl, hj⟩ := hm
      obtain ⟨w, hw, hdelivers⟩ := restoreValue_ok hp hr hv hj
      obtain ⟨restored, hrest, hall⟩ := ih hms fun pr hpr => hset pr (List.mem_cons_of_mem _ hpr)
      refine ⟨(.str e.1, w) :: restored, ?_, .cons ⟨rfl, hdelivers⟩ hall⟩
      have hflag := hset _ List.mem_cons_self
      simp only [List.map_cons, restoreKwargs, hflag, hw, hrest]
      rfl

end Restore

section Payload

variable {O : Type} {floatRepr : PyFloat → String} {p : Pickling O}

theorem loads_object {members : List (PyText × JsonText)} (hpair : ∀ m ∈ members, NoPair m.1)
    (hnodup : (members.map Prod.fst).Nodup) : (loads (.object members) : PyValue O) =
      .dict (members.map fun m => (.str m.1, loads m.2)) := by
  have hnames : members.map (fun m => (unescaped m.1, (loads m.2 : PyValue O))) =
      members.map fun m => (m.1, loads m.2) := by
    apply List.map_congr_left
    intro m hm
    rw [(unescaped_eq_iff m.1).mpr (hpair m hm)]
  have hkeys : ((members.map fun m => (m.1, (loads m.2 : PyValue O))).map Prod.fst).Nodup := by
    rwa [List.map_map]
  rw [loads, loadsMembers_eq, hnames, OrderedDict.ofPairs_entries hkeys, List.map_map]
  rfl

def payloadOf (args kwargs indices keys : PyValue O) : PyValue O :=
  .dict [(.str (pyText "args"), args), (.str (pyText "kwargs"), kwargs),
    (.str (pyText "pickled_args"), indices), (.str (pyText "pickled_kwargs"), keys)]

theorem loads_payload (args kwargs indices keys : JsonText) :
    (loads (.object [(pyText "args", args), (pyText "kwargs", kwargs),
      (pyText "pickled_args", indices), (pyText "pickled_kwargs", keys)]) : PyValue O) =
    payloadOf (loads args) (loads kwargs) (loads indices) (loads keys) := by
  refine loads_object (fun m hm => ?_)
    (by decide : [pyText "args", pyText "kwargs", pyText "pickled_args", pyText "pickled_kwargs"].Nodup)
  simp only [List.mem_cons, List.not_mem_nil, or_false] at hm
  rcases hm with rfl | rfl | rfl | rfl <;> exact noPair_pyText _

theorem deserialize_payload {args indices keys : List (PyValue O)}
    {items : List (PyKey O × PyValue O)} (hindices : toSet (.list indices) = .ok indices)
    (hkeys : toSet (.list keys) = .ok keys) :
    deserialize p (payloadOf (.list args) (.dict items) (.list indices) (.list keys)) =
    (do let args ← restoreArgs p indices 0 args
        let kwargs ← restoreKwargs p keys items
        return (args, kwargs)) := by
  unfold payloadOf deserialize
  change (toSet (.list indices) >>= fun indices => toSet (.list keys) >>= fun keys =>
    restoreArgs p indices 0 args >>= fun args => restoreKwargs p keys items >>= fun kwargs =>
      Except.ok (args, kwargs)) = _
  rw [hindices, hkeys]
  rfl

theorem toSet_list {vs : List (PyValue O)} (h : ∀ v ∈ vs, (∃ i, v = .int i) ∨ ∃ s, v = .str s) :
    toSet (.list vs) = .ok vs := by
  unfold toSet iterate
  change (if vs.any _ = true then _ else _) = _
  rw [if_neg]
  · rfl
  · rw [List.any_eq_true]
    rintro ⟨v, hv, htrue⟩
    rcases h v hv with ⟨i, rfl⟩ | ⟨s, rfl⟩ <;> cases htrue

theorem KeepsText.ints {Reads : PyValue O → JsonText → Prop} (hr : KeepsText Reads) {ns : List ℕ}
    {js : List JsonText} (h : List.Forall₂ Reads (ns.map fun n : ℕ => .int n) js) :
    js.map loads = ns.map fun n : ℕ => (.int n : PyValue O) := by
  induction ns generalizing js with
  | nil =>
    cases h
    rfl
  | cons n ns ih =>
    cases h with
    | cons hj hjs =>
      obtain rfl := hr.int _ _ hj
      rw [List.map_cons, List.map_cons, ih hjs, loads]

theorem KeepsText.strs {Reads : PyValue O → JsonText → Prop} (hr : KeepsText Reads)
    {ss : List PyText} {js : List JsonText} (hpair : ∀ s ∈ ss, NoPair s)
    (h : List.Forall₂ Reads (ss.map .str) js) :
    js.map loads = ss.map (.str : PyText → PyValue O) := by
  induction ss generalizing js with
  | nil =>
    cases h
    rfl
  | cons s ss ih =>
    cases h with
    | cons hj hjs =>
      obtain rfl := hr.str _ _ (hpair s List.mem_cons_self) hj
      rw [List.map_cons, List.map_cons, ih (fun t ht => hpair t (List.mem_cons_of_mem _ ht)) hjs,
        loads, (unescaped_eq_iff s).mpr (hpair s List.mem_cons_self)]

theorem any_equalsIndex (ns : List ℕ) (k : ℕ) :
    (ns.map fun n : ℕ => (.int n : PyValue O)).any (equalsIndex k) = true ↔ k ∈ ns := by
  simp only [List.any_map, List.any_eq_true, Function.comp_apply, equalsIndex, beq_iff_eq]
  constructor
  · rintro ⟨n, hn, heq⟩
    rwa [← Int.ofNat_inj.mp heq]
  · intro h
    exact ⟨k, h, rfl⟩

theorem any_equalsKey (ss : List PyText) (s : PyText) :
    (ss.map (.str : PyText → PyValue O)).any (equalsKey (.str s)) = true ↔ s ∈ ss := by
  simp only [List.any_map, List.any_eq_true, Function.comp_apply, equalsKey, PyKey.isStr,
    decide_eq_true_eq]
  constructor
  · rintro ⟨t, ht, rfl⟩
    exact ht
  · intro h
    exact ⟨s, h, rfl⟩

theorem mem_flaggedKeys {prepared : List (PyText × PyValue O × Bool)}
    (hnodup : (prepared.map Prod.fst).Nodup) {pr : PyText × PyValue O × Bool} (hpr : pr ∈ prepared) :
    pr.1 ∈ (prepared.filter fun pr => pr.2.2).map Prod.fst ↔ pr.2.2 = true := by
  rw [List.mem_map]
  constructor
  · rintro ⟨q, hq, heq⟩
    obtain ⟨hq, hflag⟩ := List.mem_filter.mp hq
    obtain rfl := List.inj_on_of_nodup_map hnodup hq hpr heq
    exact hflag
  · intro hflag
    exact ⟨pr, List.mem_filter.mpr ⟨hpr, hflag⟩, rfl⟩

theorem names_eq {α β : Type} {R : PyText × α → PyText × β → Prop} {l : List (PyText × α)}
    {l' : List (PyText × β)} (h : List.Forall₂ (fun e m => m.1 = e.1 ∧ R e m) l l') :
    l'.map Prod.fst = l.map Prod.fst := by
  induction h with
  | nil => rfl
  | cons hm _ ih => rw [List.map_cons, List.map_cons, ih, hm.1]

theorem dumps_payload {args : List (PyValue O)} {kwargs : List (PyText × PyValue O)}
    {indices : List ℕ} {keys : List PyText} {j : JsonText} :
    dumps floatRepr (payload args kwargs indices keys) = .ok j ↔ ∃ jargs jkwargs jindices jkeys,
      List.Forall₂ (fun v j => dumps floatRepr v = .ok j) args jargs ∧
      List.Forall₂ (fun e m => m.1 = e.1 ∧ dumps floatRepr e.2 = .ok m.2) kwargs jkwargs ∧
      List.Forall₂ (fun v j => dumps floatRepr v = .ok j)
        (indices.map fun i : ℕ => (.int i : PyValue O)) jindices ∧
      List.Forall₂ (fun v j => dumps floatRepr v = .ok j)
        (keys.map (.str : PyText → PyValue O)) jkeys ∧
      j = .object [(pyText "args", .array jargs), (pyText "kwargs", .object jkwargs),
        (pyText "pickled_args", .array jindices), (pyText "pickled_kwargs", .array jkeys)] := by
  rw [payload, dumps_kwargsDict]
  simp only [List.forall₂_cons_left_iff, List.forall₂_nil_left_iff]
  constructor
  · rintro ⟨_, ⟨⟨_, ja⟩, _, ⟨rfl, ha⟩, ⟨⟨_, jk⟩, _, ⟨rfl, hk⟩, ⟨⟨_, ji⟩, _, ⟨rfl, hi⟩,
      ⟨⟨_, jn⟩, _, ⟨rfl, hn⟩, rfl, rfl⟩, rfl⟩, rfl⟩, rfl⟩, rfl⟩
    obtain ⟨jargs, hargs, rfl⟩ := dumps_list.mp ha
    obtain ⟨jkwargs, hkwargs, rfl⟩ := dumps_kwargsDict.mp hk
    obtain ⟨jindices, hindices, rfl⟩ := dumps_list.mp hi
    obtain ⟨jkeys, hkeys, rfl⟩ := dumps_list.mp hn
    exact ⟨jargs, jkwargs, jindices, jkeys, hargs, hkwargs, hindices, hkeys, rfl⟩
  · rintro ⟨jargs, jkwargs, jindices, jkeys, hargs, hkwargs, hindices, hkeys, rfl⟩
    exact ⟨_, ⟨_, _, ⟨rfl, dumps_list.mpr ⟨jargs, hargs, rfl⟩⟩,
      ⟨_, _, ⟨rfl, dumps_kwargsDict.mpr ⟨jkwargs, hkwargs, rfl⟩⟩,
      ⟨_, _, ⟨rfl, dumps_list.mpr ⟨jindices, hindices, rfl⟩⟩,
      ⟨_, _, ⟨rfl, dumps_list.mpr ⟨jkeys, hkeys, rfl⟩⟩, rfl, rfl⟩, rfl⟩, rfl⟩, rfl⟩, rfl⟩

structure PayloadParts (Reads : PyValue O → JsonText → Prop) (prs : List (PyValue O × Bool))
    (kws : List (PyText × PyValue O × Bool)) (jargs : List JsonText)
    (jkwargs : List (PyText × JsonText)) (jindices jkeys : List JsonText) : Prop where
  args : List.Forall₂ Reads (prs.map Prod.fst) jargs
  kwargs : List.Forall₂ (fun e m => m.1 = e.1 ∧ Reads e.2 m.2)
    (kws.map fun pr => (pr.1, pr.2.1)) jkwargs
  indices : List.Forall₂ Reads ((flagged 0 (prs.map Prod.snd)).map fun i : ℕ => .int i) jindices
  keys : List.Forall₂ Reads (((kws.filter fun pr => pr.2.2).map Prod.fst).map .str) jkeys

theorem deserialize_parts {Reads : PyValue O → JsonText → Prop} (hp : p.Inverts)
    (hr : KeepsText Reads) {args : List (PyValue O)} {kwargs : OrderedDict PyText (PyValue O)}
    {prs : List (PyValue O × Bool)} {kws : List (PyText × PyValue O × Bool)}
    {jargs jindices jkeys : List JsonText} {jkwargs : List (PyText × JsonText)}
    (hprs : List.Forall₂ (fun v pr => prepareValue floatRepr p v = .ok pr) args prs)
    (hkws : List.Forall₂ (fun e pr => pr.1 = e.1 ∧ prepareValue floatRepr p e.2 = .ok pr.2)
      kwargs.entries kws) (hj : PayloadParts Reads prs kws jargs jkwargs jindices jkeys)
    (hnames : ∀ k ∈ kwargs.keys, NoPair k) :
    ∃ restoredArgs restoredKwargs,
      deserialize p (payloadOf (.list (jargs.map loads))
        (.dict (jkwargs.map fun m => (.str m.1, loads m.2))) (.list (jindices.map loads))
        (.list (jkeys.map loads))) = .ok (restoredArgs, restoredKwargs) ∧
      List.Forall₂ (DeliversAs floatRepr p Reads) args restoredArgs ∧
      List.Forall₂ (fun e r => r.1 = .str e.1 ∧ DeliversAs floatRepr p Reads e.2 r.2)
        kwargs.entries restoredKwargs := by
  have hkeys : kws.map Prod.fst = kwargs.keys := names_eq hkws
  have hnodup : (kws.map Prod.fst).Nodup := hkeys ▸ kwargs.nodup
  have hflagged : ∀ s ∈ (kws.filter fun pr => pr.2.2).map Prod.fst, NoPair s := by
    intro s hs
    obtain ⟨pr, hpr, rfl⟩ := List.mem_map.mp hs
    exact hnames _ (hkeys ▸ List.mem_map_of_mem (List.mem_filter.mp hpr).1)
  rw [hr.ints hj.indices, hr.strs hflagged hj.keys, deserialize_payload]
  · obtain ⟨restoredArgs, hrestore, hall⟩ := restoreArgs_ok hp hr hprs hj.args fun k _ =>
      any_equalsIndex (O := O) (flagged 0 (prs.map Prod.snd)) k
    obtain ⟨restoredKwargs, hrestore', hall'⟩ :=
      restoreKwargs_ok hp hr hkws hj.kwargs fun pr hpr => by
        rw [Bool.eq_iff_iff, any_equalsKey, mem_flaggedKeys hnodup hpr]
    refine ⟨restoredArgs, restoredKwargs, ?_, hall, hall'⟩
    rw [hrestore, hrestore']
    rfl
  · refine toSet_list fun v hv => ?_
    obtain ⟨i, -, rfl⟩ := List.mem_map.mp hv
    exact .inl ⟨_, rfl⟩
  · refine toSet_list fun v hv => ?_
    obtain ⟨s, -, rfl⟩ := List.mem_map.mp hv
    exact .inr ⟨_, rfl⟩

theorem stored_parts {args : List (PyValue O)} {kwargs : OrderedDict PyText (PyValue O)}
    {stored : PyValue O} {j : JsonText} (hs : serialize floatRepr p args kwargs = .ok stored)
    (hj : dumps floatRepr stored = .ok j) : ∃ prs kws jargs jkwargs jindices jkeys,
      List.Forall₂ (fun v pr => prepareValue floatRepr p v = .ok pr) args prs ∧
      List.Forall₂ (fun e pr => pr.1 = e.1 ∧ prepareValue floatRepr p e.2 = .ok pr.2)
        kwargs.entries kws ∧
      PayloadParts (DumpsTo floatRepr) prs kws jargs jkwargs jindices jkeys ∧
      j = .object [(pyText "args", .array jargs), (pyText "kwargs", .object jkwargs),
        (pyText "pickled_args", .array jindices), (pyText "pickled_kwargs", .array jkeys)] := by
  obtain ⟨⟨serializedArgs, indices⟩, hargs, hs⟩ := except_bind_ok.mp hs
  obtain ⟨⟨serializedKwargs, keys⟩, hkwargs, hs⟩ := except_bind_ok.mp hs
  cases hs
  obtain ⟨prs, hprs, rfl, rfl⟩ := serializeArgs_ok hargs
  obtain ⟨kws, hkws, rfl, rfl⟩ := serializeKwargs_ok hkwargs
  obtain ⟨jargs, jkwargs, jindices, jkeys, hja, hjk, hji, hjn, rfl⟩ := dumps_payload.mp hj
  exact ⟨prs, kws, jargs, jkwargs, jindices, jkeys, hprs, hkws, ⟨hja, hjk, hji, hjn⟩, rfl⟩

theorem PayloadParts.names {Reads : PyValue O → JsonText → Prop} {prs : List (PyValue O × Bool)}
    {kws : List (PyText × PyValue O × Bool)} {jargs jindices jkeys : List JsonText}
    {jkwargs : List (PyText × JsonText)} {kwargs : OrderedDict PyText (PyValue O)}
    (h : PayloadParts Reads prs kws jargs jkwargs jindices jkeys)
    (hkws : List.Forall₂ (fun e pr => pr.1 = e.1 ∧ prepareValue floatRepr p e.2 = .ok pr.2)
      kwargs.entries kws) : jkwargs.map Prod.fst = kwargs.keys := by
  have hkeys : kws.map Prod.fst = kwargs.keys := names_eq hkws
  rw [names_eq h.kwargs, List.map_map, ← hkeys]
  rfl

theorem deserialize_stored (hp : p.Inverts) {args : List (PyValue O)}
    {kwargs : OrderedDict PyText (PyValue O)} {stored : PyValue O} {j : JsonText}
    (hs : serialize floatRepr p args kwargs = .ok stored) (hj : dumps floatRepr stored = .ok j)
    (hnames : ∀ k ∈ kwargs.keys, NoPair k) :
    ∃ restoredArgs restoredKwargs, deserialize p (loads j) = .ok (restoredArgs, restoredKwargs) ∧
      List.Forall₂ (Delivers floatRepr p) args restoredArgs ∧
      List.Forall₂ (fun e r => r.1 = .str e.1 ∧ Delivers floatRepr p e.2 r.2) kwargs.entries
        restoredKwargs := by
  obtain ⟨prs, kws, jargs, jkwargs, jindices, jkeys, hprs, hkws, hparts, rfl⟩ := stored_parts hs hj
  have hkeys := hparts.names hkws
  have hkwargs' : (loads (.object jkwargs) : PyValue O) =
      .dict (jkwargs.map fun m => (.str m.1, loads m.2)) := by
    refine loads_object (fun m hm => ?_) (hkeys ▸ kwargs.nodup)
    exact hnames _ (hkeys ▸ List.mem_map_of_mem hm)
  rw [loads_payload, hkwargs', loads, loads, loads, loadsAll_eq, loadsAll_eq, loadsAll_eq]
  exact deserialize_parts hp dumpsTo_keepsText hprs hkws hparts hnames

end Payload

section Roundtrip

variable {O : Type} {floatRepr : PyFloat → String} {p : Pickling O}

/-- Each argument gets back to its own place with its own encoding undone, where no name is one
that JSON itself changes. -/
theorem arguments_keep_place (hp : p.Inverts) {args : List (PyValue O)}
    {kwargs : OrderedDict PyText (PyValue O)} {stored : PyValue O} {j : JsonText}
    (hs : serialize floatRepr p args kwargs = .ok stored) (hj : dumps floatRepr stored = .ok j)
    (hnames : ∀ k ∈ kwargs.keys, NoPair k) :
    ∃ restoredArgs restoredKwargs, deserialize p (loads j) = .ok (restoredArgs, restoredKwargs) ∧
      List.Forall₂ (Delivers floatRepr p) args restoredArgs ∧
      restoredKwargs.map Prod.fst = kwargs.keys.map .str ∧
      List.Forall₂ (Delivers floatRepr p) kwargs.values (restoredKwargs.map Prod.snd) := by
  obtain ⟨restoredArgs, restoredKwargs, h, hargs, hkwargs⟩ := deserialize_stored hp hs hj hnames
  refine ⟨restoredArgs, restoredKwargs, h, hargs, ?_, ?_⟩
  · unfold OrderedDict.keys
    generalize kwargs.entries = entries at hkwargs
    clear h
    induction hkwargs with
    | nil => rfl
    | cons he _ ih => rw [List.map_cons, List.map_cons, List.map_cons, he.1, ih]
  · unfold OrderedDict.values
    rw [List.forall₂_map_left_iff, List.forall₂_map_right_iff]
    exact hkwargs.imp fun _ _ he => he.2

end Roundtrip

section Sample

def emptySet : PyValue Unit := .object ()

def emptySetPickled : List UInt8 := [0x80, 0x04, 0x8f, 0x94, 0x2e]

def samplePickling : Pickling Unit where
  modelDump := fieldsDumped
  dillDumps
    | .object () => .ok emptySetPickled
    | _ => .error (.raised "PicklingError")
  dillLoads bytes :=
    if bytes = emptySetPickled then .ok emptySet else .error (.raised "UnpicklingError")
  b64encode bytes := if bytes = emptySetPickled then "gASPlC4=" else ""
  b64decode text := if text = "gASPlC4=" then .ok emptySetPickled else .error .valueError

theorem samplePickling_inverts : samplePickling.Inverts := by
  have hdumps : ∀ v pickled, samplePickling.dillDumps v = .ok pickled →
      v = emptySet ∧ pickled = emptySetPickled := by
    intro v pickled h
    cases v with
    | object =>
      cases h
      exact ⟨rfl, rfl⟩
    | none | bool | int | float | str | list | tuple | dict | model => cases h
  refine ⟨fun v pickled h => ?_, fun v pickled h => ?_, fun v pickled h => ?_⟩
  · obtain ⟨rfl, rfl⟩ := hdumps v pickled h
    rfl
  · obtain ⟨rfl, rfl⟩ := hdumps v pickled h
    rfl
  · obtain ⟨rfl, rfl⟩ := hdumps v pickled h
    have hall : "gASPlC4=".toList.all (fun c => decide (c.toNat < 128)) = true := by decide
    exact fun c hc => of_decide_eq_true (List.all_eq_true.mp hall c hc)

def sampleKwargs (name : PyText) (v : PyValue Unit) : OrderedDict PyText (PyValue Unit) :=
  OrderedDict.empty.set name v

/-- A plain text that is the pickle of something else stays a text. -/
theorem arguments_keep_place_mixed : ∃ restoredArgs restoredKwargs,
    deserialize samplePickling (loads (.object [(pyText "args", .array [.str (pyText "gASPlC4="),
      .str (pyText "gASPlC4=")]), (pyText "kwargs", .object [(pyText "args", .array [])]),
      (pyText "pickled_args", .array [.int 1]), (pyText "pickled_kwargs", .array [])])) =
        .ok (restoredArgs, restoredKwargs) ∧
    List.Forall₂ (Delivers (fun _ => "") samplePickling) [.str (pyText "gASPlC4="), emptySet] restoredArgs ∧
    restoredKwargs.map Prod.fst = (sampleKwargs (pyText "args") (.list [])).keys.map .str ∧
    List.Forall₂ (Delivers (fun _ => "") samplePickling) (sampleKwargs (pyText "args") (.list [])).values
      (restoredKwargs.map Prod.snd) :=
  @arguments_keep_place Unit (fun _ => "") _ samplePickling_inverts
    [.str (pyText "gASPlC4="), emptySet] (sampleKwargs (pyText "args") (.list [])) _ _ rfl rfl
    (by decide)

def pairName : PyText := [.inr 61, .inr 1536]

theorem arguments_change_name : ¬∀ (args : List (PyValue Unit))
    (kwargs : OrderedDict PyText (PyValue Unit)) (stored : PyValue Unit) (j : JsonText),
    serialize (fun _ => "") samplePickling args kwargs = .ok stored →
      dumps (fun _ => "") stored = .ok j →
        ∃ restoredArgs restoredKwargs,
          deserialize samplePickling (loads j) = .ok (restoredArgs, restoredKwargs) ∧
            restoredKwargs.map Prod.fst = kwargs.keys.map .str := by
  intro h
  obtain ⟨restoredArgs, restoredKwargs, hrestored, hkeys⟩ :=
    h [] (sampleKwargs pairName .none) _ _ rfl rfl
  have hname : unescaped pairName = pyText "😀" := by decide +kernel
  have hdict : (loads (.object [(pairName, .null)]) : PyValue Unit) =
      .dict [(.str (pyText "😀"), .none)] := by
    rw [loads, loadsMembers_eq, List.map_singleton, hname]
    rfl
  rw [loads_payload, hdict] at hrestored
  cases (deserialize_payload rfl rfl).symm.trans hrestored
  exact absurd (PyKey.str.inj (List.cons.inj hkeys).1) (by decide)

end Sample

end PostgresQueue
