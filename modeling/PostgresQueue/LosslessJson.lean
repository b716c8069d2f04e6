import PostgresQueue.StoredArguments

namespace PostgresQueue

open Library

section Predicates

variable {O : Type}

mutual

/-- Python's `==`, but for kinds of numbers: the order of a dict does not count. -/
def Same : PyValue O → PyValue O → Prop
  | .none, w => w = .none
  | .bool b, w => w = .bool b
  | .int i, w => w = .int i
  | .float x, w => w = .float x
  | .str s, w => w = .str s
  | .list vs, w => ∃ ws, w = .list ws ∧ SameAll vs ws
  | .tuple vs, w => ∃ ws, w = .tuple ws ∧ SameAll vs ws
  | .dict items, w =>
    ∃ items', w = .dict items' ∧ items'.length = items.length ∧ SameItems items items'
  | .model cls fields, w => w = .model cls fields
  | .object o, w => w = .object o

def SameAll : List (PyValue O) → List (PyValue O) → Prop
  | [], ws => ws = []
  | v :: vs, ws => ∃ w ws', ws = w :: ws' ∧ Same v w ∧ SameAll vs ws'

def SameItems : List (PyKey O × PyValue O) → List (PyKey O × PyValue O) → Prop
  | [], _ => True
  | (k, v) :: items, items' => (∃ w, (k, w) ∈ items' ∧ Same v w) ∧ SameItems items items'

end

mutual

def WellFormed : PyValue O → Prop
  | .none | .bool _ | .int _ | .float _ | .str _ | .object _ => True
  | .list vs | .tuple vs => WellFormedAll vs
  | .dict items => (items.map Prod.fst).Nodup ∧ WellFormedItems items
  | .model _ fields => (fields.map Prod.fst).Nodup ∧ WellFormedFields fields

def WellFormedAll : List (PyValue O) → Prop
  | [] => True
  | v :: vs => WellFormed v ∧ WellFormedAll vs

def WellFormedItems : List (PyKey O × PyValue O) → Prop
  | [] => True
  | (_, v) :: items => WellFormed v ∧ WellFormedItems items

def WellFormedFields : List (PyText × PyValue O) → Prop
  | [] => True
  | (_, v) :: fields => WellFormed v ∧ WellFormedFields fields

end

def PyKey.Lossless (k : PyKey O) : Prop := ∃ s, k = .str s ∧ NoPair s

mutual

/-- JSON can hold the value: no tuple, no key that is not a string, no pair of surrogates. -/
def Lossless : PyValue O → Prop
  | .none | .bool _ | .int _ | .float _ => True
  | .str s => NoPair s
  | .list vs => LosslessAll vs
  | .dict items => LosslessItems items
  | .tuple _ | .model .. | .object _ => False

def LosslessAll : List (PyValue O) → Prop
  | [] => True
  | v :: vs => Lossless v ∧ LosslessAll vs

def LosslessItems : List (PyKey O × PyValue O) → Prop
  | [] => True
  | (k, v) :: items => k.Lossless ∧ Lossless v ∧ LosslessItems items

end

end Predicates

theorem unescaped_noPair (s : PyText) : NoPair (unescaped s) := by
  have hhead : ∀ (c d : Char ⊕ Fin 2048) (rest : PyText), surrogatePair c d = false →
      ∀ e ∈ (unescaped (d :: rest)).head?, surrogatePair c e = false := by
    intro c d rest h e he
    cases rest with
    | nil =>
      cases he
      exact h
    | cons f rest =>
      rw [unescaped] at he
      split_ifs at he with hpair
      · cases he
        cases d with
        | inl => cases hpair
        | inr high =>
          cases f with
          | inl => cases hpair
          | inr low => cases c <;> rfl
      · cases he
        exact h
  induction s using unescaped.induct with
  | case1 => exact .nil
  | case2 c => exact .singleton c
  | case3 c d rest h ih =>
    rw [unescaped, if_pos h]
    refine List.IsChain.cons ih fun e _ => ?_
    cases c with
    | inl => cases h
    | inr high =>
      cases d with
      | inl => cases h
      | inr low => rfl
  | case4 c d rest h ih =>
    rw [unescaped, if_neg h]
    exact List.IsChain.cons ih (hhead c d rest (by simpa using h))

section Kept

variable {O : Type} {floatRepr : PyFloat → String}

mutual

theorem loads_dumps : ∀ {v : PyValue O} {j : JsonText}, Lossless v → WellFormed v →
    dumps floatRepr v = .ok j → loads j = v
  | .none, _, _, _, h | .bool _, _, _, _, h | .float _, _, _, _, h => by
    cases h
    rfl
  | .int i, _, _, _, h => by
    obtain ⟨_, -, h⟩ := except_bind_ok.mp h
    cases h
    rfl
  | .str s, _, hl, _, h => by
    cases h
    rw [loads, (unescaped_eq_iff s).mpr hl]
  | .list vs, _, hl, hw, h => by
    obtain ⟨js, hjs, h⟩ := except_bind_ok.mp h
    cases h
    rw [loads, loadsAll_dumpsAll hl hw hjs]
  | .dict items, _, hl, hw, h => by
    obtain ⟨members, hm, h⟩ := except_bind_ok.mp h
    cases h
    have hitems := loadsMembers_dumpsItems hl hw.2 hm
    have hnodup : ((loadsMembers members : List (PyText × PyValue O)).map Prod.fst).Nodup := by
      have hkeys := hw.1
      rw [← hitems, List.map_map] at hkeys
      exact List.Nodup.of_map PyKey.str (by rwa [List.map_map])
    rw [loads, OrderedDict.ofPairs_entries hnodup, hitems]
  | .tuple _, _, hl, _, _ | .model .., _, hl, _, _ | .object _, _, hl, _, _ => hl.elim

theorem loadsAll_dumpsAll : ∀ {vs : List (PyValue O)} {js : List JsonText}, LosslessAll vs →
    WellFormedAll vs → dumpsAll floatRepr vs = .ok js → loadsAll js = vs
  | [], _, _, _, h => by
    cases h
    rfl
  | v :: vs, _, hl, hw, h => by
    obtain ⟨j, hj, h⟩ := except_bind_ok.mp h
    obtain ⟨js, hjs, h⟩ := except_bind_ok.mp h
    cases h
    rw [loadsAll, loads_dumps hl.1 hw.1 hj, loadsAll_dumpsAll hl.2 hw.2 hjs]

theorem loadsMembers_dumpsItems : ∀ {items : List (PyKey O × PyValue O)}
    {members : List (PyText × JsonText)}, LosslessItems items → WellFormedItems items →
    dumpsItems floatRepr items = .ok members →
      (loadsMembers members).map (fun e => (.str e.1, e.2)) = items
  | [], _, _, _, h => by
    cases h
    rfl
  | (k, v) :: items, _, hl, hw, h => by
    obtain ⟨name, hname, h⟩ := except_bind_ok.mp h
    obtain ⟨j, hj, h⟩ := except_bind_ok.mp h
    obtain ⟨members, hm, h⟩ := except_bind_ok.mp h
    cases h
    obtain ⟨⟨s, rfl, hs⟩, hv, hrest⟩ := hl
    cases hname
    rw [loadsMembers, List.map_cons, loads_dumps hv hw.1 hj,
      loadsMembers_dumpsItems hrest hw.2 hm, (unescaped_eq_iff name).mpr hs]

end

end Kept

section Equal

variable {O : Type} {floatRepr : PyFloat → String}

mutual

theorem Same.refl : ∀ v : PyValue O, Same v v
  | .none | .bool _ | .int _ | .float _ | .str _ | .model .. | .object _ => rfl
  | .list vs | .tuple vs => ⟨vs, rfl, SameAll.refl vs⟩
  | .dict items => ⟨items, rfl, rfl, SameItems.refl items items fun _ he => he⟩

theorem SameAll.refl : ∀ vs : List (PyValue O), SameAll vs vs
  | [] => rfl
  | v :: vs => ⟨v, vs, rfl, Same.refl v, SameAll.refl vs⟩

theorem SameItems.refl : ∀ items items' : List (PyKey O × PyValue O), (∀ e ∈ items, e ∈ items') →
    SameItems items items'
  | [], _, _ => trivial
  | (_, v) :: items, items', h =>
    ⟨⟨v, h _ List.mem_cons_self, Same.refl v⟩,
      SameItems.refl items items' fun e he => h e (List.mem_cons_of_mem _ he)⟩

end

theorem SameItems.mem {items items' : List (PyKey O × PyValue O)} (h : SameItems items items')
    {e : PyKey O × PyValue O} (he : e ∈ items) : ∃ w, (e.1, w) ∈ items' ∧ Same e.2 w := by
  induction items with
  | nil => cases he
  | cons e' items ih =>
    rcases List.mem_cons.mp he with rfl | he
    · exact h.1
    · exact ih h.2 he

theorem lossless_key_of_mem {members : List (PyText × JsonText)} {k : PyKey O} {w : PyValue O}
    (h : (k, w) ∈ (OrderedDict.ofPairs (loadsMembers members)).entries.map fun e =>
      ((.str e.1, e.2) : PyKey O × PyValue O)) : k.Lossless := by
  obtain ⟨e, he, heq⟩ := List.mem_map.mp h
  cases heq
  have hmem := OrderedDict.mem_of_mem_ofPairs he
  rw [loadsMembers_eq] at hmem
  obtain ⟨m, -, rfl⟩ := List.mem_map.mp hmem
  exact ⟨unescaped m.1, rfl, unescaped_noPair m.1⟩

theorem members_of_lossless_keys {items : List (PyKey O × PyValue O)}
    {members : List (PyText × JsonText)} (hm : dumpsItems floatRepr items = .ok members)
    (hkeys : ∀ e ∈ items, e.1.Lossless) :
    List.Forall₂ (fun e m => e.1 = .str m.1 ∧ NoPair m.1 ∧ dumps floatRepr e.2 = .ok m.2)
      items members := by
  have hall := dumpsItems_ok.mp hm
  clear hm
  induction hall with
  | nil => exact .nil
  | cons h _ ih =>
    refine .cons ?_ (ih fun e he => hkeys e (List.mem_cons_of_mem _ he))
    obtain ⟨s, hs, hpair⟩ := hkeys _ List.mem_cons_self
    rw [hs] at h
    have heq := Except.ok.inj h.1
    exact ⟨heq ▸ hs, heq ▸ hpair, h.2⟩

theorem keys_of_members {items : List (PyKey O × PyValue O)} {members : List (PyText × JsonText)}
    (h : List.Forall₂ (fun e m => e.1 = .str m.1 ∧ NoPair m.1 ∧ dumps floatRepr e.2 = .ok m.2)
      items members) : items.map Prod.fst = members.map fun m => .str m.1 := by
  induction h with
  | nil => rfl
  | cons hm _ ih => rw [List.map_cons, List.map_cons, ih, hm.1]

theorem noPair_of_members {items : List (PyKey O × PyValue O)} {members : List (PyText × JsonText)}
    (h : List.Forall₂ (fun e m => e.1 = .str m.1 ∧ NoPair m.1 ∧ dumps floatRepr e.2 = .ok m.2)
      items members) : ∀ m ∈ members, NoPair m.1 := by
  induction h with
  | nil => exact fun _ hm => nomatch hm
  | cons hm _ ih => exact List.forall_mem_cons.mpr ⟨hm.2.1, ih⟩

mutual

theorem lossless_of_same : ∀ {v : PyValue O} {j : JsonText}, WellFormed v →
    dumps floatRepr v = .ok j → Same v (loads j) → Lossless v
  | .none, _, _, _, _ | .bool _, _, _, _, _ | .int _, _, _, _, _ | .float _, _, _, _, _ => trivial
  | .str s, _, _, h, hs => by
    cases h
    exact (unescaped_eq_iff s).mp (PyValue.str.inj hs)
  | .list vs, _, hw, h, hs => by
    obtain ⟨js, hjs, h⟩ := except_bind_ok.mp h
    cases h
    obtain ⟨ws, heq, hs⟩ := hs
    cases heq
    exact losslessAll_of_same hw hjs hs
  | .tuple vs, _, hw, h, hs => by
    obtain ⟨js, hjs, h⟩ := except_bind_ok.mp h
    cases h
    obtain ⟨ws, heq, hs⟩ := hs
    cases heq
  | .dict items, _, hw, h, hs => by
    obtain ⟨members, hm, h⟩ := except_bind_ok.mp h
    cases h
    obtain ⟨items', heq, -, hs⟩ := hs
    cases heq
    have hall := members_of_lossless_keys hm fun e he => by
      obtain ⟨w, hw, -⟩ := hs.mem he
      exact lossless_key_of_mem hw
    have hnodup : (members.map fun m => (.str m.1 : PyKey O)).Nodup := keys_of_members hall ▸ hw.1
    have hobject := loads_object (O := O) (noPair_of_members hall)
      (List.Nodup.of_map PyKey.str (by rwa [List.map_map]))
    rw [loads] at hobject
    rw [PyValue.dict.inj hobject] at hs
    refine losslessItems_of_same hw.2 hall (by rwa [List.map_map]) (fun m hmem => ?_) hs
    exact List.mem_map.mpr ⟨m, hmem, rfl⟩
  | .model .., _, _, h, _ | .object _, _, _, h, _ => by cases h

theorem losslessAll_of_same : ∀ {vs : List (PyValue O)} {js : List JsonText}, WellFormedAll vs →
    dumpsAll floatRepr vs = .ok js → SameAll vs (loadsAll js) → LosslessAll vs
  | [], _, _, _, _ => trivial
  | v :: vs, _, hw, h, hs => by
    obtain ⟨j, hj, h⟩ := except_bind_ok.mp h
    obtain ⟨js, hjs, h⟩ := except_bind_ok.mp h
    cases h
    obtain ⟨w, ws, heq, hv, hvs⟩ := hs
    cases heq
    exact ⟨lossless_of_same hw.1 hj hv, losslessAll_of_same hw.2 hjs hvs⟩

theorem losslessItems_of_same : ∀ {items items' : List (PyKey O × PyValue O)}
    {members : List (PyText × JsonText)}, WellFormedItems items →
    List.Forall₂ (fun e m => e.1 = .str m.1 ∧ NoPair m.1 ∧ dumps floatRepr e.2 = .ok m.2)
      items members → (items'.map Prod.fst).Nodup →
    (∀ m ∈ members, ((.str m.1, loads m.2) : PyKey O × PyValue O) ∈ items') →
    SameItems items items' → LosslessItems items
  | [], _, _, _, _, _, _, _ => trivial
  | (k, v) :: items, _, _, hw, hall, hnodup, hmem, hs => by
    cases hall with
    | @cons _ m _ members hm hall =>
      obtain ⟨rfl, hpair, hj⟩ := hm
      obtain ⟨⟨w, hwm, hv⟩, hs⟩ := hs
      have heq := List.inj_on_of_nodup_map hnodup hwm (hmem m List.mem_cons_self) rfl
      obtain rfl : w = loads m.2 := congrArg Prod.snd heq
      exact ⟨⟨m.1, rfl, hpair⟩, lossless_of_same hw.1 hj hv,
        losslessItems_of_same hw.2 hall hnodup (fun m' hm' => hmem m' (List.mem_cons_of_mem _ hm')) hs⟩

end

end Equal

section Arguments

variable {O : Type} {floatRepr : PyFloat → String} {p : Pickling O}

theorem isJsonSerializable_iff (v : PyValue O) :
    isJsonSerializable floatRepr v = true ↔ ∃ j, dumps floatRepr v = .ok j := by
  unfold isJsonSerializable
  cases dumps floatRepr v <;> simp [Except.isOk, Except.toBool]

theorem same_loads_iff {v : PyValue O} {j : JsonText} (hw : WellFormed v)
    (hj : dumps floatRepr v = .ok j) : Same v (loads j) ↔ Lossless v := by
  constructor
  · exact lossless_of_same hw hj
  · intro hl
    rw [loads_dumps hl hw hj]
    exact Same.refl v

theorem Delivers.same_iff {v w : PyValue O} (h : Delivers floatRepr p v w) (hw : WellFormed v)
    (hm : isModel v = false) : Same v w ↔ (isJsonSerializable floatRepr v = true → Lossless v) := by
  cases h with
  | json _ hj =>
    have haccepted := (isJsonSerializable_iff v).mpr ⟨_, hj⟩
    rw [same_loads_iff hw hj]
    exact ⟨fun hl _ => hl, fun hl => hl haccepted⟩
  | model hmodel => rw [hm] at hmodel; cases hmodel
  | pickled _ hrefused => exact iff_of_true (Same.refl v) fun h => by rw [hrefused] at h; cases h

theorem forall₂_iff_forall_mem {α β : Type} {R S : α → β → Prop} {C : α → Prop} {l : List α}
    {l' : List β} (h : List.Forall₂ R l l') (hiff : ∀ a ∈ l, ∀ b, R a b → (S a b ↔ C a)) :
    List.Forall₂ S l l' ↔ ∀ a ∈ l, C a := by
  induction h with
  | nil => exact iff_of_true .nil fun _ h => nomatch h
  | cons hr _ ih =>
    rw [List.forall₂_cons, List.forall_mem_cons, hiff _ List.mem_cons_self _ hr,
      ih fun a ha => hiff a (List.mem_cons_of_mem _ ha)]

theorem prepared_lossless_iff {v : PyValue O} (hw : WellFormed v) (hm : isModel v = false) :
    (∀ stored j, prepareValue floatRepr p v = .ok (stored, false) →
        dumps floatRepr stored = .ok j → Same v (loads j)) ↔
      (isJsonSerializable floatRepr v = true → Lossless v) := by
  have hprepare : isJsonSerializable floatRepr v = true →
      prepareValue floatRepr p v = .ok (v, false) := by
    intro h
    rw [prepareValue, hm, h]
    rfl
  constructor
  · intro hkept haccepted
    obtain ⟨j, hj⟩ := (isJsonSerializable_iff v).mp haccepted
    exact (same_loads_iff hw hj).mp (hkept v j (hprepare haccepted) hj)
  · intro hl stored j hstored hj
    by_cases haccepted : isJsonSerializable floatRepr v = true
    · cases (hprepare haccepted).symm.trans hstored
      exact (same_loads_iff hw hj).mpr (hl haccepted)
    · rcases prepareValue_ok hstored with ⟨h, -⟩ | ⟨-, h, -⟩ | ⟨-, -, h, -⟩
      · rw [hm] at h
        cases h
      · exact absurd h haccepted
      · cases h

theorem call_lossless_iff (hp : p.Inverts) {args : List (PyValue O)}
    {kwargs : OrderedDict PyText (PyValue O)} {stored : PyValue O} {j : JsonText}
    (hvalues : ∀ v ∈ args ++ kwargs.values, WellFormed v ∧ isModel v = false)
    (hnames : ∀ k ∈ kwargs.keys, NoPair k) (hs : serialize floatRepr p args kwargs = .ok stored)
    (hj : dumps floatRepr stored = .ok j) :
    (∃ restoredArgs restoredKwargs, deserialize p (loads j) = .ok (restoredArgs, restoredKwargs) ∧
        List.Forall₂ Same args restoredArgs ∧
        List.Forall₂ (fun e r => r.1 = .str e.1 ∧ Same e.2 r.2) kwargs.entries restoredKwargs) ↔
      ∀ v ∈ args ++ kwargs.values, isJsonSerializable floatRepr v = true → Lossless v := by
  obtain ⟨restoredArgs, restoredKwargs, h, hargs, hkwargs⟩ := deserialize_stored hp hs hj hnames
  have hsame : ∀ v ∈ args ++ kwargs.values, ∀ w, Delivers floatRepr p v w →
      (Same v w ↔ (isJsonSerializable floatRepr v = true → Lossless v)) :=
    fun v hv w hd => hd.same_iff (hvalues v hv).1 (hvalues v hv).2
  have hargsIff := forall₂_iff_forall_mem hargs fun v hv w hd =>
    hsame v (List.mem_append_left _ hv) w hd
  have hkwargsIff : List.Forall₂ (fun e r => r.1 = .str e.1 ∧ Same e.2 r.2) kwargs.entries
        restoredKwargs ↔
      ∀ e ∈ kwargs.entries, isJsonSerializable floatRepr e.2 = true → Lossless e.2 := by
    refine forall₂_iff_forall_mem hkwargs fun e he r hd => ?_
    have hmem : e.2 ∈ args ++ kwargs.values := List.mem_append_right _ (List.mem_map_of_mem he)
    rw [hsame e.2 hmem r.2 hd.2]
    exact and_iff_right hd.1
  rw [List.forall_mem_append, OrderedDict.values, List.forall_mem_map, ← hargsIff, ← hkwargsIff]
  constructor
  · rintro ⟨restoredArgs', restoredKwargs', h', hall⟩
    cases h.symm.trans h'
    exact hall
  · intro hall
    exact ⟨restoredArgs, restoredKwargs, h, hall⟩

/-- A value stored as plain JSON comes back as it was exactly when it holds no tuple, no key that
is not a string and no pair of surrogates, and a handler gets the arguments of the call exactly
when this holds of each that JSON accepts. -/
theorem plain_json_lossless (hp : p.Inverts) :
    (∀ v : PyValue O, WellFormed v → isModel v = false →
      ((∀ stored j, prepareValue floatRepr p v = .ok (stored, false) →
          dumps floatRepr stored = .ok j → Same v (loads j)) ↔
        (isJsonSerializable floatRepr v = true → Lossless v))) ∧
    ∀ (args : List (PyValue O)) (kwargs : OrderedDict PyText (PyValue O)) (stored : PyValue O)
      (j : JsonText), (∀ v ∈ args ++ kwargs.values, WellFormed v ∧ isModel v = false) →
      (∀ k ∈ kwargs.keys, NoPair k) → serialize floatRepr p args kwargs = .ok stored →
      dumps floatRepr stored = .ok j →
      ((∃ restoredArgs restoredKwargs,
          deserialize p (loads j) = .ok (restoredArgs, restoredKwargs) ∧
          List.Forall₂ Same args restoredArgs ∧
          List.Forall₂ (fun e r => r.1 = .str e.1 ∧ Same e.2 r.2) kwargs.entries restoredKwargs) ↔
        ∀ v ∈ args ++ kwargs.values, isJsonSerializable floatRepr v = true → Lossless v) := by
  constructor
  · intro v hw hm
    exact prepared_lossless_iff hw hm
  · intro args kwargs stored j hvalues hnames hs hj
    exact call_lossless_iff hp hvalues hnames hs hj

end Arguments

section Sample

def mergedDict : PyValue Unit :=
  .dict [(.int 1, .str (pyText "a")), (.str (pyText "1"), .str (pyText "b"))]

theorem mergedDict_wellFormed : WellFormed mergedDict := by
  refine ⟨?_, trivial, trivial, trivial⟩
  simp

theorem plain_json_lossless_list :
    Same (.list [.none, .int 7] : PyValue Unit) (loads (.array [.null, .int 7])) :=
  ((@plain_json_lossless Unit (fun _ => "") _ samplePickling_inverts).1 (.list [.none, .int 7])
    ⟨trivial, trivial, trivial⟩ rfl).mpr (fun _ => ⟨trivial, trivial, trivial⟩) _ _ rfl rfl

theorem plain_json_lossy : ¬∀ (v stored : PyValue Unit) (j : JsonText), WellFormed v →
    isModel v = false → prepareValue (fun _ => "") samplePickling v = .ok (stored, false) →
      dumps (fun _ => "") stored = .ok j → Same v (loads j) := by
  intro h
  have hsame := h mergedDict mergedDict _ mergedDict_wellFormed rfl rfl rfl
  obtain ⟨⟨s, hs, -⟩, -⟩ := @lossless_of_same Unit (fun _ => "") _ _ mergedDict_wellFormed rfl hsame
  cases hs

end Sample

end PostgresQueue
