import Mathlib.Data.Nat.Cast.Order.Basic
import PostgresQueue.StoredArguments

namespace PostgresQueue

open Library

section Encodable

variable {O : Type}

def PyInt.Fits (i : ℤ) : Prop := (Nat.toDigits 10 i.natAbs).length ≤ intMaxStrDigits

def PyKey.Encodable : PyKey O → Prop
  | .int i => PyInt.Fits i
  | .str _ | .bool _ | .none | .float _ => True
  | .object _ => False

mutual

/-- What JSON can hold once each model has been dumped. -/
def Encodable : PyValue O → Prop
  | .none | .bool _ | .float _ | .str _ => True
  | .int i => PyInt.Fits i
  | .list vs | .tuple vs => EncodableAll vs
  | .dict items => EncodableItems items
  | .model _ fields => EncodableFields fields
  | .object _ => False

def EncodableAll : List (PyValue O) → Prop
  | [] => True
  | v :: vs => Encodable v ∧ EncodableAll vs

def EncodableItems : List (PyKey O × PyValue O) → Prop
  | [] => True
  | (k, v) :: items => k.Encodable ∧ Encodable v ∧ EncodableItems items

def EncodableFields : List (PyText × PyValue O) → Prop
  | [] => True
  | (_, v) :: fields => Encodable v ∧ EncodableFields fields

end

variable {floatRepr : PyFloat → String}

theorem intRepr_ok (i : ℤ) : (∃ text, intRepr i = .ok text) ↔ PyInt.Fits i := by
  unfold intRepr PyInt.Fits
  split_ifs with h
  · exact iff_of_true ⟨_, rfl⟩ h
  · exact iff_of_false (fun ⟨_, h⟩ => nomatch h) h

theorem exists_bind_return {ε α β : Type} {x : Except ε α} {f : α → β} :
    (∃ b, (x >>= fun a => pure (f a)) = .ok b) ↔ ∃ a, x = .ok a := by
  simp only [except_bind_ok]
  constructor
  · rintro ⟨_, a, h, -⟩
    exact ⟨a, h⟩
  · rintro ⟨a, h⟩
    exact ⟨f a, a, h, rfl⟩

theorem exists_bind_and {ε α β : Type} {x : Except ε α} {f : α → Except ε β} {Q : Prop}
    (h : ∀ a, (∃ b, f a = .ok b) ↔ Q) :
    (∃ b, (x >>= f) = .ok b) ↔ (∃ a, x = .ok a) ∧ Q := by
  simp only [except_bind_ok]
  constructor
  · rintro ⟨b, a, hx, hf⟩
    exact ⟨⟨a, hx⟩, (h a).mp ⟨b, hf⟩⟩
  · rintro ⟨⟨a, hx⟩, hq⟩
    obtain ⟨b, hf⟩ := (h a).mpr hq
    exact ⟨b, a, hx, hf⟩

theorem keyText_ok (k : PyKey O) : (∃ text, keyText floatRepr k = .ok text) ↔ k.Encodable := by
  cases k with
  | int i => exact exists_bind_return.trans (intRepr_ok i)
  | str | bool | none | float => exact iff_of_true ⟨_, rfl⟩ trivial
  | object => exact iff_of_false (fun ⟨_, h⟩ => nomatch h) id

theorem dumps_int (i : ℤ) : (∃ j, dumps floatRepr (.int i : PyValue O) = .ok j) ↔ PyInt.Fits i := by
  rw [dumps]
  exact exists_bind_return.trans (intRepr_ok i)

theorem dumps_sequence {vs : List (PyValue O)} (v : PyValue O)
    (hv : v = .list vs ∨ v = .tuple vs) :
    (∃ j, dumps floatRepr v = .ok j) ↔ ∃ js, dumpsAll floatRepr vs = .ok js := by
  rcases hv with rfl | rfl
  all_goals
    rw [dumps]
    exact exists_bind_return

theorem dumps_dict (items : List (PyKey O × PyValue O)) :
    (∃ j, dumps floatRepr (.dict items) = .ok j) ↔ ∃ ms, dumpsItems floatRepr items = .ok ms := by
  rw [dumps]
  exact exists_bind_return

theorem dumpsAll_cons (v : PyValue O) (vs : List (PyValue O)) :
    (∃ js, dumpsAll floatRepr (v :: vs) = .ok js) ↔
      (∃ j, dumps floatRepr v = .ok j) ∧ ∃ js, dumpsAll floatRepr vs = .ok js := by
  rw [dumpsAll]
  exact exists_bind_and fun _ => exists_bind_return

theorem dumpsItems_cons (k : PyKey O) (v : PyValue O) (items : List (PyKey O × PyValue O)) :
    (∃ ms, dumpsItems floatRepr ((k, v) :: items) = .ok ms) ↔ k.Encodable ∧
      (∃ j, dumps floatRepr v = .ok j) ∧ ∃ ms, dumpsItems floatRepr items = .ok ms := by
  rw [dumpsItems, ← keyText_ok]
  exact exists_bind_and fun _ => exists_bind_and fun _ => exists_bind_return

mutual

theorem dumps_fieldsDumped : ∀ v : PyValue O,
    (∃ j, dumps floatRepr (fieldsDumped v) = .ok j) ↔ Encodable v
  | .none | .bool _ | .float _ | .str _ => iff_of_true ⟨_, rfl⟩ trivial
  | .int i => dumps_int i
  | .list vs => (dumps_sequence _ (.inl rfl)).trans (dumpsAll_fieldsDumped vs)
  | .tuple vs => (dumps_sequence _ (.inr rfl)).trans (dumpsAll_fieldsDumped vs)
  | .dict items => (dumps_dict _).trans (dumpsItems_fieldsDumped items)
  | .model _ fields => (dumps_dict _).trans (dumpsFields_fieldsDumped fields)
  | .object _ => iff_of_false (fun ⟨_, h⟩ => nomatch h) id

theorem dumpsAll_fieldsDumped : ∀ vs : List (PyValue O),
    (∃ js, dumpsAll floatRepr (fieldsDumpedAll vs) = .ok js) ↔ EncodableAll vs
  | [] => iff_of_true ⟨_, rfl⟩ trivial
  | v :: vs => by
    rw [EncodableAll, ← dumps_fieldsDumped v, ← dumpsAll_fieldsDumped vs, fieldsDumpedAll]
    exact dumpsAll_cons (fieldsDumped v) (fieldsDumpedAll vs)

theorem dumpsItems_fieldsDumped : ∀ items : List (PyKey O × PyValue O),
    (∃ ms, dumpsItems floatRepr (fieldsDumpedItems items) = .ok ms) ↔ EncodableItems items
  | [] => iff_of_true ⟨_, rfl⟩ trivial
  | (k, v) :: items => by
    rw [EncodableItems, ← dumps_fieldsDumped v, ← dumpsItems_fieldsDumped items, fieldsDumpedItems]
    exact dumpsItems_cons k (fieldsDumped v) (fieldsDumpedItems items)

theorem dumpsFields_fieldsDumped : ∀ fields : List (PyText × PyValue O),
    (∃ ms, dumpsItems floatRepr (fieldsDumpedFields fields) = .ok ms) ↔ EncodableFields fields
  | [] => iff_of_true ⟨_, rfl⟩ trivial
  | (name, v) :: fields => by
    rw [EncodableFields, ← dumps_fieldsDumped v, ← dumpsFields_fieldsDumped fields, fieldsDumpedFields,
      dumpsItems_cons]
    exact and_iff_right trivial

end

end Encodable

section Payload

variable {O : Type} {floatRepr : PyFloat → String} {p : Pickling O}

/-- `sys.maxsize`, which no tuple is longer than. -/
def maxsize : ℕ := 2 ^ 63 - 1

def Storable (floatRepr : PyFloat → String) (p : Pickling O) (v : PyValue O) : Prop :=
  isModel v = true ∨ isJsonSerializable floatRepr v = true ∨ ∃ pickled, p.dillDumps v = .ok pickled

theorem prepareValue_of_storable {v : PyValue O} (h : Storable floatRepr p v) :
    ∃ pr, prepareValue floatRepr p v = .ok pr := by
  unfold prepareValue
  split_ifs with hm hj
  · exact ⟨_, rfl⟩
  · exact ⟨_, rfl⟩
  · rcases h with h | h | ⟨pickled, h⟩
    · exact absurd h hm
    · exact absurd h hj
    · exact ⟨_, except_bind_ok.mpr ⟨pickled, h, rfl⟩⟩

theorem serializeArgs_of_storable {args : List (PyValue O)} (i : ℕ)
    (h : ∀ v ∈ args, Storable floatRepr p v) : ∃ out, serializeArgs floatRepr p i args = .ok out := by
  induction args generalizing i with
  | nil => exact ⟨_, rfl⟩
  | cons v args ih =>
    obtain ⟨pr, hpr⟩ := prepareValue_of_storable (h v List.mem_cons_self)
    obtain ⟨out, hout⟩ := ih (i + 1) fun v hv => h v (List.mem_cons_of_mem _ hv)
    exact ⟨_, except_bind_ok.mpr ⟨pr, hpr, except_bind_ok.mpr ⟨out, hout, rfl⟩⟩⟩

theorem serializeKwargs_of_storable {kwargs : List (PyText × PyValue O)}
    (h : ∀ e ∈ kwargs, Storable floatRepr p e.2) :
    ∃ out, serializeKwargs floatRepr p kwargs = .ok out := by
  induction kwargs with
  | nil => exact ⟨_, rfl⟩
  | cons e kwargs ih =>
    obtain ⟨pr, hpr⟩ := prepareValue_of_storable (h e List.mem_cons_self)
    obtain ⟨out, hout⟩ := ih fun e he => h e (List.mem_cons_of_mem _ he)
    exact ⟨_, except_bind_ok.mpr ⟨pr, hpr, except_bind_ok.mpr ⟨out, hout, rfl⟩⟩⟩

theorem prepared_encodable {v prepared : PyValue O} {isPickled : Bool}
    (hdump : isModel v = true → p.DumpsFields v)
    (h : prepareValue floatRepr p v = .ok (prepared, isPickled)) :
    (∃ j, dumps floatRepr prepared = .ok j) ↔ (isModel v = true → Encodable v) := by
  rcases prepareValue_ok h with ⟨hm, rfl, -⟩ | ⟨hm, hj, rfl, -⟩ | ⟨hm, -, -, pickled, -, rfl⟩
  · rw [hdump hm, dumps_fieldsDumped]
    exact ⟨fun he _ => he, fun he => he hm⟩
  · refine iff_of_true ?_ fun h => by rw [hm] at h; cases h
    unfold isJsonSerializable at hj
    cases hd : dumps floatRepr prepared with
    | ok j => exact ⟨j, rfl⟩
    | error e => rw [hd] at hj; cases hj
  · exact iff_of_true ⟨_, rfl⟩ fun h => by rw [hm] at h; cases h

theorem exists_forall₂ {α β : Type} {R : α → β → Prop} (l : List α) :
    (∃ l', List.Forall₂ R l l') ↔ ∀ a ∈ l, ∃ b, R a b := by
  induction l with
  | nil => exact iff_of_true ⟨[], .nil⟩ fun _ h => nomatch h
  | cons a l ih =>
    rw [List.forall_mem_cons, ← ih]
    constructor
    · rintro ⟨_, h⟩
      cases h with
      | cons ha hl => exact ⟨⟨_, ha⟩, _, hl⟩
    · rintro ⟨⟨b, ha⟩, l', hl⟩
      exact ⟨b :: l', .cons ha hl⟩

theorem forall_mem_iff {α β : Type} {R : α → β → Prop} {P : α → Prop} {Q : β → Prop} {l : List α}
    {l' : List β} (h : List.Forall₂ R l l') (hR : ∀ a ∈ l, ∀ b, R a b → (Q b ↔ P a)) :
    (∀ b ∈ l', Q b) ↔ ∀ a ∈ l, P a := by
  induction h with
  | nil => exact iff_of_true (fun _ h => nomatch h) fun _ h => nomatch h
  | cons hab _ ih =>
    rw [List.forall_mem_cons, List.forall_mem_cons, hR _ List.mem_cons_self _ hab,
      ih fun a ha => hR a (List.mem_cons_of_mem _ ha)]

theorem index_encodable {i : ℕ} (h : i ≤ maxsize) :
    ∃ j, dumps floatRepr (.int i : PyValue O) = .ok j := by
  have hdigits : (Nat.toDigits 10 i).length ≤ 19 :=
    (Nat.length_toDigits_le_iff (by omega) (by omega)).mpr (by unfold maxsize at h; omega)
  exact (dumps_int i).mpr (hdigits.trans (by decide))

theorem flagged_lt {i k : ℕ} {flags : List Bool} (h : k ∈ flagged i flags) : k < i + flags.length := by
  induction flags generalizing i with
  | nil => cases h
  | cons flag flags ih =>
    rw [List.length_cons]
    rcases mem_flagged_cons.mp h with ⟨rfl, -⟩ | h
    · omega
    · have := ih h
      omega

theorem dumps_payload_iff {args : List (PyValue O)} {kwargs : List (PyText × PyValue O)}
    {indices : List ℕ} {keys : List PyText} (hindices : ∀ i ∈ indices, i ≤ maxsize) :
    (∃ j, dumps floatRepr (payload args kwargs indices keys) = .ok j) ↔
      (∀ v ∈ args, ∃ j, dumps floatRepr v = .ok j) ∧
        ∀ e ∈ kwargs, ∃ j, dumps floatRepr e.2 = .ok j := by
  have hjindices : ∃ js, List.Forall₂ (fun v j => dumps floatRepr v = .ok j)
      (indices.map fun i : ℕ => (.int i : PyValue O)) js := by
    rw [exists_forall₂, List.forall_mem_map]
    exact fun i hi => index_encodable (hindices i hi)
  have hjkeys : ∃ js, List.Forall₂ (fun v j => dumps floatRepr v = .ok j)
      (keys.map (.str : PyText → PyValue O)) js := by
    rw [exists_forall₂, List.forall_mem_map]
    exact fun s _ => ⟨.str s, rfl⟩
  have hmembers : (∃ ms : List (PyText × JsonText),
      List.Forall₂ (fun e m => m.1 = e.1 ∧ dumps floatRepr e.2 = .ok m.2) kwargs ms) ↔
      ∀ e ∈ kwargs, ∃ j, dumps floatRepr e.2 = .ok j := by
    rw [exists_forall₂]
    refine forall₂_congr fun e _ => ?_
    constructor
    · rintro ⟨m, -, hm⟩
      exact ⟨_, hm⟩
    · rintro ⟨j, hj⟩
      exact ⟨(e.1, j), rfl, hj⟩
  rw [← exists_forall₂, ← hmembers]
  constructor
  · rintro ⟨j, hj⟩
    obtain ⟨jargs, jkwargs, -, -, hja, hjk, -⟩ := dumps_payload.mp hj
    exact ⟨⟨jargs, hja⟩, jkwargs, hjk⟩
  · rintro ⟨⟨jargs, hja⟩, jkwargs, hjk⟩
    obtain ⟨jindices, hji⟩ := hjindices
    obtain ⟨jkeys, hjn⟩ := hjkeys
    exact ⟨_, dumps_payload.mpr ⟨jargs, jkwargs, jindices, jkeys, hja, hjk, hji, hjn, rfl⟩⟩

/-- `serialize` returns a payload, and JSON can hold it exactly when it can hold each model among
the arguments, dumped with all that is in it. -/
theorem payload_encodable {args : List (PyValue O)} {kwargs : OrderedDict PyText (PyValue O)}
    (hlength : args.length ≤ maxsize) (h : ∀ v ∈ args ++ kwargs.values, Storable floatRepr p v)
    (hdump : ∀ v ∈ args ++ kwargs.values, isModel v = true → p.DumpsFields v) :
    ∃ stored, serialize floatRepr p args kwargs = .ok stored ∧
      ((∃ j, dumps floatRepr stored = .ok j) ↔
        ∀ v ∈ args ++ kwargs.values, isModel v = true → Encodable v) := by
  rw [List.forall_mem_append, OrderedDict.values, List.forall_mem_map] at h hdump
  obtain ⟨⟨serializedArgs, indices⟩, hargs⟩ := serializeArgs_of_storable 0 h.1
  obtain ⟨⟨serializedKwargs, keys⟩, hkwargs⟩ := serializeKwargs_of_storable h.2
  refine ⟨payload serializedArgs serializedKwargs indices keys,
    except_bind_ok.mpr ⟨_, hargs, except_bind_ok.mpr ⟨_, hkwargs, rfl⟩⟩, ?_⟩
  obtain ⟨prs, hprs, rfl, rfl⟩ := serializeArgs_ok hargs
  obtain ⟨kws, hkws, rfl, rfl⟩ := serializeKwargs_ok hkwargs
  have hindices : ∀ i ∈ flagged 0 (prs.map Prod.snd), i ≤ maxsize := by
    intro i hi
    have hlt := flagged_lt hi
    rw [List.length_map, ← hprs.length_eq] at hlt
    omega
  rw [dumps_payload_iff hindices, List.forall_mem_append, OrderedDict.values, List.forall_mem_map,
    List.forall_mem_map, List.forall_mem_map]
  apply and_congr
  · exact forall_mem_iff hprs fun v hv _ hpr => prepared_encodable (hdump.1 v hv) hpr
  · exact forall_mem_iff hkws fun e he _ hpr => prepared_encodable (hdump.2 e he) hpr.2

end Payload

section Sample

def sampleModel (v : PyValue Unit) : PyValue Unit := .model () [(pyText "tags", v)]

def noKwargs : OrderedDict PyText (PyValue Unit) := OrderedDict.empty

theorem payload_encodable_set : ∃ stored,
    serialize (fun _ => "") samplePickling [sampleModel (.list [.int 3]), emptySet] noKwargs =
      .ok stored ∧
    ((∃ j, dumps (fun _ => "") stored = .ok j) ↔
      ∀ v ∈ [sampleModel (.list [.int 3]), emptySet] ++ noKwargs.values,
        isModel v = true → Encodable v) := by
  refine payload_encodable (by decide) (fun v hv => ?_) fun _ _ _ => rfl
  change v ∈ [sampleModel (.list [.int 3]), emptySet] at hv
  rcases List.mem_pair.mp hv with rfl | rfl
  · exact .inl rfl
  · exact .inr (.inr ⟨emptySetPickled, rfl⟩)

/-- What a field of a model holds is not looked at, here `set()`. -/
theorem payload_not_encodable : ¬∀ (args : List (PyValue Unit))
    (kwargs : OrderedDict PyText (PyValue Unit)),
    (∀ v ∈ args ++ kwargs.values, Storable (fun _ => "") samplePickling v) →
      ∃ stored j, serialize (fun _ => "") samplePickling args kwargs = .ok stored ∧
        dumps (fun _ => "") stored = .ok j := by
  intro h
  have hmodel : ∀ v ∈ [sampleModel (.object ())] ++ noKwargs.values,
      Storable (fun _ => "") samplePickling v := by
    intro v hv
    obtain rfl := List.mem_singleton.mp hv
    exact .inl rfl
  obtain ⟨stored, j, hs, hj⟩ := h _ noKwargs hmodel
  cases hs
  cases hj

end Sample

end PostgresQueue
