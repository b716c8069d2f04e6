import Mathlib.Algebra.Group.Int.Defs
import PostgresQueue.StoredArguments

namespace PostgresQueue

open Library

section Column

def natOf (digits : List Char) : Option ℕ :=
  if digits.isEmpty || !digits.all Char.isDigit then none
  else some (digits.foldl (fun n d => 10 * n + (d.toNat - '0'.toNat)) 0)

def intOf : List Char → Option ℤ
  | '-' :: digits => (natOf digits).map fun n => -(n : ℤ)
  | '+' :: digits | digits => (natOf digits).map Int.ofNat

/-- A number as `numeric` holds it: its digits, and how many of them stand after the point when it
is written without its exponent. -/
def numericOf (text : String) : Option (ℤ × ℕ) := do
  let mantissa := text.toList.takeWhile (· ≠ 'e')
  let exponent ← match text.toList.dropWhile (· ≠ 'e') with
    | [] => some 0
    | _ :: digits => intOf digits
  let whole := mantissa.takeWhile (· ≠ '.')
  let fraction := (mantissa.dropWhile (· ≠ '.')).drop 1
  let digits ← intOf (whole ++ fraction)
  let scale : ℤ := fraction.length - exponent
  return (digits * 10 ^ (-scale).toNat, scale.toNat)

example : numericOf "1e+23" = some (10 ^ 23, 0) ∧ numericOf "-1.5e-07" = some (-15, 8) ∧
    numericOf "100.0" = some (1000, 1) := by decide +kernel

/-- What PostgreSQL says of a text kept as JSONB: numbers are written without an exponent, so that a
float may be read as an integer, and an object has each of its names once, with the last value that
was given for it, in an order of its own. -/
inductive JsonText.KeptAs (floatRepr : PyFloat → String) : JsonText → JsonText → Prop
  | null : KeptAs floatRepr .null .null
  | bool (b : Bool) : KeptAs floatRepr (.bool b) (.bool b)
  | int (i : ℤ) : KeptAs floatRepr (.int i) (.int i)
  | float (x : PyFloat) : (∀ i, numericOf (floatRepr x) ≠ some (i, 0)) →
      KeptAs floatRepr (.float x) (.float x)
  | whole (x : PyFloat) (i : ℤ) : numericOf (floatRepr x) = some (i, 0) →
      KeptAs floatRepr (.float x) (.int i)
  | str (s : PyText) : KeptAs floatRepr (.str s) (.str (unescaped s))
  | array {js js' : List JsonText} : List.Forall₂ (KeptAs floatRepr) js js' →
      KeptAs floatRepr (.array js) (.array js')
  | object {members members' : List (PyText × JsonText)} {values : List JsonText} :
      List.Forall₂ (KeptAs floatRepr) (members.map Prod.snd) values →
      (OrderedDict.ofPairs ((members.map fun m => unescaped m.1).zip values)).entries.Perm members' →
      KeptAs floatRepr (.object members) (.object members')

/-- What is read where a text was written, if the column takes the text. -/
abbrev JsonbColumn := JsonText → Option JsonText

def JsonbColumn.Keeps (column : JsonbColumn) (floatRepr : PyFloat → String) : Prop :=
  ∀ text json, column text = some json → text.KeptAs floatRepr json

variable {floatRepr : PyFloat → String}

theorem zip_keptAs {members : List (PyText × JsonText)} {values : List JsonText}
    (hpair : ∀ m ∈ members, NoPair m.1)
    (h : List.Forall₂ (JsonText.KeptAs floatRepr) (members.map Prod.snd) values) :
    List.Forall₂ (fun m m' => m'.1 = m.1 ∧ JsonText.KeptAs floatRepr m.2 m'.2) members
      ((members.map fun m => unescaped m.1).zip values) := by
  induction members generalizing values with
  | nil =>
    cases h
    exact .nil
  | cons m members ih =>
    cases h with
    | cons hm h =>
      refine .cons ⟨(unescaped_eq_iff m.1).mpr (hpair m List.mem_cons_self), hm⟩ ?_
      exact ih (fun m' hm' => hpair m' (List.mem_cons_of_mem _ hm')) h

theorem JsonText.KeptAs.members {members : List (PyText × JsonText)} {j : JsonText}
    (h : JsonText.KeptAs floatRepr (.object members) j) (hpair : ∀ m ∈ members, NoPair m.1)
    (hnodup : (members.map Prod.fst).Nodup) :
    ∃ kept members', List.Forall₂ (fun m m' => m'.1 = m.1 ∧ JsonText.KeptAs floatRepr m.2 m'.2) members kept ∧
      kept.map Prod.fst = members.map Prod.fst ∧ kept.Perm members' ∧ j = .object members' := by
  cases h with
  | @object _ members' values hvalues hperm =>
    have hkept := zip_keptAs hpair hvalues
    have hnames := names_eq hkept
    rw [OrderedDict.ofPairs_entries (hnames ▸ hnodup)] at hperm
    exact ⟨_, members', hkept, hnames, hperm, rfl⟩

end Column

section Reads

variable {O : Type} (floatRepr : PyFloat → String)

def ReadsAs (v : PyValue O) (j : JsonText) : Prop := ∃ text, dumps floatRepr v = .ok text ∧ text.KeptAs floatRepr j

/-- What a handler gets for an argument from a row of the queue. -/
def Arrives (p : Pickling O) : PyValue O → PyValue O → Prop :=
  DeliversAs floatRepr p (ReadsAs floatRepr)

variable {floatRepr} {p : Pickling O}

theorem readsAs_keepsText : KeepsText (ReadsAs floatRepr : PyValue O → JsonText → Prop) := by
  constructor
  · rintro i j ⟨text, htext, hkept⟩
    obtain rfl := dumpsTo_keepsText.int i text htext
    cases hkept
    rfl
  · rintro s j hpair ⟨text, htext, hkept⟩
    obtain rfl := dumpsTo_keepsText.str s text hpair htext
    cases hkept
    rw [(unescaped_eq_iff s).mpr hpair]

theorem reads_all {vs : List (PyValue O)} {js js' : List JsonText}
    (h : List.Forall₂ (DumpsTo floatRepr) vs js) (hk : List.Forall₂ (JsonText.KeptAs floatRepr) js js') :
    List.Forall₂ (ReadsAs floatRepr) vs js' := by
  induction h generalizing js' with
  | nil =>
    cases hk
    exact .nil
  | cons hv _ ih =>
    cases hk with
    | cons hj hk => exact .cons ⟨_, hv, hj⟩ (ih hk)

theorem reads_members {es : List (PyText × PyValue O)} {ms ms' : List (PyText × JsonText)}
    (h : List.Forall₂ (fun e m => m.1 = e.1 ∧ DumpsTo floatRepr e.2 m.2) es ms)
    (hk : List.Forall₂ (fun m m' => m'.1 = m.1 ∧ JsonText.KeptAs floatRepr m.2 m'.2) ms ms') :
    List.Forall₂ (fun e m => m.1 = e.1 ∧ ReadsAs floatRepr e.2 m.2) es ms' := by
  induction h generalizing ms' with
  | nil =>
    cases hk
    exact .nil
  | cons he _ ih =>
    cases hk with
    | cons hm hk => exact .cons ⟨hm.1.trans he.1, _, he.2, hm.2⟩ (ih hk)

end Reads

section Restored

variable {O : Type} {floatRepr : PyFloat → String} {p : Pickling O}

theorem getItem_of_mem {members : List (PyText × JsonText)} (hnodup : (members.map Prod.fst).Nodup)
    {key : String} {j : JsonText} (h : (pyText key, j) ∈ members) (default : PyValue O) :
    getItem (members.map fun m => (.str m.1, loads m.2)) key default = loads j := by
  unfold getItem
  rw [List.find?_map]
  cases hf : members.find? ((fun e : PyKey O × PyValue O => e.1.isStr (pyText key)) ∘
      fun m => (.str m.1, loads m.2)) with
  | none =>
    have hnot := List.find?_eq_none.mp hf _ h
    simp [PyKey.isStr] at hnot
  | some m =>
    have hm : m.1 = pyText key := by simpa [PyKey.isStr] using List.find?_some hf
    obtain rfl := List.inj_on_of_nodup_map hnodup (List.mem_of_find?_eq_some hf) h hm
    rfl

theorem restoreKwargs_perm {keys : List (PyValue O)} {items items' restored : List (PyKey O × PyValue O)}
    (h : items.Perm items') (hr : restoreKwargs p keys items = .ok restored) :
    ∃ restored', restoreKwargs p keys items' = .ok restored' ∧ restored.Perm restored' := by
  induction h generalizing restored with
  | nil => exact ⟨restored, hr, .refl _⟩
  | cons e _ ih =>
    obtain ⟨v, hv, hr⟩ := except_bind_ok.mp hr
    obtain ⟨rest, hrest, hr⟩ := except_bind_ok.mp hr
    cases hr
    obtain ⟨rest', hrest', hperm⟩ := ih hrest
    exact ⟨_, except_bind_ok.mpr ⟨v, hv, except_bind_ok.mpr ⟨rest', hrest', rfl⟩⟩, hperm.cons _⟩
  | swap e e' items =>
    obtain ⟨v, hv, hr⟩ := except_bind_ok.mp hr
    obtain ⟨rest, hrest, hr⟩ := except_bind_ok.mp hr
    cases hr
    obtain ⟨v', hv', hrest⟩ := except_bind_ok.mp hrest
    obtain ⟨rest', hrest', hr⟩ := except_bind_ok.mp hrest
    cases hr
    have hinner : restoreKwargs p keys (e' :: items) = .ok ((e'.1, v) :: rest') :=
      except_bind_ok.mpr ⟨v, hv, except_bind_ok.mpr ⟨rest', hrest', rfl⟩⟩
    exact ⟨_, except_bind_ok.mpr ⟨v', hv', except_bind_ok.mpr ⟨_, hinner, rfl⟩⟩, .swap ..⟩
  | trans _ _ ih ih' =>
    obtain ⟨middle, hmiddle, hperm⟩ := ih hr
    obtain ⟨restored', hr', hperm'⟩ := ih' hmiddle
    exact ⟨restored', hr', hperm.trans hperm'⟩

theorem deserialize_members {members : List (PyText × JsonText)}
    {args kwargs indices keys : JsonText} (hnodup : (members.map Prod.fst).Nodup)
    (hperm : [(pyText "args", args), (pyText "kwargs", kwargs), (pyText "pickled_args", indices),
      (pyText "pickled_kwargs", keys)].Perm members) :
    deserialize p (.dict (members.map fun m => (.str m.1, loads m.2))) =
      deserialize p (payloadOf (loads args) (loads kwargs) (loads indices) (loads keys)) := by
  have hitem : ∀ key j (default : PyValue O), (pyText key, j) ∈ [(pyText "args", args),
      (pyText "kwargs", kwargs), (pyText "pickled_args", indices), (pyText "pickled_kwargs", keys)] →
      getItem (members.map fun m => (.str m.1, loads m.2)) key default = loads j :=
    fun key j default hj => getItem_of_mem hnodup (hperm.mem_iff.mp hj) default
  unfold payloadOf deserialize
  dsimp only
  rw [hitem "pickled_args" indices _ (by simp), hitem "pickled_kwargs" keys _ (by simp),
    hitem "args" args _ (by simp), hitem "kwargs" kwargs _ (by simp)]
  rfl

theorem deserialize_kwargs {args : PyValue O} {items items' : List (PyKey O × PyValue O)}
    {indices keys : PyValue O} {restoredArgs : List (PyValue O)}
    {restoredKwargs : List (PyKey O × PyValue O)} (hperm : items.Perm items')
    (h : deserialize p (payloadOf args (.dict items) indices keys) =
      .ok (restoredArgs, restoredKwargs)) :
    ∃ restored, deserialize p (payloadOf args (.dict items') indices keys) =
        .ok (restoredArgs, restored) ∧ restoredKwargs.Perm restored := by
  obtain ⟨pickledArgIndices, hindices, h⟩ := except_bind_ok.mp h
  obtain ⟨pickledKwargKeys, hkeys, h⟩ := except_bind_ok.mp h
  obtain ⟨serializedArgs, hserialized, h⟩ := except_bind_ok.mp h
  obtain ⟨restored, hargs, h⟩ := except_bind_ok.mp h
  obtain ⟨restored', hkwargs, h⟩ := except_bind_ok.mp h
  cases h
  obtain ⟨restored', hkwargs', hperm'⟩ := restoreKwargs_perm hperm hkwargs
  refine ⟨restored', ?_, hperm'⟩
  refine except_bind_ok.mpr ⟨_, hindices, except_bind_ok.mpr ⟨_, hkeys, ?_⟩⟩
  refine except_bind_ok.mpr ⟨_, hserialized, except_bind_ok.mpr ⟨_, hargs, ?_⟩⟩
  exact except_bind_ok.mpr ⟨_, hkwargs', rfl⟩

theorem JsonText.KeptAs.loads_members {members : List (PyText × JsonText)} {j : JsonText}
    (h : JsonText.KeptAs floatRepr (.object members) j) (hpair : ∀ m ∈ members, NoPair m.1)
    (hnodup : (members.map Prod.fst).Nodup) :
    ∃ kept members', List.Forall₂ (fun m m' => m'.1 = m.1 ∧ JsonText.KeptAs floatRepr m.2 m'.2)
        members kept ∧ kept.Perm members' ∧ (members'.map Prod.fst).Nodup ∧
      (loads j : PyValue O) = .dict (members'.map fun m => (.str m.1, loads m.2)) := by
  obtain ⟨kept, members', hall, hfst, hperm, rfl⟩ := h.members hpair hnodup
  have hnodup' : (members'.map Prod.fst).Nodup := (hperm.map Prod.fst).nodup_iff.mp (hfst ▸ hnodup)
  refine ⟨kept, members', hall, hperm, hnodup', loads_object (fun m hm => ?_) hnodup'⟩
  have hname : m.1 ∈ members.map Prod.fst := hfst ▸ List.mem_map_of_mem (hperm.mem_iff.mpr hm)
  obtain ⟨m', hm', heq⟩ := List.mem_map.mp hname
  exact heq ▸ hpair m' hm'

theorem JsonText.KeptAs.payload {args kwargs indices keys json : JsonText}
    (h : JsonText.KeptAs floatRepr (.object [(pyText "args", args), (pyText "kwargs", kwargs),
      (pyText "pickled_args", indices), (pyText "pickled_kwargs", keys)]) json) :
    ∃ args' kwargs' indices' keys', args.KeptAs floatRepr args' ∧ kwargs.KeptAs floatRepr kwargs' ∧
      indices.KeptAs floatRepr indices' ∧ keys.KeptAs floatRepr keys' ∧
      deserialize p (loads json) =
        deserialize p (payloadOf (loads args') (loads kwargs') (loads indices') (loads keys')) := by
  have hnames : [pyText "args", pyText "kwargs", pyText "pickled_args",
    pyText "pickled_kwargs"].Nodup := by decide
  have hpair : ∀ name ∈ [pyText "args", pyText "kwargs", pyText "pickled_args",
      pyText "pickled_kwargs"], NoPair name := by
    simp only [List.forall_mem_cons]
    exact ⟨noPair_pyText _, noPair_pyText _, noPair_pyText _, noPair_pyText _, fun _ h => nomatch h⟩
  obtain ⟨kept, members, hall, hperm, hnodup, hloads⟩ := h.loads_members (O := O)
    (fun m hm => hpair m.1 (List.mem_map_of_mem (f := Prod.fst) hm)) hnames
  simp only [List.forall₂_cons_left_iff, List.forall₂_nil_left_iff] at hall
  obtain ⟨⟨_, args'⟩, _, ⟨rfl, hargs⟩, ⟨⟨_, kwargs'⟩, _, ⟨rfl, hkwargs⟩, ⟨⟨_, indices'⟩, _,
    ⟨rfl, hindices⟩, ⟨⟨_, keys'⟩, _, ⟨rfl, hkeys⟩, rfl, rfl⟩, rfl⟩, rfl⟩, rfl⟩ := hall
  refine ⟨args', kwargs', indices', keys', hargs, hkwargs, hindices, hkeys, ?_⟩
  rw [hloads, deserialize_members hnodup hperm]

theorem deserialize_kept (hp : p.Inverts) {args : List (PyValue O)}
    {kwargs : OrderedDict PyText (PyValue O)} {stored : PyValue O} {text json : JsonText}
    (hs : serialize floatRepr p args kwargs = .ok stored) (hj : dumps floatRepr stored = .ok text)
    (hkept : text.KeptAs floatRepr json) (hnames : ∀ k ∈ kwargs.keys, NoPair k) :
    ∃ restoredArgs restoredKwargs named,
      deserialize p (loads json) = .ok (restoredArgs, restoredKwargs) ∧
      List.Forall₂ (Arrives floatRepr p) args restoredArgs ∧
      List.Forall₂ (fun e r => r.1 = .str e.1 ∧ Arrives floatRepr p e.2 r.2) kwargs.entries named ∧
      named.Perm restoredKwargs := by
  obtain ⟨prs, kws, jargs, jkwargs, jindices, jkeys, hprs, hkws, hparts, rfl⟩ := stored_parts hs hj
  have hkeys := hparts.names hkws
  obtain ⟨_, _, _, _, hkargs, hkkwargs, hkindices, hkkeys, heq⟩ := hkept.payload (p := p)
  obtain ⟨kwargs', read, hkwargs', hperm, -, hread⟩ := hkkwargs.loads_members (O := O)
    (fun m hm => hnames _ (hkeys ▸ List.mem_map_of_mem hm)) (hkeys ▸ kwargs.nodup)
  cases hkargs with
  | @array _ jargs' hkargs =>
  cases hkindices with
  | @array _ jindices' hkindices =>
  cases hkkeys with
  | @array _ jkeys' hkkeys =>
  have hparts' : PayloadParts (ReadsAs floatRepr) prs kws jargs' kwargs' jindices' jkeys' :=
    ⟨reads_all hparts.args hkargs, reads_members hparts.kwargs hkwargs',
      reads_all hparts.indices hkindices, reads_all hparts.keys hkkeys⟩
  obtain ⟨restoredArgs, named, hrestored, hargs, hnamed⟩ :=
    deserialize_parts hp readsAs_keepsText hprs hkws hparts' hnames
  obtain ⟨restoredKwargs, hrestored, hrperm⟩ := deserialize_kwargs (hperm.map _) hrestored
  refine ⟨restoredArgs, restoredKwargs, named, ?_, hargs, hnamed, hrperm⟩
  rw [heq, hread, loads, loads, loads, loadsAll_eq, loadsAll_eq, loadsAll_eq]
  exact hrestored

end Restored

end PostgresQueue
