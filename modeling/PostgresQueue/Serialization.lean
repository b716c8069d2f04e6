import Mathlib.Data.List.Chain
import Mathlib.Data.List.Forall2
import PostgresQueue.Library.OrderedDict
import PostgresQueue.Models

namespace PostgresQueue

open Library

section Values

variable (O : Type)

/-- A key of a Python dict. An `object` is anything that `json.dumps` refuses. -/
inductive PyKey
  | str (s : PyText)
  | int (i : ℤ)
  | bool (b : Bool)
  | none
  | float (x : PyFloat)
  | object (o : O)

inductive PyValue
  | none
  | bool (b : Bool)
  | int (i : ℤ)
  | float (x : PyFloat)
  | str (s : PyText)
  | list (vs : List PyValue)
  | tuple (vs : List PyValue)
  | dict (items : List (PyKey O × PyValue))
  | model (cls : O) (fields : List (PyText × PyValue))
  | object (o : O)

end Values

/-- A JSON text. Its strings and names are as escaped, which is in UTF-16. -/
inductive JsonText
  | null
  | bool (b : Bool)
  | int (i : ℤ)
  | float (x : PyFloat)
  | str (s : PyText)
  | array (vs : List JsonText)
  | object (members : List (PyText × JsonText))

inductive StorageError
  | typeError
  | valueError
  | attributeError
  | raised (text : String)
deriving DecidableEq

section Surrogates

/-- A high surrogate and a low one, which name one character in UTF-16. -/
def surrogatePair : Char ⊕ Fin 2048 → Char ⊕ Fin 2048 → Bool
  | .inr high, .inr low => high.val < 1024 && 1024 ≤ low.val
  | _, _ => false

def joined : Char ⊕ Fin 2048 → Char ⊕ Fin 2048 → Char ⊕ Fin 2048
  | .inr high, .inr low => .inl (Char.ofNat (0x10000 + high.val * 1024 + (low.val - 1024)))
  | c, _ => c

/-- What the JSON decoder reads where a string has been escaped. -/
def unescaped : PyText → PyText
  | [] => []
  | [c] => [c]
  | c :: d :: rest =>
    if surrogatePair c d then joined c d :: unescaped rest else c :: unescaped (d :: rest)

def NoPair (s : PyText) : Prop := s.IsChain fun a b => surrogatePair a b = false

instance (s : PyText) : Decidable (NoPair s) := by unfold NoPair; infer_instance

theorem joined_ne {c d : Char ⊕ Fin 2048} (h : surrogatePair c d = true) : joined c d ≠ c := by
  cases c with
  | inl => cases h
  | inr high =>
    cases d with
    | inl => cases h
    | inr low => exact Sum.inl_ne_inr

theorem unescaped_eq_iff (s : PyText) : unescaped s = s ↔ NoPair s := by
  induction s using unescaped.induct with
  | case1 => exact iff_of_true rfl .nil
  | case2 c => exact iff_of_true rfl (.singleton c)
  | case3 c d rest h ih =>
    rw [unescaped, if_pos h]
    refine iff_of_false (fun heq => joined_ne h (List.cons.inj heq).1) fun hno => ?_
    rw [(List.isChain_cons_cons.mp hno).1] at h
    cases h
  | case4 c d rest h ih =>
    rw [unescaped, if_neg h, List.cons_inj_right, ih]
    unfold NoPair
    rw [List.isChain_cons_cons]
    simp [h]

theorem noPair_pyText (s : String) : NoPair (pyText s) := by
  unfold NoPair pyText
  rw [List.isChain_map]
  induction s.toList with
  | nil => exact .nil
  | cons c cs ih => exact ih.cons fun _ _ => rfl

end Surrogates

section Json

variable {O : Type} (floatRepr : PyFloat → String)

def intMaxStrDigits : ℕ := 4300

def intRepr (i : ℤ) : Except StorageError String :=
  if (Nat.toDigits 10 i.natAbs).length ≤ intMaxStrDigits then .ok (toString i)
  else .error .valueError

def keyText : PyKey O → Except StorageError PyText
  | .str s => .ok s
  | .int i => do return pyText (← intRepr i)
  | .bool b => .ok (pyText (if b then "true" else "false"))
  | .none => .ok (pyText "null")
  | .float x => .ok (pyText (floatRepr x))
  | .object _ => .error .typeError

mutual

def dumps : PyValue O → Except StorageError JsonText
  | .none => .ok .null
  | .bool b => .ok (.bool b)
  | .int i => do
    let _ ← intRepr i
    return .int i
  | .float x => .ok (.float x)
  | .str s => .ok (.str s)
  | .list vs | .tuple vs => do return .array (← dumpsAll vs)
  | .dict items => do return .object (← dumpsItems items)
  | .model .. | .object _ => .error .typeError

def dumpsAll : List (PyValue O) → Except StorageError (List JsonText)
  | [] => .ok []
  | v :: vs => do
    let j ← dumps v
    return j :: (← dumpsAll vs)

def dumpsItems : List (PyKey O × PyValue O) → Except StorageError (List (PyText × JsonText))
  | [] => .ok []
  | (k, v) :: items => do
    let name ← keyText floatRepr k
    let j ← dumps v
    return (name, j) :: (← dumpsItems items)

end

mutual

def loads : JsonText → PyValue O
  | .null => .none
  | .bool b => .bool b
  | .int i => .int i
  | .float x => .float x
  | .str s => .str (unescaped s)
  | .array js => .list (loadsAll js)
  | .object members =>
    .dict ((OrderedDict.ofPairs (loadsMembers members)).entries.map fun e => (.str e.1, e.2))

def loadsAll : List JsonText → List (PyValue O)
  | [] => []
  | j :: js => loads j :: loadsAll js

def loadsMembers : List (PyText × JsonText) → List (PyText × PyValue O)
  | [] => []
  | (name, j) :: members => (unescaped name, loads j) :: loadsMembers members

end

mutual

/-- A value where each model is the dict of its fields. -/
def fieldsDumped : PyValue O → PyValue O
  | .none => .none
  | .bool b => .bool b
  | .int i => .int i
  | .float x => .float x
  | .str s => .str s
  | .list vs => .list (fieldsDumpedAll vs)
  | .tuple vs => .tuple (fieldsDumpedAll vs)
  | .dict items => .dict (fieldsDumpedItems items)
  | .model _ fields => .dict (fieldsDumpedFields fields)
  | .object o => .object o

def fieldsDumpedAll : List (PyValue O) → List (PyValue O)
  | [] => []
  | v :: vs => fieldsDumped v :: fieldsDumpedAll vs

def fieldsDumpedItems : List (PyKey O × PyValue O) → List (PyKey O × PyValue O)
  | [] => []
  | (k, v) :: items => (k, fieldsDumped v) :: fieldsDumpedItems items

def fieldsDumpedFields : List (PyText × PyValue O) → List (PyKey O × PyValue O)
  | [] => []
  | (name, v) :: fields => (.str name, fieldsDumped v) :: fieldsDumpedFields fields

end

end Json

/-- `dill`, `base64` and the `model_dump` of Pydantic. -/
structure Pickling (O : Type) where
  modelDump : PyValue O → PyValue O
  dillDumps : PyValue O → Except StorageError (List UInt8)
  dillLoads : List UInt8 → Except StorageError (PyValue O)
  b64encode : List UInt8 → String
  b64decode : String → Except StorageError (List UInt8)

structure Pickling.Inverts {O : Type} (p : Pickling O) : Prop where
  dill : ∀ v pickled, p.dillDumps v = .ok pickled → p.dillLoads pickled = .ok v
  base64 : ∀ v pickled, p.dillDumps v = .ok pickled →
    p.b64decode (p.b64encode pickled) = .ok pickled
  ascii : ∀ v pickled, p.dillDumps v = .ok pickled →
    ∀ c ∈ (p.b64encode pickled).toList, c.toNat < 128

/-- `model_dump` as it is by default: the values of the fields stay what they are, and nested models
become dicts. -/
def Pickling.DumpsFields {O : Type} (p : Pickling O) (v : PyValue O) : Prop :=
  p.modelDump v = fieldsDumped v

section Serialize

variable {O : Type} (floatRepr : PyFloat → String) (p : Pickling O)

def isModel : PyValue O → Bool
  | .model .. => true
  | _ => false

def isJsonSerializable (v : PyValue O) : Bool := (dumps floatRepr v).isOk

def prepareValue (v : PyValue O) : Except StorageError (PyValue O × Bool) :=
  if isModel v then .ok (p.modelDump v, false)
  else if isJsonSerializable floatRepr v then .ok (v, false)
  else do
    let pickled ← p.dillDumps v
    return (.str (pyText (p.b64encode pickled)), true)

/-- `encode("ascii")`. -/
def encodeAscii : PyText → Except StorageError String
  | [] => .ok ""
  | .inl c :: rest => do
    let text ← encodeAscii rest
    if c.toNat < 128 then return String.singleton c ++ text else throw .valueError
  | .inr _ :: _ => .error .valueError

def restoreValue (v : PyValue O) (isPickled : Bool) : Except StorageError (PyValue O) :=
  if isPickled then
    match v with
    | .str s => do
      let text ← encodeAscii s
      let decoded ← p.b64decode text
      p.dillLoads decoded
    | _ => .error .attributeError
  else .ok v

/-- The loop over `args`, from position `i` on. -/
def serializeArgs (i : ℕ) : List (PyValue O) → Except StorageError (List (PyValue O) × List ℕ)
  | [] => .ok ([], [])
  | arg :: args => do
    let (prepared, isPickled) ← prepareValue floatRepr p arg
    let (serializedArgs, pickledArgIndices) ← serializeArgs (i + 1) args
    return (prepared :: serializedArgs, if isPickled then i :: pickledArgIndices else pickledArgIndices)

def serializeKwargs : List (PyText × PyValue O) →
    Except StorageError (List (PyText × PyValue O) × List PyText)
  | [] => .ok ([], [])
  | (key, value) :: kwargs => do
    let (prepared, isPickled) ← prepareValue floatRepr p value
    let (serializedKwargs, pickledKwargKeys) ← serializeKwargs kwargs
    return ((key, prepared) :: serializedKwargs,
      if isPickled then key :: pickledKwargKeys else pickledKwargKeys)

def kwargsDict (kwargs : List (PyText × PyValue O)) : PyValue O :=
  .dict (kwargs.map fun e => (.str e.1, e.2))

def payload (serializedArgs : List (PyValue O)) (serializedKwargs : List (PyText × PyValue O))
    (pickledArgIndices : List ℕ) (pickledKwargKeys : List PyText) : PyValue O :=
  kwargsDict [(pyText "args", .list serializedArgs), (pyText "kwargs", kwargsDict serializedKwargs),
    (pyText "pickled_args", .list (pickledArgIndices.map fun i : ℕ => .int i)),
    (pyText "pickled_kwargs", .list (pickledKwargKeys.map .str))]

def serialize (args : List (PyValue O)) (kwargs : OrderedDict PyText (PyValue O)) :
    Except StorageError (PyValue O) := do
  let (serializedArgs, pickledArgIndices) ← serializeArgs floatRepr p 0 args
  let (serializedKwargs, pickledKwargKeys) ← serializeKwargs floatRepr p kwargs.entries
  return payload serializedArgs serializedKwargs pickledArgIndices pickledKwargKeys

end Serialize

section Deserialize

variable {O : Type} (p : Pickling O)

def PyKey.isStr (s : PyText) : PyKey O → Bool
  | .str t => decide (t = s)
  | .int _ | .bool _ | .none | .float _ | .object _ => false

def PyKey.value : PyKey O → PyValue O
  | .str s => .str s
  | .int i => .int i
  | .bool b => .bool b
  | .none => .none
  | .float x => .float x
  | .object o => .object o

/-- `data.get(key, default)`. -/
def getItem (data : List (PyKey O × PyValue O)) (key : String) (default : PyValue O) : PyValue O :=
  match data.find? fun e => e.1.isStr (pyText key) with
  | some e => e.2
  | none => default

def iterate : PyValue O → Except StorageError (List (PyValue O))
  | .list vs | .tuple vs => .ok vs
  | .str s => .ok (s.map fun c => .str [c])
  | .dict items => .ok (items.map fun e => e.1.value)
  | .none | .bool _ | .int _ | .float _ | .model .. | .object _ => .error .typeError

/-- `set(…)` of what JSON decoding can give. -/
def toSet (v : PyValue O) : Except StorageError (List (PyValue O)) := do
  let vs ← iterate v
  if vs.any fun
    | .list _ | .dict _ => true
    | _ => false
  then throw .typeError
  else return vs

def equalsIndex (i : ℕ) : PyValue O → Bool
  | .int j => j == i
  | .bool b => (if b then 1 else 0) == i
  | .float (.finite q) => q == i
  | _ => false

def equalsKey (key : PyKey O) : PyValue O → Bool
  | .str s => key.isStr s
  | _ => false

def restoreArgs (pickled : List (PyValue O)) (i : ℕ) :
    List (PyValue O) → Except StorageError (List (PyValue O))
  | [] => .ok []
  | arg :: args => do
    let restored ← restoreValue p arg (pickled.any (equalsIndex i))
    return restored :: (← restoreArgs pickled (i + 1) args)

def restoreKwargs (pickled : List (PyValue O)) :
    List (PyKey O × PyValue O) → Except StorageError (List (PyKey O × PyValue O))
  | [] => .ok []
  | (key, value) :: kwargs => do
    let restored ← restoreValue p value (pickled.any (equalsKey key))
    return (key, restored) :: (← restoreKwargs pickled kwargs)

def deserialize : PyValue O → Except StorageError (List (PyValue O) × List (PyKey O × PyValue O))
  | .dict data => do
    let pickledArgIndices ← toSet (getItem data "pickled_args" (.list []))
    let pickledKwargKeys ← toSet (getItem data "pickled_kwargs" (.list []))
    let serializedArgs ← iterate (getItem data "args" (.list []))
    let args ← restoreArgs p pickledArgIndices 0 serializedArgs
    match getItem data "kwargs" (.dict []) with
    | .dict serializedKwargs =>
      let kwargs ← restoreKwargs p pickledKwargKeys serializedKwargs
      return (args, kwargs)
    | _ => throw .attributeError
  | _ => .error .attributeError

end Deserialize

end PostgresQueue
