import Mathlib.Data.Fintype.Basic
import Mathlib.Data.List.Basic
import Mathlib.Logic.Function.Basic

namespace PostgresQueue.Library.Ddl

/-- `R`, `C` and `I` name tables, columns and indexes. -/
structure Column (T V : Type) where
  type : T
  nullable : Bool
  default : Option V

inductive IndexKind
  | plain
  | unique
  | constraint
deriving DecidableEq

structure Index (C : Type) where
  columns : List C
  kind : IndexKind

structure Shape (C I T V : Type) where
  columns : C → Option (Column T V)
  indexes : I → Option (Index C)

abbrev Catalog (R C I T V : Type) := R → Option (Shape C I T V)

/-- What each column holds; NULL, and what is no column, is `none`. -/
abbrev Row (C V : Type) := C → Option V

structure Database (R C I T V : Type) where
  catalog : Catalog R C I T V
  rows : R → List (Row C V)

inductive Error
  | duplicateRelation
  | undefinedRelation
  | duplicateColumn
  | undefinedColumn
  | undefinedIndex
  | notNullViolation
  | uniqueViolation
deriving DecidableEq

inductive Op (R C I T V : Type)
  | createTable (table : R) (shape : Shape C I T V)
  | dropTable (table : R)
  | addColumn (table : R) (name : C) (column : Column T V)
  | dropColumn (table : R) (name : C)
  | createIndex (table : R) (name : I) (index : Index C)
  | dropIndex (table : R) (name : I)
  | dropConstraint (table : R) (name : I)
  /-- `UPDATE table SET column = v WHERE column IS NULL` -/
  | fill (table : R) (column : C) (v : V)

variable {R C I T V : Type}

def Op.table : Op R C I T V → R
  | .createTable t _ | .dropTable t | .addColumn t _ _ | .dropColumn t _ | .createIndex t _ _
  | .dropIndex t _ | .dropConstraint t _ | .fill t _ _ => t

/-- Two rows that an index over these columns takes for one; NULL is not equal to NULL. -/
def Clash (columns : List C) (r q : Row C V) : Prop := ∀ c ∈ columns, r c ≠ none ∧ r c = q c

def NotNull (s : Shape C I T V) (rows : List (Row C V)) : Prop :=
  ∀ r ∈ rows, ∀ c, (s.columns c).any (fun column => !column.nullable) = true → r c ≠ none

def Unique (s : Shape C I T V) (rows : List (Row C V)) : Prop :=
  ∀ i, ∀ index ∈ s.indexes i, index.kind ≠ .plain →
    rows.Pairwise fun r q => ¬Clash index.columns r q

structure Fits (fits : T → V → Prop) (s : Shape C I T V) (rows : List (Row C V)) : Prop where
  indexed : ∀ i, ∀ index ∈ s.indexes i, ∀ c ∈ index.columns, s.columns c ≠ none
  outside : ∀ r ∈ rows, ∀ c, s.columns c = none → r c = none
  typed : ∀ r ∈ rows, ∀ c, ∀ column ∈ s.columns c, ∀ v ∈ r c, fits column.type v
  notNull : NotNull s rows
  unique : Unique s rows

section Rows

variable {fits : T → V → Prop} {s : Shape C I T V} {rows : List (Row C V)}

namespace Fits

section Indexes

variable [DecidableEq I]

theorem createIndex (h : Fits fits s rows) {i : I} {index : Index C}
    (hc : ∀ c ∈ index.columns, s.columns c ≠ none)
    (hr : index.kind = .plain ∨ rows.Pairwise fun r q => ¬Clash index.columns r q) :
    Fits fits { s with indexes := Function.update s.indexes i (some index) } rows := by
  have hold : ∀ j, ∀ index' ∈ Function.update s.indexes i (some index) j,
      index' = index ∨ s.indexes j = some index' := by
    intro j index' hj
    by_cases he : j = i
    · rw [he, Function.update_self] at hj
      exact .inl (Option.some.inj hj).symm
    · rw [Function.update_of_ne he] at hj
      exact .inr hj
  refine ⟨fun j index' hj => ?_, h.outside, h.typed, h.notNull, fun j index' hj hk => ?_⟩
  · rcases hold j index' hj with rfl | hj
    · exact hc
    · exact h.indexed j index' hj
  · rcases hold j index' hj with rfl | hj
    · exact hr.resolve_left hk
    · exact h.unique j index' hj hk

theorem dropIndex (h : Fits fits s rows) (i : I) :
    Fits fits { s with indexes := Function.update s.indexes i none } rows := by
  have hold : ∀ j, ∀ index ∈ Function.update s.indexes i none j, s.indexes j = some index := by
    intro j index hj
    by_cases he : j = i
    · rw [he, Function.update_self] at hj
      cases hj
    · rwa [Function.update_of_ne he] at hj
  exact ⟨fun j index hj => h.indexed j index (hold j index hj), h.outside, h.typed, h.notNull,
    fun j index hj => h.unique j index (hold j index hj)⟩

end Indexes

end Fits

variable [DecidableEq C]

theorem clash_update {columns : List C} {c : C} (h : c ∉ columns) (r q : Row C V) (x y : Option V) :
    Clash columns (Function.update r c x) (Function.update q c y) ↔ Clash columns r q := by
  unfold Clash
  apply forall₂_congr
  intro c' hc
  have hne : c' ≠ c := fun he => h (he ▸ hc)
  rw [Function.update_of_ne hne, Function.update_of_ne hne]

theorem unique_map {rows : List (Row C V)} {columns : List C} {c : C} (h : c ∉ columns)
    (f : Row C V → Option V) (hu : rows.Pairwise fun r q => ¬Clash columns r q) :
    (rows.map fun r => Function.update r c (f r)).Pairwise fun r q => ¬Clash columns r q := by
  rw [List.pairwise_map]
  refine hu.imp fun hn hc => hn ?_
  exact (clash_update h _ _ _ _).mp hc

namespace Fits

theorem addColumn (h : Fits fits s rows) {c : C} {column : Column T V} (hc : s.columns c = none)
    (ht : ∀ v ∈ column.default, fits column.type v)
    (hr : column.nullable = true ∨ column.default ≠ none ∨ rows = []) :
    Fits fits { s with columns := Function.update s.columns c (some column) }
      (rows.map fun r => Function.update r c column.default) := by
  refine ⟨fun i index hi c' hc' => ?_, ?_, ?_, ?_, fun i index hi hk => ?_⟩
  · have hold := h.indexed i index hi c' hc'
    have hne : c' ≠ c := fun he => hold (he ▸ hc)
    change Function.update s.columns c (some column) c' ≠ none
    rwa [Function.update_of_ne hne]
  · intro r hr c' hnone
    obtain ⟨r, hm, rfl⟩ := List.mem_map.mp hr
    by_cases he : c' = c
    · subst he
      simp at hnone
    · change Function.update s.columns c (some column) c' = none at hnone
      rw [Function.update_of_ne he] at hnone ⊢
      exact h.outside r hm c' hnone
  · intro r hr c' column' hcol v hv
    obtain ⟨r, hm, rfl⟩ := List.mem_map.mp hr
    change Function.update s.columns c (some column) c' = some column' at hcol
    by_cases he : c' = c
    · subst he
      rw [Function.update_self] at hcol hv
      cases hcol
      exact ht v hv
    · rw [Function.update_of_ne he] at hcol hv
      exact h.typed r hm c' column' hcol v hv
  · intro r hr' c' hn
    obtain ⟨r, hm, rfl⟩ := List.mem_map.mp hr'
    change (Function.update s.columns c (some column) c').any _ = true at hn
    by_cases he : c' = c
    · subst he
      rw [Function.update_self] at hn ⊢
      rcases hr with hr | hr | rfl
      · simp [hr] at hn
      · exact hr
      · exact absurd hm List.not_mem_nil
    · rw [Function.update_of_ne he] at hn ⊢
      exact h.notNull r hm c' hn
  · exact unique_map (fun hm => h.indexed i index hi c hm hc) _ (h.unique i index hi hk)

theorem dropColumn (h : Fits fits s rows) (c : C) :
    Fits fits {
        columns := Function.update s.columns c none
        indexes := fun i => (s.indexes i).filter fun index => !index.columns.contains c }
      (rows.map fun r => Function.update r c none) := by
  have hold : ∀ i, ∀ index ∈ (s.indexes i).filter fun index => !index.columns.contains c,
      s.indexes i = some index ∧ c ∉ index.columns := by
    intro i index hi
    obtain ⟨hi, hc⟩ := Option.filter_eq_some_iff.mp hi
    exact ⟨hi, by simpa using hc⟩
  refine ⟨fun i index hi c' hc' => ?_, ?_, ?_, ?_, fun i index hi hk => ?_⟩
  · obtain ⟨hi, hc⟩ := hold i index hi
    change Function.update s.columns c none c' ≠ none
    have hne : c' ≠ c := fun he => hc (he ▸ hc')
    rw [Function.update_of_ne hne]
    exact h.indexed i index hi c' hc'
  · intro r hr c' hnone
    obtain ⟨r, hm, rfl⟩ := List.mem_map.mp hr
    by_cases he : c' = c
    · rw [he, Function.update_self]
    · change Function.update s.columns c none c' = none at hnone
      rw [Function.update_of_ne he] at hnone ⊢
      exact h.outside r hm c' hnone
  · intro r hr c' column hcol v hv
    obtain ⟨r, hm, rfl⟩ := List.mem_map.mp hr
    change Function.update s.columns c none c' = some column at hcol
    by_cases he : c' = c
    · rw [he, Function.update_self] at hcol
      cases hcol
    · rw [Function.update_of_ne he] at hcol hv
      exact h.typed r hm c' column hcol v hv
  · intro r hr c' hn
    obtain ⟨r, hm, rfl⟩ := List.mem_map.mp hr
    change (Function.update s.columns c none c').any _ = true at hn
    by_cases he : c' = c
    · rw [he, Function.update_self] at hn
      cases hn
    · rw [Function.update_of_ne he] at hn ⊢
      exact h.notNull r hm c' hn
  · obtain ⟨hi, hc⟩ := hold i index hi
    exact unique_map hc _ (h.unique i index hi hk)

theorem fill (h : Fits fits s rows) {c : C} {v : V} (hc : s.columns c ≠ none)
    (ht : ∀ column ∈ s.columns c, fits column.type v)
    (hr : ∀ i, ∀ index ∈ s.indexes i, index.kind ≠ .plain → c ∉ index.columns) :
    Fits fits s (rows.map fun r => Function.update r c (some ((r c).getD v))) := by
  refine ⟨h.indexed, ?_, ?_, ?_, fun i index hi hk => ?_⟩
  · intro r hr c' hnone
    obtain ⟨r, hm, rfl⟩ := List.mem_map.mp hr
    have hne : c' ≠ c := fun he => hc (he ▸ hnone)
    rw [Function.update_of_ne hne]
    exact h.outside r hm c' hnone
  · intro r hr c' column hcol w hw
    obtain ⟨r, hm, rfl⟩ := List.mem_map.mp hr
    by_cases he : c' = c
    · subst he
      rw [Function.update_self] at hw
      obtain rfl := Option.some.inj hw
      cases hrc : r c' with
      | none => exact ht column hcol
      | some w => exact h.typed r hm c' column hcol w hrc
    · rw [Function.update_of_ne he] at hw
      exact h.typed r hm c' column hcol w hw
  · intro r hr c' hn
    obtain ⟨r, hm, rfl⟩ := List.mem_map.mp hr
    by_cases he : c' = c
    · rw [he, Function.update_self]
      exact Option.some_ne_none _
    · rw [Function.update_of_ne he]
      exact h.notNull r hm c' hn
  · exact unique_map (hr i index hi hk) _ (h.unique i index hi hk)

end Fits

end Rows

structure Database.Valid (fits : T → V → Prop) (db : Database R C I T V) : Prop where
  rows : ∀ t, ∀ s ∈ db.catalog t, Fits fits s (db.rows t)
  absent : ∀ t, db.catalog t = none → db.rows t = []

def Op.Typed (fits : T → V → Prop) (catalog : Catalog R C I T V) : Op R C I T V → Prop
  | .createTable _ s => ∀ i, ∀ index ∈ s.indexes i, ∀ c ∈ index.columns, s.columns c ≠ none
  | .addColumn _ _ column => ∀ v ∈ column.default, fits column.type v
  | .fill t c v => ∀ s ∈ catalog t, ∀ column ∈ s.columns c, fits column.type v
  | _ => True

def Op.Ready (s : Shape C I T V) (rows : List (Row C V)) : Op R C I T V → Prop
  | .addColumn _ _ column => column.nullable = true ∨ column.default ≠ none ∨ rows = []
  | .createIndex _ _ index =>
    index.kind = .plain ∨ rows.Pairwise fun r q => ¬Clash index.columns r q
  | .fill _ c _ => ∀ i, ∀ index ∈ s.indexes i, index.kind ≠ .plain → c ∉ index.columns
  | _ => True

section OnRows

variable [DecidableEq C]

def Op.onRows : Op R C I T V → List (Row C V) → List (Row C V)
  | .createTable _ _, _ | .dropTable _, _ => []
  | .addColumn _ c column, rows => rows.map fun r => Function.update r c column.default
  | .dropColumn _ c, rows => rows.map fun r => Function.update r c none
  | .createIndex _ _ _, rows | .dropIndex _ _, rows | .dropConstraint _ _, rows => rows
  | .fill _ c v, rows => rows.map fun r => Function.update r c (some ((r c).getD v))

def Op.onRow : Op R C I T V → Row C V → Row C V
  | .addColumn _ c column, r => Function.update r c column.default
  | .dropColumn _ c, r => Function.update r c none
  | .fill _ c v, r => Function.update r c (some ((r c).getD v))
  | _, r => r

def Op.keepsTables : Op R C I T V → Bool
  | .createTable _ _ | .dropTable _ => false
  | _ => true

theorem onRows_eq {op : Op R C I T V} (h : op.keepsTables = true) (rows : List (Row C V)) :
    op.onRows rows = rows.map op.onRow := by
  cases op with
  | createTable | dropTable => cases h
  | createIndex | dropIndex | dropConstraint => exact (List.map_id' rows).symm
  | _ => rfl

variable [DecidableEq R]

def onAll (ops : List (Op R C I T V)) (rows : R → List (Row C V)) : R → List (Row C V) :=
  ops.foldl (fun rows op => Function.update rows op.table (op.onRows (rows op.table))) rows

def rowAll (ops : List (Op R C I T V)) (t : R) (r : Row C V) : Row C V :=
  (ops.filter fun op => op.table = t).foldl (fun r op => op.onRow r) r

theorem onAll_eq {ops : List (Op R C I T V)} (h : ∀ op ∈ ops, op.keepsTables = true)
    (rows : R → List (Row C V)) (t : R) : onAll ops rows t = (rows t).map (rowAll ops t) := by
  induction ops generalizing rows with
  | nil => exact (List.map_id' _).symm
  | cons op ops ih =>
    rw [List.forall_mem_cons] at h
    change onAll ops (Function.update rows op.table _) t = _
    rw [ih h.2]
    by_cases ht : op.table = t
    · subst ht
      rw [Function.update_self, onRows_eq h.1, List.map_map]
      apply List.map_congr_left
      intro r _
      simp [rowAll]
    · rw [Function.update_of_ne (Ne.symm ht)]
      apply List.map_congr_left
      intro r _
      simp [rowAll, ht]

end OnRows

section Apply

variable [DecidableEq C] [DecidableEq I] [Fintype R]

/-- Indexes of all tables share one namespace. -/
def Catalog.taken (catalog : Catalog R C I T V) (i : I) : Bool :=
  decide (∃ t : R, (catalog t).any (fun s => (s.indexes i).isSome) = true)

def Op.reshape (catalog : Catalog R C I T V) (s : Shape C I T V) :
    Op R C I T V → Except Error (Shape C I T V)
  | .createTable _ _ | .dropTable _ => .error .duplicateRelation
  | .addColumn _ c column =>
    if (s.columns c).isSome then .error .duplicateColumn
    else .ok { s with columns := Function.update s.columns c (some column) }
  -- an index that mentions the column goes with it
  | .dropColumn _ c =>
    if (s.columns c).isSome then .ok {
      columns := Function.update s.columns c none
      indexes := fun i => (s.indexes i).filter fun index => !index.columns.contains c }
    else .error .undefinedColumn
  | .createIndex _ i index =>
    if catalog.taken i then .error .duplicateRelation
    else if index.columns.all fun c => (s.columns c).isSome then
      .ok { s with indexes := Function.update s.indexes i (some index) }
    else .error .undefinedColumn
  | .dropIndex _ i =>
    if (s.indexes i).any fun index => index.kind != .constraint then
      .ok { s with indexes := Function.update s.indexes i none }
    else .error .undefinedIndex
  | .dropConstraint _ i =>
    if (s.indexes i).any fun index => index.kind == .constraint then
      .ok { s with indexes := Function.update s.indexes i none }
    else .error .undefinedIndex
  | .fill _ c _ => if (s.columns c).isSome then .ok s else .error .undefinedColumn

section Reshape

variable {fits : T → V → Prop} {op : Op R C I T V} {s : Shape C I T V} {rows : List (Row C V)}

theorem reshape_fits (h : Fits fits s rows) {catalog : Catalog R C I T V} {s' : Shape C I T V}
    (hs : catalog op.table = some s) (ht : op.Typed fits catalog) (hr : op.Ready s rows)
    (he : op.reshape catalog s = .ok s') : Fits fits s' (op.onRows rows) := by
  cases op with
  | createTable => cases he
  | dropTable => cases he
  | addColumn t c column =>
    simp only [Op.reshape] at he
    split_ifs at he with hc
    cases he
    exact h.addColumn (by simpa using hc) ht hr
  | dropColumn t c =>
    simp only [Op.reshape] at he
    split_ifs at he
    cases he
    exact h.dropColumn c
  | createIndex t i index =>
    simp only [Op.reshape] at he
    split_ifs at he with htaken hc
    cases he
    refine h.createIndex (fun c hm => ?_) hr
    exact Option.isSome_iff_ne_none.mp (List.all_eq_true.mp hc c hm)
  | dropIndex t i =>
    simp only [Op.reshape] at he
    split_ifs at he
    cases he
    exact h.dropIndex i
  | dropConstraint t i =>
    simp only [Op.reshape] at he
    split_ifs at he
    cases he
    exact h.dropIndex i
  | fill t c v =>
    simp only [Op.reshape] at he
    split_ifs at he with hc
    cases he
    exact h.fill (Option.isSome_iff_ne_none.mp hc) (ht s hs) hr

end Reshape

variable [DecidableEq R] [Fintype I]

def Op.alter (catalog : Catalog R C I T V) (op : Op R C I T V) :
    Except Error (Catalog R C I T V) :=
  match op, catalog op.table with
  | .createTable t shape, none =>
    if (Finset.univ.filter fun i => (shape.indexes i).isSome ∧ catalog.taken i).Nonempty then
      .error .duplicateRelation
    else .ok (Function.update catalog t (some shape))
  | .dropTable t, some _ => .ok (Function.update catalog t none)
  | _, none => .error .undefinedRelation
  | op, some s => (op.reshape catalog s).map fun s' => Function.update catalog op.table (some s')

def alterAll (ops : List (Op R C I T V)) (catalog : Catalog R C I T V) :
    Except Error (Catalog R C I T V) := ops.foldlM (fun catalog op => op.alter catalog) catalog

def ReadyAll (fits : T → V → Prop) : List (Op R C I T V) → Catalog R C I T V → (R → List (Row C V)) → Prop
  | [], _, _ => True
  | op :: ops, catalog, rows => op.Typed fits catalog ∧
      (∀ s ∈ catalog op.table, op.Ready s (rows op.table)) ∧
      ∀ catalog', op.alter catalog = .ok catalog' →
        ReadyAll fits ops catalog' (Function.update rows op.table (op.onRows (rows op.table)))

section Alter

variable {fits : T → V → Prop} {op : Op R C I T V} {db : Database R C I T V}
  {catalog : Catalog R C I T V}

theorem alter_ok (h : op.alter db.catalog = .ok catalog) :
    ∃ shape, catalog = Function.update db.catalog op.table shape ∧
      ((shape = none ∧ ∀ rows : List (Row C V), op.onRows rows = []) ∨
        (∃ s, op = .createTable op.table s ∧ shape = some s) ∨
        ∃ s s', db.catalog op.table = some s ∧ op.reshape db.catalog s = .ok s' ∧
          shape = some s') := by
  unfold Op.alter at h
  split at h
  · rename_i t s hnone
    split_ifs at h
    cases h
    exact ⟨_, rfl, .inr (.inl ⟨s, rfl, rfl⟩)⟩
  · rename_i t s hsome
    cases h
    exact ⟨_, rfl, .inl ⟨rfl, fun _ => rfl⟩⟩
  · cases h
  · rename_i op' _ _ s _ hsome
    cases hre : op'.reshape db.catalog s with
    | error e =>
      rw [hre] at h
      cases h
    | ok s' =>
      rw [hre] at h
      cases h
      exact ⟨_, rfl, .inr (.inr ⟨s, s', hsome, hre, rfl⟩)⟩

theorem alter_valid (hv : db.Valid fits) (ht : op.Typed fits db.catalog)
    (hr : ∀ s ∈ db.catalog op.table, op.Ready s (db.rows op.table))
    (ha : op.alter db.catalog = .ok catalog) :
    Database.Valid fits
      ⟨catalog, Function.update db.rows op.table (op.onRows (db.rows op.table))⟩ := by
  obtain ⟨shape, rfl, hshape⟩ := alter_ok ha
  constructor
  · intro t s hs
    change Fits fits s (Function.update db.rows op.table _ t)
    change Function.update db.catalog op.table shape t = some s at hs
    by_cases he : t = op.table
    · rw [he, Function.update_self] at hs ⊢
      rcases hshape with ⟨hnone, -⟩ | ⟨s₀, hop, hs₀⟩ | ⟨s₀, s', hold, hre, hs'⟩
      · rw [hs] at hnone
        cases hnone
      · rw [hs] at hs₀
        cases hs₀
        rw [hop] at ht ⊢
        exact ⟨ht, nofun, nofun, nofun, fun _ _ _ _ => .nil⟩
      · rw [hs] at hs'
        cases hs'
        exact reshape_fits (hv.rows _ _ hold) hold ht (hr _ hold) hre
    · rw [Function.update_of_ne he] at hs ⊢
      exact hv.rows t s hs
  · intro t hs
    change Function.update db.rows op.table _ t = []
    change Function.update db.catalog op.table shape t = none at hs
    by_cases he : t = op.table
    · rw [he, Function.update_self] at hs ⊢
      rcases hshape with ⟨-, hnil⟩ | ⟨s₀, -, hs₀⟩ | ⟨s₀, s', -, -, hs'⟩
      · exact hnil _
      · rw [hs] at hs₀
        cases hs₀
      · rw [hs] at hs'
        cases hs'
    · rw [Function.update_of_ne he] at hs ⊢
      exact hv.absent t hs

end Alter

variable [DecidableEq V] [Fintype C]

instance (columns : List C) (r q : Row C V) : Decidable (Clash columns r q) := by
  unfold Clash
  infer_instance

instance (s : Shape C I T V) (rows : List (Row C V)) : Decidable (NotNull s rows) := by
  unfold NotNull
  infer_instance

instance (s : Shape C I T V) (rows : List (Row C V)) : Decidable (Unique s rows) := by
  unfold Unique
  infer_instance

def Op.apply (op : Op R C I T V) (db : Database R C I T V) :
    Except Error (Database R C I T V) := do
  let catalog ← op.alter db.catalog
  let rows := op.onRows (db.rows op.table)
  match catalog op.table with
  | some s =>
    if ¬NotNull s rows then throw .notNullViolation
    if ¬Unique s rows then throw .uniqueViolation
  | none => pure ()
  return ⟨catalog, Function.update db.rows op.table rows⟩

def applyAll (ops : List (Op R C I T V)) (db : Database R C I T V) :
    Except Error (Database R C I T V) := ops.foldlM (fun db op => op.apply db) db

theorem bind_ok {ε α β : Type} {x : Except ε α} {f : α → Except ε β} {b : β} :
    x >>= f = .ok b ↔ ∃ a, x = .ok a ∧ f a = .ok b := by
  cases x <;> simp [bind, Except.bind]

section Steps

variable {fits : T → V → Prop} {op : Op R C I T V} {db db' : Database R C I T V}
  {catalog : Catalog R C I T V}

theorem apply_ok : op.apply db = .ok db' ↔ ∃ catalog, op.alter db.catalog = .ok catalog ∧
    (∀ s ∈ catalog op.table, NotNull s (op.onRows (db.rows op.table)) ∧
      Unique s (op.onRows (db.rows op.table))) ∧
    db' = ⟨catalog, Function.update db.rows op.table (op.onRows (db.rows op.table))⟩ := by
  unfold Op.apply
  rw [bind_ok]
  apply exists_congr
  intro catalog
  apply and_congr_right
  intro _
  cases hs : catalog op.table with
  | none =>
    simp only [Option.mem_def, reduceCtorEq, false_implies, implies_true, true_and]
    constructor
    · intro h
      cases h
      rfl
    · rintro rfl
      rfl
  | some s =>
    simp only [Option.mem_def, Option.some.injEq, forall_eq']
    by_cases hn : NotNull s (op.onRows (db.rows op.table))
    · by_cases hu : Unique s (op.onRows (db.rows op.table))
      · simp only [hn, hu, not_true, if_false, and_self, true_and]
        constructor
        · intro h
          cases h
          rfl
        · rintro rfl
          rfl
      · simp [hn, hu, bind, Except.bind, throw, throwThe, MonadExceptOf.throw]
    · simp [hn, bind, Except.bind, throw, throwThe, MonadExceptOf.throw]

theorem apply_of_ready (hv : db.Valid fits) (ht : op.Typed fits db.catalog)
    (hr : ∀ s ∈ db.catalog op.table, op.Ready s (db.rows op.table))
    (ha : op.alter db.catalog = .ok catalog) : op.apply db =
      .ok ⟨catalog, Function.update db.rows op.table (op.onRows (db.rows op.table))⟩ := by
  refine apply_ok.mpr ⟨catalog, ha, fun s hs => ?_, rfl⟩
  have hfits := (alter_valid hv ht hr ha).rows op.table s hs
  rw [show (Database.mk _ _ : Database R C I T V).rows op.table = _ from
    Function.update_self _ _ _] at hfits
  exact ⟨hfits.notNull, hfits.unique⟩

theorem applyAll_of_ready {ops : List (Op R C I T V)} (hv : db.Valid fits)
    (hr : ReadyAll fits ops db.catalog db.rows) (ha : alterAll ops db.catalog = .ok catalog) :
    applyAll ops db = .ok ⟨catalog, onAll ops db.rows⟩ ∧
      Database.Valid fits ⟨catalog, onAll ops db.rows⟩ := by
  induction ops generalizing db with
  | nil =>
    cases ha
    exact ⟨rfl, hv⟩
  | cons op ops ih =>
    obtain ⟨ht, hready, hrest⟩ := hr
    simp only [alterAll, List.foldlM_cons, bind_ok] at ha
    obtain ⟨middle, hmiddle, ha⟩ := ha
    have hstep := apply_of_ready hv ht hready hmiddle
    have hnext := ih (alter_valid hv ht hready hmiddle) (hrest middle hmiddle) ha
    refine ⟨?_, hnext.2⟩
    rw [applyAll, List.foldlM_cons, hstep]
    exact hnext.1

end Steps

end Apply

end PostgresQueue.Library.Ddl
