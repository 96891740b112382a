import Mathlib.Data.List.Nodup
import Mathlib.Data.List.Perm.Subperm
import DistDB.Checks
import DistDB.SqlExecutor

/-!
When a statement runs: for each of the nine kinds, what the statement and the store must
satisfy for `Execute` not to throw (`Runs`, `executeStatement_succeeds`).
-/

namespace DistDB.SqlRuns

open SqlParser SqlExecutor Bytes Checks

/-- An integer literal: digits behind an optional minus sign. -/
def IntText (v : Bytes) : Prop := digits v ≠ [] ∧ ∀ c ∈ digits v, SqlLexer.isDigit c

/-- The column exists and takes the literal. -/
def Takes (schema : TableSchema) (column value : Bytes) : Prop :=
  ∃ idx col, schema.columnIndex column = some idx ∧ schema.columns[idx]? = some col ∧
    (col.type = .kInt → IntText value)

/-- The `INSERT` gives every column of the schema one value that it takes. -/
structure InsertFits (schema : TableSchema) (stmt : InsertStatement) : Prop where
  all : stmt.columns.length = schema.columns.length
  nodup : ((stmt.columns.zip stmt.values).map Prod.fst).Nodup
  takes : ∀ cv ∈ stmt.columns.zip stmt.values, Takes schema cv.1 cv.2
  pk : schema.primaryKeyIndex.isSome

/-- No row of the table has the key the `INSERT` gives. -/
def KeyFree (store : Store) (schema : TableSchema) (stmt : InsertStatement) : Prop :=
  ∀ cv ∈ stmt.columns.zip stmt.values, schema.columnIndex cv.1 = schema.primaryKeyIndex →
    store.find (rowKey stmt.dbName stmt.tableName cv.2) = none

/-- Every row of the table can be read, and `WHERE` evaluated on it. -/
def Filters (store : Store) (schema : TableSchema) (dbName tableName : Bytes)
    (whereClause : List Condition) : Prop :=
  ∀ kv ∈ scan store (rowPrefix dbName tableName), Succeeds (matchRow schema whereClause kv.2)

/-- The statement and the store are such that the statement runs. -/
def Runs (store : Store) : Statement → Prop
  | .createDatabase s => store.find (databaseKey s.name) = none
  | .createTable s =>
    store.find (databaseKey s.dbName) ≠ none ∧
      store.find (schemaKey s.dbName s.tableName) = none
  | .alterTableAddColumn s =>
    ∃ schema, loadSchema store s.dbName s.tableName = .ok schema ∧
      schema.columnIndex s.column.name = none ∧
      ∃ v, s.column.defaultValue = some v ∧ (s.column.type = .kInt → IntText v)
  | .insert s =>
    ∃ schema, loadSchema store s.dbName s.tableName = .ok schema ∧
      InsertFits schema s ∧ KeyFree store schema s
  | .select s =>
    ∃ schema, loadSchema store s.dbName s.tableName = .ok schema ∧
      (∀ c ∈ s.columns, schema.columnIndex c ≠ none) ∧
      Filters store schema s.dbName s.tableName s.whereClause
  | .update s =>
    ∃ schema, loadSchema store s.dbName s.tableName = .ok schema ∧
      (∀ a ∈ s.assignments, Takes schema a.1 a.2 ∧
        schema.columnIndex a.1 ≠ schema.primaryKeyIndex) ∧
      Filters store schema s.dbName s.tableName s.whereClause
  | .delete s =>
    ∃ schema, loadSchema store s.dbName s.tableName = .ok schema ∧
      Filters store schema s.dbName s.tableName s.whereClause
  | .showTables s => store.find (databaseKey s.dbName) ≠ none
  | .showDatabases => True

lemma validateIntLiteral_succeeds (column v : Bytes) :
    Succeeds (validateIntLiteral column v) ↔ IntText v := by
  unfold validateIntLiteral
  rw [succeeds_throwIf]
  have hsecond : Succeeds (throwIf (¬ (digits v).all SqlLexer.isDigit) (Exception.runtimeError
      (invalidInteger column ++ text ": '" ++ v ++ text "'"))) ↔
        ∀ c ∈ digits v, SqlLexer.isDigit c := by
    rw [← List.all_eq_true]
    constructor
    · rintro ⟨u, hu⟩
      simpa using throwIf_eq_ok.mp hu
    · intro h
      exact ⟨(), throwIf_eq_ok.mpr (by simpa using h)⟩
  rw [hsecond]
  rfl

lemma validateLiteral_succeeds (type : ColumnType) (column v : Bytes) :
    Succeeds (validateLiteral type column v) ↔ (type = .kInt → IntText v) := by
  unfold validateLiteral
  by_cases h : type = .kInt
  · simp [h, validateIntLiteral_succeeds]
  · simp [h]

lemma indexOf_eq_ok {schema : TableSchema} {column : Bytes} {idx : ℕ} :
    indexOf schema column = .ok idx ↔ schema.columnIndex column = some idx := by
  unfold indexOf
  split <;> simp_all

lemma columnAt_eq_ok {schema : TableSchema} {idx : ℕ} {col : ColumnDef} :
    columnAt schema idx = .ok col ↔ schema.columns[idx]? = some col := by
  unfold columnAt
  split <;> simp_all

lemma columnIndex_lt {schema : TableSchema} {column : Bytes} {idx : ℕ}
    (h : schema.columnIndex column = some idx) : idx < schema.columns.length :=
  (List.findIdx?_eq_some_iff_getElem.mp h).1

lemma primaryKeyIndex_lt {schema : TableSchema} {idx : ℕ}
    (h : schema.primaryKeyIndex = some idx) : idx < schema.columns.length :=
  (List.findIdx?_eq_some_iff_getElem.mp h).1

lemma columnIndex_inj {schema : TableSchema} {c c' : Bytes} {idx : ℕ}
    (h : schema.columnIndex c = some idx) (h' : schema.columnIndex c' = some idx) : c = c' := by
  obtain ⟨_, h, -⟩ := List.findIdx?_eq_some_iff_getElem.mp h
  obtain ⟨_, h', -⟩ := List.findIdx?_eq_some_iff_getElem.mp h'
  simp only [beq_iff_eq] at h h'
  exact h.symm.trans h'

/-! ### INSERT -/

lemma fillRow_cons {schema : TableSchema} {cv : Bytes × Bytes} {cvs : List (Bytes × Bytes)}
    {row row' : List (Option Bytes)} : fillRow schema (cv :: cvs) row = .ok row' ↔
      ∃ idx, schema.columnIndex cv.1 = some idx ∧ row[idx]?.join = none ∧
        Takes schema cv.1 cv.2 ∧ fillRow schema cvs (row.set idx (some cv.2)) = .ok row' := by
  obtain ⟨column, value⟩ := cv
  rw [fillRow, bind_eq_ok]
  constructor
  · rintro ⟨idx, hidx, h⟩
    obtain ⟨_, hfree, h⟩ := bind_eq_ok.mp h
    obtain ⟨col, hcol, h⟩ := bind_eq_ok.mp h
    obtain ⟨_, hvalid, h⟩ := bind_eq_ok.mp h
    rw [indexOf_eq_ok] at hidx
    rw [columnAt_eq_ok] at hcol
    have hint := (validateLiteral_succeeds _ _ _).mp ⟨_, hvalid⟩
    exact ⟨idx, hidx, by simpa using hfree, ⟨idx, col, hidx, hcol, hint⟩, h⟩
  · rintro ⟨idx, hidx, hfree, ⟨idx', col, hidx', hcol, hint⟩, h⟩
    rw [hidx] at hidx'
    cases hidx'
    obtain ⟨u, hu⟩ := (validateLiteral_succeeds _ column _).mpr hint
    refine ⟨idx, indexOf_eq_ok.mpr hidx, bind_eq_ok.mpr ⟨(), by simp [hfree], ?_⟩⟩
    exact bind_eq_ok.mpr ⟨col, columnAt_eq_ok.mpr hcol, bind_eq_ok.mpr ⟨u, hu, h⟩⟩

lemma fillRow_succeeds {schema : TableSchema} {cvs : List (Bytes × Bytes)}
    {row : List (Option Bytes)} (hlen : row.length = schema.columns.length) :
    Succeeds (fillRow schema cvs row) ↔
      (∀ cv ∈ cvs, Takes schema cv.1 cv.2) ∧ (cvs.map Prod.fst).Nodup ∧
        ∀ cv ∈ cvs, ∀ idx, schema.columnIndex cv.1 = some idx → row[idx]?.join = none := by
  induction cvs generalizing row with
  | nil => simp [fillRow]
  | cons cv cvs ih =>
    rw [List.map_cons, List.nodup_cons]
    constructor
    · rintro ⟨row', h⟩
      obtain ⟨idx, hidx, hfree, htakes, h⟩ := fillRow_cons.mp h
      obtain ⟨hall, hnodup, hrest⟩ := (ih (by simpa using hlen)).mp ⟨row', h⟩
      have hlt : idx < row.length := by rw [hlen]; exact columnIndex_lt hidx
      -- an index of the rest was still free after this pass, so it is another one
      have hne : ∀ cv' ∈ cvs, ∀ idx', schema.columnIndex cv'.1 = some idx' →
          idx ≠ idx' := by
        rintro cv' hcv' idx' hidx' rfl
        have := hrest cv' hcv' idx hidx'
        simp [hlt] at this
      refine ⟨fun cv' hcv' => ?_, ⟨fun hmem => ?_, hnodup⟩, fun cv' hcv' idx' hidx' => ?_⟩
      · rcases List.mem_cons.mp hcv' with rfl | hcv'
        · exact htakes
        · exact hall cv' hcv'
      · obtain ⟨cv', hcv', heq⟩ := List.mem_map.mp hmem
        exact hne cv' hcv' idx (by rw [heq]; exact hidx) rfl
      · rcases List.mem_cons.mp hcv' with rfl | hcv'
        · rw [hidx] at hidx'
          cases hidx'
          exact hfree
        · have := hrest cv' hcv' idx' hidx'
          rwa [List.getElem?_set_ne (hne cv' hcv' idx' hidx')] at this
    · rintro ⟨hall, ⟨hnew, hnodup⟩, hfree⟩
      have htakes := hall cv (by simp)
      obtain ⟨idx, -, hidx, -, -⟩ := id htakes
      have hrest : Succeeds (fillRow schema cvs (row.set idx (some cv.2))) := by
        refine (ih (by simpa using hlen)).mpr
          ⟨fun cv' h => hall cv' (by simp [h]), hnodup, fun cv' hcv' idx' hidx' => ?_⟩
        have hne : idx ≠ idx' := by
          rintro rfl
          exact hnew (List.mem_map.mpr ⟨cv', hcv', columnIndex_inj hidx' hidx⟩)
        rw [List.getElem?_set_ne hne]
        exact hfree cv' (by simp [hcv']) idx' hidx'
      obtain ⟨row', hrow'⟩ := hrest
      exact ⟨row', fillRow_cons.mpr ⟨idx, hidx, hfree cv (by simp) idx hidx, htakes, hrow'⟩⟩

/-- What the loop of `ExecuteInsert` leaves: the given values, and the rest as it was. -/
lemma fillRow_spec {schema : TableSchema} {cvs : List (Bytes × Bytes)}
    {row row' : List (Option Bytes)} (hlen : row.length = schema.columns.length)
    (h : fillRow schema cvs row = .ok row') :
    row'.length = row.length ∧
      (∀ cv ∈ cvs, ∀ idx, schema.columnIndex cv.1 = some idx →
        row'[idx]? = some (some cv.2)) ∧
      ∀ idx, (∀ cv ∈ cvs, schema.columnIndex cv.1 ≠ some idx) →
        row'[idx]? = row[idx]? := by
  induction cvs generalizing row with
  | nil => cases h; simp
  | cons cv cvs ih =>
    have hsucc : Succeeds (fillRow schema (cv :: cvs) row) := ⟨row', h⟩
    obtain ⟨-, hnodup, -⟩ := (fillRow_succeeds hlen).mp hsucc
    obtain ⟨idx, hidx, -, -, hrest⟩ := fillRow_cons.mp h
    have hlt : idx < row.length := by rw [hlen]; exact columnIndex_lt hidx
    obtain ⟨hlen', hset, hkeep⟩ := ih (by simpa using hlen) hrest
    have hother : ∀ cv' ∈ cvs, schema.columnIndex cv'.1 ≠ some idx := by
      intro cv' hcv' heq
      have hmem : cv.1 ∈ cvs.map Prod.fst :=
        List.mem_map.mpr ⟨cv', hcv', columnIndex_inj heq hidx⟩
      exact (List.nodup_cons.mp hnodup).1 hmem
    refine ⟨by simpa using hlen', fun cv' hcv' i hi => ?_, fun i hi => ?_⟩
    · rcases List.mem_cons.mp hcv' with rfl | hcv'
      · rw [hidx] at hi
        cases hi
        rw [hkeep idx hother]
        simp [hlt]
      · exact hset cv' hcv' i hi
    · rw [hkeep i fun cv' hcv' => hi cv' (by simp [hcv'])]
      have hne : idx ≠ i := fun heq => hi cv (by simp) (heq ▸ hidx)
      exact List.getElem?_set_ne hne

lemma exists_of_insertFits {schema : TableSchema} {stmt : InsertStatement}
    (hvalues : stmt.columns.length = stmt.values.length) (h : InsertFits schema stmt) {idx : ℕ}
    (hidx : idx < schema.columns.length) :
    ∃ cv ∈ stmt.columns.zip stmt.values, schema.columnIndex cv.1 = some idx := by
  set cvs := stmt.columns.zip stmt.values with hcvs
  have hlen : cvs.length = schema.columns.length := by
    rw [hcvs, List.length_zip, ← hvalues, min_self, h.all]
  set idxs := cvs.map fun cv => schema.columnIndex cv.1 with hidxs
  have hnodup : idxs.Nodup := by
    have hmap : idxs = (cvs.map Prod.fst).map schema.columnIndex := by
      rw [hidxs, List.map_map]; rfl
    rw [hmap]
    refine List.Nodup.map_on ?_ h.nodup
    intro c hc c' hc' heq
    obtain ⟨cv, hcv, rfl⟩ := List.mem_map.mp hc
    obtain ⟨i, -, hi, -, -⟩ := h.takes cv hcv
    exact columnIndex_inj hi (heq ▸ hi)
  have hsub : idxs ⊆ (List.range schema.columns.length).map some := by
    intro i hi
    obtain ⟨cv, hcv, rfl⟩ := List.mem_map.mp hi
    obtain ⟨i, -, hi, -, -⟩ := h.takes cv hcv
    rw [hi]
    exact List.mem_map.mpr ⟨i, List.mem_range.mpr (columnIndex_lt hi), rfl⟩
  have hperm : idxs.Perm ((List.range schema.columns.length).map some) :=
    (List.subperm_of_subset hnodup hsub).perm_of_length_le (by simp [hidxs, hlen])
  have hmem : some idx ∈ idxs :=
    hperm.mem_iff.mpr (List.mem_map.mpr ⟨idx, List.mem_range.mpr hidx, rfl⟩)
  obtain ⟨cv, hcv, heq⟩ := List.mem_map.mp hmem
  exact ⟨cv, hcv, heq⟩

lemma insertRow_succeeds {schema : TableSchema} {stmt : InsertStatement} :
    Succeeds (insertRow schema stmt) ↔ InsertFits schema stmt := by
  unfold insertRow
  rw [succeeds_throwIf, succeeds_bind]
  have hlen : (List.replicate schema.columns.length (none : Option Bytes)).length =
      schema.columns.length := List.length_replicate
  constructor
  · rintro ⟨hall, row, hrow, h⟩
    obtain ⟨htakes, hnodup, -⟩ := (fillRow_succeeds hlen).mp ⟨row, hrow⟩
    refine ⟨by simpa using hall, hnodup, htakes, ?_⟩
    rcases hpk : schema.primaryKeyIndex with _ | idx
    · rw [hpk] at h
      exact absurd h (succeeds_throw _)
    · rfl
  · intro h
    obtain ⟨row, hrow⟩ := (fillRow_succeeds hlen).mpr
      ⟨h.takes, h.nodup, fun cv _ idx _ => by
        by_cases hlt : idx < schema.columns.length <;> simp [hlt]⟩
    refine ⟨by simpa using h.all, row, hrow, ?_⟩
    obtain ⟨idx, hpk⟩ := Option.isSome_iff_exists.mp h.pk
    have hrowlen : row.length = schema.columns.length := ((fillRow_spec hlen hrow).1).trans hlen
    have hlt : idx < (row.map (Option.getD · [])).length := by
      rw [List.length_map, hrowlen]; exact primaryKeyIndex_lt hpk
    rw [hpk]
    refine succeeds_bind.mpr ⟨(row.map (Option.getD · []))[idx], ?_, succeeds_pure _⟩
    simp only [cell, List.getElem?_eq_getElem hlt]

lemma insertRow_pk {schema : TableSchema} {stmt : InsertStatement} {row : Row} {pk : Bytes}
    (h : insertRow schema stmt = .ok (row, pk)) {cv : Bytes × Bytes}
    (hcv : cv ∈ stmt.columns.zip stmt.values)
    (hidx : schema.columnIndex cv.1 = schema.primaryKeyIndex) : pk = cv.2 := by
  unfold insertRow at h
  obtain ⟨_, -, h⟩ := bind_eq_ok.mp h
  obtain ⟨filled, hfill, h⟩ := bind_eq_ok.mp h
  obtain ⟨-, hset, -⟩ := fillRow_spec List.length_replicate hfill
  rcases hpk : schema.primaryKeyIndex with _ | idx
  · rw [hpk] at h
    cases h
  · rw [hpk] at h hidx
    obtain ⟨pk', hcell, h⟩ := bind_eq_ok.mp h
    cases h
    have hval := hset cv hcv idx hidx
    simp only [cell, List.getElem?_map, hval, Option.map_some, Option.getD_some] at hcell
    cases hcell
    rfl

lemma tryExtractRowKey_eq_some {store : Store} {stmt : Statement} {k : Bytes} :
    tryExtractRowKey store stmt = some k ↔ extractRowKey store stmt = .ok (some k) := by
  unfold tryExtractRowKey
  cases extractRowKey store stmt <;> simp

lemma tryExtractRowKey_insert {store : Store} {s : InsertStatement} {k : Bytes} :
    tryExtractRowKey store (.insert s) = some k ↔ ∃ schema idx pk cv,
      loadSchema store s.dbName s.tableName = .ok schema ∧ schema.primaryKeyIndex = some idx ∧
      schema.columns[idx]? = some pk ∧
      (s.columns.zip s.values).find? (fun cv => cv.1 == pk.name) = some cv ∧
      k = rowKey s.dbName s.tableName cv.2 := by
  rw [tryExtractRowKey_eq_some]
  constructor
  · intro h
    obtain ⟨schema, hschema, h⟩ := bind_eq_ok.mp h
    split at h
    · cases h
    · rename_i idx hidx
      obtain ⟨pk, hpk, h⟩ := bind_eq_ok.mp h
      obtain ⟨cv, hcv, rfl⟩ := Option.map_eq_some_iff.mp (Except.ok.inj h)
      exact ⟨schema, idx, pk, cv, hschema, hidx, columnAt_eq_ok.mp hpk, hcv, rfl⟩
  · rintro ⟨schema, idx, pk, cv, hschema, hidx, hpk, hcv, rfl⟩
    refine bind_eq_ok.mpr ⟨schema, hschema, ?_⟩
    rw [hidx]
    refine bind_eq_ok.mpr ⟨pk, columnAt_eq_ok.mpr hpk, ?_⟩
    rw [hcv]
    rfl

/-- As its names differ, it is the value that it gives to the name of the primary key. -/
lemma tryExtractRowKey_of_name {store : Store} {s : InsertStatement} {schema : TableSchema}
    {idx : ℕ} {pk : ColumnDef} {cv : Bytes × Bytes}
    (hschema : loadSchema store s.dbName s.tableName = .ok schema)
    (hidx : schema.primaryKeyIndex = some idx) (hpk : schema.columns[idx]? = some pk)
    (hnodup : ((s.columns.zip s.values).map Prod.fst).Nodup)
    (hcv : cv ∈ s.columns.zip s.values) (hname : cv.1 = pk.name) :
    tryExtractRowKey store (.insert s) = some (rowKey s.dbName s.tableName cv.2) := by
  obtain ⟨cv', hcv'⟩ := Option.isSome_iff_exists.mp
    (List.find?_isSome.mpr ⟨cv, hcv, beq_iff_eq.mpr hname⟩ :
      ((s.columns.zip s.values).find? fun cv => cv.1 == pk.name).isSome)
  have hsame : cv' = cv := by
    refine List.inj_on_of_nodup_map hnodup (List.mem_of_find?_eq_some hcv') hcv ?_
    rw [hname]
    simpa using List.find?_some hcv'
  exact tryExtractRowKey_insert.mpr
    ⟨schema, idx, pk, cv', hschema, hidx, hpk, hcv', by rw [hsame]⟩

lemma tryExtractRowKey_row {store : Store} {s : InsertStatement} {schema : TableSchema} {row : Row}
    {pk : Bytes} (hvalues : s.columns.length = s.values.length)
    (hschema : loadSchema store s.dbName s.tableName = .ok schema)
    (hrow : insertRow schema s = .ok (row, pk)) :
    tryExtractRowKey store (.insert s) = some (rowKey s.dbName s.tableName pk) := by
  have hfits := insertRow_succeeds.mp ⟨_, hrow⟩
  obtain ⟨idx, hidx⟩ := Option.isSome_iff_exists.mp hfits.pk
  have hlt := primaryKeyIndex_lt hidx
  obtain ⟨cv, hcv, hfirst⟩ := exists_of_insertFits hvalues hfits hlt
  obtain ⟨_, heq, -⟩ := List.findIdx?_eq_some_iff_getElem.mp hfirst
  rw [insertRow_pk hrow hcv (hfirst.trans hidx.symm)]
  exact tryExtractRowKey_of_name hschema hidx (List.getElem?_eq_getElem hlt) hfits.nodup hcv
    (beq_iff_eq.mp heq).symm

lemma succeeds_ofWrite {r : Except Exception (WalModel.Mutation × Bytes)} :
    Succeeds (Effect.ofWrite r).2 ↔ Succeeds r := by
  rcases r with e | ⟨mu, out⟩
  · exact iff_of_false (succeeds_error e) (succeeds_error e)
  · exact iff_of_true (succeeds_ok _) (succeeds_ok _)

lemma executeInsert_succeeds (store : Store) {stmt : InsertStatement}
    (hvalues : stmt.columns.length = stmt.values.length) :
    Succeeds (executeInsert store stmt).2 ↔ Runs store (.insert stmt) := by
  unfold executeInsert
  rw [succeeds_ofWrite, succeeds_bind]
  simp only [Runs]
  constructor
  · rintro ⟨schema, hschema, h⟩
    obtain ⟨⟨row, pk⟩, hrow, h⟩ := succeeds_bind.mp h
    obtain ⟨hfree, -⟩ := succeeds_throwIf.mp h
    refine ⟨schema, hschema, insertRow_succeeds.mp ⟨_, hrow⟩, fun cv hcv hidx => ?_⟩
    rw [← insertRow_pk hrow hcv hidx]
    simpa using hfree
  · rintro ⟨schema, hschema, hfits, hfree⟩
    obtain ⟨⟨row, pk⟩, hrow⟩ := insertRow_succeeds.mpr hfits
    obtain ⟨idx, hpk⟩ := Option.isSome_iff_exists.mp hfits.pk
    obtain ⟨cv, hcv, hidx⟩ := exists_of_insertFits hvalues hfits (primaryKeyIndex_lt hpk)
    have hnone := hfree cv hcv (hidx.trans hpk.symm)
    rw [← insertRow_pk hrow hcv (hidx.trans hpk.symm)] at hnone
    exact ⟨schema, hschema, succeeds_bind.mpr ⟨(row, pk), hrow,
      succeeds_throwIf.mpr ⟨by simp [hnone], succeeds_pure _⟩⟩⟩

lemma padRow_length {schema : TableSchema} {row row' : Row} (h : padRow schema row = .ok row') :
    schema.columns.length ≤ row'.length := by
  unfold padRow at h
  obtain ⟨missing, hmissing, h⟩ := bind_eq_ok.mp h
  cases h
  have := length_mapM hmissing
  simp only [List.length_drop, List.length_append] at this ⊢
  omega

lemma matchRow_length {schema : TableSchema} {whereClause : List Condition} {blob : Bytes}
    {row : Row} (h : matchRow schema whereClause blob = .ok (some row)) :
    schema.columns.length ≤ row.length := by
  unfold matchRow at h
  obtain ⟨row₀, -, h⟩ := bind_eq_ok.mp h
  obtain ⟨row₁, hpad, h⟩ := bind_eq_ok.mp h
  obtain ⟨found, -, h⟩ := bind_eq_ok.mp h
  rcases found with _ | _
  · cases h
  · cases h
    exact padRow_length hpad

lemma cell_succeeds {row : Row} {idx : ℕ} (h : idx < row.length) : Succeeds (cell row idx) := by
  simp [cell, List.getElem?_eq_getElem h]

lemma writeRows_succeeds {schema : TableSchema} (whereClause : List Condition)
    {write : Bytes → Row → Except Exception WalModel.Mutation}
    (hwrite : ∀ key row, schema.columns.length ≤ row.length → Succeeds (write key row))
    (rows : List (Bytes × Bytes)) :
    Succeeds (writeRows schema whereClause write rows).2 ↔
      ∀ kv ∈ rows, Succeeds (matchRow schema whereClause kv.2) := by
  induction rows with
  | nil => simp [writeRows]
  | cons kv rows ih =>
    obtain ⟨key, blob⟩ := kv
    rw [writeRows, List.forall_mem_cons]
    rcases hmatch : matchRow schema whereClause blob with e | _ | row
    · simp
    · simp [ih]
    · obtain ⟨mu, hmu⟩ := hwrite key row (matchRow_length hmatch)
      simp [hmu, ih]

lemma assign_succeeds {n : ℕ} {as : List (ℕ × Bytes)} (has : ∀ a ∈ as, a.1 < n) {row : Row}
    (hrow : n ≤ row.length) : Succeeds (assign as row) := by
  induction as generalizing row with
  | nil => simp [assign]
  | cons a as ih =>
    have ha := has a (by simp)
    rw [assign, if_pos (by omega)]
    exact ih (fun a ha => has a (by simp [ha])) (by simpa using hrow)

lemma checkAssignment_succeeds {schema : TableSchema} {a : Bytes × Bytes} :
    Succeeds (checkAssignment schema a) ↔
      Takes schema a.1 a.2 ∧ schema.columnIndex a.1 ≠ schema.primaryKeyIndex := by
  unfold checkAssignment
  rw [succeeds_bind]
  constructor
  · rintro ⟨idx, hidx, h⟩
    rw [indexOf_eq_ok] at hidx
    obtain ⟨hpk, h⟩ := succeeds_throwIf.mp h
    obtain ⟨col, hcol, h⟩ := succeeds_bind.mp h
    obtain ⟨_, hvalid, -⟩ := succeeds_bind.mp h
    exact ⟨⟨idx, col, hidx, columnAt_eq_ok.mp hcol,
      (validateLiteral_succeeds _ _ _).mp ⟨_, hvalid⟩⟩,
      by rwa [hidx]⟩
  · rintro ⟨⟨idx, col, hidx, hcol, hint⟩, hpk⟩
    obtain ⟨u, hu⟩ := (validateLiteral_succeeds _ a.1 _).mpr hint
    rw [hidx] at hpk
    exact ⟨idx, indexOf_eq_ok.mpr hidx, succeeds_throwIf.mpr ⟨hpk,
      succeeds_bind.mpr ⟨col, columnAt_eq_ok.mpr hcol, succeeds_bind.mpr
        ⟨u, hu, succeeds_pure _⟩⟩⟩⟩

lemma checkAssignment_lt {schema : TableSchema} {a : Bytes × Bytes} {b : ℕ × Bytes}
    (h : checkAssignment schema a = .ok b) : b.1 < schema.columns.length := by
  unfold checkAssignment at h
  obtain ⟨idx, hidx, h⟩ := bind_eq_ok.mp h
  obtain ⟨_, -, h⟩ := bind_eq_ok.mp h
  obtain ⟨_, -, h⟩ := bind_eq_ok.mp h
  obtain ⟨_, -, h⟩ := bind_eq_ok.mp h
  cases h
  exact columnIndex_lt (indexOf_eq_ok.mp hidx)

lemma project_succeeds {schema : TableSchema} {columns : List Bytes} :
    Succeeds (project schema columns) ↔ ∀ c ∈ columns, schema.columnIndex c ≠ none := by
  have hindex : ∀ c, Succeeds (indexOf schema c) ↔ schema.columnIndex c ≠ none := by
    intro c
    unfold indexOf
    split <;> simp_all
  unfold project
  split
  case isTrue h => simp [h]
  case isFalse => simp only [succeeds_mapM, hindex]

lemma project_lt {schema : TableSchema} {columns : List Bytes} {projection : List ℕ}
    (h : project schema columns = .ok projection) :
      ∀ i ∈ projection, i < schema.columns.length := by
  unfold project at h
  split at h
  · cases h
    exact fun i hi => List.mem_range.mp hi
  · intro i hi
    obtain ⟨c, -, hc⟩ := mem_mapM h i hi
    exact columnIndex_lt (indexOf_eq_ok.mp hc)

lemma selectRow_succeeds {schema : TableSchema} {whereClause : List Condition}
    {projection : List ℕ} (hproj : ∀ i ∈ projection, i < schema.columns.length)
    (blob : Bytes) :
    Succeeds (selectRow schema whereClause projection blob) ↔
      Succeeds (matchRow schema whereClause blob) := by
  unfold selectRow
  rw [succeeds_bind]
  constructor
  · rintro ⟨found, hfound, -⟩
    exact ⟨found, hfound⟩
  · rintro ⟨_ | row, hfound⟩
    · exact ⟨none, hfound, succeeds_pure _⟩
    · refine ⟨some row, hfound, ?_⟩
      obtain ⟨cells, hcells⟩ := succeeds_mapM.mpr fun i hi =>
        cell_succeeds ((hproj i hi).trans_le (matchRow_length hfound))
      exact succeeds_bind.mpr ⟨cells, hcells, succeeds_pure _⟩

/-! ### Every statement -/

lemma checkKeyword_state {keyword : Bytes} {ts ts' : List SqlLexer.Token} {b : Bool}
    (h : checkKeyword keyword ts = .ok (b, ts')) : ts' = ts := by
  unfold checkKeyword at h
  obtain ⟨t, s, hpeek, h⟩ := state_bind_eq_ok.mp h
  obtain ⟨-, rfl⟩ := state_pure_eq_ok.mp h
  cases ts with
  | nil => cases hpeek
  | cons t ts => cases hpeek; rfl

lemma firstOf_eq_ok {ps : List (Bytes × Parser Statement)} {ts t : List SqlLexer.Token}
    {stmt : Statement} (h : firstOf ps ts = .ok (stmt, t)) :
    ∃ p ∈ ps, p.2 ts = .ok (stmt, t) := by
  induction ps with
  | nil =>
    unfold firstOf at h
    obtain ⟨_, _, -, h⟩ := state_bind_eq_ok.mp h
    cases h
  | cons p ps ih =>
    unfold firstOf at h
    obtain ⟨found, ts', hfound, h⟩ := state_bind_eq_ok.mp h
    obtain rfl := checkKeyword_state hfound
    cases found with
    | true => exact ⟨p, by simp, h⟩
    | false =>
      obtain ⟨p', hp', h'⟩ := ih h
      exact ⟨p', by simp [hp'], h'⟩

lemma parse_insert {sql : Bytes} {s : InsertStatement} (h : parse sql = .ok (.insert s)) :
    s.columns.length = s.values.length := by
  unfold parse at h
  obtain ⟨ts, -, h⟩ := bind_eq_ok.mp h
  rcases hstmt : parseStatement ts with e | ⟨stmt, t⟩
  · rw [hstmt] at h
    cases h
  rw [hstmt] at h
  cases h
  obtain ⟨p, hp, h⟩ := firstOf_eq_ok hstmt
  simp only [productions, List.mem_cons, List.not_mem_nil, or_false] at hp
  rcases hp with rfl | rfl | rfl | rfl | rfl | rfl | rfl
  · obtain ⟨b, _, -, h⟩ := state_bind_eq_ok.mp h
    cases b <;> obtain ⟨_, -, h⟩ := state_map_eq_ok.mp h <;> cases h
  · obtain ⟨_, -, h⟩ := state_map_eq_ok.mp h
    cases h
  · obtain ⟨s', h, hs'⟩ := state_map_eq_ok.mp h
    cases hs'
    unfold parseInsert at h
    obtain ⟨_, _, -, h⟩ := state_bind_eq_ok.mp h
    obtain ⟨_, _, -, h⟩ := state_bind_eq_ok.mp h
    obtain ⟨_, _, -, h⟩ := state_bind_eq_ok.mp h
    obtain ⟨_, _, -, h⟩ := state_bind_eq_ok.mp h
    obtain ⟨columns, _, -, h⟩ := state_bind_eq_ok.mp h
    obtain ⟨_, _, -, h⟩ := state_bind_eq_ok.mp h
    obtain ⟨_, _, -, h⟩ := state_bind_eq_ok.mp h
    obtain ⟨_, _, -, h⟩ := state_bind_eq_ok.mp h
    obtain ⟨values, _, -, h⟩ := state_bind_eq_ok.mp h
    obtain ⟨_, _, -, h⟩ := state_bind_eq_ok.mp h
    obtain ⟨_, _, hlen, h⟩ := state_bind_eq_ok.mp h
    obtain ⟨_, _, -, h⟩ := state_bind_eq_ok.mp h
    obtain ⟨hs, -⟩ := state_pure_eq_ok.mp h
    cases hs
    by_contra hne
    have hbeq : (columns.length == values.length) = false := by simpa using hne
    rw [failUnless, hbeq] at hlen
    cases hlen
  · obtain ⟨_, -, h⟩ := state_map_eq_ok.mp h
    cases h
  · obtain ⟨_, -, h⟩ := state_map_eq_ok.mp h
    cases h
  · obtain ⟨_, -, h⟩ := state_map_eq_ok.mp h
    cases h
  · obtain ⟨b, _, -, h⟩ := state_bind_eq_ok.mp h
    cases b <;> obtain ⟨_, -, h⟩ := state_map_eq_ok.mp h <;> cases h

lemma succeeds_ofRows {r : Except Exception (List WalModel.Mutation × Except Exception ℕ)}
    {what : Bytes} : Succeeds (Effect.ofRows r what).2 ↔ ∃ w, r = .ok w ∧ Succeeds w.2 := by
  rcases r with e | ⟨writes, count⟩
  · simp [Effect.ofRows, throws]
  · simp [Effect.ofRows]

lemma executeAlterTable_succeeds (store : Store) (stmt : AlterTableAddColumnStatement) :
    Succeeds (executeAlterTableAddColumn store stmt).2 ↔
      Runs store (.alterTableAddColumn stmt) := by
  unfold executeAlterTableAddColumn
  rw [succeeds_ofWrite, succeeds_bind]
  refine exists_congr fun schema => and_congr_right fun _ => ?_
  rw [succeeds_throwIf, not_not]
  refine and_congr_right fun _ => ?_
  rcases stmt.column.defaultValue with _ | v
  · simp
  · have hvalid := validateLiteral_succeeds stmt.column.type stmt.column.name v
    rw [succeeds_bind]
    constructor
    · rintro ⟨u, hu, -⟩
      exact ⟨v, rfl, hvalid.mp ⟨u, hu⟩⟩
    · rintro ⟨v', hv', hint⟩
      cases hv'
      obtain ⟨u, hu⟩ := hvalid.mpr hint
      exact ⟨u, hu, succeeds_pure _⟩

lemma executeSelect_succeeds (store : Store) (stmt : SelectStatement) :
    Succeeds (executeSelect store stmt).2 ↔ Runs store (.select stmt) := by
  unfold executeSelect
  show Succeeds (_ >>= _) ↔ _
  rw [succeeds_bind]
  refine exists_congr fun schema => and_congr_right fun _ => ?_
  rw [succeeds_bind, ← project_succeeds]
  constructor
  · rintro ⟨projection, hproj, h⟩
    obtain ⟨lines, hlines, -⟩ := succeeds_bind.mp h
    refine ⟨⟨projection, hproj⟩, fun kv hkv => ?_⟩
    exact (selectRow_succeeds (project_lt hproj) _).mp (succeeds_mapM.mp ⟨lines, hlines⟩ kv hkv)
  · rintro ⟨⟨projection, hproj⟩, hrows⟩
    obtain ⟨lines, hlines⟩ := succeeds_mapM.mpr fun kv hkv =>
      (selectRow_succeeds (project_lt hproj) _).mpr (hrows kv hkv)
    exact ⟨projection, hproj, succeeds_bind.mpr ⟨lines, hlines, succeeds_pure _⟩⟩

lemma executeUpdate_succeeds (store : Store) (stmt : UpdateStatement) :
    Succeeds (executeUpdate store stmt).2 ↔ Runs store (.update stmt) := by
  have hchecks : ∀ schema, Succeeds (stmt.assignments.mapM (checkAssignment schema)) ↔
      ∀ a ∈ stmt.assignments, Takes schema a.1 a.2 ∧
        schema.columnIndex a.1 ≠ schema.primaryKeyIndex := by
    intro schema
    simp only [succeeds_mapM, checkAssignment_succeeds]
  have hrows : ∀ (schema : TableSchema) (as : List (ℕ × Bytes)) rows,
      stmt.assignments.mapM (checkAssignment schema) = .ok as →
      (Succeeds (writeRows schema stmt.whereClause
        (fun key row => (assign as row).map fun row => .put key (encodeRow row)) rows).2 ↔
          ∀ kv ∈ rows, Succeeds (matchRow schema stmt.whereClause kv.2)) := by
    intro schema as rows has
    refine writeRows_succeeds _ (fun key row hrow => succeeds_map.mpr ?_) rows
    refine assign_succeeds (fun a ha => ?_) hrow
    obtain ⟨a', -, ha'⟩ := mem_mapM has a ha
    exact checkAssignment_lt ha'
  unfold executeUpdate
  rw [succeeds_ofRows]
  constructor
  · rintro ⟨w, hw, hsucc⟩
    obtain ⟨schema, hschema, hw⟩ := bind_eq_ok.mp hw
    obtain ⟨as, has, hw⟩ := bind_eq_ok.mp hw
    cases hw
    exact ⟨schema, hschema, (hchecks schema).mp ⟨as, has⟩, (hrows schema as _ has).mp hsucc⟩
  · rintro ⟨schema, hschema, has, hfilters⟩
    obtain ⟨as, has⟩ := (hchecks schema).mpr has
    exact ⟨_, bind_eq_ok.mpr ⟨schema, hschema, bind_eq_ok.mpr ⟨as, has, rfl⟩⟩,
      (hrows schema as _ has).mpr hfilters⟩

lemma executeDelete_succeeds (store : Store) (stmt : DeleteStatement) :
    Succeeds (executeDelete store stmt).2 ↔ Runs store (.delete stmt) := by
  have hrows : ∀ (schema : TableSchema) rows, Succeeds (writeRows schema stmt.whereClause
      (fun key _ => .ok (.delete key)) rows).2 ↔
        ∀ kv ∈ rows, Succeeds (matchRow schema stmt.whereClause kv.2) :=
    fun schema rows => writeRows_succeeds _ (fun _ _ _ => succeeds_ok _) rows
  unfold executeDelete
  rw [succeeds_ofRows]
  constructor
  · rintro ⟨w, hw, hsucc⟩
    obtain ⟨schema, hschema, hw⟩ := bind_eq_ok.mp hw
    cases hw
    exact ⟨schema, hschema, (hrows schema _).mp hsucc⟩
  · rintro ⟨schema, hschema, hfilters⟩
    exact ⟨_, bind_eq_ok.mpr ⟨schema, hschema, rfl⟩, (hrows schema _).mpr hfilters⟩

/-- **When a statement runs**. That an `INSERT` has as many values as columns is what the
parser sees to. -/
theorem executeStatement_succeeds (store : Store) {stmt : Statement}
    (hvalues : ∀ s, stmt = .insert s → s.columns.length = s.values.length) :
    Succeeds (executeStatement store stmt).2 ↔ Runs store stmt := by
  cases stmt with
  | createDatabase s =>
    simp only [executeStatement, executeCreateDatabase, succeeds_ofWrite, succeeds_throwIf, Runs]
    simp
  | createTable s =>
    simp only [executeStatement, executeCreateTable, requireDatabaseExists, succeeds_ofWrite,
      succeeds_throwIf, Runs]
    simp
  | alterTableAddColumn s => exact executeAlterTable_succeeds store s
  | insert s => exact executeInsert_succeeds store (hvalues s rfl)
  | select s => exact executeSelect_succeeds store s
  | update s => exact executeUpdate_succeeds store s
  | delete s => exact executeDelete_succeeds store s
  | showTables s =>
    simp only [executeStatement, executeShowTables, requireDatabaseExists, Effect.ofRead,
      succeeds_throwIf, Runs]
    simp
  | showDatabases => exact iff_of_true (succeeds_ok _) trivial

/-- **When `Execute` returns**: the text is a statement, and the statement runs. -/
theorem execute_succeeds (store : Store) (sql : Bytes) :
    Succeeds (execute store sql).2 ↔ ∃ stmt, parse sql = .ok stmt ∧ Runs store stmt := by
  unfold execute
  rcases hparse : parse sql with e | stmt
  · simp [throws]
  · have hruns : Succeeds (executeStatement store stmt).2 ↔ Runs store stmt :=
      executeStatement_succeeds store fun s hs => parse_insert (hs ▸ hparse)
    simp [hruns]

end DistDB.SqlRuns
