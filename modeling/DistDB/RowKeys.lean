import DistDB.SqlSchemas
import DistDB.SqlShards

/-!
The key that a statement names. It is made of the primary key of the table's schema, and a schema
only ever gets more columns behind the ones that it has. So a statement that names a row names the
same one whatever else has run in between (`key_kept`).
-/

namespace DistDB.RowKeys

open SqlParser SqlExecutor SqlTexts SqlRuns SqlAtomic SqlStore SqlFrame SqlTables SqlCells
open SqlSchemas SqlRouting SqlShards Checks Codec Bytes

variable {store : Store} {schema : TableSchema} {c : ColumnDef} {d t sql k : Bytes}
  {stmt : Statement}

/-- A column that is no primary key, behind the others, makes no difference to the key. -/
lemma primaryKeyIndex_extended (hkey : c.primaryKey = false) :
    (⟨schema.columns ++ [c]⟩ : TableSchema).primaryKeyIndex = schema.primaryKeyIndex := by
  have hnone : [c].findIdx? (fun c => c.primaryKey) = none := by simp [hkey]
  rw [TableSchema.primaryKeyIndex, List.findIdx?_append, hnone]
  simp [TableSchema.primaryKeyIndex]

lemma schema_after (hsql : sql.length < 2 ^ 32) (hd : IsName d) (ht : IsName t)
    (hthere : store.find (schemaKey d t) ≠ none) :
    (after store sql).find (schemaKey d t) = store.find (schemaKey d t) ∨
    ∃ schema c, loadSchema store d t = .ok schema ∧ c.primaryKey = false ∧ SmallColumn c ∧
      (after store sql).find (schemaKey d t) =
        some (TableSchema.serialize ⟨schema.columns ++ [c]⟩) := by
  cases hparse : parse sql with
  | error e => exact .inl (by rw [after_of_error hparse])
  | ok stmt =>
    have hmoves : Moves d t (tableAt store d t) stmt (tableAt (after store sql) d t) :=
      moves hparse hd ht
    have hsized := sized_of_parse hparse hsql
    have hworded := parse_worded hparse
    show (tableAt (after store sql) d t).schema = (tableAt store d t).schema ∨
      ∃ schema c, _ ∧ _ ∧ _ ∧ (tableAt (after store sql) d t).schema = _
    revert hmoves
    generalize tableAt (after store sql) d t = table'
    intro hmoves
    cases hmoves with
    | same => exact .inl rfl
    | insert => exact .inl rfl
    | update => exact .inl rfl
    | delete => exact .inl rfl
    | create hnew => exact absurd hnew hthere
    | @addColumn c schema v hload =>
      exact .inr ⟨schema, c, loadSchema_eq_ok.mpr hload, hworded.2, hsized, rfl⟩

/-! ### Keys -/

lemma tryExtractRowKey_extended {store' : Store} (htarget : targetOf stmt = some (d, t))
    (hschema : loadSchema store d t = .ok schema) (hkey : c.primaryKey = false)
    (hschema' : loadSchema store' d t = .ok ⟨schema.columns ++ [c]⟩)
    (h : tryExtractRowKey store stmt = some k) : tryExtractRowKey store' stmt = some k := by
  have hcolumn : ∀ {idx pk}, schema.columns[idx]? = some pk →
      (schema.columns ++ [c])[idx]? = some pk := fun {idx pk} hpk => by
    rw [List.getElem?_append_left (List.getElem?_eq_some_iff.mp hpk).1, hpk]
  have hfind : ∀ {whereClause literal}, findPkEquality schema whereClause = .ok (some literal) →
      findPkEquality ⟨schema.columns ++ [c]⟩ whereClause = .ok (some literal) := by
    intro whereClause literal hfind
    unfold findPkEquality at hfind ⊢
    rw [primaryKeyIndex_extended hkey]
    cases hidx : schema.primaryKeyIndex with
    | none =>
      rw [hidx] at hfind
      cases hfind
    | some idx =>
      rw [hidx] at hfind
      obtain ⟨pk, hpk, hfind⟩ := bind_eq_ok.mp hfind
      exact bind_eq_ok.mpr ⟨pk, columnAt_eq_ok.mpr (hcolumn (columnAt_eq_ok.mp hpk)), hfind⟩
  have hwhere : ∀ {whereClause}, tableOf stmt = some (d, t, whereClause) →
      tryExtractRowKey store' stmt = some k := by
    intro whereClause hstmt
    obtain ⟨schema₀, literal, hschema₀, hpk, rfl⟩ := (tryExtractRowKey_iff hstmt).mp h
    cases hschema.symm.trans hschema₀
    exact (tryExtractRowKey_iff hstmt).mpr ⟨_, literal, hschema', hfind hpk, rfl⟩
  cases stmt with
  | select s | update s | delete s =>
    cases htarget
    exact hwhere rfl
  | insert s =>
    cases htarget
    obtain ⟨schema₀, idx, pk, cv, hschema₀, hidx, hpk, hcv, rfl⟩ :=
      tryExtractRowKey_insert.mp h
    cases hschema.symm.trans hschema₀
    exact tryExtractRowKey_insert.mpr ⟨_, idx, pk, cv, hschema',
      (primaryKeyIndex_extended hkey).trans hidx, hcolumn hpk, hcv, rfl⟩
  | createDatabase s | createTable s | alterTableAddColumn s | showTables s | showDatabases =>
    cases h

lemma loads_of_key (htarget : targetOf stmt = some (d, t))
    (h : tryExtractRowKey store stmt = some k) : ∃ schema, loadSchema store d t = .ok schema := by
  cases stmt with
  | select s | update s | delete s =>
    cases htarget
    obtain ⟨schema, -, hschema, -⟩ := (tryExtractRowKey_iff rfl).mp h
    exact ⟨schema, hschema⟩
  | insert s =>
    cases htarget
    obtain ⟨schema, -, -, -, hschema, -⟩ := tryExtractRowKey_insert.mp h
    exact ⟨schema, hschema⟩
  | createDatabase s | createTable s | alterTableAddColumn s | showTables s | showDatabases =>
    cases h

/-- The statement names the row, unless the schema of its table is there and cannot be read. -/
def Names (store : Store) (stmt : Statement) (d t k : Bytes) : Prop :=
  tryExtractRowKey store stmt = some k ∨
    store.find (schemaKey d t) ≠ none ∧ ∀ schema, loadSchema store d t ≠ .ok schema

lemma tryExtractRowKey_congr {store' : Store} (htarget : targetOf stmt = some (d, t))
    (h : loadSchema store' d t = loadSchema store d t) :
    tryExtractRowKey store' stmt = tryExtractRowKey store stmt := by
  cases stmt with
  | createDatabase s | showTables s | showDatabases => cases htarget
  | createTable s | alterTableAddColumn s => rfl
  | insert s | select s | update s | delete s =>
    cases htarget
    simp only [tryExtractRowKey, extractRowKey, h]

/-- **The key of a statement stays**, whatever else runs. -/
theorem Names.after (hparse : parse sql = .ok stmt) (htarget : targetOf stmt = some (d, t))
    (h : Names store stmt d t k) {other : Bytes} (hother : other.length < 2 ^ 32) :
    Names (after store other) stmt d t k := by
  obtain ⟨hd, ht⟩ := target_names hparse htarget
  have hthere : store.find (schemaKey d t) ≠ none := by
    rcases h with hkey | ⟨hthere, -⟩
    · obtain ⟨schema, hschema⟩ := loads_of_key htarget hkey
      obtain ⟨blob, hblob, -⟩ : (tableAt store d t).Loads schema := loadSchema_eq_ok.mp hschema
      exact Option.ne_none_iff_exists'.mpr ⟨blob, hblob⟩
    · exact hthere
  rcases schema_after hother hd ht hthere with hsame | ⟨schema, c, hschema, hkey, hc, hfind⟩
  · have hload := loadSchema_congr hsame
    refine h.imp (fun hkey => ?_) fun ⟨hthere, hno⟩ => ⟨hsame ▸ hthere, hload ▸ hno⟩
    rwa [tryExtractRowKey_congr htarget hload]
  · have hnamed : tryExtractRowKey store stmt = some k :=
      h.resolve_right fun hno => hno.2 schema hschema
    cases hschema' : loadSchema (SqlTables.after store other) d t with
    | error e =>
      refine .inr ⟨hfind ▸ Option.some_ne_none _, fun schema' hschema'' => ?_⟩
      cases hschema'.symm.trans hschema''
    | ok schema' =>
      obtain ⟨blob, hblob, hread⟩ := loadSchema_eq_ok.mp hschema'
      cases hblob.symm.trans hfind
      obtain rfl := Loads.extend (loadSchema_eq_ok.mp hschema) hc ⟨_, rfl, hread⟩
      exact .inl (tryExtractRowKey_extended htarget hschema hkey hschema' hnamed)

/-- **A row stays where it is routed to**: from when on a statement names a row, it names no other,
whatever texts run. -/
theorem key_kept {store' : Store} (hparse : parse sql = .ok stmt)
    (htarget : targetOf stmt = some (d, t)) (hkey : tryExtractRowKey store stmt = some k)
    (h : Reach (StepOf SqlTables.after) (fun _ other => other.length < 2 ^ 32) store store') :
    ∀ k', tryExtractRowKey store' stmt = some k' → k' = k := by
  have hnames : Names store' stmt d t k := by
    refine h.invariant (I := fun store => Names store stmt d t k) (.inl hkey) ?_
    rintro store other _ hnames hother rfl
    exact hnames.after hparse htarget hother
  intro k' hk'
  rcases hnames with hkey' | ⟨-, hno⟩
  · exact Option.some.inj (hk'.symm.trans hkey')
  · obtain ⟨schema, hschema⟩ := loads_of_key htarget hk'
    exact absurd hschema (hno schema)

/-- The table grows by a column, and the row is still named as before. -/
theorem key_kept_grownTable : ∃ k', tryExtractRowKey
    (runAll (runAll .empty (grownTable.take 2)) (grownTable.drop 2))
    (.insert ⟨text "d", text "t", [text "n", text "k"], [text "5", text "1"]⟩) = some k' ∧
    k' = rowKey (text "d") (text "t") (text "1") := by
  have hparse : parse (text "INSERT INTO d.t (n, k) VALUES (5, 1)") =
      .ok (.insert ⟨text "d", text "t", [text "n", text "k"], [text "5", text "1"]⟩) := by
    decide +kernel
  have hkey : tryExtractRowKey (runAll .empty (grownTable.take 2))
      (.insert ⟨text "d", text "t", [text "n", text "k"], [text "5", text "1"]⟩) =
      some (rowKey (text "d") (text "t") (text "1")) := by
    decide +kernel
  have hlater : (tryExtractRowKey
      (runAll (runAll .empty (grownTable.take 2)) (grownTable.drop 2))
      (.insert ⟨text "d", text "t", [text "n", text "k"], [text "5", text "1"]⟩)).isSome =
        true := by
    decide +kernel
  have hshort : ∀ other ∈ grownTable.drop 2, other.length < 2 ^ 32 := by decide +kernel
  obtain ⟨k', hk'⟩ := Option.isSome_iff_exists.mp hlater
  exact ⟨k', hk', key_kept hparse rfl hkey
    (reach_runAll fun i other hi => hshort other (List.mem_of_getElem? hi)) k' hk'⟩

end DistDB.RowKeys
