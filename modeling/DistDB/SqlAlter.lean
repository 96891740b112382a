import DistDB.SqlFrame
import DistDB.SqlReapply

/-!
`ALTER TABLE ADD COLUMN` does not rewrite the rows of the table: a row that is too short is padded
when it is read (`PadRow`). The executor is compared with one that rewrites them at once
(`executeEager`), and every statement of every sequence answers alike in both
(`lazy_eq_eager`).

The stores of the two are the same but for the rows, and a row of the eager one is the row of the
other, padded by the schema as it is (`Sim`). Every statement keeps that, also an `UPDATE`, which
writes padded rows, and an `ALTER TABLE`, which makes every row too short.
-/

namespace DistDB.SqlAlter

open SqlParser SqlTexts SqlExecutor SqlRuns SqlAtomic SqlStore SqlFrame SqlReapply WalModel
open EngineInv EngineMap Checks Bytes OrdMap

/-- Every row of the table with one more value. -/
def appended (v : Bytes) (rows : List (Bytes × Bytes)) : Except Exception (List Mutation) :=
  rows.mapM fun kv => do
    let row ← decodeRow kv.2
    return .put kv.1 (encodeRow (row ++ [v]))

/-- `ALTER TABLE ADD COLUMN` that rewrites the rows. -/
def executeAlterEagerly (store : Store) (stmt : AlterTableAddColumnStatement) : Effect :=
  match executeAlterTableAddColumn store stmt, stmt.column.defaultValue with
  | (writes, .ok out), some v =>
    match appended v (scan store (rowPrefix stmt.dbName stmt.tableName)) with
    | .error e => throws e
    | .ok rewrites => (writes ++ rewrites, .ok out)
  | effect, _ => effect

def executeEager (store : Store) (sql : Bytes) : Effect :=
  match parse sql with
  | .error e => throws e
  | .ok (.alterTableAddColumn s) => executeAlterEagerly store s
  | .ok stmt => executeStatement store stmt

/-- What the statements of a sequence return or throw, one after the other. -/
def answers (exec : Store → Bytes → Effect) (store : Store) : List Bytes →
    List (Except Exception Bytes)
  | [] => []
  | sql :: sqls => (exec store sql).2 :: answers exec (applyAll store (exec store sql).1) sqls

/-- The stored row decodes, and padded by the schema it is a whole row. -/
def Pads (schema : TableSchema) (blob : Bytes) (full : Row) : Prop :=
  ∃ row, decodeRow blob = .ok row ∧ padRow schema row = .ok full ∧
    row.length ≤ schema.columns.length ∧ full.length = schema.columns.length

/-- The row with its later columns. -/
def eagerBlob (schema : TableSchema) (blob : Bytes) : Bytes :=
  match decodeRow blob >>= padRow schema with
  | .ok full => encodeRow full
  | .error _ => blob

section

variable {schema : TableSchema} {blob : Bytes} {full : Row}

lemma Pads.eager (h : Pads schema blob full) : eagerBlob schema blob = encodeRow full := by
  obtain ⟨row, hrow, hpad, -, -⟩ := h
  rw [eagerBlob, hrow]
  show (match padRow schema row with | .ok full => encodeRow full | .error _ => blob) = _
  rw [hpad]

lemma Pads.small (h : Pads schema blob full)
    (hschema : schema.columns.length < 2 ^ 32 ∧ ∀ c ∈ schema.columns, SmallColumn c) :
    full.length < 2 ^ 32 ∧ ∀ v ∈ full, v.length < 2 ^ 32 := by
  obtain ⟨row, hrow, hpad, -, hlen⟩ := h
  refine ⟨hlen ▸ hschema.1, fun v hv => ?_⟩
  obtain ⟨missing, hmissing, hpad⟩ := bind_eq_ok.mp hpad
  cases hpad
  rcases List.mem_append.mp hv with hv | hv
  · exact (decodeRow_small hrow).2 v hv
  · obtain ⟨c, hc, hdefault⟩ := mem_mapM hmissing v hv
    split at hdefault
    · rename_i v' hv'
      cases hdefault
      exact (hschema.2 c (List.mem_of_mem_drop hc)).default v hv'
    · cases hdefault

lemma Pads.decode_eager (h : Pads schema blob full)
    (hschema : schema.columns.length < 2 ^ 32 ∧ ∀ c ∈ schema.columns, SmallColumn c) :
    decodeRow (eagerBlob schema blob) = .ok full := by
  obtain ⟨hlen, hcells⟩ := h.small hschema
  rw [h.eager, decodeRow_encodeRow hlen hcells]

lemma Pads.matchRow_eager (h : Pads schema blob full)
    (hschema : schema.columns.length < 2 ^ 32 ∧ ∀ c ∈ schema.columns, SmallColumn c)
    (whereClause : List Condition) :
    matchRow schema whereClause (eagerBlob schema blob) = matchRow schema whereClause blob := by
  have hdecode := h.decode_eager hschema
  obtain ⟨row, hrow, hpad, -, hlen⟩ := h
  rw [matchRow, matchRow, hdecode, hrow]
  show (padRow schema full >>= _) = (padRow schema row >>= _)
  rw [hpad, padRow_full hlen.ge]

lemma Pads.eq_of_matchRow (h : Pads schema blob full) {whereClause : List Condition} {row : Row}
    (hmatch : matchRow schema whereClause blob = .ok (some row)) : row = full := by
  obtain ⟨stored, hstored, hpad, -, -⟩ := h
  obtain ⟨stored', hstored', hmatch⟩ := bind_eq_ok.mp hmatch
  cases hstored.symm.trans hstored'
  obtain ⟨full', hpad', hmatch⟩ := bind_eq_ok.mp hmatch
  cases hpad.symm.trans hpad'
  obtain ⟨found, -, hmatch⟩ := bind_eq_ok.mp hmatch
  cases found <;> cases hmatch
  rfl

lemma pads_encodeRow {row : Row} (hlen : row.length = schema.columns.length)
    (hcells : row.length < 2 ^ 32 ∧ ∀ v ∈ row, v.length < 2 ^ 32) :
      Pads schema (encodeRow row) row :=
  ⟨row, decodeRow_encodeRow hcells.1 hcells.2, padRow_full hlen.ge, hlen.le, hlen⟩

lemma Pads.extend (h : Pads schema blob full) {col : ColumnDef} {v : Bytes}
    (hdefault : col.defaultValue = some v) :
    Pads ⟨schema.columns ++ [col]⟩ blob (full ++ [v]) := by
  obtain ⟨row, hrow, hpad, hle, hlen⟩ := h
  refine ⟨row, hrow, ?_, hle.trans (by simp), by simp [hlen]⟩
  obtain ⟨missing, hmissing, hpad⟩ := bind_eq_ok.mp hpad
  cases hpad
  rw [padRow, List.drop_append_of_le_length hle, List.mapM_append, hmissing]
  simp only [List.mapM_cons, List.mapM_nil, hdefault]
  show Except.ok (row ++ (missing ++ [v])) = _
  rw [List.append_assoc]

end

/-- The eager store `e` beside the store `l`. -/
structure Sim (l e : Store) : Prop where
  database : ∀ n, e.find (databaseKey n) = l.find (databaseKey n)
  schema : ∀ d t, e.find (schemaKey d t) = l.find (schemaKey d t)
  keys : ∀ key, e.find key = none ↔ l.find key = none
  rows : ∀ d t schema, IsName d → IsName t → loadSchema l d t = .ok schema →
    ∀ key blob, rowPrefix d t <+: key → l.find key = some blob →
      e.find key = some (eagerBlob schema blob) ∧ ∃ full, Pads schema blob full

namespace Sim

variable {l e : Store}

lemma empty : Sim .empty .empty where
  database := fun _ => rfl
  schema := fun _ _ => rfl
  keys := fun _ => Iff.rfl
  rows := fun _ _ _ _ _ h => nomatch h

lemma loadSchema_eq (h : Sim l e) (d t : Bytes) : loadSchema e d t = loadSchema l d t :=
  loadSchema_congr (h.schema d t)

lemma scan_eq (h : Sim l e) {d t : Bytes} {schema : TableSchema} (hd : IsName d) (ht : IsName t)
    (hschema : loadSchema l d t = .ok schema) :
    scan e (rowPrefix d t) =
      (scan l (rowPrefix d t)).map fun kv => (kv.1, eagerBlob schema kv.2) := by
  have hrows := h.rows d t schema hd ht hschema
  refine asc_of_mem (scan_asc _ _) ?_ fun kv => ?_
  · exact List.pairwise_map.mpr (scan_asc l _)
  · rw [mem_scan, List.mem_map]
    constructor
    · rintro ⟨hkey, hfind⟩
      have hsome : l.find kv.1 ≠ none := fun hnone => by
        rw [(h.keys kv.1).mpr hnone] at hfind
        cases hfind
      obtain ⟨blob, hblob⟩ := Option.ne_none_iff_exists'.mp hsome
      obtain ⟨heager, -⟩ := hrows kv.1 blob hkey hblob
      refine ⟨(kv.1, blob), mem_scan.mpr ⟨hkey, hblob⟩, ?_⟩
      rw [heager] at hfind
      rw [Option.some.inj hfind]
    · rintro ⟨kv', hkv', rfl⟩
      obtain ⟨hkey, hblob⟩ := mem_scan.mp hkv'
      exact ⟨hkey, (hrows kv'.1 kv'.2 hkey hblob).1⟩

lemma pads (h : Sim l e) {d t : Bytes} {schema : TableSchema} (hd : IsName d) (ht : IsName t)
    (hschema : loadSchema l d t = .ok schema) {kv : Bytes × Bytes}
    (hkv : kv ∈ scan l (rowPrefix d t)) : ∃ full, Pads schema kv.2 full :=
  (h.rows d t schema hd ht hschema kv.1 kv.2 (mem_scan.mp hkv).1 (mem_scan.mp hkv).2).2

lemma mapM_padded {β : Type} {f : Bytes → Except Exception β} {g : Bytes → Bytes}
    {rows : List (Bytes × Bytes)} (h : ∀ kv ∈ rows, f (g kv.2) = f kv.2) :
    (rows.map fun kv => (kv.1, g kv.2)).mapM (fun kv => f kv.2) = rows.mapM fun kv => f kv.2 := by
  induction rows with
  | nil => rfl
  | cons kv rows ih =>
    obtain ⟨hkv, hrows⟩ := List.forall_mem_cons.mp h
    rw [List.map_cons, List.mapM_cons, List.mapM_cons, hkv, ih hrows]

lemma writeRows_padded {schema : TableSchema} {whereClause : List Condition}
    {write : Bytes → Row → Except Exception Mutation} {g : Bytes → Bytes}
    {rows : List (Bytes × Bytes)}
    (h : ∀ kv ∈ rows, matchRow schema whereClause (g kv.2) = matchRow schema whereClause kv.2) :
    writeRows schema whereClause write (rows.map fun kv => (kv.1, g kv.2)) =
      writeRows schema whereClause write rows := by
  induction rows with
  | nil => rfl
  | cons kv rows ih =>
    obtain ⟨hkv, hrows⟩ := List.forall_mem_cons.mp h
    rw [List.map_cons, writeRows, writeRows, hkv, ih hrows]

section

variable {d t : Bytes} {schema : TableSchema}

lemma matchRow_eq (h : Sim l e) (hd : IsName d) (ht : IsName t)
    (hschema : loadSchema l d t = .ok schema) (whereClause : List Condition) :
    ∀ kv ∈ scan l (rowPrefix d t), matchRow schema whereClause (eagerBlob schema kv.2) =
      matchRow schema whereClause kv.2 := by
  intro kv hkv
  obtain ⟨full, hfull⟩ := h.pads hd ht hschema hkv
  exact hfull.matchRow_eager (loadSchema_small hschema) whereClause

lemma writeRows_eq (h : Sim l e) (hd : IsName d) (ht : IsName t)
    (hschema : loadSchema l d t = .ok schema) (whereClause : List Condition)
    (write : Bytes → Row → Except Exception Mutation) :
    writeRows schema whereClause write (scan e (rowPrefix d t)) =
      writeRows schema whereClause write (scan l (rowPrefix d t)) := by
  rw [h.scan_eq hd ht hschema, writeRows_padded (h.matchRow_eq hd ht hschema whereClause)]

lemma selectRows_eq (h : Sim l e) (hd : IsName d) (ht : IsName t)
    (hschema : loadSchema l d t = .ok schema) (whereClause : List Condition)
    (projection : List ℕ) :
    (scan e (rowPrefix d t)).mapM (fun kv => selectRow schema whereClause projection kv.2) =
      (scan l (rowPrefix d t)).mapM
        fun kv => selectRow schema whereClause projection kv.2 := by
  rw [h.scan_eq hd ht hschema]
  refine mapM_padded fun kv hkv => ?_
  rw [selectRow, selectRow, h.matchRow_eq hd ht hschema whereClause kv hkv]

end

lemma executeSelect_eq (h : Sim l e) {s : SelectStatement} (hd : IsName s.dbName)
    (ht : IsName s.tableName) : executeSelect e s = executeSelect l s := by
  simp only [executeSelect, h.loadSchema_eq]
  rcases hschema : loadSchema l s.dbName s.tableName with err | schema
  · rfl
  · simp only [bind, Except.bind, h.selectRows_eq hd ht hschema]

lemma executeUpdate_eq (h : Sim l e) {s : UpdateStatement} (hd : IsName s.dbName)
    (ht : IsName s.tableName) : executeUpdate e s = executeUpdate l s := by
  simp only [executeUpdate, h.loadSchema_eq]
  rcases hschema : loadSchema l s.dbName s.tableName with err | schema
  · rfl
  · simp only [bind, Except.bind, h.writeRows_eq hd ht hschema]

lemma executeDelete_eq (h : Sim l e) {s : DeleteStatement} (hd : IsName s.dbName)
    (ht : IsName s.tableName) : executeDelete e s = executeDelete l s := by
  simp only [executeDelete, h.loadSchema_eq]
  rcases hschema : loadSchema l s.dbName s.tableName with err | schema
  · rfl
  · simp only [bind, Except.bind, h.writeRows_eq hd ht hschema]

lemma executeStatement_eq (h : Sim l e) {sql : Bytes} {stmt : Statement}
    (hparse : parse sql = .ok stmt) (halter : ∀ s, stmt ≠ .alterTableAddColumn s) :
    executeStatement e stmt = executeStatement l stmt := by
  have hnames := fun d t htarget => @target_names sql stmt d t hparse htarget
  cases stmt with
  | alterTableAddColumn s => exact absurd rfl (halter s)
  | createDatabase s => simp only [executeStatement, executeCreateDatabase, h.database]
  | createTable s =>
    simp only [executeStatement, executeCreateTable, requireDatabaseExists, h.database, h.schema]
  | insert s =>
    simp only [executeStatement, executeInsert, h.loadSchema_eq, ne_eq, h.keys]
  | select s =>
    obtain ⟨hd, ht⟩ := hnames _ _ rfl
    exact h.executeSelect_eq hd ht
  | update s =>
    obtain ⟨hd, ht⟩ := hnames _ _ rfl
    exact h.executeUpdate_eq hd ht
  | delete s =>
    obtain ⟨hd, ht⟩ := hnames _ _ rfl
    exact h.executeDelete_eq hd ht
  | showTables s =>
    exact executeShowTables_congr (h.database _) (tableNames_congr fun n => by rw [h.schema])
  | showDatabases =>
    have hscan : scan e databasePrefix = scan l databasePrefix := by
      refine scan_congr fun key hkey => ?_
      obtain ⟨n, rfl⟩ := hkey
      exact h.database n
    show Effect.ofRead (.ok (listNames _ _ databasePrefix)) =
      .ofRead (.ok (listNames _ _ databasePrefix))
    rw [listNames, hscan]
    rfl

/-! ### What the statements write -/

lemma write_other (h : Sim l e) {mu : Mutation}
    (hrow : ∀ d t, ¬ rowPrefix d t <+: mu.record.key)
    (hnew : ∀ d t schema, IsName d → IsName t → mu.record.key = schemaKey d t →
      loadSchema (applyTo l mu) d t = .ok schema → ∀ key, rowPrefix d t <+: key →
        l.find key = none) :
    Sim (applyTo l mu) (applyTo e mu) := by
  have hsame : ∀ key, l.find key = e.find key →
      (applyTo e mu).find key = (applyTo l mu).find key := by
    intro key hkey
    rw [find_applyTo, find_applyTo, hkey]
  refine ⟨fun n => hsame _ (h.database n).symm, fun d t => hsame _ (h.schema d t).symm,
    fun key => ?_, fun d t schema hd ht hschema key blob hkey hblob => ?_⟩
  · rw [find_applyTo, find_applyTo]
    split_ifs
    · exact Iff.rfl
    · exact h.keys key
  · have hne : key ≠ mu.record.key := fun heq => hrow d t (heq ▸ hkey)
    rw [find_applyTo, if_neg hne] at hblob ⊢
    by_cases hschemaKey : mu.record.key = schemaKey d t
    · rw [hnew d t schema hd ht hschemaKey hschema key hkey] at hblob
      cases hblob
    · rw [loadSchema_congr ((find_applyTo _ _ _).trans (if_neg fun heq => hschemaKey heq.symm))]
        at hschema
      exact h.rows d t schema hd ht hschema key blob hkey hblob

lemma write_row (h : Sim l e) {d t : Bytes} {schema : TableSchema} (hd : IsName d) (ht : IsName t)
    (hschema : loadSchema l d t = .ok schema) {mu : Mutation}
    (hkey : rowPrefix d t <+: mu.record.key)
    (hrow : ∀ blob, entryOf mu.record = some blob → ∃ full, Pads schema blob full ∧
      blob = encodeRow full) : Sim (applyTo l mu) (applyTo e mu) := by
  have hother : ∀ {key}, key ≠ mu.record.key →
      ∀ s : Store, (applyTo s mu).find key = s.find key :=
    fun hne s => (find_applyTo _ _ _).trans (if_neg hne)
  have hdatabase : ∀ n, databaseKey n ≠ mu.record.key := fun n heq =>
    rowPrefix_ne_databaseKey hkey heq.symm
  have hschemaKey : ∀ d' t', schemaKey d' t' ≠ mu.record.key := fun d' t' heq =>
    rowPrefix_ne_schemaKey hkey heq.symm
  refine ⟨fun n => ?_, fun d' t' => ?_, fun key => ?_,
    fun d' t' schema' hd' ht' hschema' key blob hkey' hblob => ?_⟩
  · rw [hother (hdatabase n), hother (hdatabase n), h.database]
  · rw [hother (hschemaKey d' t'), hother (hschemaKey d' t'), h.schema]
  · rw [find_applyTo, find_applyTo]
    split_ifs
    · exact Iff.rfl
    · exact h.keys key
  · rw [loadSchema_congr (hother (hschemaKey d' t') l)] at hschema'
    rw [find_applyTo] at hblob ⊢
    split_ifs at hblob ⊢ with heq
    · subst heq
      obtain ⟨rfl, rfl⟩ := rowPrefix_inj hd ht hd' ht' hkey hkey'
      cases hschema.symm.trans hschema'
      obtain ⟨full, hfull, rfl⟩ := hrow blob hblob
      exact ⟨hblob.trans (by rw [hfull.eager]), full, hfull⟩
    · exact h.rows d' t' schema' hd' ht' hschema' key blob hkey' hblob

lemma write_rows (h : Sim l e) {d t : Bytes} {schema : TableSchema} (hd : IsName d) (ht : IsName t)
    (hschema : loadSchema l d t = .ok schema) {writes : List Mutation}
    (hwrites : ∀ mu ∈ writes, rowPrefix d t <+: mu.record.key ∧
      ∀ blob, entryOf mu.record = some blob → ∃ full, Pads schema blob full ∧
        blob = encodeRow full) :
    Sim (applyAll l writes) (applyAll e writes) := by
  induction writes generalizing l e with
  | nil => exact h
  | cons mu writes ih =>
    obtain ⟨⟨hkey, hrow⟩, hwrites⟩ := List.forall_mem_cons.mp hwrites
    refine ih (h.write_row hd ht hschema hkey hrow) ?_ hwrites
    rw [loadSchema_congr, hschema]
    exact (find_applyTo _ _ _).trans (if_neg fun heq => rowPrefix_ne_schemaKey hkey heq.symm)

lemma ofWrite (h : Sim l e) {r : Except Exception (Mutation × Bytes)}
    (hmu : ∀ mu out, r = .ok (mu, out) → Sim (applyTo l mu) (applyTo e mu)) :
    Sim (applyAll l (Effect.ofWrite r).1) (applyAll e (Effect.ofWrite r).1) := by
  rcases r with err | ⟨mu, out⟩
  · exact h
  · exact hmu mu out rfl

lemma createDatabase (h : Sim l e) (s : CreateDatabaseStatement) :
    Sim (applyAll l (executeCreateDatabase l s).1) (applyAll e (executeCreateDatabase l s).1) := by
  refine h.ofWrite fun mu out hmu => ?_
  obtain ⟨_, -, hmu⟩ := bind_eq_ok.mp hmu
  cases hmu
  exact h.write_other (fun d t hkey => rowPrefix_ne_databaseKey hkey rfl)
    fun d t schema _ _ heq => absurd heq.symm (schemaKey_ne_databaseKey d t s.name)

lemma createTable (h : Sim l e) (hstored : WellStored l) {s : CreateTableStatement}
    (hs : Written (.createTable s)) :
    Sim (applyAll l (executeCreateTable l s).1) (applyAll e (executeCreateTable l s).1) := by
  refine h.ofWrite fun mu out hmu => ?_
  obtain ⟨_, -, hmu⟩ := bind_eq_ok.mp hmu
  obtain ⟨_, hnew, hmu⟩ := bind_eq_ok.mp hmu
  cases hmu
  refine h.write_other (fun d t hkey => rowPrefix_ne_schemaKey hkey rfl) ?_
  intro d t schema hd ht heq _ key hkey
  obtain ⟨rfl, rfl⟩ := schemaKey_inj hs.1 hd heq
  -- a table that is not there has no rows
  by_contra hsome
  obtain ⟨blob, hblob⟩ := Option.ne_none_iff_exists'.mp hsome
  exact throwIf_eq_ok.mp hnew (hstored.table _ _ hd ht key blob hkey hblob)

lemma insert (h : Sim l e) {s : InsertStatement} (hs : Written (.insert s))
    (hlen : s.columns.length = s.values.length) :
    Sim (applyAll l (executeInsert l s).1) (applyAll e (executeInsert l s).1) := by
  obtain ⟨⟨hd, ht⟩, hvalues⟩ := hs
  refine h.ofWrite fun mu out hmu => ?_
  obtain ⟨schema, hschema, hmu⟩ := bind_eq_ok.mp hmu
  obtain ⟨⟨row, pk⟩, hinsert, hmu⟩ := bind_eq_ok.mp hmu
  obtain ⟨_, -, hmu⟩ := bind_eq_ok.mp hmu
  cases hmu
  obtain ⟨hrlen, hcells, -⟩ := insertRow_spec hlen hinsert
  refine h.write_row hd ht hschema (prefix_rowKey _ _ _) ?_
  rintro blob hblob
  obtain rfl : encodeRow row = blob := Option.some.inj hblob
  refine ⟨row, pads_encodeRow hrlen ⟨?_, fun v hv => hvalues v (hcells v hv)⟩, rfl⟩
  rw [hrlen]
  exact (loadSchema_small hschema).1

lemma update (h : Sim l e) {s : UpdateStatement} (hs : Written (.update s)) :
    Sim (applyAll l (executeUpdate l s).1) (applyAll e (executeUpdate l s).1) := by
  obtain ⟨⟨hd, ht⟩, hliterals⟩ := hs
  simp only [executeUpdate, Effect.ofRows]
  split
  · exact h
  rename_i writes count hr
  obtain ⟨schema, hschema, hr⟩ := bind_eq_ok.mp hr
  obtain ⟨assignments, has, hr⟩ := bind_eq_ok.mp hr
  obtain ⟨rfl, rfl⟩ := Prod.mk.inj (Except.ok.inj hr)
  refine h.write_rows hd ht hschema fun mu hmu => ?_
  obtain ⟨⟨key, blob⟩, hkv, row, hmatch, hwrite⟩ := mem_writeRows hmu
  refine ⟨rewrite_key hwrite ▸ (mem_scan.mp hkv).1, fun blob' hblob' => ?_⟩
  rcases hassign : assign assignments row with err | row'
  · rw [hassign] at hwrite
    cases hwrite
  rw [hassign] at hwrite
  cases hwrite
  obtain rfl : encodeRow row' = blob' := Option.some.inj hblob'
  obtain ⟨full, hfull⟩ := h.pads hd ht hschema hkv
  obtain rfl := hfull.eq_of_matchRow hmatch
  obtain ⟨hlen, hcells, -⟩ := assign_spec hassign
  obtain ⟨hrlen, hrcells⟩ := hfull.small (loadSchema_small hschema)
  obtain ⟨-, -, -, -, hwhole⟩ := hfull
  refine ⟨row', pads_encodeRow (hlen.trans hwhole) ⟨hlen ▸ hrlen, fun v hv => ?_⟩, rfl⟩
  rcases hcells v hv with hv | ⟨a, ha, rfl⟩
  · exact hrcells v hv
  · obtain ⟨a', ha', hcheck⟩ := mem_mapM has a ha
    exact (checkAssignment_spec hcheck).2 ▸ hliterals a' ha'

lemma delete (h : Sim l e) {s : DeleteStatement} (hs : Written (.delete s)) :
    Sim (applyAll l (executeDelete l s).1) (applyAll e (executeDelete l s).1) := by
  obtain ⟨hd, ht⟩ := hs
  simp only [executeDelete, Effect.ofRows]
  split
  · exact h
  rename_i writes count hr
  obtain ⟨schema, hschema, hr⟩ := bind_eq_ok.mp hr
  obtain ⟨rfl, rfl⟩ := Prod.mk.inj (Except.ok.inj hr)
  refine h.write_rows hd ht hschema fun mu hmu => ?_
  obtain ⟨⟨key, blob⟩, hkv, row, -, hwrite⟩ := mem_writeRows hmu
  cases hwrite
  exact ⟨(mem_scan.mp hkv).1, fun blob hblob => by cases hblob⟩

/-! ### Adding a column -/

/-- A stored row. -/
def rowOf (blob : Bytes) : Row :=
  match decodeRow blob with
  | .ok row => row
  | .error _ => []

lemma rowOf_eq {blob : Bytes} {row : Row} (h : decodeRow blob = .ok row) : rowOf blob = row := by
  rw [rowOf, h]

lemma appended_eq {rows : List (Bytes × Bytes)} {v : Bytes}
    (h : ∀ kv ∈ rows, Succeeds (decodeRow kv.2)) :
    appended v rows = .ok (rows.map fun kv => .put kv.1 (encodeRow (rowOf kv.2 ++ [v]))) := by
  induction rows with
  | nil => rfl
  | cons kv rows ih =>
    obtain ⟨⟨row, hrow⟩, hrows⟩ := List.forall_mem_cons.mp h
    have hrest := ih hrows
    rw [appended] at hrest
    rw [appended, List.mapM_cons, hrest, List.map_cons, rowOf_eq hrow, hrow]
    rfl

/-- What the rewritten rows leave: every row of the scan is rewritten, and nothing else. -/
lemma find_rewritten (store e : Store) (p : Bytes) (f : Bytes → Bytes) (key : Bytes) :
    (applyAll store ((scan e p).map fun kv => .put kv.1 (f kv.2))).find key =
      if p <+: key then ((e.find key).map f).or (store.find key) else store.find key := by
  have hasc : Asc ((scan e p).map fun kv => (kv.1, f kv.2)) :=
    List.pairwise_map.mpr (scan_asc e p)
  have hall : applyAll store ((scan e p).map fun kv => .put kv.1 (f kv.2)) =
      store.insertAll ((scan e p).map fun kv => (kv.1, f kv.2)) := by
    rw [applyAll, insertAll, List.foldl_map, List.foldl_map]
    rfl
  rw [hall, find_insertAll_of_asc _ hasc]
  have hlook : look key ((scan e p).map fun kv => (kv.1, f kv.2)) =
      if p <+: key then (e.find key).map f else none := by
    refine Option.ext fun blob => ?_
    rw [← mem_iff_look hasc, List.mem_map]
    constructor
    · rintro ⟨kv, hkv, heq⟩
      obtain ⟨hkey, hfind⟩ := mem_scan.mp hkv
      cases heq
      rw [if_pos hkey, hfind]
      rfl
    · intro hblob
      split_ifs at hblob with hkey
      obtain ⟨b, hb, rfl⟩ := Option.map_eq_some_iff.mp hblob
      exact ⟨(key, b), mem_scan.mpr ⟨hkey, hb⟩, rfl⟩
  rw [hlook]
  split_ifs
  · rfl
  · exact Option.none_or

lemma addColumn (h : Sim l e) {d t v : Bytes} {col : ColumnDef} {schema : TableSchema}
    (hd : IsName d) (ht : IsName t) (hschema : loadSchema l d t = .ok schema)
    (hcol : SmallColumn col) (hdefault : col.defaultValue = some v) {mu : Mutation}
    (hmu : mu = .put (schemaKey d t) (TableSchema.serialize ⟨schema.columns ++ [col]⟩)) :
    Sim (applyTo l mu) (applyAll (applyTo e mu) ((scan e (rowPrefix d t)).map fun kv =>
      .put kv.1 (encodeRow (rowOf kv.2 ++ [v])))) := by
  have hsmall := loadSchema_small hschema
  have hkey : mu.record.key = schemaKey d t := by rw [hmu]; rfl
  have hsame : ∀ key, l.find key = e.find key →
      (applyTo e mu).find key = (applyTo l mu).find key := by
    intro key heq
    rw [find_applyTo, find_applyTo, heq]
  have hfind := find_rewritten (applyTo e mu) e (rowPrefix d t) fun blob =>
    encodeRow (rowOf blob ++ [v])
  have hrow : ∀ {key}, rowPrefix d t <+: key → ∀ s : Store,
    (applyTo s mu).find key = s.find key := by
    intro key hin s
    exact (find_applyTo _ _ _).trans (if_neg fun heq => rowPrefix_ne_schemaKey hin (heq.trans hkey))
  refine ⟨fun n => ?_, fun d' t' => ?_, fun key => ?_,
    fun d' t' schema' hd' ht' hschema' key blob hin hblob => ?_⟩
  · rw [hfind, if_neg fun hin => rowPrefix_ne_databaseKey hin rfl]
    exact hsame _ (h.database n).symm
  · rw [hfind, if_neg fun hin => rowPrefix_ne_schemaKey hin rfl]
    exact hsame _ (h.schema d' t').symm
  · rw [hfind]
    split_ifs with hin
    · rw [hrow hin, hrow hin, ← h.keys key]
      cases e.find key <;> simp
    · rw [find_applyTo, find_applyTo]
      split_ifs
      · exact Iff.rfl
      · exact h.keys key
  · by_cases hsameTable : schemaKey d' t' = schemaKey d t
    · obtain ⟨rfl, rfl⟩ := schemaKey_inj hd' hd hsameTable
      rw [hmu, loadSchema, find_put] at hschema'
      have hnew := @deserialize_serialize ⟨schema.columns ++ [col]⟩ _
        (by simpa [or_imp, forall_and] using ⟨hsmall.2, hcol⟩) (by simp; omega) hschema'
      subst hnew
      rw [hrow hin] at hblob
      obtain ⟨heager, full, hfull⟩ := h.rows _ _ schema hd ht hschema key blob hin hblob
      have hextended := hfull.extend hdefault
      refine ⟨?_, _, hextended⟩
      rw [hfind, if_pos hin, heager, hextended.eager, Option.map_some,
        rowOf_eq (hfull.decode_eager hsmall)]
      rfl
    · have hout : ¬ rowPrefix d t <+: key := fun hin' => hsameTable (by
        obtain ⟨rfl, rfl⟩ := rowPrefix_inj hd ht hd' ht' hin' hin
        rfl)
      have hother : ∀ s : Store, (applyTo s mu).find key = s.find key := fun s =>
        (find_applyTo _ _ _).trans (if_neg fun heq => rowPrefix_ne_schemaKey hin (heq.trans hkey))
      have hload : loadSchema l d' t' = .ok schema' := by
        rw [← hschema']
        refine (loadSchema_congr ?_).symm
        exact (find_applyTo _ _ _).trans (if_neg fun heq => hsameTable (heq.trans hkey))
      rw [hfind, if_neg hout, hother]
      rw [hother] at hblob
      exact h.rows d' t' schema' hd' ht' hload key blob hin hblob

lemma alter (h : Sim l e) {s : AlterTableAddColumnStatement}
    (hs : Written (.alterTableAddColumn s)) :
    (executeAlterEagerly e s).2 = (executeAlterTableAddColumn l s).2 ∧
      Sim (applyAll l (executeAlterTableAddColumn l s).1)
        (applyAll e (executeAlterEagerly e s).1) := by
  obtain ⟨⟨hd, ht⟩, hcol⟩ := hs
  have hread : executeAlterTableAddColumn e s = executeAlterTableAddColumn l s := by
    simp only [executeAlterTableAddColumn, h.loadSchema_eq]
  rw [executeAlterEagerly, hread]
  rcases hr : executeAlterTableAddColumn l s with ⟨writes, err | out⟩
  · have hnone : writes = [] := by
      simp only [executeAlterTableAddColumn, Effect.ofWrite, throws] at hr
      split at hr <;> cases hr
      rfl
    subst hnone
    exact ⟨rfl, h⟩
  simp only [executeAlterTableAddColumn, Effect.ofWrite, throws] at hr
  split at hr
  · cases hr
  rename_i mu out' hmu
  cases hr
  obtain ⟨schema, hschema, hmu⟩ := bind_eq_ok.mp hmu
  obtain ⟨_, -, hmu⟩ := bind_eq_ok.mp hmu
  rcases hdefault : s.column.defaultValue with _ | v
  · rw [hdefault] at hmu
    cases hmu
  rw [hdefault] at hmu
  obtain ⟨_, -, hmu⟩ := bind_eq_ok.mp hmu
  obtain ⟨hmu, -⟩ := Prod.mk.inj (Except.ok.inj hmu)
  have hdecodes : ∀ kv ∈ scan e (rowPrefix s.dbName s.tableName), Succeeds
      (decodeRow kv.2) := by
    intro kv hkv
    rw [h.scan_eq hd ht hschema] at hkv
    obtain ⟨kv', hkv', rfl⟩ := List.mem_map.mp hkv
    obtain ⟨full, hfull⟩ := h.pads hd ht hschema hkv'
    exact ⟨full, hfull.decode_eager (loadSchema_small hschema)⟩
  simp only [appended_eq hdecodes]
  refine ⟨trivial, ?_⟩
  exact h.addColumn hd ht hschema hcol hdefault hmu.symm

lemma execute (h : Sim l e) (hstored : WellStored l) {sql : Bytes} (hsql : sql.length < 2 ^ 32) :
    (executeEager e sql).2 = (execute l sql).2 ∧
      Sim (applyAll l (execute l sql).1) (applyAll e (executeEager e sql).1) := by
  unfold executeEager SqlExecutor.execute
  rcases hparse : parse sql with err | stmt
  · exact ⟨rfl, h⟩
  have hwritten := parse_written hparse hsql
  have hsame := h.executeStatement_eq hparse
  have hkeep : (∀ s, stmt ≠ .alterTableAddColumn s) →
      Sim (applyAll l (executeStatement l stmt).1) (applyAll e (executeStatement l stmt).1) →
      (executeStatement e stmt).2 = (executeStatement l stmt).2 ∧
        Sim (applyAll l (executeStatement l stmt).1) (applyAll e (executeStatement e stmt).1) := by
    intro halter hsim
    rw [hsame halter]
    exact ⟨rfl, hsim⟩
  cases stmt with
  | alterTableAddColumn s => exact h.alter hwritten
  | createDatabase s => exact hkeep nofun (h.createDatabase s)
  | createTable s => exact hkeep nofun (h.createTable hstored hwritten)
  | insert s => exact hkeep nofun (h.insert hwritten (parse_insert hparse))
  | update s => exact hkeep nofun (h.update hwritten)
  | delete s => exact hkeep nofun (h.delete hwritten)
  | select s => exact hkeep nofun h
  | showTables s => exact hkeep nofun h
  | showDatabases => exact hkeep nofun h

end Sim

lemma answers_eq {l e : Store} (h : Sim l e) (hstored : WellStored l) {sqls : List Bytes}
    (hsqls : ∀ sql ∈ sqls, sql.length < 2 ^ 32) :
    answers executeEager e sqls = answers execute l sqls := by
  induction sqls generalizing l e with
  | nil => rfl
  | cons sql sqls ih =>
    obtain ⟨hsql, hsqls⟩ := List.forall_mem_cons.mp hsqls
    obtain ⟨hanswer, hsim⟩ := h.execute hstored hsql
    rw [answers, answers, hanswer, ih hsim (hstored.execute hsql) hsqls]

/-- **Lazy is eager**: every statement of every sequence returns or throws the same, whether an
`ALTER TABLE` rewrites the rows or not. -/
theorem lazy_eq_eager {sqls : List Bytes} (hsqls : ∀ sql ∈ sqls, sql.length < 2 ^ 32) :
    answers executeEager .empty sqls = answers execute .empty sqls :=
  answers_eq Sim.empty wellStored_empty hsqls

/-- Rows of three generations in one table. -/
def generations : List Bytes := [
  text "CREATE DATABASE d",
  text "CREATE TABLE d.t (k TEXT PRIMARY KEY)",
  text "INSERT INTO d.t (k) VALUES ('a')",
  text "ALTER TABLE d.t ADD COLUMN n INT DEFAULT 1",
  text "INSERT INTO d.t (k, n) VALUES ('b', 2)",
  text "ALTER TABLE d.t ADD COLUMN s TEXT DEFAULT 'x'",
  text "UPDATE d.t SET s = 'y' WHERE n = 1",
  text "SELECT * FROM d.t"]

theorem lazy_eq_eager_generations :
    answers executeEager .empty generations = answers execute .empty generations ∧
      (answers execute .empty generations)[7]? = some (.ok (text "k\tn\ts\na\t1\ty\nb\t2\tx")) :=
  ⟨lazy_eq_eager (by decide), by decide +kernel⟩

end DistDB.SqlAlter
