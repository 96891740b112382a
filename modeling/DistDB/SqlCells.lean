import DistDB.SqlAlter
import DistDB.SqlRender
import DistDB.SqlScatter
import DistDB.SqlTables

/-!
Rows fit the schema of their table, whatever it was when they were written: what is stored is not
longer than the schema, every column that is missing has a default, the row is under its value in
the primary key column, and every `INT` cell is a number (`rows_fit`).

What an `INT` cell has to be is a parameter: a property that every stored literal has is one that
every cell has (`TableFits.moves`).
-/

namespace DistDB.SqlCells

open SqlLexer SqlParser SqlGrammar SqlTexts SqlExecutor SqlRuns SqlAtomic SqlStore SqlFrame
open SqlAlter SqlScatter SqlTables SqlRender WalModel EngineMap Checks Codec Bytes

/-! ### Rows and schemas -/

/-- Every `INT` cell is `ok`. -/
def IntsOk (ok : Bytes → Prop) (schema : TableSchema) (row : Row) : Prop :=
  ∀ (i : ℕ) (col : ColumnDef) (v : Bytes), schema.columns[i]? = some col →
    row[i]? = some v → col.type = .kInt → ok v

/-- The row that is stored under `pk`, with its later columns. -/
structure RowFits (ok : Bytes → Prop) (schema : TableSchema) (pk blob : Bytes) (full : Row) :
    Prop where
  pads : Pads schema blob full
  key : ∃ row idx, decodeRow blob = .ok row ∧ schema.primaryKeyIndex = some idx ∧
    row[idx]? = some pk
  ints : IntsOk ok schema full

/-- A schema that is read back, if it is read at all. -/
structure Small (schema : TableSchema) : Prop where
  count : schema.columns.length ≤ 2 ^ 32
  column : ∀ c ∈ schema.columns, SmallColumn c

/-- A table is not there and has no rows, or its rows fit its schema. -/
inductive TableFits (ok : Bytes → Prop) (table : Table) : Prop
  | absent : table.schema = none → (∀ pk, table.rows pk = none) → TableFits ok table
  | stored {schema : TableSchema} : table.schema = some schema.serialize → Small schema →
      (∀ pk blob, table.rows pk = some blob → ∃ full, RowFits ok schema pk blob full) →
      TableFits ok table

/-- What the statement stores fits the fields of 32 bits that hold its sizes. -/
def Sized : Statement → Prop
  | .createTable s => s.columns.length < 2 ^ 32 ∧ ∀ c ∈ s.columns, SmallColumn c
  | .alterTableAddColumn s => SmallColumn s.column
  | .insert s => ∀ v ∈ s.values, v.length < 2 ^ 32
  | .update s => ∀ a ∈ s.assignments, a.2.length < 2 ^ 32
  | _ => True

/-- The literals that a statement stores in an `INT` column of the table. -/
def Stores (table : Table) : Statement → Bytes → Prop
  | .insert s, v => ∃ schema column idx col, table.Loads schema ∧
      (column, v) ∈ s.columns.zip s.values ∧ schema.columnIndex column = some idx ∧
      schema.columns[idx]? = some col ∧ col.type = .kInt
  | .update s, v => ∃ schema column idx col, table.Loads schema ∧
      (column, v) ∈ s.assignments ∧
      schema.columnIndex column = some idx ∧ schema.columns[idx]? = some col ∧ col.type = .kInt
  | .alterTableAddColumn s, v => s.column.type = .kInt ∧ s.column.defaultValue = some v
  | _, _ => False

section

variable {ok : Bytes → Prop} {schema : TableSchema} {pk blob : Bytes} {full : Row}

lemma RowFits.mono {ok' : Bytes → Prop} (h : RowFits ok schema pk blob full)
    (hok : ∀ v, ok v → ok' v) : RowFits ok' schema pk blob full :=
  ⟨h.pads, h.key, fun i col v hcol hv hint => hok v (h.ints i col v hcol hv hint)⟩

lemma RowFits.cell (h : RowFits ok schema pk blob full) :
    ∃ idx, schema.primaryKeyIndex = some idx ∧ full[idx]? = some pk := by
  obtain ⟨row, idx, hrow, hidx, hpk⟩ := h.key
  obtain ⟨row', hrow', hpad, -, -⟩ := h.pads
  cases hrow.symm.trans hrow'
  obtain ⟨missing, -, hpad⟩ := bind_eq_ok.mp hpad
  cases hpad
  obtain ⟨hlt, -⟩ := List.getElem?_eq_some_iff.mp hpk
  exact ⟨idx, hidx, (List.getElem?_append_left hlt).trans hpk⟩

lemma RowFits.pk_of_pads (h : RowFits ok schema pk blob full) {full' : Row} {idx : ℕ} {v : Bytes}
    (hpads : Pads schema blob full')
    (hidx : schema.primaryKeyIndex = some idx) (hv : full'[idx]? = some v) : v = pk := by
  obtain ⟨row, hdecode, hpad, -⟩ := h.pads
  obtain ⟨row', hdecode', hpad', -⟩ := hpads
  cases hdecode.symm.trans hdecode'
  cases hpad.symm.trans hpad'
  obtain ⟨idx', hidx', hpk⟩ := h.cell
  cases hidx.symm.trans hidx'
  exact Option.some.inj (hv.symm.trans hpk)

lemma rowFits_encodeRow {row : Row} {idx : ℕ} (hlen : row.length = schema.columns.length)
    (hcells : row.length < 2 ^ 32 ∧ ∀ v ∈ row, v.length < 2 ^ 32)
    (hidx : schema.primaryKeyIndex = some idx) (hpk : row[idx]? = some pk)
    (hints : IntsOk ok schema row) : RowFits ok schema pk (encodeRow row) row :=
  ⟨pads_encodeRow hlen hcells,
    ⟨row, idx, decodeRow_encodeRow hcells.1 hcells.2, hidx, hpk⟩, hints⟩

lemma RowFits.extend (h : RowFits ok schema pk blob full) {c : ColumnDef} {v : Bytes}
    (hdefault : c.defaultValue = some v) (hv : c.type = .kInt → ok v) :
    RowFits ok ⟨schema.columns ++ [c]⟩ pk blob (full ++ [v]) := by
  refine ⟨h.pads.extend hdefault, ?_, fun i col w hcol hw hint => ?_⟩
  · obtain ⟨row, idx, hrow, hidx, hpk⟩ := h.key
    refine ⟨row, idx, hrow, ?_, hpk⟩
    rw [TableSchema.primaryKeyIndex, List.findIdx?_append]
    rw [TableSchema.primaryKeyIndex] at hidx
    rw [hidx]
    rfl
  · obtain ⟨-, -, -, -, hlen⟩ := h.pads
    rcases Nat.lt_or_ge i schema.columns.length with hlt | hge
    · rw [List.getElem?_append_left hlt] at hcol
      rw [List.getElem?_append_left (hlen ▸ hlt)] at hw
      exact h.ints i col w hcol hw hint
    · rw [List.getElem?_append_right hge] at hcol
      rw [List.getElem?_append_right (hlen ▸ hge), hlen] at hw
      obtain ⟨hi, rfl⟩ := List.getElem?_eq_some_iff.mp hcol
      have hzero : i - schema.columns.length = 0 := by simpa using hi
      simp only [hzero, List.getElem_cons_zero] at hw hint
      cases hw
      exact hv hint

end

section

variable {ok : Bytes → Prop} {table table' : Table} {schema : TableSchema} {d t sql : Bytes}
  {stmt : Statement}

lemma TableFits.loaded (h : TableFits ok table) (hload : table.Loads schema) :
    table.schema = some schema.serialize ∧
      ∀ pk blob, table.rows pk = some blob → ∃ full, RowFits ok schema pk blob full := by
  obtain ⟨blob, hblob, hread⟩ := hload
  cases h with
  | absent hnone =>
    rw [hnone] at hblob
    cases hblob
  | stored hschema hsmall hrows =>
    rw [hschema] at hblob
    cases hblob
    obtain rfl := deserialize_serialize hsmall.column hsmall.count hread
    exact ⟨hschema, hrows⟩

lemma row_of_scan {store : Store} (hfits : TableFits ok (tableAt store d t))
    (hload : (tableAt store d t).Loads schema) {kv : Bytes × Bytes}
    (hkv : kv ∈ scan store (rowPrefix d t)) :
    ∃ pk full, kv.1 = rowKey d t pk ∧ (tableAt store d t).rows pk = some kv.2 ∧
      RowFits ok schema pk kv.2 full := by
  obtain ⟨⟨pk, hpk⟩, hfind⟩ := mem_scan.mp hkv
  have hkey : kv.1 = rowKey d t pk := hpk.symm
  rw [hkey] at hfind
  obtain ⟨full, hfull⟩ := (hfits.loaded hload).2 pk kv.2 hfind
  exact ⟨pk, full, hkey, hfind, hfull⟩

lemma Loads.small (h : table.Loads schema) :
    schema.columns.length < 2 ^ 32 ∧ ∀ c ∈ schema.columns, SmallColumn c := by
  obtain ⟨blob, -, hread⟩ := h
  exact deserialize_small hread

lemma Loads.unique {schema' : TableSchema} (h : table.Loads schema) (h' : table.Loads schema') :
    schema' = schema := by
  obtain ⟨blob, hblob, hread⟩ := h
  obtain ⟨blob', hblob', hread'⟩ := h'
  cases hblob.symm.trans hblob'
  exact Except.ok.inj (hread'.symm.trans hread)

lemma Loads.extend {schema' : TableSchema} {c : ColumnDef} (h : table.Loads schema)
    (hc : SmallColumn c) (h' : Table.Loads { table with
      schema := some (TableSchema.serialize ⟨schema.columns ++ [c]⟩) } schema') :
    schema' = ⟨schema.columns ++ [c]⟩ := by
  obtain ⟨hlen, hsmall⟩ := Loads.small h
  obtain ⟨blob, hblob, hread⟩ := h'
  cases hblob
  refine deserialize_serialize ?_ ?_ hread
  · exact List.forall_mem_append.mpr ⟨hsmall, List.forall_mem_singleton.mpr hc⟩
  · rw [List.length_append, List.length_singleton]
    omega

lemma create_count {s : CreateTableStatement} (hparse : parse sql = .ok (.createTable s)) :
    s.columns.length ≤ sql.length := by
  obtain ⟨tokens, rest, htokens, body, tail, hbody, -, rfl, -, -⟩ := parse_iff.mp hparse
  have hcount := tokenize_length htokens
  rw [List.length_append] at hcount
  cases hbody with
  | createTable _ _ _ _ hcolumns =>
    have hle := SepBy.length_le (fun body c hc => by cases hc <;> simp) hcolumns
    simp only [List.length_cons, List.length_append] at hcount
    dsimp only
    omega

/-- A text below 4 GiB stores nothing larger. -/
theorem sized_of_parse (hparse : parse sql = .ok stmt) (hsql : sql.length < 2 ^ 32) :
    Sized stmt := by
  have hwritten := parse_written hparse hsql
  cases stmt with
  | createTable s =>
    refine ⟨(create_count hparse).trans_lt hsql, fun c hc => ?_⟩
    obtain ⟨-, hlen, hdefault⟩ := parse_columns hparse c hc
    exact ⟨hlen.trans_lt hsql, by rw [hdefault]; exact nofun⟩
  | alterTableAddColumn s | insert s | update s => exact hwritten.2
  | createDatabase s | select s | delete s | showTables s | showDatabases => trivial

lemma checkAssignment_takes {a : Bytes × Bytes} {b : ℕ × Bytes}
    (h : checkAssignment schema a = .ok b) : schema.columnIndex a.1 = some b.1 ∧ b.2 = a.2 ∧
      some b.1 ≠ schema.primaryKeyIndex ∧
      ∃ col, schema.columns[b.1]? = some col ∧ (col.type = .kInt → IntText a.2) := by
  obtain ⟨hpk, hliteral⟩ := checkAssignment_spec h
  obtain ⟨idx, hidx, h⟩ := bind_eq_ok.mp h
  obtain ⟨_, -, h⟩ := bind_eq_ok.mp h
  obtain ⟨col, hcol, h⟩ := bind_eq_ok.mp h
  obtain ⟨_, hvalid, h⟩ := bind_eq_ok.mp h
  cases h
  exact ⟨indexOf_eq_ok.mp hidx, rfl, hpk, col, columnAt_eq_ok.mp hcol,
    (validateLiteral_succeeds _ _ _).mp ⟨_, hvalid⟩⟩

lemma rowFits_insert {s : InsertStatement} {row : Row} {pk : Bytes} (hload : table.Loads schema)
    (hlen : s.columns.length = s.values.length) (hvalues : ∀ v ∈ s.values, v.length < 2 ^ 32)
    (hok : ∀ v, Stores table (.insert s) v → IntText v → ok v)
    (h : insertRow schema s = .ok (row, pk)) : RowFits ok schema pk (encodeRow row) row := by
  obtain ⟨hrlen, hcells⟩ := insertRow_cells hlen h
  obtain ⟨-, hmem, idx, hidx, hpk⟩ := insertRow_spec hlen h
  have hfits := insertRow_succeeds.mp ⟨_, h⟩
  refine rowFits_encodeRow hrlen ⟨hrlen ▸ (Loads.small hload).1, fun v hv =>
    hvalues v (hmem v hv)⟩ hidx hpk fun i col v hcol hv hint => ?_
  obtain ⟨column, hgiven, hcolumn⟩ := hcells i v hv
  obtain ⟨i', col', hi', hcol', htext⟩ := hfits.takes _ hgiven
  cases hcolumn.symm.trans hi'
  cases hcol.symm.trans hcol'
  exact hok v ⟨schema, column, i, col, hload, hgiven, hcolumn, hcol, hint⟩ (htext hint)

lemma rowFits_update {s : UpdateStatement} {checked : List (ℕ × Bytes)} {pk blob blob' : Bytes}
    {full : Row} (hload : table.Loads schema)
    (hliterals : ∀ a ∈ s.assignments, a.2.length < 2 ^ 32)
    (hok : ∀ v, Stores table (.update s) v → IntText v → ok v)
    (hchecked : s.assignments.mapM (checkAssignment schema) = .ok checked)
    (h : RowFits ok schema pk blob full)
    (hrow : Rewrites schema s.whereClause checked blob blob') :
    ∃ full', RowFits ok schema pk blob' full' := by
  obtain ⟨row, row', hmatch, hassign, rfl⟩ := hrow
  obtain rfl := h.pads.eq_of_matchRow hmatch
  obtain ⟨hlen, hcells, hkeep⟩ := assign_spec hassign
  obtain ⟨hrlen, hrcells⟩ := h.pads.small (Loads.small hload)
  obtain ⟨idx, hidx, hpk⟩ := h.cell
  obtain ⟨-, -, -, -, hfull⟩ := h.pads
  have hcheck : ∀ b ∈ checked, ∃ a ∈ s.assignments, checkAssignment schema a = .ok b :=
    fun b hb => mem_mapM hchecked b hb
  refine ⟨row', rowFits_encodeRow (hlen.trans hfull) ⟨hlen ▸ hrlen, fun v hv => ?_⟩ hidx ?_
    fun i col v hcol hv hint => ?_⟩
  · rcases hcells v hv with hv | ⟨b, hb, rfl⟩
    · exact hrcells v hv
    · obtain ⟨a, ha, hab⟩ := hcheck b hb
      rw [(checkAssignment_spec hab).2]
      exact hliterals a ha
  · rw [hkeep idx fun b hb => ?_, hpk]
    obtain ⟨a, -, hab⟩ := hcheck b hb
    exact fun heq => (checkAssignment_spec hab).1 (by rw [heq, hidx])
  · rcases assign_cells hassign hv with hold | hnew
    · exact h.ints i col v hcol hold hint
    · obtain ⟨a, ha, hab⟩ := hcheck _ hnew
      obtain ⟨hi, hv', -, col', hcol', htext⟩ := checkAssignment_takes hab
      obtain rfl : v = a.2 := hv'
      cases hcol.symm.trans hcol'
      exact hok a.2 ⟨schema, a.1, i, col, hload, ha, hi, hcol, hint⟩ (htext hint)

/-- **One statement keeps a table as its rows fit**, if the literals that it stores are `ok`. -/
theorem TableFits.moves (h : TableFits ok table) (hmove : Moves d t table stmt table')
    (hparse : parse sql = .ok stmt) (hsized : Sized stmt)
    (hok : targetOf stmt = some (d, t) → ∀ v, Stores table stmt v → IntText v → ok v) :
    TableFits ok table' := by
  cases hmove with
  | same => exact h
  | create hnew =>
    cases h with
    | absent hnone hempty =>
      refine .stored rfl ⟨hsized.1.le, hsized.2⟩ fun pk blob hblob => ?_
      rw [hempty] at hblob
      cases hblob
    | stored hschema =>
      rw [hnew] at hschema
      cases hschema
  | @addColumn c schema v hload hnew hdefault htext =>
    obtain ⟨hschema, hrows⟩ := h.loaded hload
    obtain ⟨hlen, hsmall⟩ := Loads.small hload
    refine .stored rfl ⟨?_, ?_⟩ fun pk blob hblob => ?_
    · rw [List.length_append, List.length_singleton]
      omega
    · exact List.forall_mem_append.mpr ⟨hsmall, List.forall_mem_singleton.mpr hsized⟩
    · obtain ⟨full, hfull⟩ := hrows pk blob hblob
      exact ⟨_, hfull.extend hdefault fun hint => hok rfl v ⟨hint, hdefault⟩ (htext hint)⟩
  | @insert columns values schema row pk hload hrow hfree =>
    obtain ⟨hschema, hrows⟩ := h.loaded hload
    obtain ⟨hlen, hsmall⟩ := Loads.small hload
    refine .stored hschema ⟨hlen.le, hsmall⟩ fun pk' blob hblob => ?_
    dsimp only at hblob
    rw [Function.update_apply] at hblob
    split_ifs at hblob with heq
    · cases hblob
      exact ⟨row, heq ▸ rowFits_insert hload (parse_insert hparse) hsized (hok rfl) hrow⟩
    · exact hrows pk' blob hblob
  | @update assignments whereClause schema checked rows hload hchecked hmoved =>
    obtain ⟨hschema, hrows⟩ := h.loaded hload
    obtain ⟨hlen, hsmall⟩ := Loads.small hload
    refine .stored hschema ⟨hlen.le, hsmall⟩ fun pk blob hblob => ?_
    rcases hmoved pk with hkept | ⟨old, new, hold, hrewrites, hnew⟩
    · exact hrows pk blob (hkept ▸ hblob)
    · cases hnew.symm.trans hblob
      obtain ⟨full, hfull⟩ := hrows pk old hold
      exact rowFits_update (s := ⟨d, t, assignments, whereClause⟩) hload hsized (hok rfl)
        hchecked hfull hrewrites
  | @delete whereClause rows hmoved =>
    have hkept : ∀ pk blob, rows pk = some blob → table.rows pk = some blob := by
      intro pk blob hblob
      rcases hmoved pk with hkept | hgone
      · exact hkept ▸ hblob
      · rw [hgone] at hblob
        cases hblob
    cases h with
    | absent hnone hempty =>
      refine .absent hnone fun pk => ?_
      rcases hmoved pk with hkept | hgone
      · exact hkept.trans (hempty pk)
      · exact hgone
    | stored hschema hsmall hrows =>
      exact .stored hschema hsmall fun pk blob hblob => hrows pk blob (hkept pk blob hblob)

end

/-! ### Every store -/

/-- What the text stores fits its fields, and the literals that it stores in an `INT` column, if it
is accepted, are `ok`. -/
def Storing (ok : Bytes → Prop) (store : Store) (sql : Bytes) : Prop :=
  ∀ stmt, parse sql = .ok stmt → Sized stmt ∧ ∀ d t v, targetOf stmt = some (d, t) →
    Stores (tableAt store d t) stmt v → IntText v → ok v

lemma tableFits_after {ok : Bytes → Prop} {store : Store} {sql d t : Bytes} (hd : IsName d)
    (ht : IsName t) (h : TableFits ok (tableAt store d t)) (hsql : Storing ok store sql) :
    TableFits ok (tableAt (after store sql) d t) := by
  cases hparse : parse sql with
  | error e => rwa [after_of_error hparse]
  | ok stmt =>
    obtain ⟨hsized, hstores⟩ := hsql stmt hparse
    exact h.moves (moves hparse hd ht) hparse hsized fun htarget v => hstores d t v htarget

/-- **In every store that is reached, the rows fit their schemas.** -/
theorem tableFits_of_reach {ok : Bytes → Prop} {store : Store} {d t : Bytes} (hd : IsName d)
    (ht : IsName t) (h : Reach (StepOf after) (Storing ok) .empty store) :
    TableFits ok (tableAt store d t) := by
  refine h.invariant (I := fun store => TableFits ok (tableAt store d t))
    (.absent rfl fun _ => rfl) ?_
  rintro store sql _ hfits hsql rfl
  exact tableFits_after hd ht hfits hsql

/-- A row that fits: what is stored decodes and is not too long, every column that is missing has a
default, the key ends with the cell of the primary key column, and every `INT` cell of the row in
full passes the check of a literal. -/
def Fitting (schema : TableSchema) (d t key blob : Bytes) : Prop :=
  ∃ row full, decodeRow blob = .ok row ∧ row.length ≤ schema.columns.length ∧
    (∀ c ∈ schema.columns.drop row.length, c.defaultValue ≠ none) ∧
    padRow schema row = .ok full ∧ full.length = schema.columns.length ∧
    (∃ idx pk, schema.primaryKeyIndex = some idx ∧ row[idx]? = some pk ∧
      key = rowKey d t pk) ∧
    IntsOk (fun v => ∀ column, Succeeds (validateIntLiteral column v)) schema full

/-- Every row belongs to a table, whose schema is there, and fits it; the schema that is loaded is
that one. -/
structure RowsFit (store : Store) : Prop where
  table : ∀ key, text "__row__/" <+: key → store.find key ≠ none →
    ∃ d t, IsName d ∧ IsName t ∧ rowPrefix d t <+: key
  row : ∀ d t, IsName d → IsName t → ∀ key blob, rowPrefix d t <+: key →
    store.find key = some blob → ∃ schema, store.find
      (schemaKey d t) = some schema.serialize ∧
      (∀ schema', loadSchema store d t = .ok schema' → schema' = schema) ∧
      Fitting schema d t key blob

lemma RowFits.fitting {schema : TableSchema} {d t pk blob : Bytes} {full : Row}
    (h : RowFits IntText schema pk blob full) : Fitting schema d t (rowKey d t pk) blob := by
  obtain ⟨row, idx, hrow, hidx, hpk⟩ := h.key
  obtain ⟨row', hrow', hpad, hle, hlen⟩ := h.pads
  cases hrow.symm.trans hrow'
  refine ⟨row, full, hrow, hle, fun c hc hnone => ?_, hpad, hlen, ⟨idx, pk, hidx, hpk, rfl⟩,
    fun i col v hcol hv hint column => ?_⟩
  · obtain ⟨missing, hmissing, -⟩ := bind_eq_ok.mp hpad
    obtain ⟨v, hv⟩ := succeeds_mapM.mp ⟨missing, hmissing⟩ c hc
    rw [hnone] at hv
    cases hv
  · exact (validateIntLiteral_succeeds column v).mpr (h.ints i col v hcol hv hint)

lemma rows_named {store : Store} (h : Reach (StepOf after) (fun _ _ => True) .empty store)
    {key : Bytes} (hkey : text "__row__/" <+: key) (hfind : store.find key ≠ none) :
    ∃ d t, IsName d ∧ IsName t ∧ rowPrefix d t <+: key := by
  have hthird : key[2]? = some (chr 'r') := by
    obtain ⟨s, rfl⟩ := hkey
    rfl
  obtain ⟨sql, stmt, d, t, hparse, htarget, howned⟩ := owner_of_reach h (fun n heq => by
    rw [heq, third_databasePrefix (prefix_databaseKey n)] at hthird
    cases hthird) hfind
  obtain ⟨hd, ht⟩ := target_names hparse htarget
  rcases howned with rfl | hrow
  · rw [third_schemaPrefix (prefix_schemaKey d t)] at hthird
    cases hthird
  · exact ⟨d, t, hd, ht, hrow⟩

/-- The run along a list of texts, each of which meets the condition where it stands. -/
lemma reach_runAll {ok : Store → Bytes → Prop} {store : Store} {sqls : List Bytes}
    (hsqls : ∀ i sql, sqls[i]? = some sql → ok (runAll store (sqls.take i)) sql) :
    Reach (StepOf after) ok store (runAll store sqls) := by
  induction sqls generalizing store with
  | nil => exact .refl
  | cons sql sqls ih =>
    exact Reach.trans (.tail .refl (hsqls 0 sql rfl) rfl)
      (ih fun i sql' hi => hsqls (i + 1) sql' (by simpa using hi))

/-- **Stored rows fit their schema**, in every store that is left by texts whose sizes fit their
fields. -/
theorem rows_fit {sqls : List Bytes}
    (hsqls : ∀ sql ∈ sqls, ∀ stmt, parse sql = .ok stmt → Sized stmt) :
    RowsFit (runAll .empty sqls) where
  table := fun key hkey hfind => rows_named (reach_runAll fun _ _ _ => trivial) hkey hfind
  row := by
    rintro d t hd ht _ blob ⟨pk, rfl⟩ hfind
    have hreach : Reach (StepOf after) (Storing IntText) .empty (runAll .empty sqls) :=
      reach_runAll fun i sql hi stmt hparse => ⟨hsqls sql (List.mem_of_getElem? hi) stmt hparse,
        fun _ _ _ _ _ htext => htext⟩
    have hfind' : (tableAt (runAll .empty sqls) d t).rows pk = some blob := hfind
    cases tableFits_of_reach hd ht hreach with
    | absent _ hempty =>
      rw [hempty] at hfind'
      cases hfind'
    | @stored schema hschema hsmall hrows =>
      obtain ⟨full, hfull⟩ := hrows pk blob hfind'
      refine ⟨schema, hschema, fun schema' hload => ?_, hfull.fitting⟩
      have hread : TableSchema.deserialize schema.serialize = .ok schema' := by
        obtain ⟨blob', hblob', hread⟩ := loadSchema_eq_ok.mp hload
        cases hblob'.symm.trans hschema
        exact hread
      exact deserialize_serialize hsmall.column hsmall.count hread

/-- The row is older than the second column. -/
def twoAges : List Bytes := [
  text "CREATE DATABASE d",
  text "CREATE TABLE d.t (k INT PRIMARY KEY)",
  text "INSERT INTO d.t (k) VALUES (07)",
  text "ALTER TABLE d.t ADD COLUMN n INT DEFAULT -1"]

theorem rows_fit_twoAges : RowsFit (runAll .empty twoAges) ∧
    (runAll .empty twoAges).find (rowKey (text "d") (text "t") (text "07")) =
      some (encodeRow [text "07"]) := by
  have hlen : ∀ sql ∈ twoAges, sql.length < 2 ^ 32 := by decide +kernel
  exact ⟨rows_fit fun sql hsql stmt hparse => sized_of_parse hparse (hlen sql hsql),
    by decide +kernel⟩

lemma decodeRow_wraps {v : Bytes} (hv : v.length = 2 ^ 32) :
    decodeRow (encodeRow [v]) = .ok [[]] := by
  have hblob : encodeRow [v] = encVec encStr [[]] ++ v := by
    have hzero : le 4 v.length = le 4 0 := by
      rw [hv]
      decide
    simp [encodeRow, encVec, encStr, hzero]
  refine run_eq_ok.mpr ⟨v, ?_⟩
  exact (decodes_vec decodes_str _ _ _).mpr ⟨hblob, by decide, by simp⟩

def oneTable : List Bytes :=
  [text "CREATE DATABASE d", text "CREATE TABLE d.t (k TEXT PRIMARY KEY)"]

lemma oneTable_free (v : Bytes) :
    (runAll .empty oneTable).find (rowKey (text "d") (text "t") v) = none := by
  have hkeys : (runAll .empty oneTable).entries.map Prod.fst =
      [databaseKey (text "d"), schemaKey (text "d") (text "t")] := by
    decide +kernel
  by_contra hne
  obtain ⟨blob, hblob⟩ := Option.ne_none_iff_exists'.mp hne
  have hmem : rowKey (text "d") (text "t") v ∈ (runAll .empty oneTable).entries.map Prod.fst :=
    List.mem_map.mpr ⟨_, (OrdMap.mem_entries _).mpr hblob, rfl⟩
  rw [hkeys, List.mem_cons, List.mem_singleton] at hmem
  rcases hmem with hdatabase | hschema
  · exact rowPrefix_ne_databaseKey (prefix_rowKey _ _ v) hdatabase
  · exact rowPrefix_ne_schemaKey (prefix_rowKey _ _ v) hschema

/-- **Where a row does not fit**: its primary key has `2 ^ 32` bytes, and the cell that is read
is empty. -/
theorem length_wraps : ¬ ∀ sqls, RowsFit (runAll .empty sqls) := by
  intro hall
  obtain ⟨v, hv⟩ : ∃ v : Bytes, v.length = 2 ^ 32 :=
    ⟨List.replicate (2 ^ 32) 0, List.length_replicate⟩
  have hd : IsWord (text "d") := .letter (by decide)
  have ht : IsWord (text "t") := .letter (by decide)
  have hk : IsWord (text "k") := .letter (by decide)
  have hparse := parse_insertText hd ht (List.forall_mem_singleton.mpr hk)
    (List.cons_ne_nil _ _) (List.length_singleton.trans (@List.length_singleton _ v).symm)
  have hload : loadSchema (runAll .empty oneTable) (text "d") (text "t") =
      .ok ⟨[⟨text "k", .kText, true, none⟩]⟩ := by
    decide +kernel
  have hafter := after_insert hparse hload (by rfl) (oneTable_free v)
  have hfind : (runAll .empty (oneTable ++ [insertText (text "d") (text "t") [text "k"] [v]])).find
      (rowKey (text "d") (text "t") v) = some (encodeRow [v]) := by
    rw [runAll, List.foldl_append]
    show (after (runAll .empty oneTable) _).find _ = _
    rw [hafter]
    exact (find_applyTo _ _ _).trans (if_pos rfl)
  obtain ⟨schema, -, -, row, full, hrow, -, -, -, -, ⟨idx, pk, -, hpk, hkey⟩, -⟩ :=
    (hall _).row _ _ hd.name ht.name _ _ (prefix_rowKey _ _ _) hfind
  obtain rfl : [[]] = row := Except.ok.inj ((decodeRow_wraps hv).symm.trans hrow)
  obtain rfl : pk = [] := List.mem_singleton.mp (List.mem_of_getElem? hpk)
  have hnil : v = [] := rowKey_inj.mp hkey
  have hzero : (0 : ℕ) = 2 ^ 32 := by
    rw [← hv, hnil, List.length_nil]
  exact absurd hzero (by norm_num)

end DistDB.SqlCells
