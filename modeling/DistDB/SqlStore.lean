import DistDB.SqlAtomic
import DistDB.SqlTexts

/-!
What the statements leave in a store: every row of a table decodes, and is stored under the value
it has in the primary key column (`runAll_wellStored`).

Storage keys of different tables and of different kinds are apart because a name holds no `/`.
-/

namespace DistDB.SqlStore

open SqlLexer SqlParser SqlExecutor SqlTexts SqlRuns SqlAtomic WalModel EngineInv EngineMap
open Checks Codec Bytes

lemma not_slash {s : Bytes} (h : IsName s) : chr '/' ∉ s := fun hmem =>
  absurd (h _ hmem) (by decide)

lemma split_at {c : UInt8} {x y x' y' : Bytes} (hx : c ∉ x) (hx' : c ∉ x')
    (h : x ++ c :: y = x' ++ c :: y') : x = x' ∧ y = y' := by
  induction x generalizing x' with
  | nil =>
    cases x' with
    | nil => exact ⟨rfl, (List.cons.inj h).2⟩
    | cons b x' => exact absurd (List.cons.inj h).1 (by rintro rfl; exact hx' List.mem_cons_self)
  | cons b x ih =>
    cases x' with
    | nil => exact absurd (List.cons.inj h).1 (by rintro rfl; exact hx List.mem_cons_self)
    | cons b' x' =>
      obtain ⟨rfl, hrest⟩ := List.cons.inj h
      obtain ⟨rfl, hy⟩ := ih (fun hc => hx (List.mem_cons_of_mem _ hc))
        (fun hc => hx' (List.mem_cons_of_mem _ hc)) hrest
      exact ⟨rfl, hy⟩

lemma rowPrefix_ne_schemaKey {d t d' t' key : Bytes} (h : rowPrefix d t <+: key) :
    key ≠ schemaKey d' t' := by
  rintro rfl
  obtain ⟨s, hs⟩ := h
  have hchar := congrArg (fun l : Bytes => l[2]?) hs
  cases hchar

lemma rowPrefix_ne_databaseKey {d t n key : Bytes} (h : rowPrefix d t <+: key) :
    key ≠ databaseKey n := by
  rintro rfl
  obtain ⟨s, hs⟩ := h
  have hchar := congrArg (fun l : Bytes => l[2]?) hs
  cases hchar

lemma schemaKey_ne_databaseKey (d t n : Bytes) : schemaKey d t ≠ databaseKey n := by
  intro h
  have hchar := congrArg (fun l : Bytes => l[2]?) h
  cases hchar

lemma schemaKey_inj {d t d' t' : Bytes} (hd : IsName d) (hd' : IsName d')
    (h : schemaKey d t = schemaKey d' t') : d = d' ∧ t = t' := by
  simp only [schemaKey, List.append_assoc, List.append_cancel_left_eq] at h
  exact split_at (not_slash hd) (not_slash hd') h

lemma rowPrefix_inj {d t d' t' key : Bytes} (hd : IsName d) (ht : IsName t) (hd' : IsName d')
    (ht' : IsName t') (h : rowPrefix d t <+: key) (h' : rowPrefix d' t' <+: key) :
    d = d' ∧ t = t' := by
  obtain ⟨s, rfl⟩ := h
  obtain ⟨s', h'⟩ := h'
  simp only [rowPrefix, List.append_assoc, List.append_cancel_left_eq] at h'
  obtain ⟨rfl, hrest⟩ := split_at (not_slash hd') (not_slash hd) h'
  obtain ⟨rfl, -⟩ := split_at (not_slash ht') (not_slash ht) hrest
  exact ⟨rfl, rfl⟩

lemma rowKey_inj {d t pk pk' : Bytes} : rowKey d t pk = rowKey d t pk' ↔ pk = pk' := by
  simp [rowKey]

lemma prefix_rowKey (d t pk : Bytes) : rowPrefix d t <+: rowKey d t pk := List.prefix_append _ _

lemma mem_scan {store : Store} {p : Bytes} {kv : Bytes × Bytes} :
    kv ∈ scan store p ↔ p <+: kv.1 ∧ store.find kv.1 = some kv.2 := by
  rw [scan, List.mem_filter, startsWith_iff, OrdMap.mem_entries, and_comm]

lemma decodeRow_encodeRow {row : Row} (hlen : row.length < 2 ^ 32)
    (hcells : ∀ v ∈ row, v.length < 2 ^ 32) : decodeRow (encodeRow row) = .ok row := by
  refine run_eq_ok.mpr ⟨[], ?_⟩
  refine (decodes_vec decodes_str _ _ _).mpr ⟨by rw [encodeRow, List.append_nil], hlen, hcells⟩

lemma decodeRow_small {blob : Bytes} {row : Row} (h : decodeRow blob = .ok row) :
    row.length < 2 ^ 32 ∧ ∀ v ∈ row, v.length < 2 ^ 32 := by
  obtain ⟨t, h⟩ := run_eq_ok.mp h
  exact ((decodes_vec decodes_str _ _ _).mp h).2

lemma readColumn_small {s t : Bytes} {c : ColumnDef}
    (h : TableSchema.readColumn s = .ok (c, t)) : SmallColumn c := by
  obtain ⟨name, _, hname, h⟩ := state_bind_eq_ok.mp h
  obtain ⟨type, _, -, h⟩ := state_bind_eq_ok.mp h
  obtain ⟨key, _, -, h⟩ := state_bind_eq_ok.mp h
  obtain ⟨has, _, -, h⟩ := state_bind_eq_ok.mp h
  by_cases hhas : has ≠ 0
  · rw [if_pos hhas] at h
    obtain ⟨default, _, hdefault, h⟩ := state_bind_eq_ok.mp h
    obtain ⟨v', hv', rfl⟩ := state_map_eq_ok.mp hdefault
    obtain ⟨rfl, rfl⟩ := state_pure_eq_ok.mp h
    refine ⟨((decodes_str _ _ _).mp hname).2, ?_⟩
    rintro _ ⟨⟩
    exact ((decodes_str _ _ _).mp hv').2
  · rw [if_neg hhas] at h
    obtain ⟨default, _, hdefault, h⟩ := state_bind_eq_ok.mp h
    obtain ⟨rfl, -⟩ := state_pure_eq_ok.mp hdefault
    obtain ⟨rfl, rfl⟩ := state_pure_eq_ok.mp h
    exact ⟨((decodes_str _ _ _).mp hname).2, nofun⟩

lemma num_flag (b : Bool) (t : Bytes) {err : Exception} :
    num err 1 (TableSchema.flag b ++ t) = .ok (b.toNat, t) := by
  refine (decodes_num 1 _ _ _).mpr ⟨?_, by cases b <;> decide⟩
  cases b <;> rfl

lemma readColumn_encodeColumn {c : ColumnDef} (hc : SmallColumn c) (t : Bytes) :
    TableSchema.readColumn (TableSchema.encodeColumn c ++ t) = .ok (c, t) := by
  obtain ⟨name, type, key, default⟩ := c
  have hname : ∀ t, str TableSchema.corrupt (encStr name ++ t) = .ok (name, t) :=
    fun t => (decodes_str _ _ _).mpr ⟨rfl, hc.name⟩
  have htype : (if (type == .kInt).toNat ≠ 0 then ColumnType.kInt else .kText) = type := by
    cases type <;> rfl
  have hkey : decide (key.toNat ≠ 0) = key := by cases key <;> rfl
  simp only [TableSchema.readColumn, TableSchema.encodeColumn, List.append_assoc]
  rw [state_bind_of_ok (hname _), state_bind_of_ok (num_flag _ _), state_bind_of_ok (num_flag _ _)]
  cases default with
  | none =>
    rw [state_bind_of_ok (num_flag _ _), htype, hkey]
    rfl
  | some v =>
    have hv : str TableSchema.corrupt (encStr v ++ t) = .ok (v, t) :=
      (decodes_str _ _ _).mpr ⟨rfl, hc.default v rfl⟩
    rw [List.append_assoc, state_bind_of_ok (num_flag _ _), htype, hkey]
    show (some <$> str TableSchema.corrupt >>= _ : Reader Exception ColumnDef) (encStr v ++ t) = _
    rw [state_bind_of_ok (state_map_eq_ok.mpr ⟨v, hv, rfl⟩)]
    rfl

lemma deserialize_small {blob : Bytes} {schema : TableSchema}
    (h : TableSchema.deserialize blob = .ok schema) :
    schema.columns.length < 2 ^ 32 ∧ ∀ c ∈ schema.columns, SmallColumn c := by
  obtain ⟨columns, hcolumns, h⟩ := bind_eq_ok.mp h
  obtain ⟨_, -, h⟩ := bind_eq_ok.mp h
  cases h
  obtain ⟨t, hcolumns⟩ := run_eq_ok.mp hcolumns
  exact vec_forall (fun _ _ _ => readColumn_small) hcolumns

lemma deserialize_serialize {schema schema' : TableSchema}
    (hsmall : ∀ c ∈ schema.columns, SmallColumn c) (hlen : schema.columns.length ≤ 2 ^ 32)
    (h : TableSchema.deserialize schema.serialize = .ok schema') : schema' = schema := by
  obtain ⟨columns, hcolumns, h⟩ := bind_eq_ok.mp h
  obtain ⟨_, hne, h⟩ := bind_eq_ok.mp h
  cases h
  obtain ⟨t, hcolumns⟩ := run_eq_ok.mp hcolumns
  rcases hlen.lt_or_eq with hlt | heq
  · have hread := vec_encVec TableSchema.corrupt
      (fun c hc t => readColumn_encodeColumn (hsmall c hc) t) hlt []
    rw [List.append_nil] at hread
    rw [TableSchema.serialize, hread] at hcolumns
    cases hcolumns
    rfl
  · -- the length is written as zero
    have hzero : le 4 schema.columns.length = le 4 0 := by
      rw [heq]
      decide
    rw [TableSchema.serialize, encVec, hzero, vec,
      state_bind_of_ok ((decodes_num 4 _ _ _).mpr ⟨rfl, by decide⟩)] at hcolumns
    cases hcolumns
    rw [throwIf, if_pos rfl] at hne
    cases hne

/-! ### Well-formed stores -/

/-- The row decodes, its table has a primary key column, which is the first one of its name, and
the key ends with the row's value in it. -/
def RowOf (schema : TableSchema) (d t key blob : Bytes) : Prop :=
  ∃ row idx pk, decodeRow blob = .ok row ∧ schema.primaryKeyIndex = some idx ∧
    row[idx]? = some pk ∧ key = rowKey d t pk ∧
    ∀ col, schema.columns[idx]? = some col → schema.columnIndex col.name = some idx

/-- Rows belong to a table, and each is stored under its own primary key. -/
structure WellStored (store : Store) : Prop where
  table : ∀ d t, IsName d → IsName t → ∀ key blob, rowPrefix d t <+: key →
    store.find key = some blob → store.find (schemaKey d t) ≠ none
  row : ∀ d t schema, IsName d → IsName t → loadSchema store d t = .ok schema →
    ∀ key blob, rowPrefix d t <+: key → store.find key = some blob → RowOf schema d t key blob

lemma wellStored_empty : WellStored .empty where
  table := by
    intro d t hd ht key blob hkey h
    cases h
  row := by
    intro d t schema hd ht hschema key blob hkey h
    cases h

lemma loadSchema_congr {store store' : Store} {d t : Bytes}
    (h : store'.find (schemaKey d t) = store.find (schemaKey d t)) :
    loadSchema store' d t = loadSchema store d t := by
  rw [loadSchema, loadSchema, h]

section

variable {store : Store}

lemma WellStored.other (h : WellStored store) {mu : Mutation}
    (hschema : ∀ d t, mu.record.key ≠ schemaKey d t)
    (hrow : ∀ d t, ¬ rowPrefix d t <+: mu.record.key) : WellStored (applyTo store mu) := by
  have hfind : ∀ {d t key}, rowPrefix d t <+: key →
      (applyTo store mu).find key = store.find key := by
    intro d t key hkey
    rw [find_applyTo, if_neg]
    rintro rfl
    exact hrow d t hkey
  have hkeep : ∀ d t, (applyTo store mu).find (schemaKey d t) = store.find (schemaKey d t) := by
    intro d t
    rw [find_applyTo, if_neg fun heq => hschema d t heq.symm]
  refine ⟨fun d t hd ht key blob hkey hblob => ?_,
    fun d t schema hd ht hload key blob hkey hblob => ?_⟩
  · rw [hkeep]
    exact h.table d t hd ht key blob hkey (hfind hkey ▸ hblob)
  · exact h.row d t schema hd ht (loadSchema_congr (hkeep d t) ▸ hload) key blob hkey
      (hfind hkey ▸ hblob)

lemma WellStored.write_row (h : WellStored store) {d t : Bytes} {schema : TableSchema}
    (hd : IsName d) (ht : IsName t) (hload : loadSchema store d t = .ok schema) {mu : Mutation}
    (hkey : rowPrefix d t <+: mu.record.key)
    (hrow : ∀ blob, entryOf mu.record = some blob → RowOf schema d t mu.record.key blob) :
    WellStored (applyTo store mu) := by
  have hkeep : ∀ d' t', (applyTo store mu).find (schemaKey d' t') =
    store.find (schemaKey d' t') := by
    intro d' t'
    rw [find_applyTo, if_neg fun heq => rowPrefix_ne_schemaKey hkey heq.symm]
  have hfound : store.find (schemaKey d t) ≠ none := by
    intro hnone
    rw [loadSchema, hnone] at hload
    cases hload
  refine ⟨fun d' t' hd' ht' key blob hkey' hblob => ?_,
    fun d' t' schema' hd' ht' hload' key blob hkey' hblob => ?_⟩
  · rw [hkeep]
    rw [find_applyTo] at hblob
    split_ifs at hblob with heq
    · obtain ⟨rfl, rfl⟩ := rowPrefix_inj hd ht hd' ht' hkey (heq ▸ hkey')
      exact hfound
    · exact h.table d' t' hd' ht' key blob hkey' hblob
  · rw [loadSchema_congr (hkeep d' t')] at hload'
    rw [find_applyTo] at hblob
    split_ifs at hblob with heq
    · subst heq
      obtain ⟨rfl, rfl⟩ := rowPrefix_inj hd ht hd' ht' hkey hkey'
      cases hload.symm.trans hload'
      exact hrow blob hblob
    · exact h.row d' t' schema' hd' ht' hload' key blob hkey' hblob

lemma WellStored.put_schema (h : WellStored store) {d t blob : Bytes} (hd : IsName d)
    (hrows : ∀ schema, TableSchema.deserialize blob = .ok schema → ∀ key row,
      IsName t → rowPrefix d t <+: key → store.find key = some row →
        RowOf schema d t key row) :
    WellStored (applyTo store (.put (schemaKey d t) blob)) := by
  have hfind : ∀ {d' t' key}, rowPrefix d' t' <+: key →
      (applyTo store (.put (schemaKey d t) blob)).find key = store.find key := by
    intro d' t' key hkey
    exact (find_applyTo _ _ _).trans (if_neg fun heq => rowPrefix_ne_schemaKey hkey heq)
  have hschema : ∀ key, (applyTo store (.put (schemaKey d t) blob)).find key =
      if key = schemaKey d t then some blob else store.find key := fun key => find_applyTo _ _ _
  refine ⟨fun d' t' hd' ht' key row hkey hrow => ?_,
    fun d' t' schema hd' ht' hload key row hkey hrow => ?_⟩
  · rw [hschema]
    split_ifs
    · simp
    · exact h.table d' t' hd' ht' key row hkey (hfind hkey ▸ hrow)
  · rw [hfind hkey] at hrow
    rw [loadSchema, hschema] at hload
    split_ifs at hload with heq
    · obtain ⟨rfl, rfl⟩ := schemaKey_inj hd' hd heq
      exact hrows schema hload key row ht' hkey hrow
    · exact h.row d' t' schema hd' ht' hload key row hkey hrow

end

/-! ### Statements -/

lemma RowOf.extend {schema : TableSchema} {d t key blob : Bytes} (h : RowOf schema d t key blob)
    (col : ColumnDef) : RowOf ⟨schema.columns ++ [col]⟩ d t key blob := by
  obtain ⟨row, idx, pk, hrow, hidx, hpk, hkey, hfirst⟩ := h
  have hlt := primaryKeyIndex_lt hidx
  refine ⟨row, idx, pk, hrow, ?_, hpk, hkey, fun c hc => ?_⟩
  · rw [TableSchema.primaryKeyIndex, List.findIdx?_append]
    rw [TableSchema.primaryKeyIndex] at hidx
    rw [hidx]
    rfl
  · rw [List.getElem?_append_left hlt] at hc
    have hname := hfirst c hc
    rw [TableSchema.columnIndex, List.findIdx?_append]
    rw [TableSchema.columnIndex] at hname
    rw [hname]
    rfl

lemma loadSchema_small {store : Store} {d t : Bytes} {schema : TableSchema}
    (h : loadSchema store d t = .ok schema) :
    schema.columns.length < 2 ^ 32 ∧ ∀ c ∈ schema.columns, SmallColumn c := by
  unfold loadSchema at h
  split at h
  · cases h
  · exact deserialize_small h

/-- A row that satisfies the `WHERE`: what is stored, and the defaults of later columns. -/
lemma matchRow_spec {schema : TableSchema} {whereClause : List Condition} {blob : Bytes} {row : Row}
    (h : matchRow schema whereClause blob = .ok (some row)) :
    matchesWhere schema row whereClause = .ok true ∧ ∃ stored missing,
      decodeRow blob = .ok stored ∧ row = stored ++ missing ∧
      missing.length = schema.columns.length - stored.length ∧
      ∀ v ∈ missing, ∃ c ∈ schema.columns, c.defaultValue = some v := by
  obtain ⟨stored, hstored, h⟩ := bind_eq_ok.mp h
  obtain ⟨padded, hpadded, h⟩ := bind_eq_ok.mp h
  obtain ⟨found, hfound, h⟩ := bind_eq_ok.mp h
  cases found with
  | false => cases h
  | true =>
    cases h
    obtain ⟨missing, hmissing, hpad⟩ := bind_eq_ok.mp hpadded
    cases hpad
    refine ⟨hfound, stored, missing, hstored, rfl, by simpa using length_mapM hmissing, ?_⟩
    intro v hv
    obtain ⟨c, hc, hdefault⟩ := mem_mapM hmissing v hv
    refine ⟨c, List.mem_of_mem_drop hc, ?_⟩
    cases hd : c.defaultValue with
    | none =>
      rw [hd] at hdefault
      cases hdefault
    | some v' =>
      rw [hd] at hdefault
      cases hdefault
      rfl

lemma matchRow_small {schema : TableSchema} {whereClause : List Condition} {blob : Bytes}
    {row : Row}
    (hschema : schema.columns.length < 2 ^ 32 ∧ ∀ c ∈ schema.columns, SmallColumn c)
    (h : matchRow schema whereClause blob = .ok (some row)) :
    row.length < 2 ^ 32 ∧ ∀ v ∈ row, v.length < 2 ^ 32 := by
  obtain ⟨-, stored, missing, hstored, rfl, hlen, hmissing⟩ := matchRow_spec h
  obtain ⟨hslen, hcells⟩ := decodeRow_small hstored
  refine ⟨?_, fun v hv => ?_⟩
  · have := hschema.1
    simp only [List.length_append]
    omega
  · rcases List.mem_append.mp hv with hv | hv
    · exact hcells v hv
    · obtain ⟨c, hc, hdefault⟩ := hmissing v hv
      exact (hschema.2 c hc).default v hdefault

lemma assign_cells {as : List (ℕ × Bytes)} {row row' : Row} (h : assign as row = .ok row')
    {i : ℕ} {v : Bytes} (hv : row'[i]? = some v) : row[i]? = some v ∨ (i, v) ∈ as := by
  induction as generalizing row with
  | nil =>
    cases h
    exact .inl hv
  | cons a as ih =>
    obtain ⟨j, literal⟩ := a
    rw [assign] at h
    split_ifs at h with hlt
    rcases ih h with hset | hmem
    · by_cases heq : j = i
      · subst heq
        rw [List.getElem?_set_self hlt] at hset
        cases hset
        exact .inr List.mem_cons_self
      · rw [List.getElem?_set_ne heq] at hset
        exact .inl hset
    · exact .inr (List.mem_cons_of_mem _ hmem)

lemma assign_spec {as : List (ℕ × Bytes)} {row row' : Row} (h : assign as row = .ok row') :
    row'.length = row.length ∧ (∀ v ∈ row', v ∈ row ∨ ∃ a ∈ as, a.2 = v) ∧
      ∀ idx, (∀ a ∈ as, a.1 ≠ idx) → row'[idx]? = row[idx]? := by
  have hcells : ∀ v ∈ row', v ∈ row ∨ ∃ a ∈ as, a.2 = v := by
    intro v hv
    obtain ⟨i, hi⟩ := List.mem_iff_getElem?.mp hv
    rcases assign_cells h hi with hold | hnew
    · exact .inl (List.mem_of_getElem? hold)
    · exact .inr ⟨(i, v), hnew, rfl⟩
  suffices hrest : row'.length = row.length ∧
      ∀ idx, (∀ a ∈ as, a.1 ≠ idx) →
        row'[idx]? = row[idx]? from ⟨hrest.1, hcells, hrest.2⟩
  clear hcells
  induction as generalizing row with
  | nil =>
    cases h
    exact ⟨rfl, fun _ _ => rfl⟩
  | cons a as ih =>
    obtain ⟨i, literal⟩ := a
    rw [assign] at h
    split_ifs at h with hlt
    obtain ⟨hlen, hkeep⟩ := ih h
    refine ⟨by simpa using hlen, fun idx hidx => ?_⟩
    obtain ⟨hne, hrest⟩ := List.forall_mem_cons.mp hidx
    rw [hkeep idx hrest, List.getElem?_set_ne hne]

lemma checkAssignment_spec {schema : TableSchema} {a : Bytes × Bytes} {b : ℕ × Bytes}
    (h : checkAssignment schema a = .ok b) : some b.1 ≠ schema.primaryKeyIndex ∧ b.2 = a.2 := by
  obtain ⟨idx, -, h⟩ := bind_eq_ok.mp h
  obtain ⟨_, hpk, h⟩ := bind_eq_ok.mp h
  obtain ⟨_, -, h⟩ := bind_eq_ok.mp h
  obtain ⟨_, -, h⟩ := bind_eq_ok.mp h
  cases h
  refine ⟨fun heq => ?_, rfl⟩
  rw [throwIf, if_pos heq] at hpk
  cases hpk

/-- The row an `INSERT` stores: its cells are the given values, each in the column it is for. -/
lemma insertRow_cells {schema : TableSchema} {s : InsertStatement} {row : Row} {pk : Bytes}
    (hlen : s.columns.length = s.values.length) (h : insertRow schema s = .ok (row, pk)) :
    row.length = schema.columns.length ∧ ∀ i v, row[i]? = some v →
      ∃ column, (column, v) ∈ s.columns.zip s.values ∧
        schema.columnIndex column = some i := by
  have hfits := insertRow_succeeds.mp ⟨_, h⟩
  obtain ⟨_, -, h⟩ := bind_eq_ok.mp h
  obtain ⟨filled, hfill, h⟩ := bind_eq_ok.mp h
  obtain ⟨hflen, hset, -⟩ := fillRow_spec List.length_replicate hfill
  rw [List.length_replicate] at hflen
  obtain ⟨idx, hpk⟩ := Option.isSome_iff_exists.mp hfits.pk
  rw [hpk] at h
  obtain ⟨pk', -, h⟩ := bind_eq_ok.mp h
  obtain ⟨rfl, rfl⟩ := Prod.mk.inj (Except.ok.inj h)
  refine ⟨by simpa using hflen, fun i v hv => ?_⟩
  have hi : i < schema.columns.length := by
    obtain ⟨hi, -⟩ := List.getElem?_eq_some_iff.mp hv
    rwa [List.length_map, hflen] at hi
  obtain ⟨cv, hcv, hidx⟩ := exists_of_insertFits hlen hfits hi
  rw [List.getElem?_map, hset cv hcv i hidx] at hv
  cases hv
  exact ⟨cv.1, hcv, hidx⟩

lemma insertRow_spec {schema : TableSchema} {s : InsertStatement} {row : Row} {pk : Bytes}
    (hlen : s.columns.length = s.values.length) (h : insertRow schema s = .ok (row, pk)) :
    row.length = schema.columns.length ∧ (∀ v ∈ row, v ∈ s.values) ∧
      ∃ idx, schema.primaryKeyIndex = some idx ∧ row[idx]? = some pk := by
  obtain ⟨hrlen, hcells⟩ := insertRow_cells hlen h
  refine ⟨hrlen, fun v hv => ?_, ?_⟩
  · obtain ⟨i, hi⟩ := List.mem_iff_getElem?.mp hv
    obtain ⟨column, hmem, -⟩ := hcells i v hi
    exact (List.of_mem_zip hmem).2
  · obtain ⟨_, -, h⟩ := bind_eq_ok.mp h
    obtain ⟨filled, -, h⟩ := bind_eq_ok.mp h
    cases hpk : schema.primaryKeyIndex with
    | none =>
      rw [hpk] at h
      cases h
    | some idx =>
      rw [hpk] at h
      obtain ⟨pk', hcell, h⟩ := bind_eq_ok.mp h
      obtain ⟨rfl, rfl⟩ := Prod.mk.inj (Except.ok.inj h)
      refine ⟨idx, rfl, ?_⟩
      unfold cell at hcell
      split at hcell
      · rename_i v hv
        cases hcell
        exact hv
      · cases hcell

lemma mem_writeRows {schema : TableSchema} {whereClause : List Condition}
    {write : Bytes → Row → Except Exception Mutation} {rows : List (Bytes × Bytes)}
    {mu : Mutation} (h : mu ∈ (writeRows schema whereClause write rows).1) :
    ∃ kv ∈ rows, ∃ row, matchRow schema whereClause kv.2 = .ok (some row) ∧
      write kv.1 row = .ok mu := by
  induction rows with
  | nil => cases h
  | cons kv rows ih =>
    obtain ⟨key, blob⟩ := kv
    have hrest : mu ∈ (writeRows schema whereClause write rows).1 →
        ∃ kv ∈ (key, blob) :: rows,
          ∃ row, matchRow schema whereClause kv.2 = .ok (some row) ∧
            write kv.1 row = .ok mu := by
      intro h
      obtain ⟨kv, hkv, hrow⟩ := ih h
      exact ⟨kv, List.mem_cons_of_mem _ hkv, hrow⟩
    rw [writeRows] at h
    rcases hmatch : matchRow schema whereClause blob with e | _ | row
    · rw [hmatch] at h
      cases h
    · rw [hmatch] at h
      exact hrest h
    · rw [hmatch] at h
      rcases hwrite : write key row with e | mu'
      · simp only [hwrite] at h
        cases h
      · simp only [hwrite, List.mem_cons] at h
        rcases h with rfl | h
        · exact ⟨_, List.mem_cons_self, row, hmatch, hwrite⟩
        · exact hrest h

section

variable {store : Store}

lemma WellStored.write_rows (h : WellStored store) {d t : Bytes} {schema : TableSchema}
    (hd : IsName d) (ht : IsName t) (hload : loadSchema store d t = .ok schema)
    {writes : List Mutation} (hwrites : ∀ mu ∈ writes, rowPrefix d t <+: mu.record.key ∧
      ∀ blob, entryOf mu.record = some blob → RowOf schema d t mu.record.key blob) :
    WellStored (applyAll store writes) := by
  induction writes generalizing store with
  | nil => exact h
  | cons mu writes ih =>
    obtain ⟨⟨hkey, hrow⟩, hwrites⟩ := List.forall_mem_cons.mp hwrites
    refine ih (h.write_row hd ht hload hkey hrow) ?_ hwrites
    rw [loadSchema_congr, hload]
    exact (find_applyTo _ _ _).trans (if_neg fun heq => rowPrefix_ne_schemaKey hkey heq.symm)

lemma WellStored.ofWrite (h : WellStored store) {r : Except Exception (Mutation × Bytes)}
    (hmu : ∀ mu out, r = .ok (mu, out) → WellStored (applyTo store mu)) :
    WellStored (applyAll store (Effect.ofWrite r).1) := by
  rcases r with e | ⟨mu, out⟩
  · exact h
  · exact hmu mu out rfl

lemma WellStored.executeInsert (h : WellStored store) {s : InsertStatement}
    (hs : Written (.insert s)) (hlen : s.columns.length = s.values.length) :
    WellStored (applyAll store (executeInsert store s).1) := by
  obtain ⟨⟨hd, ht⟩, hvalues⟩ := hs
  refine h.ofWrite fun mu out hmu => ?_
  obtain ⟨schema, hschema, hmu⟩ := bind_eq_ok.mp hmu
  obtain ⟨⟨row, pk⟩, hinsert, hmu⟩ := bind_eq_ok.mp hmu
  obtain ⟨_, -, hmu⟩ := bind_eq_ok.mp hmu
  cases hmu
  have hfits := insertRow_succeeds.mp ⟨_, hinsert⟩
  obtain ⟨hrlen, hcells, idx, hidx, hpk⟩ := insertRow_spec hlen hinsert
  refine h.write_row hd ht hschema (prefix_rowKey _ _ _) ?_
  rintro blob hblob
  obtain rfl : encodeRow row = blob := Option.some.inj hblob
  refine ⟨row, idx, pk, decodeRow_encodeRow ?_ fun v hv => hvalues v (hcells v hv), hidx, hpk,
    rfl, fun col hcol => ?_⟩
  · rw [hrlen]
    exact (loadSchema_small hschema).1
  · -- the INSERT names the column, so its name is the name of no column before it
    obtain ⟨cv, hcv, hcolumn⟩ := exists_of_insertFits hlen hfits (primaryKeyIndex_lt hidx)
    obtain ⟨hlt, hname, -⟩ := List.findIdx?_eq_some_iff_getElem.mp hcolumn
    rw [List.getElem?_eq_getElem hlt] at hcol
    cases hcol
    rw [beq_iff_eq.mp hname]
    exact hcolumn

lemma WellStored.ofRows (h : WellStored store)
    {r : Except Exception (List Mutation × Except Exception ℕ)} {what : Bytes}
    (hwrites : ∀ writes count, r = .ok (writes, count) → WellStored (applyAll store writes)) :
    WellStored (applyAll store (Effect.ofRows r what).1) := by
  rcases r with e | ⟨writes, count⟩
  · exact h
  · exact hwrites writes count rfl

lemma WellStored.executeUpdate (h : WellStored store) {s : UpdateStatement}
    (hs : Written (.update s)) : WellStored (applyAll store (executeUpdate store s).1) := by
  obtain ⟨⟨hd, ht⟩, hliterals⟩ := hs
  refine h.ofRows fun writes count hr => ?_
  obtain ⟨schema, hschema, hr⟩ := bind_eq_ok.mp hr
  obtain ⟨assignments, has, hr⟩ := bind_eq_ok.mp hr
  obtain ⟨rfl, rfl⟩ := Prod.mk.inj (Except.ok.inj hr)
  have hsmall := loadSchema_small hschema
  refine h.write_rows hd ht hschema fun mu hmu => ?_
  obtain ⟨⟨key, blob⟩, hkv, row, hmatch, hwrite⟩ := mem_writeRows hmu
  obtain ⟨hkey, hblob⟩ := mem_scan.mp hkv
  have hmukey := rewrite_key hwrite
  rcases hassign : assign assignments row with e | row'
  · rw [hassign] at hwrite
    cases hwrite
  rw [hassign] at hwrite
  cases hwrite
  obtain ⟨hlen, hcells, hkeep⟩ := assign_spec hassign
  obtain ⟨hrlen, hrcells⟩ := matchRow_small hsmall hmatch
  obtain ⟨-, stored, missing, hstored, rfl, -⟩ := matchRow_spec hmatch
  obtain ⟨stored', idx, pk, hstored', hidx, hpk, hrowKey, hfirst⟩ :=
    h.row _ _ _ hd ht hschema key blob hkey hblob
  cases hstored.symm.trans hstored'
  have hspec : ∀ a ∈ assignments, a.1 ≠ idx ∧ a.2.length < 2 ^ 32 := by
    intro a ha
    obtain ⟨a', ha', hcheck⟩ := mem_mapM has a ha
    obtain ⟨hne, heq⟩ := checkAssignment_spec hcheck
    exact ⟨fun h => hne (by rw [h, hidx]), heq ▸ hliterals a' ha'⟩
  refine ⟨hkey, ?_⟩
  rintro blob' hblob'
  obtain rfl : encodeRow row' = blob' := Option.some.inj hblob'
  refine ⟨row', idx, pk, decodeRow_encodeRow (hlen ▸ hrlen) fun v hv => ?_, hidx, ?_,
    hrowKey, hfirst⟩
  · rcases hcells v hv with hv | ⟨a, ha, rfl⟩
    · exact hrcells v hv
    · exact (hspec a ha).2
  · rw [hkeep idx fun a ha => (hspec a ha).1]
    obtain ⟨hlt, -⟩ := List.getElem?_eq_some_iff.mp hpk
    rw [List.getElem?_append_left hlt, hpk]

lemma WellStored.executeDelete (h : WellStored store) {s : DeleteStatement}
    (hs : Written (.delete s)) : WellStored (applyAll store (executeDelete store s).1) := by
  obtain ⟨hd, ht⟩ := hs
  refine h.ofRows fun writes count hr => ?_
  obtain ⟨schema, hschema, hr⟩ := bind_eq_ok.mp hr
  obtain ⟨rfl, rfl⟩ := Prod.mk.inj (Except.ok.inj hr)
  refine h.write_rows hd ht hschema fun mu hmu => ?_
  obtain ⟨⟨key, blob⟩, hkv, row, -, hwrite⟩ := mem_writeRows hmu
  cases hwrite
  exact ⟨(mem_scan.mp hkv).1, nofun⟩

lemma WellStored.executeCreateTable (h : WellStored store) {s : CreateTableStatement}
    (hs : Written (.createTable s)) :
    WellStored (applyAll store (executeCreateTable store s).1) := by
  obtain ⟨hd, ht⟩ := hs
  refine h.ofWrite fun mu out hmu => ?_
  obtain ⟨_, -, hmu⟩ := bind_eq_ok.mp hmu
  obtain ⟨_, hnew, hmu⟩ := bind_eq_ok.mp hmu
  cases hmu
  refine h.put_schema hd fun schema _ key row _ hkey hrow => ?_
  -- a table that is not there has no rows
  have hold := h.table _ _ hd ht key row hkey hrow
  rw [throwIf, if_pos hold] at hnew
  cases hnew

lemma WellStored.executeAlterTable (h : WellStored store) {s : AlterTableAddColumnStatement}
    (hs : Written (.alterTableAddColumn s)) :
    WellStored (applyAll store (executeAlterTableAddColumn store s).1) := by
  obtain ⟨⟨hd, ht⟩, hcolumn⟩ := hs
  refine h.ofWrite fun mu out hmu => ?_
  obtain ⟨schema, hschema, hmu⟩ := bind_eq_ok.mp hmu
  obtain ⟨_, -, hmu⟩ := bind_eq_ok.mp hmu
  obtain ⟨hlen, hsmall⟩ := loadSchema_small hschema
  cases hdefault : s.column.defaultValue with
  | none =>
    rw [hdefault] at hmu
    cases hmu
  | some v =>
    rw [hdefault] at hmu
    obtain ⟨_, -, hmu⟩ := bind_eq_ok.mp hmu
    cases hmu
    refine h.put_schema hd fun schema' hread key row _ hkey hrow => ?_
    have heq := @deserialize_serialize ⟨schema.columns ++ [s.column]⟩ _
      (by simpa [or_imp, forall_and] using ⟨hsmall, hcolumn⟩) (by simp; omega) hread
    rw [heq]
    exact (h.row _ _ _ hd ht hschema key row hkey hrow).extend s.column

lemma WellStored.executeCreateDatabase (h : WellStored store) (s : CreateDatabaseStatement) :
    WellStored (applyAll store (executeCreateDatabase store s).1) := by
  refine h.ofWrite fun mu out hmu => ?_
  obtain ⟨_, -, hmu⟩ := bind_eq_ok.mp hmu
  cases hmu
  exact h.other (fun d t => (schemaKey_ne_databaseKey d t s.name).symm)
    fun d t hkey => rowPrefix_ne_databaseKey hkey rfl

/-- **One statement keeps a store well-formed**, whether it throws or not. -/
theorem WellStored.execute (h : WellStored store) {sql : Bytes} (hsql : sql.length < 2 ^ 32) :
    WellStored (applyAll store (execute store sql).1) := by
  unfold SqlExecutor.execute
  rcases hparse : parse sql with e | stmt
  · exact h
  have hwritten := parse_written hparse hsql
  cases stmt with
  | createDatabase s => exact h.executeCreateDatabase s
  | createTable s => exact h.executeCreateTable hwritten
  | alterTableAddColumn s => exact h.executeAlterTable hwritten
  | insert s => exact h.executeInsert hwritten (parse_insert hparse)
  | select s => exact h
  | update s => exact h.executeUpdate hwritten
  | delete s => exact h.executeDelete hwritten
  | showTables s => exact h
  | showDatabases => exact h

end

/-- **Every store the statements leave is well-formed**. -/
theorem runAll_wellStored {store : Store} (h : WellStored store) {sqls : List Bytes}
    (hsqls : ∀ sql ∈ sqls, sql.length < 2 ^ 32) : WellStored (runAll store sqls) := by
  induction sqls generalizing store with
  | nil => exact h
  | cons sql sqls ih =>
    obtain ⟨hsql, hsqls⟩ := List.forall_mem_cons.mp hsqls
    exact ih (h.execute hsql) hsqls

end DistDB.SqlStore
