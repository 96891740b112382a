import Mathlib.Data.List.Sort
import DistDB.SqlStore

/-!
Tables do not interfere. All tables, schemas and databases are in one key space and are told
apart by prefixes only; names hold no `/`, whatever the primary keys are, so no key of one table
falls under a prefix of another (`KeysApart`).

A statement reads and writes the keys of its own table only. So a statement on one table leaves
every other statement as it was, what it returns and what it writes (`no_interference`).
-/

namespace DistDB.SqlFrame

open SqlLexer SqlParser SqlGrammar SqlTexts SqlExecutor SqlAtomic SqlStore WalModel EngineMap
open Checks Bytes OrdMap

/-- The table a statement reads or writes. -/
def targetOf : Statement → Option (Bytes × Bytes)
  | .createTable s => some (s.dbName, s.tableName)
  | .alterTableAddColumn s => some (s.dbName, s.tableName)
  | .insert s => some (s.dbName, s.tableName)
  | .select s => some (s.dbName, s.tableName)
  | .update s => some (s.dbName, s.tableName)
  | .delete s => some (s.dbName, s.tableName)
  | .showTables _ | .createDatabase _ | .showDatabases => none

lemma parse_derives {sql : Bytes} {stmt : Statement} (h : parse sql = .ok stmt) :
    ∃ body, Derives body stmt ∧ ∀ tok ∈ body, TokenFits sql.length tok.type tok.text := by
  obtain ⟨tokens, rest, htokens, body, tail, hbody, -, rfl, -⟩ := parse_iff.mp h
  exact ⟨body, hbody, fun tok htok => tokenize_fits htokens tok (List.mem_append_left _ htok)⟩

lemma parse_words {sql : Bytes} {stmt : Statement} (h : parse sql = .ok stmt) :
    ∃ body, Derives body stmt ∧ ∀ tok ∈ body, tok.type = .kIdentifier →
      IsWord tok.text := by
  obtain ⟨tokens, rest, htokens, body, tail, hbody, -, rfl, -⟩ := parse_iff.mp h
  exact ⟨body, hbody, fun tok htok => tokenize_words htokens tok (List.mem_append_left _ htok)⟩

lemma target_words {sql : Bytes} {stmt : Statement} {d t : Bytes} (hparse : parse sql = .ok stmt)
    (htarget : targetOf stmt = some (d, t)) : IsWord d ∧ IsWord t := by
  obtain ⟨body, hbody, hwords⟩ := parse_words hparse
  cases hbody with
  | createTable _ _ htable | alterTable _ _ htable | insert _ _ htable | delete _ _ htable =>
    cases htarget
    exact TableName.words htable fun tok htok => hwords tok (by simp [htok])
  | select _ _ _ htable =>
    cases htarget
    exact TableName.words htable fun tok htok => hwords tok (by simp [htok])
  | update _ htable =>
    cases htarget
    exact TableName.words htable fun tok htok => hwords tok (by simp [htok])
  | createDatabase | showTables | showDatabases => cases htarget

lemma target_names {sql : Bytes} {stmt : Statement} {d t : Bytes} (hparse : parse sql = .ok stmt)
    (htarget : targetOf stmt = some (d, t)) : IsName d ∧ IsName t :=
  (target_words hparse htarget).imp IsWord.name IsWord.name

lemma showTables_name {sql : Bytes} {s : ShowTablesStatement}
    (hparse : parse sql = .ok (.showTables s)) : IsName s.dbName := by
  obtain ⟨body, hbody, hfits⟩ := parse_derives hparse
  cases hbody with
  | @showTables _ _ _ n _ _ _ hname => exact (hfits n (by simp)).1 hname

/-- The prefix under which the tables of a database are listed. -/
def schemaPrefix (d : Bytes) : Bytes := text "__schema__/" ++ d ++ text "/"

def databasePrefix : Bytes := text "__database__/"

/-- The keys of a table: its schema and its rows. -/
def Owns (d t key : Bytes) : Prop := key = schemaKey d t ∨ rowPrefix d t <+: key

lemma third_rowPrefix {d t key : Bytes} (h : rowPrefix d t <+: key) : key[2]? = some (chr 'r') := by
  obtain ⟨s, rfl⟩ := h
  rfl

lemma third_schemaPrefix {d key : Bytes} (h : schemaPrefix d <+: key) :
    key[2]? = some (chr 's') := by
  obtain ⟨s, rfl⟩ := h
  rfl

lemma third_databasePrefix {key : Bytes} (h : databasePrefix <+: key) :
    key[2]? = some (chr 'd') := by
  obtain ⟨s, rfl⟩ := h
  rfl

lemma prefix_schemaKey (d t : Bytes) : schemaPrefix d <+: schemaKey d t := List.prefix_append _ _

lemma prefix_databaseKey (n : Bytes) : databasePrefix <+: databaseKey n := List.prefix_append _ _

lemma schemaPrefix_inj {d d' t : Bytes} (hd : IsName d) (hd' : IsName d')
    (h : schemaPrefix d' <+: schemaKey d t) : d = d' := by
  obtain ⟨s, hs⟩ := h
  simp only [schemaPrefix, schemaKey, List.append_assoc, List.append_cancel_left_eq] at hs
  exact (split_at (not_slash hd') (not_slash hd) hs).1.symm

/-- No key of the table `(d, t)` is one of `(d', t')` or falls under a prefix of it. -/
structure KeysApart (d t d' t' : Bytes) : Prop where
  row : ∀ pk pk', rowKey d t pk ≠ rowKey d' t' pk'
  schema : schemaKey d t ≠ schemaKey d' t'
  rowSchema : ∀ pk, rowKey d t pk ≠ schemaKey d' t'
  rowDatabase : ∀ pk n, rowKey d t pk ≠ databaseKey n
  schemaDatabase : ∀ n, schemaKey d t ≠ databaseKey n
  rowScan : ∀ pk, ¬ rowPrefix d' t' <+: rowKey d t pk
  rowScanSchema : ¬ rowPrefix d' t' <+: schemaKey d t
  rowScanDatabase : ∀ n, ¬ rowPrefix d' t' <+: databaseKey n
  schemaScan : d ≠ d' → ¬ schemaPrefix d' <+: schemaKey d t
  schemaScanRow : ∀ pk, ¬ schemaPrefix d' <+: rowKey d t pk
  schemaScanDatabase : ∀ n, ¬ schemaPrefix d' <+: databaseKey n
  databaseScanRow : ∀ pk, ¬ databasePrefix <+: rowKey d t pk
  databaseScanSchema : ¬ databasePrefix <+: schemaKey d t

lemma keysApart {d t d' t' : Bytes} (hd : IsName d) (ht : IsName t) (hd' : IsName d')
    (ht' : IsName t') (hne : (d', t') ≠ (d, t)) : KeysApart d t d' t' := by
  have hkinds : ∀ {key : Bytes} {c c' : UInt8}, c ≠ c' → key[2]? = some c →
      key[2]? ≠ some c' :=
    fun hc h h' => hc (Option.some.inj (h.symm.trans h'))
  have hrow : ∀ pk, ¬ rowPrefix d' t' <+: rowKey d t pk := fun pk h => hne (by
    obtain ⟨rfl, rfl⟩ := rowPrefix_inj hd ht hd' ht' (prefix_rowKey d t pk) h
    rfl)
  have hr := fun pk => third_rowPrefix (prefix_rowKey d t pk)
  have hs := third_schemaPrefix (prefix_schemaKey d t)
  have hb := fun n => third_databasePrefix (prefix_databaseKey n)
  refine {
    row := fun pk pk' h => hrow pk (h ▸ prefix_rowKey d' t' pk')
    schema := fun h => hne (by obtain ⟨rfl, rfl⟩ := schemaKey_inj hd hd' h; rfl)
    rowSchema := fun pk => rowPrefix_ne_schemaKey (prefix_rowKey d t pk)
    rowDatabase := fun pk n => rowPrefix_ne_databaseKey (prefix_rowKey d t pk)
    schemaDatabase := schemaKey_ne_databaseKey d t
    rowScan := hrow
    rowScanSchema := fun h => hkinds (by decide) hs (third_rowPrefix h)
    rowScanDatabase := fun n h => hkinds (by decide) (hb n) (third_rowPrefix h)
    schemaScan := fun hdd h => hdd (schemaPrefix_inj hd hd' h)
    schemaScanRow := fun pk h => hkinds (by decide) (hr pk) (third_schemaPrefix h)
    schemaScanDatabase := fun n h => hkinds (by decide) (hb n) (third_schemaPrefix h)
    databaseScanRow := fun pk h => hkinds (by decide) (hr pk) (third_databasePrefix h)
    databaseScanSchema := fun h => hkinds (by decide) hs (third_databasePrefix h) }

lemma database_not_owned (d t n : Bytes) : ¬ Owns d t (databaseKey n) := by
  rintro (h | h)
  · exact schemaKey_ne_databaseKey d t n h.symm
  · exact rowPrefix_ne_databaseKey h rfl

lemma schema_not_owned {d t d' t' : Bytes} (hd : IsName d) (hd' : IsName d')
    (hne : (d', t') ≠ (d, t)) : ¬ Owns d t (schemaKey d' t') := by
  rintro (h | h)
  · obtain ⟨rfl, rfl⟩ := schemaKey_inj hd' hd h
    exact hne rfl
  · exact rowPrefix_ne_schemaKey h rfl

lemma owned_once {d t d' t' key : Bytes} (hd : IsName d) (ht : IsName t) (hd' : IsName d')
    (ht' : IsName t') (hne : (d', t') ≠ (d, t)) (hkey : Owns d' t' key) : ¬ Owns d t key := by
  rcases hkey with rfl | hkey
  · exact schema_not_owned hd hd' hne
  · rintro (rfl | h)
    · exact rowPrefix_ne_schemaKey hkey rfl
    · obtain ⟨rfl, rfl⟩ := rowPrefix_inj hd ht hd' ht' h hkey
      exact hne rfl

/-! ### What a statement writes -/

lemma writes_cases {store : Store} {stmt : Statement} {d t : Bytes}
    (htarget : targetOf stmt = some (d, t)) :
    (∃ blob, (executeStatement store stmt).1 = [.put (schemaKey d t) blob]) ∨
      ∀ mu ∈ (executeStatement store stmt).1, rowPrefix d t <+: mu.record.key := by
  have hrows : ∀ {schema whereClause} {write : Bytes → Row → Except Exception Mutation},
      (∀ key row mu, write key row = .ok mu → mu.record.key = key) →
      ∀ mu ∈ (writeRows schema whereClause write (scan store (rowPrefix d t))).1,
        rowPrefix d t <+: mu.record.key := by
    intro schema whereClause write hwrite mu hmu
    obtain ⟨kv, hkv, row, -, hrow⟩ := mem_writeRows hmu
    exact hwrite _ _ _ hrow ▸ (mem_scan.mp hkv).1
  cases stmt with
  | createTable s =>
    cases htarget
    simp only [executeStatement, executeCreateTable, Effect.ofWrite]
    split
    · exact .inr (List.forall_mem_nil _)
    · rename_i mu out hr
      obtain ⟨_, -, hr⟩ := bind_eq_ok.mp hr
      obtain ⟨_, -, hr⟩ := bind_eq_ok.mp hr
      cases hr
      exact .inl ⟨_, rfl⟩
  | alterTableAddColumn s =>
    cases htarget
    simp only [executeStatement, executeAlterTableAddColumn, Effect.ofWrite]
    split
    · exact .inr (List.forall_mem_nil _)
    · rename_i mu out hr
      obtain ⟨schema, -, hr⟩ := bind_eq_ok.mp hr
      obtain ⟨_, -, hr⟩ := bind_eq_ok.mp hr
      split at hr
      · cases hr
      · obtain ⟨_, -, hr⟩ := bind_eq_ok.mp hr
        cases hr
        exact .inl ⟨_, rfl⟩
  | insert s =>
    cases htarget
    simp only [executeStatement, executeInsert, Effect.ofWrite]
    split
    · exact .inr (List.forall_mem_nil _)
    · rename_i mu out hr
      obtain ⟨schema, -, hr⟩ := bind_eq_ok.mp hr
      obtain ⟨⟨row, pk⟩, -, hr⟩ := bind_eq_ok.mp hr
      obtain ⟨_, -, hr⟩ := bind_eq_ok.mp hr
      cases hr
      exact .inr (List.forall_mem_singleton.mpr (prefix_rowKey _ _ _))
  | select s => exact .inr (List.forall_mem_nil _)
  | update s =>
    cases htarget
    simp only [executeStatement, executeUpdate, Effect.ofRows]
    split
    · exact .inr (List.forall_mem_nil _)
    · rename_i writes count hr
      obtain ⟨schema, -, hr⟩ := bind_eq_ok.mp hr
      obtain ⟨assignments, -, hr⟩ := bind_eq_ok.mp hr
      obtain ⟨rfl, rfl⟩ := Prod.mk.inj (Except.ok.inj hr)
      exact .inr (hrows fun _ _ _ => rewrite_key)
  | delete s =>
    cases htarget
    simp only [executeStatement, executeDelete, Effect.ofRows]
    split
    · exact .inr (List.forall_mem_nil _)
    · rename_i writes count hr
      obtain ⟨schema, -, hr⟩ := bind_eq_ok.mp hr
      obtain ⟨rfl, rfl⟩ := Prod.mk.inj (Except.ok.inj hr)
      exact .inr (hrows (by rintro key row mu ⟨⟩; rfl))
  | showTables s | createDatabase s | showDatabases => cases htarget

lemma find_executed {store : Store} {stmt : Statement} {d t : Bytes}
    (htarget : targetOf stmt = some (d, t)) {key : Bytes} (hkey : ¬ Owns d t key) :
    (applyAll store (executeStatement store stmt).1).find key = store.find key := by
  refine find_applyAll fun mu hmu heq => hkey ?_
  rcases @writes_cases store _ _ _ htarget with ⟨blob, hput⟩ | hrows
  · rw [hput] at hmu
    obtain rfl := List.mem_singleton.mp hmu
    exact .inl heq.symm
  · exact .inr (heq ▸ hrows mu hmu)

lemma schema_stays {store : Store} {stmt : Statement} {d t : Bytes}
    (htarget : targetOf stmt = some (d, t)) (h : store.find (schemaKey d t) ≠ none) :
    (applyAll store (executeStatement store stmt).1).find (schemaKey d t) ≠ none := by
  rcases @writes_cases store _ _ _ htarget with ⟨blob, hput⟩ | hrows
  · rw [hput]
    show (store.insert (schemaKey d t) blob).find (schemaKey d t) ≠ none
    rw [find_insert_self]
    exact Option.some_ne_none blob
  · rwa [find_applyAll fun mu hmu heq => rowPrefix_ne_schemaKey (hrows mu hmu) heq]

lemma scan_congr {store store' : Store} {p : Bytes}
    (h : ∀ key, p <+: key → store'.find key = store.find key) :
    scan store' p = scan store p := by
  refine asc_ext (scan_asc _ _) (scan_asc _ _) fun k => ?_
  rw [scan, scan, Layers.look_filter store'.asc, Layers.look_filter store.asc]
  by_cases hk : p <+: k
  · have hfind : look k store'.entries = look k store.entries := h k hk
    rw [hfind]
  · have hnone : ∀ v : Option Bytes, (v.bind fun v => if startsWith k p then some v else none) =
        none := by
      intro v
      have hstart : startsWith k p = false :=
        Bool.eq_false_iff.mpr fun h => hk ((startsWith_iff k p).mp h)
      cases v <;> simp [hstart]
    rw [hnone, hnone]

lemma executeStatement_congr {store store' : Store} {stmt : Statement} {d t : Bytes}
    (htarget : targetOf stmt = some (d, t))
    (hdatabase : store'.find (databaseKey d) = store.find (databaseKey d))
    (howned : ∀ key, Owns d t key → store'.find key = store.find key) :
    executeStatement store' stmt = executeStatement store stmt := by
  have hschema : loadSchema store' d t = loadSchema store d t :=
    loadSchema_congr (howned _ (.inl rfl))
  have hscan : scan store' (rowPrefix d t) = scan store (rowPrefix d t) :=
    scan_congr fun key hkey => howned key (.inr hkey)
  cases stmt with
  | createTable s =>
    cases htarget
    simp only [executeStatement, executeCreateTable, requireDatabaseExists, hdatabase,
      howned _ (.inl rfl)]
  | alterTableAddColumn s =>
    cases htarget
    simp only [executeStatement, executeAlterTableAddColumn, hschema]
  | insert s =>
    cases htarget
    have hkey : ∀ pk, store'.find (rowKey s.dbName s.tableName pk) =
        store.find (rowKey s.dbName s.tableName pk) := fun pk =>
      howned _ (.inr (prefix_rowKey _ _ _))
    simp only [executeStatement, executeInsert, hschema, hkey]
  | select s =>
    cases htarget
    simp only [executeStatement, executeSelect, hschema, hscan]
  | update s =>
    cases htarget
    simp only [executeStatement, executeUpdate, hschema, hscan]
  | delete s =>
    cases htarget
    simp only [executeStatement, executeDelete, hschema, hscan]
  | showTables s | createDatabase s | showDatabases => cases htarget

/-- The names that `SHOW TABLES` prints. -/
def tableNames (store : Store) (d : Bytes) : List Bytes :=
  (scan store (schemaPrefix d)).map fun kv => kv.1.drop (schemaPrefix d).length

lemma mem_tableNames {store : Store} {d n : Bytes} :
    n ∈ tableNames store d ↔ store.find (schemaKey d n) ≠ none := by
  constructor
  · intro h
    obtain ⟨kv, hkv, rfl⟩ := List.mem_map.mp h
    obtain ⟨⟨s, hs⟩, hfind⟩ := mem_scan.mp hkv
    have hkey : schemaKey d (kv.1.drop (schemaPrefix d).length) = kv.1 := by
      rw [← hs, List.drop_left]
      rfl
    rw [hkey, hfind]
    simp
  · intro h
    obtain ⟨blob, hblob⟩ := Option.ne_none_iff_exists'.mp h
    refine List.mem_map.mpr ⟨(schemaKey d n, blob), mem_scan.mpr
      ⟨prefix_schemaKey d n, hblob⟩, ?_⟩
    exact List.drop_left

lemma append_lt_cancel {p a b : Bytes} (h : p ++ a < p ++ b) : a < b := by
  rcases lt_trichotomy a b with hlt | rfl | hgt
  · exact hlt
  · exact absurd h (lt_irrefl _)
  · exact absurd (h.trans (List.append_left_lt hgt)) (lt_irrefl _)

lemma tableNames_sorted (store : Store) (d : Bytes) : (tableNames store d).Pairwise (· < ·) := by
  refine List.pairwise_map.mpr ((scan_asc store (schemaPrefix d)).imp_of_mem ?_)
  intro a b ha hb hlt
  obtain ⟨⟨s, hs⟩, -⟩ := mem_scan.mp ha
  obtain ⟨⟨s', hs'⟩, -⟩ := mem_scan.mp hb
  rw [← hs, ← hs'] at hlt ⊢
  rw [List.drop_left, List.drop_left]
  exact append_lt_cancel hlt

lemma executeShowTables_congr {store store' : Store} {s : ShowTablesStatement}
    (hdatabase : store'.find (databaseKey s.dbName) = store.find (databaseKey s.dbName))
    (hnames : tableNames store' s.dbName = tableNames store s.dbName) :
    executeShowTables store' s = executeShowTables store s := by
  have hlist : ∀ st : Store,
    listNames st (text "table") (text "__schema__/" ++ s.dbName ++ text "/") =
      text "table" ++ ((tableNames st s.dbName).flatMap fun n => chr '\n' :: n) ++
        if tableNames st s.dbName = [] then noRows else [] := fun _ => rfl
  simp only [executeShowTables, requireDatabaseExists, hdatabase, hlist, hnames]

lemma tableNames_congr {store store' : Store} {d : Bytes}
    (h : ∀ n, store'.find (schemaKey d n) ≠ none ↔ store.find (schemaKey d n) ≠ none) :
    tableNames store' d = tableNames store d :=
  (tableNames_sorted store' d).eq_of_mem_iff (tableNames_sorted store d) fun n => by
    rw [mem_tableNames, mem_tableNames, h]

lemma writes_nothing {store : Store} {stmt : Statement} {d t : Bytes}
    (htarget : targetOf stmt = some (d, t)) (hcreate : ∀ c, stmt ≠ .createTable c)
    (hnone : store.find (schemaKey d t) = none) : (executeStatement store stmt).1 = [] := by
  have hload : ∃ e, loadSchema store d t = .error e := by
    rw [loadSchema, hnone]
    exact ⟨_, rfl⟩
  obtain ⟨e, hload⟩ := hload
  cases stmt with
  | createTable s => exact absurd rfl (hcreate s)
  | alterTableAddColumn s | insert s | update s | delete s =>
    cases htarget
    simp only [executeStatement, executeAlterTableAddColumn, executeInsert, executeUpdate,
      executeDelete, hload]
    rfl
  | select s => rfl
  | showTables s | createDatabase s | showDatabases => cases htarget

lemma schema_kept {store : Store} {stmt : Statement} {d t : Bytes}
    (htarget : targetOf stmt = some (d, t)) (hcreate : ∀ c, stmt ≠ .createTable c) :
    (applyAll store (executeStatement store stmt).1).find (schemaKey d t) ≠ none ↔
      store.find (schemaKey d t) ≠ none := by
  refine ⟨fun h hnone => h ?_, schema_stays htarget⟩
  rw [writes_nothing htarget hcreate hnone]
  exact hnone

/-! ### No interference -/

/-- What a statement on the table `(d, t)` may change: nothing of any other table, and of its own
database's list only its own name, which only `CREATE TABLE` adds. -/
structure LeavesAlone (store store' : Store) (stmt : Statement) (d t : Bytes) : Prop where
  database : ∀ n, store'.find (databaseKey n) = store.find (databaseKey n)
  schema : ∀ d' t', IsName d' → IsName t' → (d', t') ≠ (d, t) →
    store'.find (schemaKey d' t') = store.find (schemaKey d' t')
  rows : ∀ d' t', IsName d' → IsName t' → (d', t') ≠ (d, t) →
    scan store' (rowPrefix d' t') = scan store (rowPrefix d' t')
  statement : ∀ sql stmt' d' t', parse sql = .ok stmt' → targetOf stmt' = some (d', t') →
    (d', t') ≠ (d, t) → executeStatement store' stmt' = executeStatement store stmt'
  showDatabases : executeShowDatabases store' = executeShowDatabases store
  showTables : ∀ sql s, parse sql = .ok (.showTables s) →
    (s.dbName = d → ∀ c, stmt ≠ .createTable c) →
    executeShowTables store' s = executeShowTables store s
  ownList : ∀ n, n ∈ tableNames store' d ↔
    n ∈ tableNames store d ∨ n = t ∧ store'.find (schemaKey d t) ≠ none

/-- **Tables do not interfere**: a statement on one table leaves every other table and database as
it was, and their keys are apart. -/
theorem no_interference {store : Store} {sql : Bytes} {stmt : Statement} {d t : Bytes}
    (hparse : parse sql = .ok stmt) (htarget : targetOf stmt = some (d, t)) :
    LeavesAlone store (applyAll store (execute store sql).1) stmt d t ∧
      ∀ d' t', IsName d' → IsName t' → (d', t') ≠ (d, t) → KeysApart d t d' t' := by
  obtain ⟨hd, ht⟩ := target_names hparse htarget
  have hexecute : execute store sql = executeStatement store stmt := by
    rw [execute, hparse]
  rw [hexecute]
  have hkeep := fun key => @find_executed store stmt d t htarget key
  refine ⟨?_, fun d' t' hd' ht' hne => keysApart hd ht hd' ht' hne⟩
  exact {
    database := fun n => hkeep _ (database_not_owned d t n)
    schema := fun d' t' hd' ht' hne => hkeep _ (schema_not_owned hd hd' hne)
    rows := fun d' t' hd' ht' hne => scan_congr fun key hkey =>
      hkeep _ (owned_once hd ht hd' ht' hne (.inr hkey))
    statement := fun sql' stmt' d' t' hparse' htarget' hne => by
      obtain ⟨hd', ht'⟩ := target_names hparse' htarget'
      exact executeStatement_congr htarget' (hkeep _ (database_not_owned d t d'))
        fun key hkey => hkeep _ (owned_once hd ht hd' ht' hne hkey)
    showDatabases := by
      have hscan : scan (applyAll store (executeStatement store stmt).1) databasePrefix =
          scan store databasePrefix := by
        refine scan_congr fun key hkey => hkeep key ?_
        obtain ⟨n, rfl⟩ := hkey
        exact database_not_owned d t n
      show Effect.ofRead (.ok (listNames _ _ databasePrefix)) =
        .ofRead (.ok (listNames _ _ databasePrefix))
      rw [listNames, hscan]
      rfl
    showTables := fun sql' s hparse' hcreate => by
      have hname := showTables_name hparse'
      refine executeShowTables_congr (hkeep _ (database_not_owned d t s.dbName))
        (tableNames_congr fun n => ?_)
      by_cases hn : (s.dbName, n) = (d, t)
      · obtain ⟨hs, rfl⟩ := Prod.mk.inj hn
        rw [hs]
        exact schema_kept htarget (hcreate hs)
      · rw [hkeep _ (schema_not_owned hd hname hn)]
    ownList := fun n => by
      rw [mem_tableNames, mem_tableNames]
      by_cases hn : n = t
      · subst hn
        exact ⟨fun h => .inr ⟨rfl, h⟩, fun h => h.elim (schema_stays htarget) And.right⟩
      · rw [hkeep _ (schema_not_owned hd hd fun h => hn (Prod.mk.inj h).2)]
        exact ⟨.inl, fun h => h.resolve_right fun h => hn h.1⟩ }

/-- The names of two tables of two databases are prefixes of each other, and so are a primary key
and the name of a table. -/
theorem no_interference_prefixes : ∃ store stmt, store = runAll .empty [text "CREATE DATABASE d",
      text "CREATE DATABASE d_", text "CREATE TABLE d.t (k TEXT PRIMARY KEY)",
      text "CREATE TABLE d_.t (k TEXT PRIMARY KEY)"] ∧
    LeavesAlone store (applyAll store
      (execute store (text "INSERT INTO d.t (k) VALUES ('_/t/')")).1)
      stmt (text "d") (text "t") ∧ KeysApart (text "d") (text "t") (text "d_") (text "t") := by
  have hparse : parse (text "INSERT INTO d.t (k) VALUES ('_/t/')") =
      .ok (.insert ⟨text "d", text "t", [text "k"], [text "_/t/"]⟩) := by decide +kernel
  obtain ⟨halone, hapart⟩ := @no_interference (runAll .empty _) _ _ _ _ hparse rfl
  exact ⟨_, _, rfl, halone,
    hapart _ _ (by unfold IsName; decide +kernel) (by unfold IsName; decide +kernel) (by decide)⟩

end DistDB.SqlFrame
