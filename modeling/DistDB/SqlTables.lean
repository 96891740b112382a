import DistDB.Runs
import DistDB.SqlFrame

/-!
One table of a store: its schema, and its rows by what stands behind the prefix in their keys.

What a statement can do to a table is one of a few moves (`moves`). So an invariant of a table is
proved move by move, whatever the keys of the store look like.
-/

namespace DistDB.SqlTables

open SqlParser SqlExecutor SqlTexts SqlRuns SqlAtomic SqlStore SqlFrame WalModel EngineInv EngineMap
open Checks OrdMap

/-- The store a text leaves, whether it throws or not. -/
def after (store : Store) (sql : Bytes) : Store := applyAll store (execute store sql).1

structure Table where
  schema : Option Bytes
  rows : Bytes → Option Bytes

def tableAt (store : Store) (d t : Bytes) : Table :=
  ⟨store.find (schemaKey d t), fun pk => store.find (rowKey d t pk)⟩

def Table.Loads (table : Table) (schema : TableSchema) : Prop :=
  ∃ blob, table.schema = some blob ∧ TableSchema.deserialize blob = .ok schema

/-- The row is one that satisfies the `WHERE`, and the other one is what the assignments make
of it. -/
def Rewrites (schema : TableSchema) (whereClause : List Condition)
    (assignments : List (ℕ × Bytes)) (blob blob' : Bytes) : Prop :=
  ∃ row row', matchRow schema whereClause blob = .ok (some row) ∧
    assign assignments row = .ok row' ∧ blob' = encodeRow row'

/-- What a statement can do to the table `(d, t)`. -/
inductive Moves (d t : Bytes) (table : Table) : Statement → Table → Prop
  | same {stmt} : Moves d t table stmt table
  | create {columns} : table.schema = none →
      Moves d t table (.createTable ⟨d, t, columns⟩)
        { table with schema := some (TableSchema.serialize ⟨columns⟩) }
  | addColumn {c schema v} : table.Loads schema → schema.columnIndex c.name = none →
      c.defaultValue = some v → (c.type = .kInt → IntText v) →
      Moves d t table (.alterTableAddColumn ⟨d, t, c⟩)
        { table with schema := some (TableSchema.serialize ⟨schema.columns ++ [c]⟩) }
  | insert {columns values schema row pk} : table.Loads schema →
      insertRow schema ⟨d, t, columns, values⟩ = .ok (row, pk) → table.rows pk = none →
      Moves d t table (.insert ⟨d, t, columns, values⟩)
        { table with rows := Function.update table.rows pk (some (encodeRow row)) }
  | update {assignments whereClause schema checked rows} : table.Loads schema →
      assignments.mapM (checkAssignment schema) = .ok checked →
      (∀ pk, rows pk = table.rows pk ∨ ∃ blob blob', table.rows pk = some blob ∧
        Rewrites schema whereClause checked blob blob' ∧ rows pk = some blob') →
      Moves d t table (.update ⟨d, t, assignments, whereClause⟩) { table with rows := rows }
  | delete {whereClause rows} : (∀ pk, rows pk = table.rows pk ∨ rows pk = none) →
      Moves d t table (.delete ⟨d, t, whereClause⟩) { table with rows := rows }

section

variable {store : Store} {d t sql : Bytes} {stmt : Statement}

lemma after_of_error {e : Exception} (h : parse sql = .error e) : after store sql = store := by
  unfold after execute
  rw [h]
  rfl

lemma after_of_ok (h : parse sql = .ok stmt) :
    after store sql = applyAll store (executeStatement store stmt).1 := by
  unfold after execute
  rw [h]

lemma after_insert {s : InsertStatement} {schema : TableSchema} {row : Row} {pk : Bytes}
    (hparse : parse sql = .ok (.insert s))
    (hload : loadSchema store s.dbName s.tableName = .ok schema)
    (hrow : insertRow schema s = .ok (row, pk))
    (hfree : store.find (rowKey s.dbName s.tableName pk) = none) :
    after store sql = applyTo store (.put (rowKey s.dbName s.tableName pk) (encodeRow row)) := by
  have heffect : executeInsert store s =
      .ofWrite (.ok (.put (rowKey s.dbName s.tableName pk) (encodeRow row), text "OK")) := by
    refine congrArg Effect.ofWrite (bind_eq_ok.mpr ⟨_, hload, bind_eq_ok.mpr ⟨_, hrow, ?_⟩⟩)
    exact bind_eq_ok.mpr ⟨(), throwIf_eq_ok.mpr (not_not.mpr hfree), rfl⟩
  rw [after_of_ok hparse]
  show applyAll store (executeInsert store s).1 = _
  rw [heffect]
  rfl

lemma loadSchema_eq_ok {schema : TableSchema} :
    loadSchema store d t = .ok schema ↔ (tableAt store d t).Loads schema := by
  unfold loadSchema Table.Loads tableAt
  cases store.find (schemaKey d t) with
  | none => simp [throw, throwThe, MonadExceptOf.throw]
  | some blob => simp

lemma tableAt_congr {store' : Store} (hschema : store'.find (schemaKey d t) =
    store.find (schemaKey d t)) (hrows : ∀ pk, store'.find (rowKey d t pk) =
    store.find (rowKey d t pk)) : tableAt store' d t = tableAt store d t := by
  rw [tableAt, hschema, funext hrows, tableAt]

lemma applyAll_one (mu : Mutation) : applyAll store [mu] = applyTo store mu := rfl

lemma find_applyAll_cases (writes : List Mutation) (key : Bytes) :
    (applyAll store writes).find key = store.find key ∨ ∃ mu ∈ writes, mu.record.key = key ∧
      (applyAll store writes).find key = entryOf mu.record := by
  induction writes generalizing store with
  | nil => exact .inl rfl
  | cons mu writes ih =>
    show (applyAll (applyTo store mu) writes).find key = _ ∨ _
    rcases @ih (applyTo store mu) with hkept | ⟨mu', hmu', hkey, hfound⟩
    · rw [find_applyTo] at hkept
      split_ifs at hkept with heq
      · exact .inr ⟨mu, List.mem_cons_self, heq.symm, hkept⟩
      · exact .inl hkept
    · exact .inr ⟨mu', List.mem_cons_of_mem _ hmu', hkey, hfound⟩

lemma tableAt_rows {writes : List Mutation}
    (hwrites : ∀ mu ∈ writes, rowPrefix d t <+: mu.record.key) :
    tableAt (applyAll store writes) d t = { tableAt store d t with
      rows := fun pk => (applyAll store writes).find (rowKey d t pk) } := by
  unfold tableAt
  rw [find_applyAll fun mu hmu => rowPrefix_ne_schemaKey (hwrites mu hmu)]

lemma tableAt_schema (blob : Bytes) :
    tableAt (applyTo store (.put (schemaKey d t) blob)) d t =
      { tableAt store d t with schema := some blob } := by
  unfold tableAt
  have hrow : ∀ pk, (applyTo store (.put (schemaKey d t) blob)).find (rowKey d t pk) =
      store.find (rowKey d t pk) := fun pk =>
    (find_applyTo _ _ _).trans (if_neg (rowPrefix_ne_schemaKey (prefix_rowKey d t pk)))
  rw [funext hrow]
  exact congrArg (Table.mk · _) ((find_applyTo _ _ _).trans (if_pos rfl))

lemma find_after (hparse : parse sql = .ok stmt) {key : Bytes}
    (howned : ∀ d t, targetOf stmt = some (d, t) → ¬ Owns d t key)
    (hdatabase : ∀ n, key ≠ databaseKey n) : (after store sql).find key = store.find key := by
  rw [after_of_ok hparse]
  cases htarget : targetOf stmt with
  | some dt => exact find_executed htarget (howned _ _ htarget)
  | none =>
    refine find_applyAll fun mu hmu heq => ?_
    cases stmt with
    | createDatabase s =>
      simp only [executeStatement, executeCreateDatabase, Effect.ofWrite] at hmu
      split at hmu
      · cases hmu
      · rename_i mu' out hr
        obtain ⟨_, -, hr⟩ := bind_eq_ok.mp hr
        cases hr
        obtain rfl := List.mem_singleton.mp hmu
        exact hdatabase s.name heq.symm
    | showTables s | showDatabases => cases hmu
    | createTable s | alterTableAddColumn s | insert s | select s | update s | delete s =>
      cases htarget

/-- What is under a key that is no database's, some statement has written under a key of its
table. -/
lemma owner_of_reach (h : Reach (StepOf after) (fun _ _ => True) .empty store) {key : Bytes}
    (hdatabase : ∀ n, key ≠ databaseKey n) (hfind : store.find key ≠ none) :
    ∃ sql stmt d t, parse sql = .ok stmt ∧ targetOf stmt = some (d, t) ∧ Owns d t key := by
  refine h.invariant (I := fun store => store.find key ≠ none → ∃ sql stmt d t,
    parse sql = .ok stmt ∧ targetOf stmt = some (d, t) ∧ Owns d t key)
    (fun hnone => absurd rfl hnone) ?_ hfind
  rintro store sql _ hold - rfl hnew
  by_contra hunowned
  have hkept : store.find key = none := not_not.mp fun h => hunowned (hold h)
  refine hnew ?_
  cases hparse : parse sql with
  | error e => rw [after_of_error hparse, hkept]
  | ok stmt =>
    rw [find_after hparse (fun d t htarget howned => ?_) hdatabase, hkept]
    exact hunowned ⟨sql, stmt, d, t, hparse, htarget, howned⟩

lemma tableAt_other (hparse : parse sql = .ok stmt) (hd : IsName d) (ht : IsName t)
    (htarget : targetOf stmt ≠ some (d, t)) :
    tableAt (after store sql) d t = tableAt store d t := by
  have howned : ∀ key, Owns d t key → (after store sql).find key = store.find key := by
    intro key hkey
    refine find_after hparse (fun d' t' hother => ?_) fun n heq =>
      database_not_owned d t n (heq ▸ hkey)
    obtain ⟨hd', ht'⟩ := target_names hparse hother
    exact owned_once hd' ht' hd ht (fun heq => htarget (heq ▸ hother)) hkey
  exact tableAt_congr (howned _ (.inl rfl)) fun pk => howned _ (.inr (prefix_rowKey d t pk))

lemma rows_moved {schema : TableSchema} {whereClause : List Condition}
    {write : Bytes → Row → Except Exception Mutation}
    (hwrite : ∀ key row mu, write key row = .ok mu → mu.record.key = key) :
    ∃ rows, tableAt (applyAll store
        (writeRows schema whereClause write (scan store (rowPrefix d t))).1) d t =
        { tableAt store d t with rows := rows } ∧
      ∀ pk, rows pk = (tableAt store d t).rows pk ∨ ∃ blob row mu,
        (tableAt store d t).rows pk = some blob ∧
        matchRow schema whereClause blob = .ok (some row) ∧
        write (rowKey d t pk) row = .ok mu ∧ rows pk = entryOf mu.record := by
  refine ⟨_, tableAt_rows fun mu hmu => ?_, fun pk => ?_⟩
  · obtain ⟨kv, hkv, row, -, hmu⟩ := mem_writeRows hmu
    exact hwrite _ _ _ hmu ▸ (mem_scan.mp hkv).1
  · rcases @find_applyAll_cases store
      (writeRows schema whereClause write (scan store (rowPrefix d t))).1 (rowKey d t pk)
      with hkept | ⟨mu, hmu, hkey, hfound⟩
    · exact .inl hkept
    · obtain ⟨⟨key, blob⟩, hkv, row, hmatch, hmu⟩ := mem_writeRows hmu
      obtain rfl : key = rowKey d t pk := (hwrite _ _ _ hmu).symm.trans hkey
      exact .inr ⟨blob, row, mu, (mem_scan.mp hkv).2, hmatch, hmu, hfound⟩

lemma moves_insert (store : Store) (s : InsertStatement) :
    Moves s.dbName s.tableName (tableAt store s.dbName s.tableName) (.insert s)
      (tableAt (applyAll store (executeStatement store (.insert s)).1) s.dbName s.tableName) := by
  simp only [executeStatement, executeInsert, Effect.ofWrite]
  split
  · exact .same
  · rename_i mu out hr
    obtain ⟨schema, hload, hr⟩ := bind_eq_ok.mp hr
    obtain ⟨⟨row, pk⟩, hrow, hr⟩ := bind_eq_ok.mp hr
    obtain ⟨_, hfree, hr⟩ := bind_eq_ok.mp hr
    cases hr
    rw [tableAt_rows (List.forall_mem_singleton.mpr (prefix_rowKey _ _ _))]
    have hrows : (fun pk' => (applyAll store [.put (rowKey s.dbName s.tableName pk)
        (encodeRow row)]).find (rowKey s.dbName s.tableName pk')) =
        Function.update (tableAt store s.dbName s.tableName).rows pk (some (encodeRow row)) := by
      funext pk'
      rw [applyAll_one, find_applyTo, Function.update_apply]
      exact if_congr rowKey_inj rfl rfl
    rw [hrows]
    have hnone : store.find (rowKey s.dbName s.tableName pk) = none := by simpa using hfree
    exact .insert (loadSchema_eq_ok.mp hload) hrow hnone

lemma moves_update (store : Store) (s : UpdateStatement) :
    Moves s.dbName s.tableName (tableAt store s.dbName s.tableName) (.update s)
      (tableAt (applyAll store (executeStatement store (.update s)).1) s.dbName s.tableName) := by
  simp only [executeStatement, executeUpdate, Effect.ofRows]
  split
  · exact .same
  · rename_i writes count hr
    obtain ⟨schema, hload, hr⟩ := bind_eq_ok.mp hr
    obtain ⟨checked, hchecked, hr⟩ := bind_eq_ok.mp hr
    obtain ⟨rfl, rfl⟩ := Prod.mk.inj (Except.ok.inj hr)
    obtain ⟨rows, htable, hrows⟩ := @rows_moved store s.dbName s.tableName schema s.whereClause
      (rewrite checked) fun _ _ _ => rewrite_key
    show Moves _ _ _ _ (tableAt (applyAll store (writeRows schema s.whereClause
      (rewrite checked) _).1) _ _)
    rw [htable]
    refine .update (loadSchema_eq_ok.mp hload) hchecked fun pk => ?_
    rcases hrows pk with hkept | ⟨blob, row, mu, hblob, hmatch, hmu, hfound⟩
    · exact .inl hkept
    · refine .inr ⟨blob, ?_⟩
      unfold rewrite at hmu
      cases hassign : assign checked row with
      | error e =>
        rw [hassign] at hmu
        cases hmu
      | ok row' =>
        rw [hassign] at hmu
        cases hmu
        exact ⟨encodeRow row', hblob, ⟨row, row', hmatch, hassign, rfl⟩, hfound⟩

lemma moves_delete (store : Store) (s : DeleteStatement) :
    Moves s.dbName s.tableName (tableAt store s.dbName s.tableName) (.delete s)
      (tableAt (applyAll store (executeStatement store (.delete s)).1) s.dbName s.tableName) := by
  simp only [executeStatement, executeDelete, Effect.ofRows]
  split
  · exact .same
  · rename_i writes count hr
    obtain ⟨schema, -, hr⟩ := bind_eq_ok.mp hr
    obtain ⟨rfl, rfl⟩ := Prod.mk.inj (Except.ok.inj hr)
    obtain ⟨rows, htable, hrows⟩ := @rows_moved store s.dbName s.tableName schema s.whereClause
      (fun key _ => .ok (.delete key)) (by rintro key row mu ⟨⟩; rfl)
    rw [htable]
    refine .delete fun pk => ?_
    rcases hrows pk with hkept | ⟨blob, row, mu, -, -, hmu, hfound⟩
    · exact .inl hkept
    · cases hmu
      exact .inr hfound

/-- **What a statement does to a table** is one of the moves. -/
theorem moves (hparse : parse sql = .ok stmt) (hd : IsName d) (ht : IsName t) :
    Moves d t (tableAt store d t) stmt (tableAt (after store sql) d t) := by
  by_cases htarget : targetOf stmt = some (d, t)
  swap
  · rw [tableAt_other hparse hd ht htarget]
    exact .same
  rw [after_of_ok hparse]
  cases stmt with
  | createTable s =>
    cases htarget
    simp only [executeStatement, executeCreateTable, Effect.ofWrite]
    split
    · exact .same
    · rename_i mu out hr
      obtain ⟨_, -, hr⟩ := bind_eq_ok.mp hr
      obtain ⟨_, hnew, hr⟩ := bind_eq_ok.mp hr
      cases hr
      rw [applyAll_one, tableAt_schema]
      have hnone : store.find (schemaKey s.dbName s.tableName) = none := by simpa using hnew
      exact .create hnone
  | alterTableAddColumn s =>
    cases htarget
    simp only [executeStatement, executeAlterTableAddColumn, Effect.ofWrite]
    split
    · exact .same
    · rename_i mu out hr
      obtain ⟨schema, hload, hr⟩ := bind_eq_ok.mp hr
      obtain ⟨_, hnew, hr⟩ := bind_eq_ok.mp hr
      cases hdefault : s.column.defaultValue with
      | none =>
        rw [hdefault] at hr
        cases hr
      | some v =>
        rw [hdefault] at hr
        obtain ⟨_, hvalid, hr⟩ := bind_eq_ok.mp hr
        cases hr
        rw [applyAll_one, tableAt_schema]
        exact .addColumn (loadSchema_eq_ok.mp hload) (by simpa using hnew) hdefault
          ((validateLiteral_succeeds _ _ _).mp ⟨_, hvalid⟩)
  | insert s =>
    cases htarget
    exact moves_insert store s
  | update s =>
    cases htarget
    exact moves_update store s
  | delete s =>
    cases htarget
    exact moves_delete store s
  | select s => exact .same
  | showTables s | createDatabase s | showDatabases => cases htarget

end

end DistDB.SqlTables
