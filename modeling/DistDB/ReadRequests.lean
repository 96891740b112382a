import DistDB.NodeModel
import DistDB.SqlReapply
import DistDB.TxnModel
import DistDB.Wire

/-!
Read requests. Any node answers one from its own store, with no log entry behind it, and the query
goes to the same `Execute` as the committed commands: it writes whatever its statement says. So the
store stays as it is exactly when the statement has nothing to change there
(`handleReadRequest_keeps_iff`).
-/

namespace DistDB.ReadRequests

open SqlParser SqlExecutor SqlAtomic SqlReapply SqlRuns SqlStore TxnModel NodeModel WalModel
open EngineInv EngineMap Wire Checks Bytes Codec

/-- `read_callback` of `raft_main.cpp`. -/
def readCallback (s : Shard) (query : Bytes) : Shard × Except Exception Bytes :=
  let (writes, result) := execute s.store query
  ({ s with store := applyAll s.store writes }, result)

/-- `HandleReadRequest`, with any `read_callback_`. -/
def handleReadRequest {σ : Type} (readCallback : σ → Bytes → σ × Except Exception Bytes)
    (n : Node σ) (req : ReadRequest) : Node σ × ReadResponse :=
  let (machine, result) := readCallback n.machine req.query
  ({ n with machine := machine },
    match result with
    | .ok out => ⟨false, out⟩
    | .error e => ⟨true, e.what⟩)

/-- The row loop of an `UPDATE` or `DELETE` comes to the row, and the row satisfies the `WHERE`. -/
def Reached (store : Store) (schema : TableSchema) (dbName tableName : Bytes)
    (whereClause : List Condition) (kv : Bytes × Bytes) (row : Row) : Prop :=
  ∃ before after, scan store (rowPrefix dbName tableName) = before ++ kv :: after ∧
    (∀ r ∈ before, Succeeds (matchRow schema whereClause r.2)) ∧
    matchRow schema whereClause kv.2 = .ok (some row)

/-- The statement has nothing to change: it only reads, or it does not run, or it comes to no row
that it deletes, or to none that is not already as it rewrites it. -/
def Idle (store : Store) : Statement → Prop
  | .select _ | .showTables _ | .showDatabases => True
  | .update s => ∀ schema assignments kv row row',
      loadSchema store s.dbName s.tableName = .ok schema →
      s.assignments.mapM (checkAssignment schema) = .ok assignments →
      Reached store schema s.dbName s.tableName s.whereClause kv row →
      assign assignments row = .ok row' → encodeRow row' = kv.2
  | .delete s => ∀ schema kv row, loadSchema store s.dbName s.tableName = .ok schema →
      ¬ Reached store schema s.dbName s.tableName s.whereClause kv row
  | stmt => ¬ Runs store stmt

lemma applyAll_single {store : Store} {mu : Mutation} :
    applyAll store [mu] = store ↔ store.find mu.record.key = entryOf mu.record := applyTo_eq_self

/-- A statement whose one write always changes something changes nothing when it throws. -/
lemma ofWrite_keeps_iff {store : Store} {r : Except Exception (Mutation × Bytes)}
    (h : ∀ mu out, r = .ok (mu, out) → store.find mu.record.key ≠ entryOf mu.record) :
    applyAll store (Effect.ofWrite r).1 = store ↔ ¬ Succeeds (Effect.ofWrite r).2 := by
  rw [succeeds_ofWrite]
  rcases r with e | ⟨mu, out⟩
  · exact iff_of_true rfl (succeeds_error e)
  · have hchanges : applyAll store [mu] ≠ store := fun heq =>
      h mu out rfl (applyAll_single.mp heq)
    exact iff_of_false hchanges (not_not.mpr ⟨_, rfl⟩)

/-- A schema with one column more is written differently, even where its length wraps around. -/
lemma serialize_grown_ne {blob : Bytes} {schema : TableSchema} (column : ColumnDef)
    (h : TableSchema.deserialize blob = .ok schema) :
    TableSchema.serialize ⟨schema.columns ++ [column]⟩ ≠ blob := by
  intro heq
  obtain ⟨hlt, -⟩ := deserialize_small h
  obtain ⟨columns, hcolumns, h⟩ := bind_eq_ok.mp h
  obtain ⟨_, -, h⟩ := bind_eq_ok.mp h
  cases h
  obtain ⟨t, hcolumns⟩ := run_eq_ok.mp hcolumns
  obtain ⟨rest, hrest⟩ := vec_length hcolumns
  rw [hrest, TableSchema.serialize, encVec] at heq
  obtain ⟨hcount, -⟩ := List.append_inj heq (by simp)
  have hval := congrArg val hcount
  rw [val_le, val_le, List.length_append, List.length_singleton] at hval
  dsimp only at hlt hval
  omega

lemma find_of_free {store : Store} {key value : Bytes} (h : store.find key = none) :
    store.find (Mutation.put key value).record.key ≠ entryOf (Mutation.put key value).record := by
  show store.find key ≠ _
  rw [h]
  exact nofun

lemma createDatabase_keeps_iff (store : Store) (s : CreateDatabaseStatement) :
    applyAll store (executeCreateDatabase store s).1 = store ↔
      ¬ Succeeds (executeCreateDatabase store s).2 := by
  refine ofWrite_keeps_iff fun mu out h => ?_
  obtain ⟨_, hfree, h⟩ := bind_eq_ok.mp h
  cases h
  exact find_of_free (by simpa using hfree)

lemma createTable_keeps_iff (store : Store) (s : CreateTableStatement) :
    applyAll store (executeCreateTable store s).1 = store ↔
      ¬ Succeeds (executeCreateTable store s).2 := by
  refine ofWrite_keeps_iff fun mu out h => ?_
  obtain ⟨_, -, h⟩ := bind_eq_ok.mp h
  obtain ⟨_, hfree, h⟩ := bind_eq_ok.mp h
  cases h
  exact find_of_free (by simpa using hfree)

lemma insert_keeps_iff (store : Store) (s : InsertStatement) :
    applyAll store (executeInsert store s).1 = store ↔ ¬ Succeeds (executeInsert store s).2 := by
  refine ofWrite_keeps_iff fun mu out h => ?_
  obtain ⟨schema, -, h⟩ := bind_eq_ok.mp h
  obtain ⟨⟨row, pk⟩, -, h⟩ := bind_eq_ok.mp h
  obtain ⟨_, hfree, h⟩ := bind_eq_ok.mp h
  cases h
  exact find_of_free (by simpa using hfree)

lemma alterTable_keeps_iff (store : Store) (s : AlterTableAddColumnStatement) :
    applyAll store (executeAlterTableAddColumn store s).1 = store ↔
      ¬ Succeeds (executeAlterTableAddColumn store s).2 := by
  refine ofWrite_keeps_iff fun mu out h => ?_
  obtain ⟨schema, hschema, h⟩ := bind_eq_ok.mp h
  obtain ⟨_, -, h⟩ := bind_eq_ok.mp h
  split at h
  · cases h
  · obtain ⟨_, -, h⟩ := bind_eq_ok.mp h
    cases h
    show store.find (schemaKey s.dbName s.tableName) ≠ some _
    intro hfind
    rw [loadSchema, hfind] at hschema
    exact serialize_grown_ne s.column hschema rfl

/-! ### Row loops -/

section

variable {store : Store} {schema : TableSchema} {dbName tableName : Bytes}
  {whereClause : List Condition} {write : Bytes → Row → Except Exception Mutation}

lemma rowChange_succeeds
    (hwrite : ∀ key row, schema.columns.length ≤ row.length → Succeeds (write key row))
    (kv : Bytes × Bytes) : Succeeds (rowChange schema whereClause write kv) ↔
      Succeeds (matchRow schema whereClause kv.2) := by
  rcases hmatch : matchRow schema whereClause kv.2 with e | _ | row
  · rw [rowChange_of_error kv hmatch]
    exact iff_of_false (succeeds_error e) (succeeds_error e)
  · rw [rowChange_of_none kv hmatch]
    exact iff_of_true (succeeds_ok _) (succeeds_ok _)
  · rw [rowChange_of_some kv hmatch, succeeds_map]
    exact iff_of_true (hwrite kv.1 row (matchRow_length hmatch)) (succeeds_ok _)

lemma rowChange_eq_some {kv : Bytes × Bytes} {mu : Mutation} :
    rowChange schema whereClause write kv = .ok (some mu) ↔
      ∃ row, matchRow schema whereClause kv.2 = .ok (some row) ∧ write kv.1 row = .ok mu := by
  rcases hmatch : matchRow schema whereClause kv.2 with e | _ | row
  · simp [rowChange_of_error kv hmatch]
  · simp [rowChange_of_none kv hmatch]
  · rw [rowChange_of_some kv hmatch]
    rcases hmu : write kv.1 row with e | mu'
    · simp [Except.map, hmu]
    · simp [Except.map, hmu]

/-- A row loop changes nothing when every row it comes to is already what it is made. -/
lemma writeRows_keeps_iff
    (hkey : ∀ key row mu, write key row = .ok mu → mu.record.key = key)
    (hwrite : ∀ key row, schema.columns.length ≤ row.length → Succeeds (write key row)) :
    applyAll store
        (writeRows schema whereClause write (scan store (rowPrefix dbName tableName))).1 = store ↔
      ∀ kv row mu, Reached store schema dbName tableName whereClause kv row →
        write kv.1 row = .ok mu → entryOf mu.record = some kv.2 := by
  rw [applyAll_eq_self (writeRows_distinct hkey (scan_asc store _))]
  constructor
  · rintro h kv row mu ⟨before, after, hscan, hbefore, hmatch⟩ hmu
    have hmem : kv ∈ scan store (rowPrefix dbName tableName) := by rw [hscan]; simp
    have hself := applyTo_eq_self.mp (h mu (mem_writeRows_iff.mpr ⟨before, kv, after, hscan,
      fun r hr => (rowChange_succeeds hwrite r).mpr (hbefore r hr),
      rowChange_eq_some.mpr ⟨row, hmatch, hmu⟩⟩))
    rw [← hself, hkey _ _ _ hmu]
    exact (mem_scan.mp hmem).2
  · intro h mu hmu
    obtain ⟨before, kv, after, hscan, hbefore, hchange⟩ := mem_writeRows_iff.mp hmu
    obtain ⟨row, hmatch, hmu⟩ := rowChange_eq_some.mp hchange
    have hmem : kv ∈ scan store (rowPrefix dbName tableName) := by rw [hscan]; simp
    rw [applyTo_eq_self, hkey _ _ _ hmu, (mem_scan.mp hmem).2]
    exact (h kv row mu ⟨before, after, hscan,
      fun r hr => (rowChange_succeeds hwrite r).mp (hbefore r hr), hmatch⟩ hmu).symm

lemma ofRows_keeps_iff {r : Except Exception (List Mutation × Except Exception ℕ)}
    {what : Bytes} :
    applyAll store (Effect.ofRows r what).1 = store ↔
      ∀ writes count, r = .ok (writes, count) → applyAll store writes = store := by
  rcases r with e | ⟨writes, count⟩
  · exact iff_of_true rfl nofun
  · constructor
    · rintro h _ _ ⟨⟩
      exact h
    · exact fun h => h writes count rfl

end

lemma executeUpdate_keeps_iff (store : Store) (s : UpdateStatement) :
    applyAll store (executeUpdate store s).1 = store ↔ Idle store (.update s) := by
  rw [executeUpdate, ofRows_keeps_iff]
  have hloop : ∀ schema assignments,
      s.assignments.mapM (checkAssignment schema) = .ok assignments →
      (applyAll store (writeRows schema s.whereClause (rewrite assignments)
        (scan store (rowPrefix s.dbName s.tableName))).1 = store ↔ _) :=
    fun schema assignments has => writeRows_keeps_iff (fun _ _ _ => rewrite_key)
      fun key row hrow => succeeds_map.mpr (assign_succeeds (fun a ha => by
        obtain ⟨a', -, hcheck⟩ := mem_mapM has a ha
        exact checkAssignment_lt hcheck) hrow)
  constructor
  · intro h schema assignments kv row row' hschema has hreached hrow'
    have hrow := (hloop schema assignments has).mp
      (h _ _ (bind_eq_ok.mpr ⟨schema, hschema, bind_eq_ok.mpr ⟨assignments, has, rfl⟩⟩))
      kv row _ hreached (by rw [rewrite, hrow']; rfl)
    exact Option.some.inj hrow
  · intro h writes count hchecks
    obtain ⟨schema, hschema, hchecks⟩ := bind_eq_ok.mp hchecks
    obtain ⟨assignments, has, hchecks⟩ := bind_eq_ok.mp hchecks
    obtain ⟨rfl, -⟩ := Prod.mk.injEq _ _ _ _ ▸ Except.ok.inj hchecks
    refine (hloop schema assignments has).mpr fun kv row mu hreached hmu => ?_
    rcases hrow' : assign assignments row with e | row'
    · rw [rewrite, hrow'] at hmu
      cases hmu
    · rw [rewrite, hrow'] at hmu
      cases hmu
      exact congrArg some (h schema assignments kv row row' hschema has hreached hrow')

lemma executeDelete_keeps_iff (store : Store) (s : DeleteStatement) :
    applyAll store (executeDelete store s).1 = store ↔ Idle store (.delete s) := by
  rw [executeDelete, ofRows_keeps_iff]
  have hloop : ∀ schema, (applyAll store (writeRows schema s.whereClause
      (fun key _ => .ok (.delete key)) (scan store (rowPrefix s.dbName s.tableName))).1 = store ↔
        _) :=
    fun schema => writeRows_keeps_iff (by rintro key row mu ⟨⟩; rfl) fun _ _ _ => succeeds_ok _
  constructor
  · intro h schema kv row hschema hreached
    cases (hloop schema).mp (h _ _ (bind_eq_ok.mpr ⟨schema, hschema, rfl⟩))
      kv row _ hreached rfl
  · intro h writes count hchecks
    obtain ⟨schema, hschema, hchecks⟩ := bind_eq_ok.mp hchecks
    obtain ⟨rfl, -⟩ := Prod.mk.injEq _ _ _ _ ▸ Except.ok.inj hchecks
    exact (hloop schema).mpr fun kv row mu hreached _ => absurd hreached (h schema kv row hschema)

/-- **What `Execute` changes**: the store stays as it is exactly when the text is no statement, or
one that has nothing to change. -/
theorem execute_keeps_iff (store : Store) (sql : Bytes) :
    applyAll store (execute store sql).1 = store ↔
      ∀ stmt, parse sql = .ok stmt → Idle store stmt := by
  unfold execute
  rcases hparse : parse sql with e | stmt
  · exact iff_of_true rfl nofun
  simp only [Except.ok.injEq, forall_eq']
  have hruns : ¬ Succeeds (executeStatement store stmt).2 ↔ ¬ Runs store stmt :=
    not_congr (executeStatement_succeeds store fun s hs => parse_insert (hs ▸ hparse))
  cases stmt with
  | select s | showTables s | showDatabases => exact iff_of_true rfl trivial
  | update s => exact executeUpdate_keeps_iff store s
  | delete s => exact executeDelete_keeps_iff store s
  | createDatabase s => exact (createDatabase_keeps_iff store s).trans hruns
  | createTable s => exact (createTable_keeps_iff store s).trans hruns
  | alterTableAddColumn s => exact (alterTable_keeps_iff store s).trans hruns
  | insert s => exact (insert_keeps_iff store s).trans hruns

/-- **When a read request changes nothing**: on every node, exactly when its query is no statement,
or one that has nothing to change in the store of the node. -/
theorem handleReadRequest_keeps_iff (n : Node Shard) (req : ReadRequest) :
    (handleReadRequest readCallback n req).1.machine.store = n.machine.store ↔
      ∀ stmt, parse req.query = .ok stmt → Idle n.machine.store stmt :=
  execute_keeps_iff n.machine.store req.query

/-- **A read request writes**: a node that has just started, and leads nobody, creates the database
that the query asks for. -/
theorem read_request_writes : ¬ ∀ (n : Node Shard) (req : ReadRequest),
    (handleReadRequest readCallback n req).1.machine.store = n.machine.store := by
  intro hall
  let n : Node Shard := bootstrap 1 ⟨[], 0⟩ .empty false .start
  have hcreated : (handleReadRequest readCallback n
      ⟨text "CREATE DATABASE d"⟩).1.machine.store.find
      (databaseKey (text "d")) ≠ n.machine.store.find (databaseKey (text "d")) := by
    decide +kernel
  exact hcreated (by rw [hall])

end DistDB.ReadRequests
