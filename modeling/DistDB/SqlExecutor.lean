import DistDB.Checks
import DistDB.Codec
import DistDB.EngineMap
import DistDB.SqlParser

/-!
The table schemas of `sql/schema.cpp` and the executor of `sql/executor.cpp`, over the
plain map that the engine is.

A statement reads the store first and then writes row by row, and it may throw between two
writes. So running it gives the writes it performed, in order, and what it returned or
threw (`Effect`).
-/

namespace DistDB.SqlExecutor

open SqlParser WalModel EngineMap Codec Bytes Checks

abbrev Store := PlainMap

/-- `engine_.Scan(prefix)`. -/
def scan (store : Store) (p : Bytes) : List (Bytes × Bytes) :=
  store.entries.filter fun kv => startsWith kv.1 p

structure TableSchema where
  columns : List ColumnDef
  deriving DecidableEq

namespace TableSchema

/-- `none` is the source's `-1`. -/
def columnIndex (schema : TableSchema) (name : Bytes) : Option ℕ :=
  schema.columns.findIdx? fun c => c.name == name

def primaryKeyIndex (schema : TableSchema) : Option ℕ :=
  schema.columns.findIdx? fun c => c.primaryKey

def flag (b : Bool) : Bytes := if b then [1] else [0]

def encodeColumn (c : ColumnDef) : Bytes :=
  encStr c.name ++ flag (c.type == .kInt) ++ flag c.primaryKey ++
    match c.defaultValue with
    | some v => flag true ++ encStr v
    | none => flag false

def serialize (schema : TableSchema) : Bytes := encVec encodeColumn schema.columns

def corrupt : Exception := .runtimeError (text "corrupt table schema")

def readColumn : Reader Exception ColumnDef := do
  let name ← str corrupt
  let type ← num corrupt 1
  let primaryKey ← num corrupt 1
  let hasDefault ← num corrupt 1
  let defaultValue ← if hasDefault ≠ 0 then some <$> str corrupt else pure none
  return ⟨name, if type ≠ 0 then .kInt else .kText, primaryKey ≠ 0, defaultValue⟩

def deserialize (blob : Bytes) : Except Exception TableSchema := do
  let columns ← Codec.run (vec corrupt readColumn) blob
  throwIf (columns = []) (.runtimeError (text "corrupt table schema: empty column list"))
  return ⟨columns⟩

end TableSchema

abbrev Row := List Bytes

def encodeRow (values : Row) : Bytes := encVec encStr values

def corruptRow : Exception := .runtimeError (text "corrupt row encoding")

def decodeRow (blob : Bytes) : Except Exception Row :=
    Codec.run (vec corruptRow (str corruptRow)) blob

/-- `PadRow`: the defaults of the columns the row is too short for. -/
def padRow (schema : TableSchema) (row : Row) : Except Exception Row := do
  let missing ← (schema.columns.drop row.length).mapM fun c =>
    match c.defaultValue with
    | some v => pure v
    | none => throw .undefined
  return row ++ missing

/-- `row[idx]`. -/
def cell (row : Row) (idx : ℕ) : Except Exception Bytes :=
  match row[idx]? with
  | some v => .ok v
  | none => .error .undefined

def columnAt (schema : TableSchema) (idx : ℕ) : Except Exception ColumnDef :=
  match schema.columns[idx]? with
  | some c => .ok c
  | none => .error .undefined

def databaseKey (dbName : Bytes) : Bytes := text "__database__/" ++ dbName
def schemaKey (dbName tableName : Bytes) : Bytes :=
  text "__schema__/" ++ dbName ++ text "/" ++ tableName
def rowPrefix (dbName tableName : Bytes) : Bytes :=
  text "__row__/" ++ dbName ++ text "/" ++ tableName ++ text "/"
def rowKey (dbName tableName pkValue : Bytes) : Bytes := rowPrefix dbName tableName ++ pkValue

def invalidInteger (column : Bytes) : Bytes :=
  text "invalid integer value for column '" ++ column ++ text "'"

/-- The literal behind its minus sign, if it has one. -/
def digits (literal : Bytes) : Bytes :=
  if literal.head? = some (chr '-') then literal.tail else literal

def validateIntLiteral (column literal : Bytes) : Except Exception Unit := do
  throwIf (digits literal = []) (.runtimeError (invalidInteger column))
  throwIf (¬ (digits literal).all SqlLexer.isDigit)
    (.runtimeError (invalidInteger column ++ text ": '" ++ literal ++ text "'"))

/-- The check of a literal that is stored in a column. -/
def validateLiteral (type : ColumnType) (column literal : Bytes) : Except Exception Unit :=
  if type = .kInt then validateIntLiteral column literal else .ok ()

/-- The value of a string of digits. -/
def digitsValue (s : Bytes) : ℕ := s.foldl (fun n c => 10 * n + (c.toNat - 48)) 0

/-- `std::stoll`: blanks, a sign, and as many digits as there are. -/
def stoll (s : Bytes) : Except Exception ℤ :=
  let s := s.dropWhile SqlLexer.isSpace
  let negative := s.head? = some (chr '-')
  let s := if negative ∨ s.head? = some (chr '+') then s.tail else s
  let digits := s.takeWhile SqlLexer.isDigit
  if digits.isEmpty then .error .invalidArgument else
  let n : ℤ := if negative then - (digitsValue digits : ℤ) else digitsValue digits
  if n < - 2 ^ 63 ∨ 2 ^ 63 ≤ n then .error .outOfRange else .ok n

def compareWith {α : Type} [LinearOrder α] (a : α) (op : CompareOp) (b : α) : Bool :=
  match op with
  | .kEq => a = b
  | .kNe => a ≠ b
  | .kLt => a < b
  | .kLe => a ≤ b
  | .kGt => a > b
  | .kGe => a ≥ b

def compareLiterals (type : ColumnType) (lhs : Bytes) (op : CompareOp) (rhs : Bytes) :
    Except Exception Bool :=
  match type with
  | .kInt => do
    let a ← stoll lhs
    let b ← stoll rhs
    return compareWith a op b
  | .kText => .ok (compareWith lhs op rhs)

def noSuchColumn (column : Bytes) : Exception := .runtimeError (text "no such column: " ++ column)

def indexOf (schema : TableSchema) (column : Bytes) : Except Exception ℕ :=
  match schema.columnIndex column with
  | some idx => .ok idx
  | none => .error (noSuchColumn column)

def matchesWhere (schema : TableSchema) (row : Row) : List Condition → Except Exception Bool
  | [] => .ok true
  | cond :: conds => do
    let idx ← indexOf schema cond.column
    let col ← columnAt schema idx
    let lhs ← cell row idx
    let holds ← compareLiterals col.type lhs cond.op cond.literal
    if holds then matchesWhere schema row conds else return false

/-! ### Statements -/

/-- The writes a call performed, in order, and what it returned or threw. -/
abbrev Effect := List Mutation × Except Exception Bytes

def throws (e : Exception) : Effect := ([], .error e)

/-- A call that writes once, if what it reads and checks first does not throw. -/
def Effect.ofWrite (r : Except Exception (Mutation × Bytes)) : Effect :=
  match r with
  | .error e => throws e
  | .ok (mu, out) => ([mu], .ok out)

def Effect.ofRead (r : Except Exception Bytes) : Effect := ([], r)

/-- The store a call leaves, also when it throws. -/
def applyAll (store : Store) (writes : List Mutation) : Store := writes.foldl applyTo store

def requireDatabaseExists (store : Store) (dbName : Bytes) : Except Exception Unit :=
  throwIf (store.find (databaseKey dbName) = none)
    (.runtimeError (text "no such database: " ++ dbName))

def loadSchema (store : Store) (dbName tableName : Bytes) : Except Exception TableSchema :=
  match store.find (schemaKey dbName tableName) with
  | none => throw (.runtimeError (text "no such table: " ++ dbName ++ text "." ++ tableName))
  | some blob => TableSchema.deserialize blob

def executeCreateDatabase (store : Store) (stmt : CreateDatabaseStatement) : Effect := .ofWrite do
  throwIf (store.find (databaseKey stmt.name) ≠ none)
    (.runtimeError (text "database already exists: " ++ stmt.name))
  return (.put (databaseKey stmt.name) [], text "OK")

def executeCreateTable (store : Store) (stmt : CreateTableStatement) : Effect := .ofWrite do
  requireDatabaseExists store stmt.dbName
  throwIf (store.find (schemaKey stmt.dbName stmt.tableName) ≠ none)
    (.runtimeError (text "table already exists: " ++ stmt.dbName ++ text "." ++ stmt.tableName))
  let schema : TableSchema := ⟨stmt.columns⟩
  return (.put (schemaKey stmt.dbName stmt.tableName) schema.serialize, text "OK")

def executeAlterTableAddColumn (store : Store) (stmt : AlterTableAddColumnStatement) : Effect :=
  .ofWrite do
    let schema ← loadSchema store stmt.dbName stmt.tableName
    throwIf (schema.columnIndex stmt.column.name ≠ none)
      (.runtimeError (text "column already exists: " ++ stmt.column.name))
    match stmt.column.defaultValue with
    | none => throw (.runtimeError (text "ALTER TABLE ADD COLUMN requires a DEFAULT value"))
    | some v =>
      validateLiteral stmt.column.type stmt.column.name v
      let schema : TableSchema := ⟨schema.columns ++ [stmt.column]⟩
      return (.put (schemaKey stmt.dbName stmt.tableName) schema.serialize, text "OK")

/-- The loop of `ExecuteInsert`: the values in schema order; `none` is not yet filled. -/
def fillRow (schema : TableSchema) :
    List (Bytes × Bytes) → List (Option Bytes) → Except Exception (List (Option Bytes))
  | [], row => .ok row
  | (column, value) :: rest, row => do
    let idx ← indexOf schema column
    throwIf (row[idx]?.join ≠ none) (.runtimeError (text "column specified twice: " ++ column))
    let col ← columnAt schema idx
    validateLiteral col.type column value
    fillRow schema rest (row.set idx (some value))

/-- The row an `INSERT` stores and its primary key, once the statement fits the schema. -/
def insertRow (schema : TableSchema) (stmt : InsertStatement) :
    Except Exception (Row × Bytes) := do
  throwIf (stmt.columns.length ≠ schema.columns.length)
    (.runtimeError (text "INSERT must specify all " ++ toText schema.columns.length ++
      text " column(s) of table '" ++ stmt.dbName ++ text "." ++ stmt.tableName ++ text "'"))
  let filled ← fillRow schema (stmt.columns.zip stmt.values)
    (List.replicate schema.columns.length none)
  let row := filled.map (Option.getD · [])
  match schema.primaryKeyIndex with
  | none => throw .undefined
  | some idx => do
    let pk ← cell row idx
    return (row, pk)

def executeInsert (store : Store) (stmt : InsertStatement) : Effect := .ofWrite do
  let schema ← loadSchema store stmt.dbName stmt.tableName
  let (row, pk) ← insertRow schema stmt
  let key := rowKey stmt.dbName stmt.tableName pk
  throwIf (store.find key ≠ none) (.runtimeError (text "duplicate primary key: " ++ pk))
  return (.put key (encodeRow row), text "OK")

/-- A stored row in full, if it satisfies the `WHERE`. -/
def matchRow (schema : TableSchema) (whereClause : List Condition) (blob : Bytes) :
    Except Exception (Option Row) := do
  let row ← decodeRow blob
  let row ← padRow schema row
  let found ← matchesWhere schema row whereClause
  return if found then some row else none

def joinTabs (cells : List Bytes) : Bytes := [chr '\t'].intercalate cells

def noRows : Bytes := text "\n(0 rows)"

/-- The columns a `SELECT` prints. -/
def project (schema : TableSchema) (columns : List Bytes) : Except Exception (List ℕ) :=
  if columns = [] then .ok (List.range schema.columns.length)
  else columns.mapM (indexOf schema)

/-- The line of a row, if it satisfies the `WHERE`. -/
def selectRow (schema : TableSchema) (whereClause : List Condition) (projection : List ℕ)
    (blob : Bytes) : Except Exception (Option Bytes) := do
  let found ← matchRow schema whereClause blob
  match found with
  | none => return none
  | some row => do
    let cells ← projection.mapM (cell row)
    return some (joinTabs cells)

def executeSelect (store : Store) (stmt : SelectStatement) : Effect := .ofRead do
  let schema ← loadSchema store stmt.dbName stmt.tableName
  let projection ← project schema stmt.columns
  let headers := if stmt.columns = [] then schema.columns.map ColumnDef.name else stmt.columns
  let lines ← (scan store (rowPrefix stmt.dbName stmt.tableName)).mapM fun kv =>
    selectRow schema stmt.whereClause projection kv.2
  let found := lines.filterMap id
  return joinTabs headers ++ (found.flatMap fun line => chr '\n' :: line) ++
    if found = [] then noRows else []

/-- The row loop of `ExecuteUpdate` and `ExecuteDelete`: what is written, and how many rows
matched. -/
def writeRows (schema : TableSchema) (whereClause : List Condition)
    (write : Bytes → Row → Except Exception Mutation) :
    List (Bytes × Bytes) → List Mutation × Except Exception ℕ
  | [] => ([], .ok 0)
  | (key, blob) :: rows =>
    match matchRow schema whereClause blob with
    | .error e => ([], .error e)
    | .ok none => writeRows schema whereClause write rows
    | .ok (some row) =>
      match write key row with
      | .error e => ([], .error e)
      | .ok mu =>
        let (mus, count) := writeRows schema whereClause write rows
        (mu :: mus, count.map (· + 1))

/-- `row[idx] = literal` for every assignment. -/
def assign : List (ℕ × Bytes) → Row → Except Exception Row
  | [], row => .ok row
  | (idx, literal) :: rest, row =>
    if idx < row.length then assign rest (row.set idx literal) else .error .undefined

def checkAssignment (schema : TableSchema) (a : Bytes × Bytes) :
    Except Exception (ℕ × Bytes) := do
  let idx ← indexOf schema a.1
  throwIf (some idx = schema.primaryKeyIndex)
    (.runtimeError (text "cannot update the primary key column: " ++ a.1))
  let col ← columnAt schema idx
  validateLiteral col.type a.1 a.2
  return (idx, a.2)

/-- The loop over the rows of a table, if the checks before it do not throw. -/
def Effect.ofRows (checks : Except Exception (List Mutation × Except Exception ℕ))
    (what : Bytes) :
    Effect :=
  match checks with
  | .error e => throws e
  | .ok (writes, count) => (writes, count.map fun n => toText n ++ what)

def executeUpdate (store : Store) (stmt : UpdateStatement) : Effect :=
  .ofRows (do
    let schema ← loadSchema store stmt.dbName stmt.tableName
    let assignments ← stmt.assignments.mapM (checkAssignment schema)
    return writeRows schema stmt.whereClause
      (fun key row => (assign assignments row).map fun row => .put key (encodeRow row))
      (scan store (rowPrefix stmt.dbName stmt.tableName)))
    (text " row(s) updated")

def executeDelete (store : Store) (stmt : DeleteStatement) : Effect :=
  .ofRows (do
    let schema ← loadSchema store stmt.dbName stmt.tableName
    return writeRows schema stmt.whereClause (fun key _ => .ok (.delete key))
      (scan store (rowPrefix stmt.dbName stmt.tableName)))
    (text " row(s) deleted")

/-- A heading, and the rest of every key with the prefix. -/
def listNames (store : Store) (heading p : Bytes) : Bytes :=
  let names := (scan store p).map fun kv => kv.1.drop p.length
  heading ++ (names.flatMap fun n => chr '\n' :: n) ++ if names = [] then noRows else []

def executeShowTables (store : Store) (stmt : ShowTablesStatement) : Effect := .ofRead do
  requireDatabaseExists store stmt.dbName
  return listNames store (text "table") (text "__schema__/" ++ stmt.dbName ++ text "/")

def executeShowDatabases (store : Store) : Effect :=
  .ofRead (.ok (listNames store (text "database") (text "__database__/")))

def executeStatement (store : Store) : Statement → Effect
  | .createDatabase s => executeCreateDatabase store s
  | .createTable s => executeCreateTable store s
  | .alterTableAddColumn s => executeAlterTableAddColumn store s
  | .insert s => executeInsert store s
  | .select s => executeSelect store s
  | .update s => executeUpdate store s
  | .showTables s => executeShowTables store s
  | .showDatabases => executeShowDatabases store
  | .delete s => executeDelete store s

/-- `Execute`. -/
def execute (store : Store) (sql : Bytes) : Effect :=
  match parse sql with
  | .error e => throws e
  | .ok stmt => executeStatement store stmt

def findPkEquality (schema : TableSchema) (whereClause : List Condition) :
    Except Exception (Option Bytes) :=
  match schema.primaryKeyIndex with
  | none => .ok none
  | some idx => do
    let pk ← columnAt schema idx
    return (whereClause.find? fun c => c.column == pk.name && c.op == .kEq).map Condition.literal

/-- The row key an `INSERT` names, or that a `WHERE` pins. -/
def extractRowKey (store : Store) : Statement → Except Exception (Option Bytes)
  | .insert s => do
    let schema ← loadSchema store s.dbName s.tableName
    match schema.primaryKeyIndex with
    | none => throw .undefined
    | some idx =>
      let pk ← columnAt schema idx
      return ((s.columns.zip s.values).find? fun cv => cv.1 == pk.name).map fun cv =>
        rowKey s.dbName s.tableName cv.2
  | .select s => do
    let schema ← loadSchema store s.dbName s.tableName
    let pk ← findPkEquality schema s.whereClause
    return pk.map (rowKey s.dbName s.tableName)
  | .update s => do
    let schema ← loadSchema store s.dbName s.tableName
    let pk ← findPkEquality schema s.whereClause
    return pk.map (rowKey s.dbName s.tableName)
  | .delete s => do
    let schema ← loadSchema store s.dbName s.tableName
    let pk ← findPkEquality schema s.whereClause
    return pk.map (rowKey s.dbName s.tableName)
  | _ => .ok none

/-- `TryExtractRowKey`: every exception is caught. -/
def tryExtractRowKey (store : Store) (stmt : Statement) : Option Bytes :=
  match extractRowKey store stmt with
  | .ok key => key
  | .error _ => none

end DistDB.SqlExecutor
