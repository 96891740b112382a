import DistDB.SqlLexer

/-!
The statements of `sql/ast.h` and the recursive-descent parser of `sql/parser.cpp`.

The parser's state is the list of tokens from `pos_` on. A read past the last token is the
exception `undefined`.
-/

namespace DistDB.SqlParser

open SqlLexer

inductive ColumnType
  | kText
  | kInt
  deriving DecidableEq

structure ColumnDef where
  name : Bytes
  type : ColumnType
  primaryKey : Bool
  defaultValue : Option Bytes
  deriving DecidableEq

structure CreateDatabaseStatement where
  name : Bytes
  deriving DecidableEq

structure CreateTableStatement where
  dbName : Bytes
  tableName : Bytes
  columns : List ColumnDef
  deriving DecidableEq

structure AlterTableAddColumnStatement where
  dbName : Bytes
  tableName : Bytes
  column : ColumnDef
  deriving DecidableEq

structure InsertStatement where
  dbName : Bytes
  tableName : Bytes
  columns : List Bytes
  values : List Bytes
  deriving DecidableEq

inductive CompareOp
  | kEq
  | kNe
  | kLt
  | kLe
  | kGt
  | kGe
  deriving DecidableEq

structure Condition where
  column : Bytes
  op : CompareOp
  literal : Bytes
  deriving DecidableEq

structure SelectStatement where
  dbName : Bytes
  tableName : Bytes
  /-- Empty means `*`. -/
  columns : List Bytes
  whereClause : List Condition
  deriving DecidableEq

structure UpdateStatement where
  dbName : Bytes
  tableName : Bytes
  assignments : List (Bytes × Bytes)
  whereClause : List Condition
  deriving DecidableEq

structure DeleteStatement where
  dbName : Bytes
  tableName : Bytes
  whereClause : List Condition
  deriving DecidableEq

structure ShowTablesStatement where
  dbName : Bytes
  deriving DecidableEq

inductive Statement
  | createTable (s : CreateTableStatement)
  | insert (s : InsertStatement)
  | select (s : SelectStatement)
  | update (s : UpdateStatement)
  | delete (s : DeleteStatement)
  | alterTableAddColumn (s : AlterTableAddColumnStatement)
  | showTables (s : ShowTablesStatement)
  | createDatabase (s : CreateDatabaseStatement)
  | showDatabases
  deriving DecidableEq

abbrev Parser := StateT (List Token) (Except Exception)

def toUpper (s : Bytes) : Bytes := s.map fun c => if isLower c then c - 32 else c

def fail {α : Type} (what : Bytes) : Parser α := throw (.runtimeError what)

def failUnless (b : Bool) (what : Bytes) : Parser Unit := if b then pure () else fail what

def peek : Parser Token
  | [] => .error .undefined
  | t :: ts => .ok (t, t :: ts)

def advance : Parser Token
  | [] => .error .undefined
  | t :: ts => .ok (t, ts)

def checkKeyword (keyword : Bytes) : Parser Bool := do
  let t ← peek
  return t.type == .kIdentifier && toUpper t.text == keyword

def checkSymbol (symbol : Bytes) : Parser Bool := do
  let t ← peek
  return t.type == .kSymbol && t.text == symbol

def expectKeyword (keyword : Bytes) : Parser Unit := do
  let found ← checkKeyword keyword
  let t ← peek
  failUnless found (text "expected keyword '" ++ keyword ++ text "' but found '" ++
    t.text ++ text "'")
  let _ ← advance

def expectSymbol (symbol : Bytes) : Parser Unit := do
  let found ← checkSymbol symbol
  let t ← peek
  failUnless found (text "expected '" ++ symbol ++ text "' but found '" ++ t.text ++ text "'")
  let _ ← advance

def expectIdentifier : Parser Bytes := do
  let t ← peek
  failUnless (t.type == .kIdentifier)
    (text "expected an identifier but found '" ++ t.text ++ text "'")
  let t ← advance
  return t.text

def expectLiteral : Parser Bytes := do
  let t ← peek
  failUnless (t.type == .kString || t.type == .kNumber)
    (text "expected a literal value but found '" ++ t.text ++ text "'")
  let t ← advance
  return t.text

def expectQualifiedTableName : Parser (Bytes × Bytes) := do
  let dbName ← expectIdentifier
  let found ← checkSymbol (text ".")
  failUnless found (text "table name '" ++ dbName ++
    text "' must be qualified as <database>.<table> - there is no current/default database " ++
    text "in this project (see CREATE DATABASE)")
  let _ ← advance
  let tableName ← expectIdentifier
  return (dbName, tableName)

/-- `if (b) Advance();` -/
def advanceIf (b : Bool) : Parser Unit :=
  if b then do let _ ← advance else pure ()

/-- `if (CheckSymbol(";")) Advance();` -/
def skipSemicolon : Parser Unit := do
  let found ← checkSymbol (text ";")
  advanceIf found

/-- A loop over the tokens left; every pass takes at least one of them. -/
def loop {α : Type} (body : ℕ → Parser α) : Parser α := fun ts => body ts.length ts

/-- `item`s as long as `more` holds, whose token is then skipped. -/
def sepList {α : Type} (more : Parser Bool) (item : Parser α) : ℕ → Parser (List α)
  | 0 => throw .undefined
  | n + 1 => do
    let a ← item
    let again ← more
    if again then do
      let _ ← advance
      let as ← sepList more item n
      return a :: as
    else return [a]

def commaList {α : Type} (item : Parser α) : Parser (List α) :=
  loop (sepList (checkSymbol (text ",")) item)

/-! ### Productions -/

def parseColumnType : Parser ColumnType := do
  let name ← expectIdentifier
  let typeName := toUpper name
  if typeName = text "TEXT" then return .kText
  else if typeName = text "INT" then return .kInt
  else fail (text "unknown column type '" ++ typeName ++ text "' (expected TEXT or INT)")

def parseCompareOp : Parser CompareOp := do
  let t ← peek
  failUnless (t.type == .kSymbol) (text "expected a comparison operator")
  let t ← advance
  let op := t.text
  if op = text "=" then return .kEq
  else if op = text "!=" then return .kNe
  else if op = text "<" then return .kLt
  else if op = text "<=" then return .kLe
  else if op = text ">" then return .kGt
  else if op = text ">=" then return .kGe
  else fail (text "unknown comparison operator '" ++ op ++ text "'")

def parseCondition : Parser Condition := do
  let column ← expectIdentifier
  let op ← parseCompareOp
  let literal ← expectLiteral
  return ⟨column, op, literal⟩

def parseWhereClause : Parser (List Condition) :=
  loop (sepList (checkKeyword (text "AND")) parseCondition)

/-- The `WHERE` of a statement, if there is one. -/
def parseOptionalWhere : Parser (List Condition) := do
  let found ← checkKeyword (text "WHERE")
  if found then do
    let _ ← advance
    parseWhereClause
  else return []

def parseCreateDatabase : Parser CreateDatabaseStatement := do
  expectKeyword (text "CREATE")
  expectKeyword (text "DATABASE")
  let name ← expectIdentifier
  skipSemicolon
  return ⟨name⟩

/-- `PRIMARY KEY` behind a column, if it is there; `hasPk` says whether there was one before. -/
def parsePrimaryKey (hasPk : Bool) : Parser Bool := do
  let primaryKey ← checkKeyword (text "PRIMARY")
  if primaryKey then do
    let _ ← advance
    expectKeyword (text "KEY")
    failUnless (!hasPk) (text "table cannot have more than one PRIMARY KEY column")
    return true
  else return false

/-- The column loop of `ParseCreateTable`: the columns, and whether there is a primary key. -/
def parseColumns : ℕ → Bool → Parser (List ColumnDef × Bool)
  | 0, _ => throw .undefined
  | n + 1, hasPk => do
    let name ← expectIdentifier
    let type ← parseColumnType
    let primaryKey ← parsePrimaryKey hasPk
    let col : ColumnDef := ⟨name, type, primaryKey, none⟩
    let again ← checkSymbol (text ",")
    if again then do
      let _ ← advance
      let (cols, hasPk) ← parseColumns n (hasPk || primaryKey)
      return (col :: cols, hasPk)
    else return ([col], hasPk || primaryKey)

def parseCreateTable : Parser CreateTableStatement := do
  expectKeyword (text "CREATE")
  expectKeyword (text "TABLE")
  let (dbName, tableName) ← expectQualifiedTableName
  expectSymbol (text "(")
  let (columns, hasPk) ← loop fun n => parseColumns n false
  expectSymbol (text ")")
  failUnless hasPk
    (text "table '" ++ tableName ++ text "' must declare exactly one PRIMARY KEY column")
  skipSemicolon
  return ⟨dbName, tableName, columns⟩

def parseAlterTable : Parser AlterTableAddColumnStatement := do
  expectKeyword (text "ALTER")
  expectKeyword (text "TABLE")
  let (dbName, tableName) ← expectQualifiedTableName
  expectKeyword (text "ADD")
  let found ← checkKeyword (text "COLUMN")
  advanceIf found
  let name ← expectIdentifier
  let type ← parseColumnType
  expectKeyword (text "DEFAULT")
  let default ← expectLiteral
  skipSemicolon
  return ⟨dbName, tableName, ⟨name, type, false, some default⟩⟩

def parseInsert : Parser InsertStatement := do
  expectKeyword (text "INSERT")
  expectKeyword (text "INTO")
  let (dbName, tableName) ← expectQualifiedTableName
  expectSymbol (text "(")
  let columns ← commaList expectIdentifier
  expectSymbol (text ")")
  expectKeyword (text "VALUES")
  expectSymbol (text "(")
  let values ← commaList expectLiteral
  expectSymbol (text ")")
  failUnless (columns.length == values.length) (text "column count does not match value count")
  skipSemicolon
  return ⟨dbName, tableName, columns, values⟩

/-- The columns of a `SELECT`; none for `*`. -/
def parseProjection : Parser (List Bytes) := do
  let star ← checkSymbol (text "*")
  if star then do
    let _ ← advance
    return []
  else commaList expectIdentifier

def parseSelect : Parser SelectStatement := do
  expectKeyword (text "SELECT")
  let columns ← parseProjection
  expectKeyword (text "FROM")
  let (dbName, tableName) ← expectQualifiedTableName
  let whereClause ← parseOptionalWhere
  skipSemicolon
  return ⟨dbName, tableName, columns, whereClause⟩

def parseAssignment : Parser (Bytes × Bytes) := do
  let column ← expectIdentifier
  expectSymbol (text "=")
  let literal ← expectLiteral
  return (column, literal)

def parseUpdate : Parser UpdateStatement := do
  expectKeyword (text "UPDATE")
  let (dbName, tableName) ← expectQualifiedTableName
  expectKeyword (text "SET")
  let assignments ← commaList parseAssignment
  let whereClause ← parseOptionalWhere
  skipSemicolon
  return ⟨dbName, tableName, assignments, whereClause⟩

def parseDelete : Parser DeleteStatement := do
  expectKeyword (text "DELETE")
  expectKeyword (text "FROM")
  let (dbName, tableName) ← expectQualifiedTableName
  let whereClause ← parseOptionalWhere
  skipSemicolon
  return ⟨dbName, tableName, whereClause⟩

def parseShowTables : Parser ShowTablesStatement := do
  expectKeyword (text "SHOW")
  expectKeyword (text "TABLES")
  expectKeyword (text "FROM")
  let dbName ← expectIdentifier
  skipSemicolon
  return ⟨dbName⟩

def parseShowDatabases : Parser Unit := do
  expectKeyword (text "SHOW")
  expectKeyword (text "DATABASES")
  skipSemicolon

/-- The token behind the next one is the keyword. -/
def secondIs (keyword : Bytes) : Parser Bool := fun ts =>
  .ok (ts.tail.head?.any fun t => t.type == .kIdentifier && toUpper t.text == keyword, ts)

/-- The statement kinds by their first keyword, in the order they are tried. -/
def productions : List (Bytes × Parser Statement) := [
  (text "CREATE", do
    let database ← secondIs (text "DATABASE")
    if database then .createDatabase <$> parseCreateDatabase
    else .createTable <$> parseCreateTable),
  (text "ALTER", .alterTableAddColumn <$> parseAlterTable),
  (text "INSERT", .insert <$> parseInsert),
  (text "SELECT", .select <$> parseSelect),
  (text "UPDATE", .update <$> parseUpdate),
  (text "DELETE", .delete <$> parseDelete),
  (text "SHOW", do
    let databases ← secondIs (text "DATABASES")
    if databases then (fun _ => .showDatabases) <$> parseShowDatabases
    else .showTables <$> parseShowTables)]

def firstOf : List (Bytes × Parser Statement) → Parser Statement
  | [] => do
    let t ← peek
    fail (text "unrecognized statement starting with '" ++ t.text ++ text "'")
  | (keyword, production) :: rest => do
    let found ← checkKeyword keyword
    if found then production else firstOf rest

def parseStatement : Parser Statement := firstOf productions

/-- `Parser(Tokenize(sql)).ParseStatement()`. -/
def parse (sql : Bytes) : Except Exception Statement := do
  let tokens ← tokenize sql
  (parseStatement tokens).map Prod.fst

example : parse (text "delete from d.t where k >= 'it''s' and n <> -1;") = .ok (.delete
    ⟨text "d", text "t",
      [⟨text "k", .kGe, text "it's"⟩, ⟨text "n", .kNe, text "-1"⟩]⟩) := by
  decide +kernel

end DistDB.SqlParser
