import DistDB.SqlExecutor

/-!
What the SQL layer is for: databases of relations. There are no storage keys here, no encodings, no
prefixes and no rows of an older generation; what a statement checks and prints is what the
executor checks and prints.

A relation has its rows by primary key. A `WHERE` is evaluated in the order of the keys, and when it
throws on a row, what the statement has done for the rows before stays.
-/

namespace DistDB.Relational

open SqlParser SqlExecutor Checks Bytes

/-- A relation: its columns, and its rows by primary key. -/
structure Relation where
  columns : List ColumnDef
  rows : OrdMap Bytes Row

/-- The rows that satisfy a condition, up to the first on which it throws. -/
def found {κ ρ ε : Type} (holds : ρ → Except ε Bool) :
    List (κ × ρ) → List (κ × ρ) × Except ε Unit
  | [] => ([], .ok ())
  | (k, row) :: rows =>
    match holds row with
    | .error e => ([], .error e)
    | .ok b => ((if b then [(k, row)] else []) ++ (found holds rows).1, (found holds rows).2)

namespace Relation

def schema (r : Relation) : TableSchema := ⟨r.columns⟩

def satisfying (r : Relation) (whereClause : List Condition) :
    List (Bytes × Row) × Except Exception Unit :=
  found (fun row => matchesWhere r.schema row whereClause) r.rows.entries

/-- One more column, with the default in every row. -/
def addColumn (r : Relation) (c : ColumnDef) (v : Bytes) : Relation :=
  ⟨r.columns ++ [c], r.rows.filterMap fun _ row => some (row ++ [v])⟩

/-- Some of the rows are rewritten or dropped. -/
def change (r : Relation) (rows : List (Bytes × Row)) (f : Row → Option Row) : Relation :=
  { r with rows := r.rows.filterMap fun pk row => if (pk, row) ∈ rows then f row else some row }

end Relation

/-- The databases, and the relations of each by name. -/
abbrev Catalog := OrdMap Bytes (OrdMap Bytes Relation)

def relationAt (cat : Catalog) (d t : Bytes) : Option Relation :=
  (cat.find d).bind fun tables => tables.find t

def setRelation (cat : Catalog) (d t : Bytes) (r : Relation) : Catalog :=
  cat.insert d (((cat.find d).getD .empty).insert t r)

def relation (cat : Catalog) (d t : Bytes) : Except Exception Relation :=
  match relationAt cat d t with
  | none => .error (.runtimeError (text "no such table: " ++ d ++ text "." ++ t))
  | some r => .ok r

def database (cat : Catalog) (d : Bytes) : Except Exception (OrdMap Bytes Relation) :=
  match cat.find d with
  | none => .error (.runtimeError (text "no such database: " ++ d))
  | some tables => .ok tables

/-! ### Statements -/

/-- What a statement leaves and returns that changes nothing when it throws. -/
def commit (cat : Catalog) : Except Exception Catalog → Catalog × Except Exception Bytes
  | .error e => (cat, .error e)
  | .ok cat' => (cat', .ok (text "OK"))

def createDatabase (cat : Catalog) (s : CreateDatabaseStatement) :
    Catalog × Except Exception Bytes := commit cat do
  throwIf ((cat.find s.name).isSome)
    (.runtimeError (text "database already exists: " ++ s.name))
  return cat.insert s.name .empty

def createTable (cat : Catalog) (s : CreateTableStatement) : Catalog × Except Exception Bytes :=
  commit cat do
    let tables ← database cat s.dbName
    throwIf ((tables.find s.tableName).isSome)
      (.runtimeError (text "table already exists: " ++ s.dbName ++ text "." ++ s.tableName))
    return setRelation cat s.dbName s.tableName ⟨s.columns, .empty⟩

def alterTableAddColumn (cat : Catalog) (s : AlterTableAddColumnStatement) :
    Catalog × Except Exception Bytes := commit cat do
  let r ← relation cat s.dbName s.tableName
  throwIf (r.schema.columnIndex s.column.name ≠ none)
    (.runtimeError (text "column already exists: " ++ s.column.name))
  match s.column.defaultValue with
  | none => throw (.runtimeError (text "ALTER TABLE ADD COLUMN requires a DEFAULT value"))
  | some v => do
    validateLiteral s.column.type s.column.name v
    return setRelation cat s.dbName s.tableName (r.addColumn s.column v)

def insert (cat : Catalog) (s : InsertStatement) : Catalog × Except Exception Bytes :=
  commit cat do
    let r ← relation cat s.dbName s.tableName
    let (row, pk) ← insertRow r.schema s
    throwIf ((r.rows.find pk).isSome) (.runtimeError (text "duplicate primary key: " ++ pk))
    return setRelation cat s.dbName s.tableName { r with rows := r.rows.insert pk row }

def listing (heading : Bytes) (lines : List Bytes) : Bytes :=
  heading ++ (lines.flatMap fun line => chr '\n' :: line) ++ if lines = [] then noRows else []

def select (cat : Catalog) (s : SelectStatement) : Except Exception Bytes := do
  let r ← relation cat s.dbName s.tableName
  let projection ← project r.schema s.columns
  (r.satisfying s.whereClause).2
  let headers := if s.columns = [] then r.columns.map ColumnDef.name else s.columns
  return listing (joinTabs headers) ((r.satisfying s.whereClause).1.map fun e =>
    joinTabs (projection.map fun i => e.2.getD i []))

/-- The rows that satisfy the `WHERE` are changed, and counted. -/
def changeRows (cat : Catalog) (d t : Bytes) (r : Relation) (whereClause : List Condition)
    (f : Row → Option Row) (what : Bytes) : Catalog × Except Exception Bytes :=
  let (rows, result) := r.satisfying whereClause
  (setRelation cat d t (r.change rows f), result.map fun _ => toText rows.length ++ what)

/-- The row with the assigned cells. -/
def assigned (assignments : List (ℕ × Bytes)) (row : Row) : Row :=
  assignments.foldl (fun row a => row.set a.1 a.2) row

def update (cat : Catalog) (s : UpdateStatement) : Catalog × Except Exception Bytes :=
  match relation cat s.dbName s.tableName with
  | .error e => (cat, .error e)
  | .ok r =>
    match s.assignments.mapM (checkAssignment r.schema) with
    | .error e => (cat, .error e)
    | .ok assignments => changeRows cat s.dbName s.tableName r s.whereClause
        (fun row => some (assigned assignments row)) (text " row(s) updated")

def delete (cat : Catalog) (s : DeleteStatement) : Catalog × Except Exception Bytes :=
  match relation cat s.dbName s.tableName with
  | .error e => (cat, .error e)
  | .ok r => changeRows cat s.dbName s.tableName r s.whereClause (fun _ => none)
      (text " row(s) deleted")

def names {ν : Type} (m : OrdMap Bytes ν) : List Bytes := m.entries.map Prod.fst

def showTables (cat : Catalog) (s : ShowTablesStatement) : Except Exception Bytes := do
  let tables ← database cat s.dbName
  return listing (text "table") (names tables)

def executeStatement (cat : Catalog) : Statement → Catalog × Except Exception Bytes
  | .createDatabase s => createDatabase cat s
  | .createTable s => createTable cat s
  | .alterTableAddColumn s => alterTableAddColumn cat s
  | .insert s => insert cat s
  | .select s => (cat, select cat s)
  | .update s => update cat s
  | .showTables s => (cat, showTables cat s)
  | .showDatabases => (cat, .ok (listing (text "database") (names cat)))
  | .delete s => delete cat s

def execute (cat : Catalog) (sql : Bytes) : Catalog × Except Exception Bytes :=
  match parse sql with
  | .error e => (cat, .error e)
  | .ok stmt => executeStatement cat stmt

/-- What the statements of a sequence return or throw, one after the other. -/
def answers (cat : Catalog) : List Bytes → List (Except Exception Bytes)
  | [] => []
  | sql :: sqls => (execute cat sql).2 :: answers (execute cat sql).1 sqls

/-- What the statements of a sequence leave. -/
def catalogAfter (cat : Catalog) (sqls : List Bytes) : Catalog :=
  sqls.foldl (fun cat sql => (execute cat sql).1) cat

lemma relationAt_setRelation (cat : Catalog) (d t d' t' : Bytes) (r : Relation) :
    relationAt (setRelation cat d t r) d' t' =
      if d' = d ∧ t' = t then some r else relationAt cat d' t' := by
  unfold relationAt setRelation
  rw [OrdMap.find_insert]
  by_cases hd : d' = d
  · subst hd
    rw [if_pos rfl, Option.bind_some, OrdMap.find_insert]
    by_cases ht : t' = t
    · rw [if_pos ht, if_pos ⟨rfl, ht⟩]
    · rw [if_neg ht, if_neg fun h => ht h.2]
      cases cat.find d' with
      | none => rfl
      | some tables => rfl
  · rw [if_neg hd, if_neg fun h => hd h.1]

lemma found_sublist {κ ρ ε : Type} (holds : ρ → Except ε Bool) (rows : List (κ × ρ)) :
    (found holds rows).1.Sublist rows := by
  induction rows with
  | nil => exact .slnil
  | cons e rows ih =>
    rw [found]
    split
    · exact List.nil_sublist _
    · rename_i b hb
      cases b with
      | false => exact ih.cons e
      | true => exact ih.cons_cons e

lemma relation_eq_ok {cat : Catalog} {d t : Bytes} {r : Relation} :
    relation cat d t = .ok r ↔ relationAt cat d t = some r := by
  unfold relation
  cases relationAt cat d t with
  | none => simp
  | some r' => simp

end DistDB.Relational
