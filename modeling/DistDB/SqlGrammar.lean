import DistDB.SqlParser

/-!
The grammar of the SQL subset that the comment on `Parser` describes, as derivations of token
sequences.

Keywords are read in any case, and any of them may be an identifier. `Derives` says which token
sequences are one of the nine statements, with its syntax tree; the semicolon and the end token
come behind it (`Final`).
-/

namespace DistDB.SqlGrammar

open SqlLexer SqlParser

def IsIdentifier (t : Token) : Prop := t.type = .kIdentifier

def IsLiteral (t : Token) : Prop := t.type = .kString ∨ t.type = .kNumber

def IsKeyword (keyword : Bytes) (t : Token) : Prop :=
  t.type = .kIdentifier ∧ toUpper t.text = keyword

def IsSymbol (symbol : Bytes) (t : Token) : Prop := t.type = .kSymbol ∧ t.text = symbol

instance (t : Token) : Decidable (IsIdentifier t) := inferInstanceAs (Decidable (_ = _))
instance (t : Token) : Decidable (IsLiteral t) := inferInstanceAs (Decidable (_ ∨ _))
instance (k : Bytes) (t : Token) : Decidable (IsKeyword k t) :=
  inferInstanceAs (Decidable (_ ∧ _))
instance (s : Bytes) (t : Token) : Decidable (IsSymbol s t) := inferInstanceAs (Decidable (_ ∧ _))

/-! ### Productions -/

/-- One or more of what `item` derives, with separators between them. -/
inductive SepBy {α : Type} (sep : Token → Prop) (item : List Token → α → Prop) :
    List Token → List α → Prop
  | one {body a} : item body a → SepBy sep item body [a]
  | more {body a t rest as} : item body a → sep t → SepBy sep item rest as →
      SepBy sep item (body ++ t :: rest) (a :: as)

/-- `<database>.<table>` -/
inductive TableName : List Token → Bytes × Bytes → Prop
  | mk {d dot t} : IsIdentifier d → IsSymbol (text ".") dot → IsIdentifier t →
      TableName [d, dot, t] (d.text, t.text)

inductive TypeName : Token → ColumnType → Prop
  | kText {t} : IsKeyword (text "TEXT") t → TypeName t .kText
  | kInt {t} : IsKeyword (text "INT") t → TypeName t .kInt

/-- The symbol of an operator; the lexer writes `<>` as `!=`. -/
def opSymbol : CompareOp → Bytes
  | .kEq => text "="
  | .kNe => text "!="
  | .kLt => text "<"
  | .kLe => text "<="
  | .kGt => text ">"
  | .kGe => text ">="

/-- `column <op> literal` -/
inductive Comparison : List Token → Condition → Prop
  | mk {c o v : Token} {op : CompareOp} : IsIdentifier c → IsSymbol (opSymbol op) o →
      IsLiteral v → Comparison [c, o, v] ⟨c.text, op, v.text⟩

/-- Nothing, or `WHERE` and a chain of comparisons. -/
inductive OptWhere : List Token → List Condition → Prop
  | absent : OptWhere [] []
  | chain {w body conds} : IsKeyword (text "WHERE") w →
      SepBy (IsKeyword (text "AND")) Comparison body conds → OptWhere (w :: body) conds

inductive Column : List Token → ColumnDef → Prop
  | plain {n t type} : IsIdentifier n → TypeName t type →
      Column [n, t] ⟨n.text, type, false, none⟩
  | key {n t type p k} : IsIdentifier n → TypeName t type → IsKeyword (text "PRIMARY") p →
      IsKeyword (text "KEY") k → Column [n, t, p, k] ⟨n.text, type, true, none⟩

inductive Assignment : List Token → Bytes × Bytes → Prop
  | mk {c e v} : IsIdentifier c → IsSymbol (text "=") e → IsLiteral v →
      Assignment [c, e, v] (c.text, v.text)

inductive Name : List Token → Bytes → Prop
  | mk {t} : IsIdentifier t → Name [t] t.text

inductive Value : List Token → Bytes → Prop
  | mk {t} : IsLiteral t → Value [t] t.text

/-- `*`, or names. -/
inductive Projection : List Token → List Bytes → Prop
  | star {t} : IsSymbol (text "*") t → Projection [t] []
  | names {body columns} : SepBy (IsSymbol (text ",")) Name body columns → Projection body columns

/-- The word `COLUMN`, which may be left out. -/
inductive OptColumn : List Token → Prop
  | absent : OptColumn []
  | word {t} : IsKeyword (text "COLUMN") t → OptColumn [t]

/-- The nine statements, without a semicolon. -/
inductive Derives : List Token → Statement → Prop
  | createDatabase {t₁ t₂ n} : IsKeyword (text "CREATE") t₁ →
      IsKeyword (text "DATABASE") t₂ → IsIdentifier n → Derives [t₁, t₂, n]
        (.createDatabase ⟨n.text⟩)
  | createTable {t₁ t₂ table d n l body columns r} : IsKeyword (text "CREATE") t₁ →
      IsKeyword (text "TABLE") t₂ → TableName table (d, n) → IsSymbol (text "(") l →
      SepBy (IsSymbol (text ",")) Column body columns → IsSymbol (text ")") r →
      columns.countP ColumnDef.primaryKey = 1 →
      Derives (t₁ :: t₂ :: (table ++ l :: (body ++ [r]))) (.createTable ⟨d, n, columns⟩)
  | alterTable {t₁ t₂ table d n a word c t type k v} : IsKeyword (text "ALTER") t₁ →
      IsKeyword (text "TABLE") t₂ → TableName table (d, n) → IsKeyword (text "ADD") a →
      OptColumn word → IsIdentifier c → TypeName t type → IsKeyword (text "DEFAULT") k →
      IsLiteral v →
      Derives (t₁ :: t₂ :: (table ++ a :: (word ++ [c, t, k, v])))
        (.alterTableAddColumn ⟨d, n, ⟨c.text, type, false, some v.text⟩⟩)
  | insert {t₁ t₂ table d n l body columns r v l' body' values r'} :
      IsKeyword (text "INSERT") t₁ → IsKeyword (text "INTO") t₂ → TableName table (d, n) →
        IsSymbol (text "(") l →
      SepBy (IsSymbol (text ",")) Name body columns → IsSymbol (text ")") r →
      IsKeyword (text "VALUES") v → IsSymbol (text "(") l' →
      SepBy (IsSymbol (text ",")) Value body' values → IsSymbol (text ")") r' →
      columns.length = values.length →
      Derives (t₁ :: t₂ :: (table ++ l :: (body ++ r :: v :: l' :: (body' ++ [r']))))
        (.insert ⟨d, n, columns, values⟩)
  | select {t₁ body columns f table d n tail conds} : IsKeyword (text "SELECT") t₁ →
      Projection body columns → IsKeyword (text "FROM") f → TableName table (d, n) →
      OptWhere tail conds →
      Derives (t₁ :: (body ++ f :: (table ++ tail))) (.select ⟨d, n, columns, conds⟩)
  | update {t₁ table d n s body assignments tail conds} : IsKeyword (text "UPDATE") t₁ →
      TableName table (d, n) → IsKeyword (text "SET") s →
      SepBy (IsSymbol (text ",")) Assignment body assignments → OptWhere tail conds →
      Derives (t₁ :: (table ++ s :: (body ++ tail))) (.update ⟨d, n, assignments, conds⟩)
  | delete {t₁ f table d n tail conds} : IsKeyword (text "DELETE") t₁ →
      IsKeyword (text "FROM") f → TableName table (d, n) → OptWhere tail conds →
      Derives (t₁ :: f :: (table ++ tail)) (.delete ⟨d, n, conds⟩)
  | showTables {t₁ t₂ f n} : IsKeyword (text "SHOW") t₁ → IsKeyword (text "TABLES") t₂ →
      IsKeyword (text "FROM") f → IsIdentifier n →
      Derives [t₁, t₂, f, n] (.showTables ⟨n.text⟩)
  | showDatabases {t₁ t₂} : IsKeyword (text "SHOW") t₁ →
      IsKeyword (text "DATABASES") t₂ → Derives [t₁, t₂] .showDatabases

/-- What may stand behind a statement: at most one semicolon, and the end token. -/
inductive Final : List Token → Prop
  | stop {e} : e.type = .kEnd → Final [e]
  | semicolon {s e} : IsSymbol (text ";") s → e.type = .kEnd → Final [s, e]

/-- The token goes on with the `WHERE` that is there so far. -/
def WhereGoesOn (conds : List Condition) : Token → Prop :=
  if conds = [] then IsKeyword (text "WHERE") else IsKeyword (text "AND")

/-- The token goes on with a statement that could also end in front of it. -/
def GoesOn : Statement → Token → Prop
  | .select s, t => WhereGoesOn s.whereClause t
  | .delete s, t => WhereGoesOn s.whereClause t
  | .update s, t => WhereGoesOn s.whereClause t ∨ (s.whereClause = [] ∧ IsSymbol (text ",") t)
  | _, _ => False

/-- The statement ends in front of these tokens: there is one, and it does not go on. -/
def Stops (goesOn : Token → Prop) (tail : List Token) : Prop := ∃ t ∈ tail.head?, ¬ goesOn t

/-- The word `COLUMN` is left out in front of a column of that name: the parser takes the name
for the word. -/
def Shadowed (body : List Token) : Statement → Prop
  | .alterTableAddColumn _ => body.length = 10 ∧ ∃ c ∈ body[6]?, IsKeyword (text "COLUMN") c
  | _ => False

end DistDB.SqlGrammar
