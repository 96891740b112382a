import DistDB.SqlIndex
import DistDB.SqlParser

/-!
The parser with its vector of tokens and its position (`sql/parser.cpp`).

`tokens_[i]` past the end is the exception `undefined`, and so is a loop with more passes than there
are tokens left; nothing catches it. `pos_` only goes up, and stays where it is when a production
throws. On tokens of which the last and only the last is the end token, the position never gets
past it (`parsing_in_bounds`), and the parser does what the parser over the tokens left does
(`parse_eq`).
-/

namespace DistDB.SqlPositions

open SqlLexer SqlLexing SqlIndex Checks

/-- The tokens, which do not change, and `pos_`. -/
abbrev Parser := ReaderT (List Token) (ExceptT Exception (StateM ℕ))

/-- `tokens_[i]` -/
def tokenAt (i : ℕ) : Parser Token := do
  match (← read)[i]? with
  | none => throw .undefined
  | some t => return t

def peek : Parser Token := do
  tokenAt (← get)

def advance : Parser Token := do
  let t ← tokenAt (← get)
  modify (· + 1)
  return t

def fail {α : Type} (what : Bytes) : Parser α := throw (.runtimeError what)

def failUnless (b : Bool) (what : Bytes) : Parser Unit := if b then pure () else fail what

def checkKeyword (keyword : Bytes) : Parser Bool := do
  let t ← peek
  return t.type == .kIdentifier && SqlParser.toUpper t.text == keyword

def checkSymbol (symbol : Bytes) : Parser Bool := do
  let t ← peek
  return t.type == .kSymbol && t.text == symbol

def expectKeyword (keyword : Bytes) : Parser Unit := do
  let found ← checkKeyword keyword
  let t ← peek
  failUnless found (text "expected keyword '" ++ keyword ++ text "' but found '" ++
    t.text ++ text "'")
  let _ ← advance

def expectSymbol (symbol : Bytes) : Parser Unit := do
  let found ← checkSymbol symbol
  let t ← peek
  failUnless found (text "expected '" ++ symbol ++ text "' but found '" ++ t.text ++ text "'")
  let _ ← advance

def expectIdentifier : Parser Bytes := do
  let t ← peek
  failUnless (t.type == .kIdentifier)
    (text "expected an identifier but found '" ++ t.text ++ text "'")
  let t ← advance
  return t.text

def expectLiteral : Parser Bytes := do
  let t ← peek
  failUnless (t.type == .kString || t.type == .kNumber)
    (text "expected a literal value but found '" ++ t.text ++ text "'")
  let t ← advance
  return t.text

def expectQualifiedTableName : Parser (Bytes × Bytes) := do
  let dbName ← expectIdentifier
  let found ← checkSymbol (text ".")
  failUnless found (text "table name '" ++ dbName ++
    text "' must be qualified as <database>.<table> - there is no current/default database " ++
    text "in this project (see CREATE DATABASE)")
  let _ ← advance
  let tableName ← expectIdentifier
  return (dbName, tableName)

/-- `if (b) Advance();` -/
def advanceIf (b : Bool) : Parser Unit :=
  if b then do let _ ← advance else pure ()

/-- `if (CheckSymbol(";")) Advance();` -/
def skipSemicolon : Parser Unit := do
  let found ← checkSymbol (text ";")
  advanceIf found

/-- A loop with a bound on its passes: the number of tokens left. -/
def loop {α : Type} (body : ℕ → Parser α) : Parser α := do
  body ((← read).length - (← get))

/-- `item`s as long as `more` holds, whose token is then skipped. -/
def sepList {α : Type} (more : Parser Bool) (item : Parser α) : ℕ → Parser (List α)
  | 0 => throw .undefined
  | n + 1 => do
    let a ← item
    let again ← more
    if again then do
      let _ ← advance
      let as ← sepList more item n
      return a :: as
    else return [a]

def commaList {α : Type} (item : Parser α) : Parser (List α) :=
  loop (sepList (checkSymbol (text ",")) item)

/-! ### Productions -/

def parseColumnType : Parser SqlParser.ColumnType := do
  let name ← expectIdentifier
  let typeName := SqlParser.toUpper name
  if typeName = text "TEXT" then return .kText
  else if typeName = text "INT" then return .kInt
  else fail (text "unknown column type '" ++ typeName ++ text "' (expected TEXT or INT)")

def parseCompareOp : Parser SqlParser.CompareOp := do
  let t ← peek
  failUnless (t.type == .kSymbol) (text "expected a comparison operator")
  let t ← advance
  let op := t.text
  if op = text "=" then return .kEq
  else if op = text "!=" then return .kNe
  else if op = text "<" then return .kLt
  else if op = text "<=" then return .kLe
  else if op = text ">" then return .kGt
  else if op = text ">=" then return .kGe
  else fail (text "unknown comparison operator '" ++ op ++ text "'")

def parseCondition : Parser SqlParser.Condition := do
  let column ← expectIdentifier
  let op ← parseCompareOp
  let literal ← expectLiteral
  return ⟨column, op, literal⟩

def parseWhereClause : Parser (List SqlParser.Condition) :=
  loop (sepList (checkKeyword (text "AND")) parseCondition)

/-- The `WHERE` of a statement, if there is one. -/
def parseOptionalWhere : Parser (List SqlParser.Condition) := do
  let found ← checkKeyword (text "WHERE")
  if found then do
    let _ ← advance
    parseWhereClause
  else return []

def parseCreateDatabase : Parser SqlParser.CreateDatabaseStatement := do
  expectKeyword (text "CREATE")
  expectKeyword (text "DATABASE")
  let name ← expectIdentifier
  skipSemicolon
  return ⟨name⟩

/-- `PRIMARY KEY` behind a column, if it is there; `hasPk` says whether there was one before. -/
def parsePrimaryKey (hasPk : Bool) : Parser Bool := do
  let primaryKey ← checkKeyword (text "PRIMARY")
  if primaryKey then do
    let _ ← advance
    expectKeyword (text "KEY")
    failUnless (!hasPk) (text "table cannot have more than one PRIMARY KEY column")
    return true
  else return false

/-- The column loop of `ParseCreateTable`: the columns, and whether there is a primary key. -/
def parseColumns : ℕ → Bool → Parser (List SqlParser.ColumnDef × Bool)
  | 0, _ => throw .undefined
  | n + 1, hasPk => do
    let name ← expectIdentifier
    let type ← parseColumnType
    let primaryKey ← parsePrimaryKey hasPk
    let col : SqlParser.ColumnDef := ⟨name, type, primaryKey, none⟩
    let again ← checkSymbol (text ",")
    if again then do
      let _ ← advance
      let (cols, hasPk) ← parseColumns n (hasPk || primaryKey)
      return (col :: cols, hasPk)
    else return ([col], hasPk || primaryKey)

def parseCreateTable : Parser SqlParser.CreateTableStatement := do
  expectKeyword (text "CREATE")
  expectKeyword (text "TABLE")
  let (dbName, tableName) ← expectQualifiedTableName
  expectSymbol (text "(")
  let (columns, hasPk) ← loop fun n => parseColumns n false
  expectSymbol (text ")")
  failUnless hasPk
    (text "table '" ++ tableName ++ text "' must declare exactly one PRIMARY KEY column")
  skipSemicolon
  return ⟨dbName, tableName, columns⟩

def parseAlterTable : Parser SqlParser.AlterTableAddColumnStatement := do
  expectKeyword (text "ALTER")
  expectKeyword (text "TABLE")
  let (dbName, tableName) ← expectQualifiedTableName
  expectKeyword (text "ADD")
  let found ← checkKeyword (text "COLUMN")
  advanceIf found
  let name ← expectIdentifier
  let type ← parseColumnType
  expectKeyword (text "DEFAULT")
  let default ← expectLiteral
  skipSemicolon
  return ⟨dbName, tableName, ⟨name, type, false, some default⟩⟩

def parseInsert : Parser SqlParser.InsertStatement := do
  expectKeyword (text "INSERT")
  expectKeyword (text "INTO")
  let (dbName, tableName) ← expectQualifiedTableName
  expectSymbol (text "(")
  let columns ← commaList expectIdentifier
  expectSymbol (text ")")
  expectKeyword (text "VALUES")
  expectSymbol (text "(")
  let values ← commaList expectLiteral
  expectSymbol (text ")")
  failUnless (columns.length == values.length) (text "column count does not match value count")
  skipSemicolon
  return ⟨dbName, tableName, columns, values⟩

/-- The columns of a `SELECT`; none for `*`. -/
def parseProjection : Parser (List Bytes) := do
  let star ← checkSymbol (text "*")
  if star then do
    let _ ← advance
    return []
  else commaList expectIdentifier

def parseSelect : Parser SqlParser.SelectStatement := do
  expectKeyword (text "SELECT")
  let columns ← parseProjection
  expectKeyword (text "FROM")
  let (dbName, tableName) ← expectQualifiedTableName
  let whereClause ← parseOptionalWhere
  skipSemicolon
  return ⟨dbName, tableName, columns, whereClause⟩

def parseAssignment : Parser (Bytes × Bytes) := do
  let column ← expectIdentifier
  expectSymbol (text "=")
  let literal ← expectLiteral
  return (column, literal)

def parseUpdate : Parser SqlParser.UpdateStatement := do
  expectKeyword (text "UPDATE")
  let (dbName, tableName) ← expectQualifiedTableName
  expectKeyword (text "SET")
  let assignments ← commaList parseAssignment
  let whereClause ← parseOptionalWhere
  skipSemicolon
  return ⟨dbName, tableName, assignments, whereClause⟩

def parseDelete : Parser SqlParser.DeleteStatement := do
  expectKeyword (text "DELETE")
  expectKeyword (text "FROM")
  let (dbName, tableName) ← expectQualifiedTableName
  let whereClause ← parseOptionalWhere
  skipSemicolon
  return ⟨dbName, tableName, whereClause⟩

def parseShowTables : Parser SqlParser.ShowTablesStatement := do
  expectKeyword (text "SHOW")
  expectKeyword (text "TABLES")
  expectKeyword (text "FROM")
  let dbName ← expectIdentifier
  skipSemicolon
  return ⟨dbName⟩

def parseShowDatabases : Parser Unit := do
  expectKeyword (text "SHOW")
  expectKeyword (text "DATABASES")
  skipSemicolon

/-- The token behind the next one, if it is there, is the keyword. -/
def secondIs (keyword : Bytes) : Parser Bool := do
  let pos ← get
  if pos + 1 < (← read).length then do
    let t ← tokenAt (pos + 1)
    return t.type == .kIdentifier && SqlParser.toUpper t.text == keyword
  else return false

/-- The statement kinds by their first keyword, in the order they are tried. -/
def productions : List (Bytes × Parser SqlParser.Statement) := [
  (text "CREATE", do
    let database ← secondIs (text "DATABASE")
    if database then .createDatabase <$> parseCreateDatabase
    else .createTable <$> parseCreateTable),
  (text "ALTER", .alterTableAddColumn <$> parseAlterTable),
  (text "INSERT", .insert <$> parseInsert),
  (text "SELECT", .select <$> parseSelect),
  (text "UPDATE", .update <$> parseUpdate),
  (text "DELETE", .delete <$> parseDelete),
  (text "SHOW", do
    let databases ← secondIs (text "DATABASES")
    if databases then (fun _ => .showDatabases) <$> parseShowDatabases
    else .showTables <$> parseShowTables)]

def firstOf : List (Bytes × Parser SqlParser.Statement) → Parser SqlParser.Statement
  | [] => do
    let t ← peek
    fail (text "unrecognized statement starting with '" ++ t.text ++ text "'")
  | (keyword, production) :: rest => do
    let found ← checkKeyword keyword
    if found then production else firstOf rest

def parseStatement : Parser SqlParser.Statement := firstOf productions

/-- The last token, and no other, is an end token. -/
def EndsOnce (tokens : List Token) : Prop :=
  ∃ ts e, tokens = ts ++ [e] ∧ e.type = .kEnd ∧ ∀ t ∈ ts, t.type ≠ .kEnd

/-- The production, from a place in the tokens, gets to a place that is not in front of it and not
behind the end token, also when it throws. It reads no token that is not there, and does what the
other one does with the tokens that are left. -/
structure Follows {α : Type} (tokens : List Token) (pos : ℕ) (p : Parser α)
    (q : SqlParser.Parser α) : Prop where
  le : pos ≤ (p tokens pos).2
  lt : (p tokens pos).2 < tokens.length
  inRange : (p tokens pos).1 ≠ .error .undefined
  same : q (tokens.drop pos) = (p tokens pos).1.map fun a => (a, tokens.drop (p tokens pos).2)

/-- From everywhere in the tokens. -/
def Safe {α : Type} (p : Parser α) (q : SqlParser.Parser α) : Prop :=
  ∀ tokens pos, EndsOnce tokens → pos < tokens.length → Follows tokens pos p q

section

variable {α β : Type} {tokens : List Token} {pos pos' : ℕ} {p p' : Parser α}
  {q q' : SqlParser.Parser α} {t : Token} {a : α} {e : Exception}

lemma bind_ok {f : α → Parser β} (h : p tokens pos = (.ok a, pos')) :
    (p >>= f) tokens pos = f a tokens pos' := by
  simp only [bind, ReaderT.bind, ExceptT.bind, ExceptT.mk, StateT.bind, h]
  rfl

lemma bind_error {f : α → Parser β} (h : p tokens pos = (.error e, pos')) :
    (p >>= f) tokens pos = (.error e, pos') := by
  simp only [bind, ReaderT.bind, ExceptT.bind, ExceptT.mk, StateT.bind, h]
  rfl

lemma list_bind_ok {f : α → SqlParser.Parser β} {ts rest : List Token}
    (h : q ts = .ok (a, rest)) : (q >>= f) ts = f a rest := state_bind_of_ok h

lemma list_bind_error {f : α → SqlParser.Parser β} {ts : List Token} (h : q ts = .error e) :
    (q >>= f) ts = .error e := by
  simp only [bind, StateT.bind, h]
  rfl

lemma Follows.step {f : α → Parser β} {g : α → SqlParser.Parser β}
    (hp : p tokens pos = (.ok a, pos')) (hq : q (tokens.drop pos) = .ok (a, tokens.drop pos'))
    (hle : pos ≤ pos') (h : Follows tokens pos' (f a) (g a)) :
    Follows tokens pos (p >>= f) (q >>= g) := by
  have hp' := bind_ok (f := f) hp
  have hq' := list_bind_ok (f := g) hq
  refine ⟨?_, ?_, ?_, ?_⟩
  · rw [hp']
    exact hle.trans h.le
  · rw [hp']
    exact h.lt
  · rw [hp']
    exact h.inRange
  · rw [hp', hq']
    exact h.same

/-- **A sequence** is safe if its steps are. -/
lemma Follows.bind {f : α → Parser β} {g : α → SqlParser.Parser β}
    (h : Follows tokens pos p q)
    (hnext : ∀ a pos', p tokens pos = (.ok a, pos') → pos ≤ pos' → pos' < tokens.length →
      Follows tokens pos' (f a) (g a)) : Follows tokens pos (p >>= f) (q >>= g) := by
  obtain ⟨hle, hlt, hin, hsame⟩ := h
  rcases hp : p tokens pos with ⟨e | a, pos'⟩
  · rw [hp] at hle hlt hin hsame
    have hp' := bind_error (f := f) hp
    have hq' := list_bind_error (f := g) hsame
    refine ⟨?_, ?_, ?_, ?_⟩
    · rw [hp']
      exact hle
    · rw [hp']
      exact hlt
    · rw [hp']
      exact fun heq => hin (congrArg _ (Except.error.inj heq))
    · rw [hp', hq']
      rfl
  · rw [hp] at hle hlt hsame
    exact .step hp hsame hle (hnext a pos' hp hle hlt)

lemma Follows.pure (hlt : pos < tokens.length) (a : α) :
    Follows tokens pos (Pure.pure a) (Pure.pure a) where
  le := le_rfl
  lt := hlt
  inRange := nofun
  same := rfl

lemma Follows.fail (hlt : pos < tokens.length) (what : Bytes) :
    Follows tokens pos (fail what : Parser α) (SqlParser.fail what) where
  le := le_rfl
  lt := hlt
  inRange := nofun
  same := rfl

lemma drop_of_get (ht : tokens[pos]? = some t) : tokens.drop pos = t :: tokens.drop (pos + 1) := by
  obtain ⟨hlt, rfl⟩ := List.getElem?_eq_some_iff.mp ht
  exact List.drop_eq_getElem_cons hlt

lemma EndsOnce.length_pos (h : EndsOnce tokens) : 0 < tokens.length := by
  obtain ⟨ts, e, rfl, -⟩ := h
  simp

lemma EndsOnce.succ_lt (h : EndsOnce tokens) (ht : tokens[pos]? = some t) (hne : t.type ≠ .kEnd) :
    pos + 1 < tokens.length := by
  obtain ⟨ts, e, rfl, he, -⟩ := h
  obtain ⟨hlt, rfl⟩ := List.getElem?_eq_some_iff.mp ht
  rw [List.length_append, List.length_singleton] at hlt ⊢
  rcases Nat.lt_or_ge pos ts.length with hpos | hpos
  · omega
  · obtain rfl : pos = ts.length := by omega
    rw [List.getElem_concat_length rfl] at hne
    exact absurd he hne

lemma tokenAt_of_get {i : ℕ} (ht : tokens[i]? = some t) :
    tokenAt i tokens pos = (.ok t, pos) := by
  unfold tokenAt
  have hread : (read : Parser (List Token)) tokens pos = (.ok tokens, pos) := rfl
  rw [bind_ok hread, ht]
  rfl

lemma peek_of_get (ht : tokens[pos]? = some t) : peek tokens pos = (.ok t, pos) := by
  have hget : (get : Parser ℕ) tokens pos = (.ok pos, pos) := rfl
  rw [peek, bind_ok hget, tokenAt_of_get ht]

lemma advance_of_get (ht : tokens[pos]? = some t) : advance tokens pos = (.ok t, pos + 1) := by
  have hget : (get : Parser ℕ) tokens pos = (.ok pos, pos) := rfl
  rw [advance, bind_ok hget, bind_ok (tokenAt_of_get ht)]
  rfl

section

variable {f : Token → Parser α} {g : Token → SqlParser.Parser α}

lemma Follows.peek (ht : tokens[pos]? = some t) (h : Follows tokens pos (f t) (g t)) :
    Follows tokens pos (peek >>= f) (SqlParser.peek >>= g) :=
  .step (peek_of_get ht) (by rw [drop_of_get ht]; rfl) le_rfl h

lemma Follows.advance (hends : EndsOnce tokens) (ht : tokens[pos]? = some t)
    (hne : t.type ≠ .kEnd)
    (h : pos + 1 < tokens.length → Follows tokens (pos + 1) (f t) (g t)) :
    Follows tokens pos (advance >>= f) (SqlParser.advance >>= g) :=
  .step (advance_of_get ht) (by rw [drop_of_get ht]; rfl) (Nat.le_succ pos)
    (h (hends.succ_lt ht hne))

end

lemma Follows.failUnless (hlt : pos < tokens.length) {b : Bool} {what : Bytes}
    {f : Unit → Parser α} {g : Unit → SqlParser.Parser α}
    (h : b = true → Follows tokens pos (f ()) (g ())) :
    Follows tokens pos (failUnless b what >>= f) (SqlParser.failUnless b what >>= g) := by
  cases b with
  | false => exact (Follows.fail hlt what).bind fun _ _ hp => by cases hp
  | true => exact h rfl

/-- A look at the next token; if it says yes, that token is no end token. -/
structure IsTest (check : Parser Bool) (check' : SqlParser.Parser Bool) : Prop where
  answers : ∀ {tokens pos t}, tokens[pos]? = some t →
    ∃ b : Bool, (b = true → t.type ≠ .kEnd) ∧ check tokens pos = (.ok b, pos) ∧
      check' (tokens.drop pos) = .ok (b, tokens.drop pos)

lemma isTest_peek {f : Token → Bool} (hf : ∀ t, f t = true → t.type ≠ .kEnd) :
    IsTest (do let t ← peek; return f t) (do let t ← SqlParser.peek; return f t) := by
  refine ⟨fun {tokens pos t} ht => ⟨f t, hf t, ?_, ?_⟩⟩
  · rw [bind_ok (peek_of_get ht)]
    rfl
  · rw [drop_of_get ht]
    rfl

lemma isTest_keyword (keyword : Bytes) :
    IsTest (checkKeyword keyword) (SqlParser.checkKeyword keyword) :=
  isTest_peek fun t ht hend => by simp [hend] at ht

lemma isTest_symbol (symbol : Bytes) :
    IsTest (checkSymbol symbol) (SqlParser.checkSymbol symbol) :=
  isTest_peek fun t ht hend => by simp [hend] at ht

variable {check : Parser Bool} {check' : SqlParser.Parser Bool}

lemma IsTest.bind (hc : IsTest check check') (ht : tokens[pos]? = some t) {f : Bool → Parser α}
    {g : Bool → SqlParser.Parser α}
    (h : ∀ b : Bool, (b = true → t.type ≠ .kEnd) → Follows tokens pos (f b) (g b)) :
    Follows tokens pos (check >>= f) (check' >>= g) := by
  obtain ⟨b, hb, hp, hq⟩ := hc.answers ht
  exact .step hp hq le_rfl (h b hb)

lemma IsTest.branch (hc : IsTest check check') (hends : EndsOnce tokens)
    (ht : tokens[pos]? = some t)
    (hyes : pos + 1 < tokens.length → Follows tokens (pos + 1) p q)
    (hno : Follows tokens pos p' q') :
    Follows tokens pos (do if ← check then do let _ ← advance; p else p')
      (do if ← check' then do let _ ← SqlParser.advance; q else q') := by
  refine hc.bind ht fun b hb => ?_
  cases b with
  | true => exact .advance hends ht (hb rfl) hyes
  | false => exact hno

/-! ### Productions, one for one -/

lemma get_of_lt (h : pos < tokens.length) : ∃ t, tokens[pos]? = some t :=
  ⟨_, List.getElem?_eq_getElem h⟩

lemma Safe.bind {f : α → Parser β} {g : α → SqlParser.Parser β} (h : Safe p q)
    (hnext : ∀ a, Safe (f a) (g a)) : Safe (p >>= f) (q >>= g) :=
  fun tokens pos hends hlt => (h tokens pos hends hlt).bind fun a pos' _ _ hlt' =>
    hnext a tokens pos' hends hlt'

lemma Safe.bind_seq {γ : Type} {f : α → Parser β} {g : α → SqlParser.Parser β}
    (h : Safe (p >>= f) (q >>= g)) {k : β → Parser γ} {k' : β → SqlParser.Parser γ}
    (hnext : ∀ b, Safe (k b) (k' b)) :
    Safe (p >>= fun a => f a >>= k) (q >>= fun a => g a >>= k') := by
  rw [← bind_assoc, ← bind_assoc]
  exact h.bind hnext

lemma Safe.pure (a : α) : Safe (Pure.pure a) (Pure.pure a) :=
  fun _ _ _ hlt => .pure hlt a

lemma Safe.throws (what : Bytes) : Safe (fail what : Parser α) (SqlParser.fail what) :=
  fun _ _ _ hlt => .fail hlt what

lemma Safe.map (f : α → β) (h : Safe p q) : Safe (f <$> p) (f <$> q) := by
  rw [map_eq_pure_bind, map_eq_pure_bind]
  exact h.bind fun a => .pure (f a)

lemma Safe.ite {c : Prop} [Decidable c] (h : c → Safe p q) (h' : ¬ c → Safe p' q') :
    Safe (if c then p else p') (if c then q else q') := by
  split_ifs with hc
  · exact h hc
  · exact h' hc

lemma Safe.required (b : Bool) (what : Bytes) :
    Safe (failUnless b what) (SqlParser.failUnless b what) :=
  .ite (fun _ => .pure ()) fun _ => .throws what

lemma Safe.branch (hc : IsTest check check') (h : Safe p q) (h' : Safe p' q') :
    Safe (do if ← check then do let _ ← advance; p else p')
      (do if ← check' then do let _ ← SqlParser.advance; q else q') := by
  intro tokens pos hends hlt
  obtain ⟨t, ht⟩ := get_of_lt hlt
  exact hc.branch hends ht (h tokens _ hends) (h' tokens pos hends hlt)

lemma Safe.expect (hc : IsTest check check') (what : Token → Bytes) :
    Safe (do
      let found ← check
      let t ← peek
      failUnless found (what t)
      let _ ← advance : Parser Unit)
    (do
      let found ← check'
      let t ← SqlParser.peek
      SqlParser.failUnless found (what t)
      let _ ← SqlParser.advance) := by
  intro tokens pos hends hlt
  obtain ⟨t, ht⟩ := get_of_lt hlt
  refine hc.bind ht fun b hb => .peek ht (.failUnless hlt fun hfound => ?_)
  exact .advance hends ht (hb hfound) fun hlt' => .pure hlt' ()

lemma Safe.take {f : Token → Bool} (hf : ∀ t, f t = true → t.type ≠ .kEnd)
    (what : Token → Bytes) {k : Token → Parser α} {k' : Token → SqlParser.Parser α}
    (h : ∀ t, Safe (k t) (k' t)) :
    Safe (do
      let t ← peek
      failUnless (f t) (what t)
      let t ← advance
      k t)
    (do
      let t ← SqlParser.peek
      SqlParser.failUnless (f t) (what t)
      let t ← SqlParser.advance
      k' t) := by
  intro tokens pos hends hlt
  obtain ⟨t, ht⟩ := get_of_lt hlt
  refine .peek ht (.failUnless hlt fun hfound => ?_)
  exact .advance hends ht (hf t hfound) fun hlt' => h t tokens _ hends hlt'

lemma safe_expectKeyword (keyword : Bytes) :
    Safe (expectKeyword keyword) (SqlParser.expectKeyword keyword) :=
  .expect (isTest_keyword keyword) _

lemma safe_expectSymbol (symbol : Bytes) :
    Safe (expectSymbol symbol) (SqlParser.expectSymbol symbol) :=
  .expect (isTest_symbol symbol) _

lemma safe_expectIdentifier : Safe expectIdentifier SqlParser.expectIdentifier :=
  .take (fun t ht hend => by simp [hend] at ht) _ fun t => .pure t.text

lemma safe_expectLiteral : Safe expectLiteral SqlParser.expectLiteral :=
  .take (fun t ht hend => by simp [hend] at ht) _ fun t => .pure t.text

lemma Safe.optional (hc : IsTest check check') : Safe (do advanceIf (← check))
    (do SqlParser.advanceIf (← check')) :=
  .branch hc (.pure ()) (.pure ())

lemma safe_skipSemicolon : Safe skipSemicolon SqlParser.skipSemicolon :=
  .optional (isTest_symbol _)

lemma safe_expectQualifiedTableName :
    Safe expectQualifiedTableName SqlParser.expectQualifiedTableName := by
  refine safe_expectIdentifier.bind fun dbName tokens pos hends hlt => ?_
  obtain ⟨t, ht⟩ := get_of_lt hlt
  refine (isTest_symbol _).bind ht fun b hb => .failUnless hlt fun hfound => ?_
  refine .advance hends ht (hb hfound) fun hlt' => ?_
  exact (safe_expectIdentifier tokens _ hends hlt').bind fun tableName _ _ _ hlt'' =>
    .pure hlt'' (dbName, tableName)

lemma Safe.loop {body : ℕ → Parser α} {body' : ℕ → SqlParser.Parser α}
    (h : ∀ n tokens pos, EndsOnce tokens → pos < tokens.length → tokens.length - pos ≤ n →
      Follows tokens pos (body n) (body' n)) : Safe (loop body) (SqlParser.loop body') := by
  intro tokens pos hends hlt
  have hbody := h (tokens.length - pos) tokens pos hends hlt le_rfl
  have hlist : SqlParser.loop body' (tokens.drop pos) =
      body' (tokens.length - pos) (tokens.drop pos) := by
    rw [SqlParser.loop, List.length_drop]
  exact ⟨hbody.le, hbody.lt, hbody.inRange, hlist.trans hbody.same⟩

/-- **A loop over a list**: every pass but the last skips a separator. -/
lemma Follows.sepList {more : Parser Bool} {more' : SqlParser.Parser Bool} {item : Parser α}
    {item' : SqlParser.Parser α} (hmore : IsTest more more') (hitem : Safe item item') (n : ℕ)
    (tokens : List Token) (pos : ℕ) (hends : EndsOnce tokens) (hlt : pos < tokens.length)
    (hn : tokens.length - pos ≤ n) :
    Follows tokens pos (sepList more item n) (SqlParser.sepList more' item' n) := by
  induction n generalizing pos with
  | zero => omega
  | succ n ih =>
    refine (hitem tokens pos hends hlt).bind fun a pos' _ hle hlt' => ?_
    obtain ⟨t, ht⟩ := get_of_lt hlt'
    refine hmore.branch hends ht (fun hlt'' => ?_) (.pure hlt' [a])
    refine (ih (pos' + 1) hlt'' (by omega)).bind fun as _ _ _ hlt => ?_
    exact .pure hlt (a :: as)

lemma Safe.commaList {item : Parser α} {item' : SqlParser.Parser α} (h : Safe item item') :
    Safe (commaList item) (SqlParser.commaList item') :=
  .loop fun n => .sepList (isTest_symbol _) h n

lemma safe_parseColumnType : Safe parseColumnType SqlParser.parseColumnType := by
  refine safe_expectIdentifier.bind fun name => ?_
  exact .ite (fun _ => .pure _) fun _ => .ite (fun _ => .pure _) fun _ => .throws _

lemma safe_parseCompareOp : Safe parseCompareOp SqlParser.parseCompareOp := by
  refine .take (fun t ht hend => by simp [hend] at ht) _ fun t => ?_
  refine .ite (fun _ => .pure _) fun _ => .ite (fun _ => .pure _) fun _ => ?_
  refine .ite (fun _ => .pure _) fun _ => .ite (fun _ => .pure _) fun _ => ?_
  exact .ite (fun _ => .pure _) fun _ => .ite (fun _ => .pure _) fun _ => .throws _

lemma safe_parseCondition : Safe parseCondition SqlParser.parseCondition :=
  safe_expectIdentifier.bind fun _ => safe_parseCompareOp.bind fun _ =>
    safe_expectLiteral.bind fun _ => .pure _

lemma safe_parseOptionalWhere : Safe parseOptionalWhere SqlParser.parseOptionalWhere :=
  .branch (isTest_keyword _)
    (.loop fun n => .sepList (isTest_keyword _) safe_parseCondition n) (.pure [])

lemma safe_parsePrimaryKey (hasPk : Bool) :
    Safe (parsePrimaryKey hasPk) (SqlParser.parsePrimaryKey hasPk) :=
  .branch (isTest_keyword _)
    ((safe_expectKeyword _).bind fun _ => (Safe.required _ _).bind fun _ => .pure true)
    (.pure false)

lemma Follows.parseColumns (n : ℕ) (hasPk : Bool) (tokens : List Token) (pos : ℕ)
    (hends : EndsOnce tokens) (hlt : pos < tokens.length) (hn : tokens.length - pos ≤ n) :
    Follows tokens pos (parseColumns n hasPk) (SqlParser.parseColumns n hasPk) := by
  induction n generalizing pos hasPk with
  | zero => omega
  | succ n ih =>
    refine (safe_expectIdentifier tokens pos hends hlt).bind fun name pos₁ _ hle₁ hlt₁ => ?_
    refine (safe_parseColumnType tokens pos₁ hends hlt₁).bind
      fun type pos₂ _ hle₂ hlt₂ => ?_
    refine (safe_parsePrimaryKey hasPk tokens pos₂ hends hlt₂).bind
      fun key pos₃ _ hle₃ hlt₃ => ?_
    obtain ⟨t, ht⟩ := get_of_lt hlt₃
    refine (isTest_symbol _).branch hends ht (fun hlt₄ => ?_) (.pure hlt₃ _)
    refine (ih (hasPk || key) (pos₃ + 1) hlt₄ (by omega)).bind fun ⟨cols, pk⟩
      _ _ _ hlt₅ => ?_
    exact .pure hlt₅ _

/-! ### Statements -/

lemma safe_parseCreateDatabase : Safe parseCreateDatabase SqlParser.parseCreateDatabase :=
  (safe_expectKeyword _).bind fun _ => (safe_expectKeyword _).bind fun _ =>
    safe_expectIdentifier.bind fun _ => safe_skipSemicolon.bind fun _ => .pure _

lemma safe_parseCreateTable : Safe parseCreateTable SqlParser.parseCreateTable := by
  refine (safe_expectKeyword _).bind fun _ => (safe_expectKeyword _).bind fun _ => ?_
  refine safe_expectQualifiedTableName.bind fun ⟨dbName, tableName⟩ => ?_
  refine (safe_expectSymbol _).bind fun _ => ?_
  refine (Safe.loop fun n => .parseColumns n false).bind fun ⟨columns, hasPk⟩ => ?_
  refine (safe_expectSymbol _).bind fun _ => (Safe.required _ _).bind fun _ => ?_
  exact safe_skipSemicolon.bind fun _ => .pure _

lemma safe_parseAlterTable : Safe parseAlterTable SqlParser.parseAlterTable := by
  refine (safe_expectKeyword _).bind fun _ => (safe_expectKeyword _).bind fun _ => ?_
  refine safe_expectQualifiedTableName.bind fun ⟨dbName, tableName⟩ => ?_
  refine (safe_expectKeyword _).bind fun _ => ?_
  refine (Safe.optional (isTest_keyword _)).bind_seq fun _ => ?_
  refine safe_expectIdentifier.bind fun _ => safe_parseColumnType.bind fun _ => ?_
  refine (safe_expectKeyword _).bind fun _ => safe_expectLiteral.bind fun _ => ?_
  exact safe_skipSemicolon.bind fun _ => .pure _

lemma safe_parseInsert : Safe parseInsert SqlParser.parseInsert := by
  refine (safe_expectKeyword _).bind fun _ => (safe_expectKeyword _).bind fun _ => ?_
  refine safe_expectQualifiedTableName.bind fun ⟨dbName, tableName⟩ => ?_
  refine (safe_expectSymbol _).bind fun _ => safe_expectIdentifier.commaList.bind fun columns => ?_
  refine (safe_expectSymbol _).bind fun _ => (safe_expectKeyword _).bind fun _ => ?_
  refine (safe_expectSymbol _).bind fun _ => safe_expectLiteral.commaList.bind fun values => ?_
  refine (safe_expectSymbol _).bind fun _ => (Safe.required _ _).bind fun _ => ?_
  exact safe_skipSemicolon.bind fun _ => .pure _

lemma safe_parseProjection : Safe parseProjection SqlParser.parseProjection :=
  .branch (isTest_symbol _) (.pure []) safe_expectIdentifier.commaList

lemma safe_parseSelect : Safe parseSelect SqlParser.parseSelect := by
  refine (safe_expectKeyword _).bind fun _ => safe_parseProjection.bind fun columns => ?_
  refine (safe_expectKeyword _).bind fun _ => ?_
  refine safe_expectQualifiedTableName.bind fun ⟨dbName, tableName⟩ => ?_
  exact safe_parseOptionalWhere.bind fun _ => safe_skipSemicolon.bind fun _ => .pure _

lemma safe_parseAssignment : Safe parseAssignment SqlParser.parseAssignment :=
  safe_expectIdentifier.bind fun _ => (safe_expectSymbol _).bind fun _ =>
    safe_expectLiteral.bind fun _ => .pure _

lemma safe_parseUpdate : Safe parseUpdate SqlParser.parseUpdate := by
  refine (safe_expectKeyword _).bind fun _ => ?_
  refine safe_expectQualifiedTableName.bind fun ⟨dbName, tableName⟩ => ?_
  refine (safe_expectKeyword _).bind fun _ => safe_parseAssignment.commaList.bind fun _ => ?_
  exact safe_parseOptionalWhere.bind fun _ => safe_skipSemicolon.bind fun _ => .pure _

lemma safe_parseDelete : Safe parseDelete SqlParser.parseDelete := by
  refine (safe_expectKeyword _).bind fun _ => (safe_expectKeyword _).bind fun _ => ?_
  refine safe_expectQualifiedTableName.bind fun ⟨dbName, tableName⟩ => ?_
  exact safe_parseOptionalWhere.bind fun _ => safe_skipSemicolon.bind fun _ => .pure _

lemma safe_parseShowTables : Safe parseShowTables SqlParser.parseShowTables :=
  (safe_expectKeyword _).bind fun _ => (safe_expectKeyword _).bind fun _ =>
    (safe_expectKeyword _).bind fun _ => safe_expectIdentifier.bind fun _ =>
      safe_skipSemicolon.bind fun _ => .pure _

lemma safe_parseShowDatabases : Safe parseShowDatabases SqlParser.parseShowDatabases :=
  (safe_expectKeyword _).bind fun _ => (safe_expectKeyword _).bind fun _ => safe_skipSemicolon

lemma safe_secondIs (keyword : Bytes) : Safe (secondIs keyword) (SqlParser.secondIs keyword) := by
  intro tokens pos hends hlt
  have hget : (get : Parser ℕ) tokens pos = (.ok pos, pos) := rfl
  have hread : (read : Parser (List Token)) tokens pos = (.ok tokens, pos) := rfl
  have hsecond : ∃ b, secondIs keyword tokens pos = (.ok b, pos) ∧
      SqlParser.secondIs keyword (tokens.drop pos) = .ok (b, tokens.drop pos) := by
    unfold secondIs
    rw [bind_ok hget, bind_ok hread]
    by_cases hsucc : pos + 1 < tokens.length
    · obtain ⟨t, ht⟩ := get_of_lt hsucc
      rw [if_pos hsucc, bind_ok (tokenAt_of_get ht)]
      refine ⟨_, rfl, ?_⟩
      rw [SqlParser.secondIs, List.tail_drop, drop_of_get ht]
      rfl
    · rw [if_neg hsucc]
      refine ⟨false, rfl, ?_⟩
      rw [SqlParser.secondIs, List.tail_drop, List.drop_of_length_le (not_lt.mp hsucc)]
      rfl
  obtain ⟨b, hp, hq⟩ := hsecond
  exact ⟨by rw [hp], by rw [hp]; exact hlt, by rw [hp]; exact nofun, by rw [hp, hq]; rfl⟩

lemma safe_firstOf {ps : List (Bytes × Parser SqlParser.Statement)}
    {qs : List (Bytes × SqlParser.Parser SqlParser.Statement)}
    (h : List.Forall₂ (fun p q => p.1 = q.1 ∧ Safe p.2 q.2) ps qs) :
    Safe (firstOf ps) (SqlParser.firstOf qs) := by
  induction h with
  | nil =>
    intro tokens pos hends hlt
    obtain ⟨t, ht⟩ := get_of_lt hlt
    exact .peek ht (.fail hlt _)
  | @cons p q ps qs hpq _ ih =>
    obtain ⟨keyword, p⟩ := p
    obtain ⟨_, q⟩ := q
    obtain ⟨rfl, hsafe⟩ := hpq
    intro tokens pos hends hlt
    obtain ⟨t, ht⟩ := get_of_lt hlt
    refine (isTest_keyword keyword).bind ht fun b _ => ?_
    cases b with
    | true => exact hsafe tokens pos hends hlt
    | false => exact ih tokens pos hends hlt

/-- **Every production is safe.** -/
theorem safe_parseStatement : Safe parseStatement SqlParser.parseStatement := by
  refine safe_firstOf (.cons ⟨rfl, ?_⟩
    (.cons ⟨rfl, ?_⟩ (.cons ⟨rfl, ?_⟩
      (.cons ⟨rfl, ?_⟩ (.cons ⟨rfl, ?_⟩
        (.cons ⟨rfl, ?_⟩ (.cons ⟨rfl, ?_⟩ .nil)))))))
  · exact (safe_secondIs _).bind fun _ =>
      .ite (fun _ => safe_parseCreateDatabase.map _) fun _ => safe_parseCreateTable.map _
  · exact safe_parseAlterTable.map _
  · exact safe_parseInsert.map _
  · exact safe_parseSelect.map _
  · exact safe_parseUpdate.map _
  · exact safe_parseDelete.map _
  · exact (safe_secondIs _).bind fun _ =>
      .ite (fun _ => safe_parseShowDatabases.map _) fun _ => safe_parseShowTables.map _

end

lemma endsOnce_of_tokenizeAt {sql : Bytes} {tokens : List Token} (h : tokenizeAt sql = .ok tokens) :
    EndsOnce tokens := by
  rw [tokenizeAt_eq] at h
  obtain ⟨ls, hreads, hmap⟩ := reads_of_tokenizeLoop h
  obtain ⟨ts, es, rfl, rfl, hend⟩ := List.map_eq_append_iff.mp hmap
  obtain ⟨e, rfl, he⟩ := List.map_eq_singleton_iff.mp hend
  exact ⟨ts, e, rfl, congrArg Prod.fst he, fun t ht =>
    hreads.type_ne (lexeme t) (List.mem_map_of_mem ht)⟩

/-- **Parsing never reads past the input**: neither the lexer past the text nor the parser past the
end token, where its position stays in front of the end of the vector whatever it returns or
throws. -/
theorem parsing_in_bounds :
    (∀ sql, tokenizeAt sql ≠ .error .undefined ∧
      ∀ tokens, tokenizeAt sql = .ok tokens → EndsOnce tokens) ∧
    ∀ tokens, EndsOnce tokens → (parseStatement tokens 0).1 ≠ .error .undefined ∧
      (parseStatement tokens 0).2 < tokens.length := by
  refine ⟨fun sql => ⟨?_, fun tokens => endsOnce_of_tokenizeAt⟩, fun tokens hends => ?_⟩
  · rw [tokenizeAt_eq]
    exact tokenize_ends sql
  · have hfollows := safe_parseStatement tokens 0 hends hends.length_pos
    exact ⟨hfollows.inRange, hfollows.lt⟩

/-- A statement that ends too early. -/
theorem parsing_in_bounds_show :
    (parseStatement [⟨.kIdentifier, text "SHOW", 0⟩, ⟨.kEnd, [], 4⟩] 0).2 < 2 :=
  (parsing_in_bounds.2 [⟨.kIdentifier, text "SHOW", 0⟩, ⟨.kEnd, [], 4⟩]
    ⟨[_], _, rfl, rfl, by simp⟩).2

/-- The parser over the tokens left is this one. -/
theorem parse_eq (sql : Bytes) :
    SqlParser.parse sql = tokenizeAt sql >>= fun tokens => (parseStatement tokens 0).1 := by
  rw [SqlParser.parse, ← tokenizeAt_eq]
  cases htokens : tokenizeAt sql with
  | error e => rfl
  | ok tokens =>
    have hends := endsOnce_of_tokenizeAt htokens
    have hsame := (safe_parseStatement tokens 0 hends hends.length_pos).same
    show (SqlParser.parseStatement tokens).map Prod.fst = _
    rw [List.drop_zero] at hsame
    rw [hsame]
    show _ = (parseStatement tokens 0).1
    cases (parseStatement tokens 0).1 <;> rfl

end DistDB.SqlPositions
