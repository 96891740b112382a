import DistDB.Text

/-!
The lexer of `sql/lexer.cpp`. Character classes are those of the C locale.
-/

namespace DistDB.SqlLexer

inductive TokenType
  | kIdentifier
  | kNumber
  | kString
  | kSymbol
  | kEnd
  deriving DecidableEq

structure Token where
  type : TokenType
  text : Bytes
  /-- Where the token starts in the SQL text. -/
  offset : ℕ
  deriving DecidableEq

def isSpace (c : UInt8) : Bool := c == 32 || (9 ≤ c && c ≤ 13)
def isUpper (c : UInt8) : Bool := 65 ≤ c && c ≤ 90
def isLower (c : UInt8) : Bool := 97 ≤ c && c ≤ 122
def isDigit (c : UInt8) : Bool := 48 ≤ c && c ≤ 57
def isIdentStart (c : UInt8) : Bool := isUpper c || isLower c || c == chr '_'
def isIdentChar (c : UInt8) : Bool := isIdentStart c || isDigit c

def quote : UInt8 := 39

/-- The loop over a string literal, behind its opening quote: the contents, and what
follows the closing quote. -/
def scanString : Bytes → Except Exception (Bytes × Bytes)
  | [] => .error (.runtimeError (text "unterminated string literal"))
  | c :: s =>
    if c = quote then
      match s with
      | [] => .ok ([], [])
      | c' :: s' =>
        if c' = quote then
          match scanString s' with
          | .error e => .error e
          | .ok (v, rest) => .ok (quote :: v, rest)
        else .ok ([], c' :: s')
    else
      match scanString s with
      | .error e => .error e
      | .ok (v, rest) => .ok (c :: v, rest)

/-- The symbols of two characters, with the text of their token. -/
def twoCharSymbol (c c' : UInt8) : Option Bytes :=
  if c = chr '<' ∧ c' = chr '=' then some (text "<=")
  else if c = chr '>' ∧ c' = chr '=' then some (text ">=")
  else if c = chr '!' ∧ c' = chr '=' then some (text "!=")
  else if c = chr '<' ∧ c' = chr '>' then some (text "!=")
  else none

def oneCharSymbols : Bytes := text "(),;*=<>."

/-- One pass of the loop over `c :: s`: the token it pushes, if any, and what is left. -/
def nextToken (c : UInt8) (s : Bytes) : Except Exception (Option (TokenType × Bytes) × Bytes) :=
  if isSpace c then .ok (none, s)
  else if isIdentStart c then
    .ok (some (.kIdentifier, c :: s.takeWhile isIdentChar), s.dropWhile isIdentChar)
  else if isDigit c then
    .ok (some (.kNumber, c :: s.takeWhile isDigit), s.dropWhile isDigit)
  else if c = chr '-' ∧ s.head?.any isDigit then
    .ok (some (.kNumber, c :: s.takeWhile isDigit), s.dropWhile isDigit)
  else if c = quote then
    match scanString s with
    | .error e => .error e
    | .ok (v, rest) => .ok (some (.kString, v), rest)
  else
    match s.head?.bind (twoCharSymbol c) with
    | some sym => .ok (some (.kSymbol, sym), s.tail)
    | none =>
      if c ∈ oneCharSymbols then .ok (some (.kSymbol, [c]), s)
      else .error (.runtimeError (text "unexpected character in SQL: '" ++ [c] ++ text "'"))

/-- The loop of `Tokenize` on the text left from `offset` on, with a bound on the number of
passes. -/
def tokenizeLoop : ℕ → ℕ → Bytes → Except Exception (List Token)
  | _, offset, [] => .ok [⟨.kEnd, [], offset⟩]
  | 0, _, _ :: _ => .error .undefined
  | n + 1, offset, c :: s =>
    match nextToken c s with
    | .error e => .error e
    | .ok (tok, rest) =>
      match tokenizeLoop n (offset + ((c :: s).length - rest.length)) rest with
      | .error e => .error e
      | .ok tokens =>
        .ok ((tok.map fun t => (⟨t.1, t.2, offset⟩ : Token)).toList ++ tokens)

/-- `Tokenize`. -/
def tokenize (sql : Bytes) : Except Exception (List Token) := tokenizeLoop sql.length 0 sql

/-! ### The loop ends -/

lemma scanString_spec (s : Bytes) :
    (∃ v rest, scanString s = .ok (v, rest) ∧ rest.length < s.length) ∨
      scanString s = .error (.runtimeError (text "unterminated string literal")) := by
  fun_induction scanString s with
  | case1 => exact .inr rfl
  | case2 => exact .inl ⟨_, _, rfl, by simp⟩
  | case3 s' e he ih =>
    rcases ih with ⟨v, rest, h, -⟩ | h
    · rw [he] at h; cases h
    · rw [he] at h; cases h; exact .inr rfl
  | case4 s' v rest he ih =>
    rcases ih with ⟨v', rest', h, hlt⟩ | h
    · rw [he] at h
      cases h
      exact .inl ⟨_, _, rfl, by simp; omega⟩
    · rw [he] at h; cases h
  | case5 => exact .inl ⟨_, _, rfl, by simp⟩
  | case6 c s hc e he ih =>
    rcases ih with ⟨v, rest, h, -⟩ | h
    · rw [he] at h; cases h
    · rw [he] at h; cases h; exact .inr rfl
  | case7 c s hc v rest he ih =>
    rcases ih with ⟨v', rest', h, hlt⟩ | h
    · rw [he] at h
      cases h
      exact .inl ⟨_, _, rfl, by simp; omega⟩
    · rw [he] at h; cases h

lemma nextToken_spec (c : UInt8) (s : Bytes) :
    (∃ tok rest, nextToken c s = .ok (tok, rest) ∧ rest.length ≤ s.length) ∨
      ∃ what, nextToken c s = .error (.runtimeError what) := by
  have hdrop : ∀ p : UInt8 → Bool, (s.dropWhile p).length ≤ s.length :=
    fun p => (List.dropWhile_sublist p).length_le
  unfold nextToken
  split_ifs
  · exact .inl ⟨_, _, rfl, le_refl _⟩
  · exact .inl ⟨_, _, rfl, hdrop _⟩
  · exact .inl ⟨_, _, rfl, hdrop _⟩
  · exact .inl ⟨_, _, rfl, hdrop _⟩
  · rcases scanString_spec s with ⟨v, rest, h, hlt⟩ | h
    · rw [h]; exact .inl ⟨_, _, rfl, hlt.le⟩
    · rw [h]; exact .inr ⟨_, rfl⟩
  · split
    · exact .inl ⟨_, _, rfl, by simp⟩
    · exact .inl ⟨_, _, rfl, le_refl _⟩
  · split
    · exact .inl ⟨_, _, rfl, by simp⟩
    · exact .inr ⟨_, rfl⟩

/-- **`Tokenize` ends**: the bound on the passes is never the reason to stop. -/
theorem tokenize_ends (sql : Bytes) : tokenize sql ≠ .error .undefined := by
  suffices h : ∀ n offset s, s.length ≤ n → tokenizeLoop n offset s ≠ .error .undefined from
    h _ 0 sql le_rfl
  intro n
  induction n with
  | zero =>
    intro offset s hs
    obtain rfl := List.length_eq_zero_iff.mp (Nat.le_zero.mp hs)
    simp [tokenizeLoop]
  | succ n ih =>
    intro offset s hs
    cases s with
    | nil => simp [tokenizeLoop]
    | cons c s =>
      rw [tokenizeLoop]
      rcases nextToken_spec c s with ⟨tok, rest, h, hle⟩ | ⟨what, h⟩
      · rw [h]
        have hrest := ih (offset + ((c :: s).length - rest.length)) rest
          (by simp at hs; omega)
        dsimp only
        split
        · rename_i e he
          rw [he] at hrest
          simpa using hrest
        · simp
      · rw [h]
        simp

end DistDB.SqlLexer
