import DistDB.SqlLexing
import DistDB.Checks

/-!
`Tokenize` with its index into the text (`sql/lexer.cpp`).

A character outside the text is the exception `undefined`. No pass of the loop reads one
(`tokenizeFrom_eq`): the index is the place of the text that is left in the lexer without one.
-/

namespace DistDB.SqlIndex

open SqlLexer SqlLexing Checks

/-- `sql[i]` -/
def charAt (sql : Bytes) (i : ℕ) : Except Exception UInt8 :=
  match sql[i]? with
  | none => .error .undefined
  | some c => .ok c

/-- `sql.substr(start, i - start)` -/
def between (sql : Bytes) (start i : ℕ) : Bytes := (sql.drop start).take (i - start)

/-- `i + 1 < n`, and the character there. -/
def charBehind (sql : Bytes) (i : ℕ) : Except Exception (Option UInt8) :=
  if i + 1 < sql.length then do
    let c ← charAt sql (i + 1)
    return some c
  else return none

/-- `while (i < n && p(sql[i])) i++;` -/
def skipWhile (sql : Bytes) (p : UInt8 → Bool) (i : ℕ) : Except Exception ℕ :=
  if _h : i < sql.length then do
    let c ← charAt sql i
    if p c then skipWhile sql p (i + 1) else return i
  else return i
termination_by sql.length - i

/-- The loop over a string literal: its contents, and where the text goes on. -/
def scanStringFrom (sql : Bytes) (i : ℕ) : Except Exception (Bytes × ℕ) :=
  if _h : i < sql.length then do
    let c ← charAt sql i
    if c = quote then do
      let behind ← charBehind sql i
      if behind = some quote then do
        let (value, i) ← scanStringFrom sql (i + 2)
        return (quote :: value, i)
      else return ([], i + 1)
    else do
      let (value, i) ← scanStringFrom sql (i + 1)
      return (c :: value, i)
  else throw (.runtimeError (text "unterminated string literal"))
termination_by sql.length - i

/-- One pass of the loop: the token that is pushed, if any, and the index behind it. -/
def nextTokenAt (sql : Bytes) (i : ℕ) :
    Except Exception (Option (TokenType × Bytes) × ℕ) := do
  let c ← charAt sql i
  if isSpace c then return (none, i + 1)
  else if isIdentStart c then do
    let j ← skipWhile sql isIdentChar i
    return (some (.kIdentifier, between sql i j), j)
  else if isDigit c then do
    let j ← skipWhile sql isDigit i
    return (some (.kNumber, between sql i j), j)
  else do
    let behind ← charBehind sql i
    if c = chr '-' ∧ behind.any isDigit then do
      let j ← skipWhile sql isDigit (i + 1)
      return (some (.kNumber, between sql i j), j)
    else if c = quote then do
      let (value, j) ← scanStringFrom sql (i + 1)
      return (some (.kString, value), j)
    else
      match behind.bind (twoCharSymbol c) with
      | some sym => return (some (.kSymbol, sym), i + 2)
      | none =>
        if c ∈ oneCharSymbols then return (some (.kSymbol, [c]), i + 1)
        else throw (.runtimeError (text "unexpected character in SQL: '" ++ [c] ++ text "'"))

/-- The loop of `Tokenize`, with a bound on the number of passes. -/
def tokenizeFrom (sql : Bytes) : ℕ → ℕ → Except Exception (List Token)
  | n, i =>
    if i < sql.length then
      match n with
      | 0 => throw .undefined
      | n + 1 => do
        let (tok, j) ← nextTokenAt sql i
        let tokens ← tokenizeFrom sql n j
        return (tok.map fun t => (⟨t.1, t.2, i⟩ : Token)).toList ++ tokens
    else return [⟨.kEnd, [], sql.length⟩]

/-! ### The text that is left -/

section

variable {sql s : Bytes} {c : UInt8} {i : ℕ}

lemma lt_of_drop (h : sql.drop i = c :: s) : i < sql.length := by
  by_contra hle
  rw [List.drop_of_length_le (not_lt.mp hle)] at h
  cases h

lemma drop_succ_of_drop (h : sql.drop i = c :: s) : sql.drop (i + 1) = s := by
  rw [← List.drop_drop, h]
  rfl

lemma charAt_of_drop (h : sql.drop i = c :: s) : charAt sql i = .ok c := by
  have hget : sql[i]? = some c := by
    rw [← Nat.add_zero i, ← List.getElem?_drop, h]
    rfl
  rw [charAt, hget]

lemma length_of_drop (h : sql.drop i = s) (hi : i ≤ sql.length) : i + s.length = sql.length := by
  rw [← h, List.length_drop]
  omega

lemma charBehind_of_drop (h : sql.drop i = c :: s) : charBehind sql i = .ok s.head? := by
  have htail := drop_succ_of_drop h
  unfold charBehind
  cases s with
  | nil =>
    have hlen := length_of_drop h (lt_of_drop h).le
    rw [if_neg (by simp at hlen; omega)]
    rfl
  | cons c' s =>
    rw [if_pos (lt_of_drop htail), charAt_of_drop htail]
    rfl

lemma skipWhile_eq {p : UInt8 → Bool} (h : sql.drop i = s) (hi : i ≤ sql.length) :
    skipWhile sql p i = .ok (i + (s.takeWhile p).length) := by
  induction s generalizing i with
  | nil =>
    have hlen := length_of_drop h hi
    rw [skipWhile, dif_neg (by simp at hlen; omega)]
    rfl
  | cons c s ih =>
    have hlt := lt_of_drop h
    rw [skipWhile, dif_pos hlt, bind_of_ok (charAt_of_drop h)]
    by_cases hc : p c
    · rw [if_pos hc, List.takeWhile_cons, if_pos hc, ih (drop_succ_of_drop h) hlt,
        List.length_cons, Nat.add_right_comm]
      rfl
    · rw [if_neg hc, List.takeWhile_cons, if_neg hc]
      rfl

lemma between_eq (h : sql.drop i = s) (p : UInt8 → Bool) :
    between sql i (i + (s.takeWhile p).length) = s.takeWhile p := by
  rw [between, h, Nat.add_sub_cancel_left]
  exact (List.prefix_iff_eq_take.mp (List.takeWhile_prefix p)).symm

lemma length_sub (h : sql.drop i = s) (hi : i ≤ sql.length) {w rest : Bytes}
    (hs : s = w ++ rest) :
    i + w.length = sql.length - rest.length := by
  have hlen := length_of_drop h hi
  rw [hs, List.length_append] at hlen
  omega

lemma scanStringFrom_eq (h : sql.drop i = s) (hi : i ≤ sql.length) : scanStringFrom sql i =
    (scanString s).map fun vr => (vr.1, sql.length - vr.2.length) := by
  fun_induction scanString s generalizing i with
  | case1 =>
    have hlen := length_of_drop h hi
    rw [scanStringFrom, dif_neg (by simp at hlen; omega)]
    rfl
  | case2 =>
    have hlen := length_of_drop h hi
    rw [scanStringFrom, dif_pos (lt_of_drop h), bind_of_ok (charAt_of_drop h), if_pos rfl,
      bind_of_ok (charBehind_of_drop h), if_neg (by simp)]
    show Except.ok ([], i + 1) = Except.ok ([], sql.length)
    rw [← hlen]
    rfl
  | case3 s e he ih =>
    have htail := drop_succ_of_drop h
    rw [scanStringFrom, dif_pos (lt_of_drop h), bind_of_ok (charAt_of_drop h), if_pos rfl,
      bind_of_ok (charBehind_of_drop h), if_pos List.head?_cons,
      ih (drop_succ_of_drop htail) (lt_of_drop htail), he]
    rfl
  | case4 s v rest he ih =>
    have htail := drop_succ_of_drop h
    rw [scanStringFrom, dif_pos (lt_of_drop h), bind_of_ok (charAt_of_drop h), if_pos rfl,
      bind_of_ok (charBehind_of_drop h), if_pos List.head?_cons,
      ih (drop_succ_of_drop htail) (lt_of_drop htail), he]
    rfl
  | case5 c s hc =>
    have hne : (c :: s).head? ≠ some quote := by simpa using hc
    rw [scanStringFrom, dif_pos (lt_of_drop h), bind_of_ok (charAt_of_drop h), if_pos rfl,
      bind_of_ok (charBehind_of_drop h), if_neg hne]
    show Except.ok ([], i + 1) = Except.ok ([], sql.length - (c :: s).length)
    rw [← length_sub h hi (w := [quote]) rfl]
    rfl
  | case6 c s hc e he ih =>
    rw [scanStringFrom, dif_pos (lt_of_drop h), bind_of_ok (charAt_of_drop h), if_neg hc,
      ih (drop_succ_of_drop h) (lt_of_drop h), he]
    rfl
  | case7 c s hc v rest he ih =>
    rw [scanStringFrom, dif_pos (lt_of_drop h), bind_of_ok (charAt_of_drop h), if_neg hc,
      ih (drop_succ_of_drop h) (lt_of_drop h), he]
    rfl

/-- **One pass** takes what it takes off the text that is left. -/
lemma nextTokenAt_eq (h : sql.drop i = c :: s) : nextTokenAt sql i =
    (nextToken c s).map fun tr => (tr.1, sql.length - tr.2.length) := by
  have hlt := lt_of_drop h
  have htail := drop_succ_of_drop h
  -- the index behind a run of characters
  have hrun : ∀ {j : ℕ} {t : Bytes} (p : UInt8 → Bool), sql.drop j = t →
      j ≤ sql.length → j + (t.takeWhile p).length = sql.length - (t.dropWhile p).length :=
    fun p ht hj => length_sub ht hj List.takeWhile_append_dropWhile.symm
  unfold nextTokenAt nextToken
  rw [bind_of_ok (charAt_of_drop h)]
  by_cases hspace : isSpace c
  · rw [if_pos hspace, if_pos hspace]
    show Except.ok (none, i + 1) = Except.ok (none, sql.length - s.length)
    rw [← length_sub h hlt.le (w := [c]) rfl]
    rfl
  rw [if_neg hspace, if_neg hspace]
  by_cases hident : isIdentStart c
  · rw [if_pos hident, if_pos hident, bind_of_ok (skipWhile_eq h hlt.le), between_eq h,
      hrun isIdentChar h hlt.le, List.takeWhile_cons, List.dropWhile_cons,
      if_pos (isIdentStart_alone hident).2.2.1, if_pos (isIdentStart_alone hident).2.2.1]
    rfl
  rw [if_neg hident, if_neg hident]
  by_cases hdigit : isDigit c
  · rw [if_pos hdigit, if_pos hdigit, bind_of_ok (skipWhile_eq h hlt.le), between_eq h,
      hrun isDigit h hlt.le, List.takeWhile_cons, List.dropWhile_cons, if_pos hdigit, if_pos hdigit]
    rfl
  rw [if_neg hdigit, if_neg hdigit, bind_of_ok (charBehind_of_drop h)]
  by_cases hminus : c = chr '-' ∧ s.head?.any isDigit
  · have hbetween : between sql i (i + 1 + (s.takeWhile isDigit).length) =
        c :: s.takeWhile isDigit := by
      have hprefix := List.prefix_iff_eq_take.mp (List.takeWhile_prefix (l := s) isDigit)
      rw [between, h, Nat.add_assoc, Nat.add_sub_cancel_left, Nat.add_comm 1, List.take_succ_cons,
        ← hprefix]
    rw [if_pos hminus, if_pos hminus, bind_of_ok (skipWhile_eq htail hlt), hbetween,
      hrun isDigit htail hlt]
    rfl
  rw [if_neg hminus, if_neg hminus]
  by_cases hquote : c = quote
  · rw [if_pos hquote, if_pos hquote, scanStringFrom_eq htail hlt]
    cases scanString s <;> rfl
  rw [if_neg hquote, if_neg hquote]
  cases hsym : s.head?.bind (twoCharSymbol c) with
  | some sym =>
    cases s with
    | nil => cases hsym
    | cons c' s =>
      show Except.ok (some (TokenType.kSymbol, sym), i + 2) =
        Except.ok (some (TokenType.kSymbol, sym), sql.length - s.length)
      rw [← length_sub h hlt.le (w := [c, c']) rfl]
      rfl
  | none =>
    dsimp only
    by_cases hmem : c ∈ oneCharSymbols
    · rw [if_pos hmem, if_pos hmem]
      show Except.ok (some (TokenType.kSymbol, [c]), i + 1) =
        Except.ok (some (TokenType.kSymbol, [c]), sql.length - s.length)
      rw [← length_sub h hlt.le (w := [c]) rfl]
      rfl
    · rw [if_neg hmem, if_neg hmem]
      rfl

lemma tokenizeFrom_end {n : ℕ} (h : sql.drop i = []) (hi : i ≤ sql.length) :
    tokenizeFrom sql n i = tokenizeLoop n i [] := by
  have hlen : i = sql.length := length_of_drop h hi
  rw [hlen]
  cases n <;> simp [tokenizeFrom, tokenizeLoop] <;> rfl

/-- **The loop with an index is the loop over the text that is left.** -/
theorem tokenizeFrom_eq (n : ℕ) (hi : i ≤ sql.length) :
    tokenizeFrom sql n i = tokenizeLoop n i (sql.drop i) := by
  induction n generalizing i with
  | zero =>
    cases hs : sql.drop i with
    | nil => exact tokenizeFrom_end hs hi
    | cons c s =>
      rw [tokenizeFrom, if_pos (lt_of_drop hs)]
      rfl
  | succ n ih =>
    cases hs : sql.drop i with
    | nil => exact tokenizeFrom_end hs hi
    | cons c s =>
      rw [tokenizeFrom, if_pos (lt_of_drop hs), nextTokenAt_eq hs, tokenizeLoop]
      cases hnext : nextToken c s with
      | error e => rfl
      | ok tr =>
        obtain ⟨tok, rest⟩ := tr
        obtain ⟨w, rfl⟩ := (nextToken_iff.mp hnext).suffix
        have hlen := length_of_drop hs hi
        simp only [List.length_cons, List.length_append] at hlen
        have hnext' : i + ((c :: (w ++ rest)).length - rest.length) = sql.length - rest.length := by
          simp only [List.length_cons, List.length_append]
          omega
        have hrest : sql.drop (sql.length - rest.length) = rest := by
          rw [show sql.length - rest.length = i + (c :: w).length by
            simp only [List.length_cons]; omega, ← List.drop_drop, hs, ← List.cons_append,
            List.drop_left]
        show (tokenizeFrom sql n (sql.length - rest.length) >>= fun tokens => _) = _
        rw [ih (Nat.sub_le _ _), hrest]
        dsimp only
        rw [hnext']
        cases tokenizeLoop n (sql.length - rest.length) rest <;> rfl

end

/-- `Tokenize`, with its index. -/
def tokenizeAt (sql : Bytes) : Except Exception (List Token) := tokenizeFrom sql sql.length 0

lemma tokenizeAt_eq (sql : Bytes) : tokenizeAt sql = tokenize sql :=
  tokenizeFrom_eq sql.length (Nat.zero_le _)

end DistDB.SqlIndex
