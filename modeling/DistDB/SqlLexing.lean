import DistDB.SqlLexer

/-!
How the lexer goes through a text.

`Lexed` says what one pass of the loop takes. It looks one character past the token at most, and
only at its kind, so a text can be changed in front of an identifier without a change of what is
read before (`Reads.ahead`).
-/

namespace DistDB.SqlLexing

open SqlLexer

/-! ### One pass -/

/-- What the loop takes off `c :: s`: a space, or a token with this type and text. -/
inductive Lexed : UInt8 → Bytes → Option (TokenType × Bytes) → Bytes → Prop
  | space {c s} : isSpace c → Lexed c s none s
  | word {c w rest} : isIdentStart c → (∀ b ∈ w, isIdentChar b) →
      (∀ b ∈ rest.head?, ¬ isIdentChar b) →
      Lexed c (w ++ rest) (some (.kIdentifier, c :: w)) rest
  | number {c w rest} : isDigit c → (∀ b ∈ w, isDigit b) →
      (∀ b ∈ rest.head?, ¬ isDigit b) →
      Lexed c (w ++ rest) (some (.kNumber, c :: w)) rest
  | negative {w rest} : w ≠ [] → (∀ b ∈ w, isDigit b) →
      (∀ b ∈ rest.head?, ¬ isDigit b) →
      Lexed (chr '-') (w ++ rest) (some (.kNumber, chr '-' :: w)) rest
  | string {s v rest} : scanString s = .ok (v, rest) → Lexed quote s (some (.kString, v)) rest
  | two {c c' sym rest} : twoCharSymbol c c' = some sym →
      Lexed c (c' :: rest) (some (.kSymbol, sym)) rest
  | one {c rest} : c ∈ oneCharSymbols → rest.head?.bind (twoCharSymbol c) = none →
      Lexed c rest (some (.kSymbol, [c])) rest

section

variable {c : UInt8} {s rest : Bytes} {tok : Option (TokenType × Bytes)}

lemma head_dropWhile (p : UInt8 → Bool) (s : Bytes) :
    ∀ b ∈ (s.dropWhile p).head?, ¬ p b := by
  intro b hb
  have hnot := List.head?_dropWhile_not p s
  rw [Option.mem_def.mp hb] at hnot
  simpa using hnot

lemma take_drop_run {p : UInt8 → Bool} {w rest : Bytes} (hw : ∀ b ∈ w, p b)
    (hrest : ∀ b ∈ rest.head?, ¬ p b) :
    (w ++ rest).takeWhile p = w ∧ (w ++ rest).dropWhile p = rest := by
  rw [List.takeWhile_append_of_pos hw, List.dropWhile_append_of_pos hw]
  cases rest with
  | nil => simp
  | cons b rest => simp [hrest b rfl]

lemma isIdentStart_alone {c : UInt8} (h : isIdentStart c) :
    isSpace c = false ∧ isDigit c = false ∧ isIdentChar c ∧
      c ≠ chr '-' ∧ c ≠ quote := by
  refine ⟨?_, ?_, by simp [isIdentChar, h], ?_, ?_⟩
  all_goals
    simp only [isIdentStart, isUpper, isLower, isSpace, isDigit, chr, quote] at h ⊢
    grind

lemma isDigit_alone {c : UInt8} (h : isDigit c) : isSpace c = false ∧ isIdentStart c = false := by
  simp only [isIdentStart, isUpper, isLower, isSpace, isDigit, chr] at h ⊢
  grind

lemma symbol_alone : ∀ c ∈ chr '!' :: oneCharSymbols, isSpace c = false ∧
    isIdentStart c = false ∧ isDigit c = false ∧ c ≠ chr '-' ∧ c ≠ quote := by
  decide +kernel

lemma twoCharSymbol_mem {c c' : UInt8} {sym : Bytes} (h : twoCharSymbol c c' = some sym) :
    c ∈ chr '!' :: oneCharSymbols ∧ (c' = chr '=' ∨ c' = chr '>') ∧ sym.length = 2 := by
  unfold twoCharSymbol at h
  split_ifs at h with h₁ h₂ h₃ h₄
  all_goals cases h
  · obtain ⟨rfl, rfl⟩ := h₁
    decide
  · obtain ⟨rfl, rfl⟩ := h₂
    decide
  · obtain ⟨rfl, rfl⟩ := h₃
    decide
  · obtain ⟨rfl, rfl⟩ := h₄
    decide

lemma lexed_of_nextToken (h : nextToken c s = .ok (tok, rest)) : Lexed c s tok rest := by
  have htake : ∀ p : UInt8 → Bool, s = s.takeWhile p ++ s.dropWhile p :=
    fun p => List.takeWhile_append_dropWhile.symm
  have hall : ∀ p : UInt8 → Bool, ∀ b ∈ s.takeWhile p, p b :=
    fun p => List.all_eq_true.mp List.all_takeWhile
  unfold nextToken at h
  by_cases hspace : isSpace c
  · rw [if_pos hspace] at h
    cases h
    exact .space hspace
  rw [if_neg hspace] at h
  by_cases hident : isIdentStart c
  · rw [if_pos hident] at h
    cases h
    nth_rewrite 1 [htake isIdentChar]
    exact .word hident (hall _) (head_dropWhile _ s)
  rw [if_neg hident] at h
  by_cases hdigit : isDigit c
  · rw [if_pos hdigit] at h
    cases h
    nth_rewrite 1 [htake isDigit]
    exact .number hdigit (hall _) (head_dropWhile _ s)
  rw [if_neg hdigit] at h
  by_cases hminus : c = chr '-' ∧ s.head?.any isDigit
  · rw [if_pos hminus] at h
    obtain ⟨rfl, hhead⟩ := hminus
    cases h
    have hne : s.takeWhile isDigit ≠ [] := by
      cases s with
      | nil => cases hhead
      | cons b s =>
        rw [List.takeWhile_cons, if_pos (by simpa using hhead)]
        exact List.cons_ne_nil _ _
    nth_rewrite 1 [htake isDigit]
    exact .negative hne (hall _) (head_dropWhile _ s)
  rw [if_neg hminus] at h
  by_cases hquote : c = quote
  · rw [if_pos hquote] at h
    subst hquote
    cases hscan : scanString s with
    | error e =>
      rw [hscan] at h
      cases h
    | ok vr =>
      rw [hscan] at h
      cases h
      exact .string hscan
  rw [if_neg hquote] at h
  cases hsym : s.head?.bind (twoCharSymbol c) with
  | some sym =>
    rw [hsym] at h
    cases h
    cases s with
    | nil => cases hsym
    | cons c' s => exact .two hsym
  | none =>
    rw [hsym] at h
    dsimp only at h
    split_ifs at h with hmem
    cases h
    exact .one hmem hsym

lemma Lexed.nextToken_eq (h : Lexed c s tok rest) : nextToken c s = .ok (tok, rest) := by
  cases h with
  | space hspace => rw [nextToken, if_pos hspace]
  | word hident hw hrest =>
    obtain ⟨htake, hdrop⟩ := take_drop_run (p := isIdentChar) hw hrest
    obtain ⟨hspace, -⟩ := isIdentStart_alone hident
    rw [nextToken, hspace, if_neg Bool.false_ne_true, if_pos hident, htake, hdrop]
  | number hdigit hw hrest =>
    obtain ⟨htake, hdrop⟩ := take_drop_run (p := isDigit) hw hrest
    obtain ⟨hspace, hident⟩ := isDigit_alone hdigit
    rw [nextToken, hspace, hident, if_neg Bool.false_ne_true, if_neg Bool.false_ne_true,
      if_pos hdigit, htake, hdrop]
  | @negative w _ hne hw hrest =>
    obtain ⟨htake, hdrop⟩ := take_drop_run (p := isDigit) hw hrest
    have hhead : (w ++ rest).head?.any isDigit := by
      cases w with
      | nil => exact absurd rfl hne
      | cons b w => exact hw b List.mem_cons_self
    have hkind : isSpace (chr '-') = false ∧ isIdentStart (chr '-') = false ∧
        isDigit (chr '-') = false := by decide
    obtain ⟨hspace, hident, hdigit⟩ := hkind
    rw [nextToken, hspace, hident, hdigit, if_neg Bool.false_ne_true, if_neg Bool.false_ne_true,
      if_neg Bool.false_ne_true, if_pos ⟨rfl, hhead⟩, htake, hdrop]
  | string hscan =>
    have hkind : isSpace quote = false ∧ isIdentStart quote = false ∧ isDigit quote = false ∧
        quote ≠ chr '-' := by decide
    obtain ⟨hspace, hident, hdigit, hminus⟩ := hkind
    rw [nextToken, hspace, hident, hdigit, if_neg Bool.false_ne_true, if_neg Bool.false_ne_true,
      if_neg Bool.false_ne_true, if_neg fun h => hminus h.1, if_pos rfl, hscan]
  | @two _ c' _ _ hsym =>
    obtain ⟨hspace, hident, hdigit, hminus, hquote⟩ := symbol_alone c (twoCharSymbol_mem hsym).1
    have hbind : (c' :: rest).head?.bind (twoCharSymbol c) = some _ := hsym
    rw [nextToken, hspace, hident, hdigit, if_neg Bool.false_ne_true, if_neg Bool.false_ne_true,
      if_neg Bool.false_ne_true, if_neg fun h => hminus h.1, if_neg hquote, hbind]
    rfl
  | one hmem hnone =>
    obtain ⟨hspace, hident, hdigit, hminus, hquote⟩ :=
      symbol_alone c (List.mem_cons_of_mem _ hmem)
    rw [nextToken, hspace, hident, hdigit, if_neg Bool.false_ne_true, if_neg Bool.false_ne_true,
      if_neg Bool.false_ne_true, if_neg fun h => hminus h.1, if_neg hquote, hnone]
    exact if_pos hmem

/-- **What one pass takes.** -/
theorem nextToken_iff : nextToken c s = .ok (tok, rest) ↔ Lexed c s tok rest :=
  ⟨lexed_of_nextToken, Lexed.nextToken_eq⟩

/-- No pass that ends in front of one of the two texts sees a difference. -/
def SameAhead (rest rest' : Bytes) : Prop :=
  rest.head? = rest'.head? ∨ (∃ x ∈ rest.head?, isIdentStart x) ∧
    ∃ y ∈ rest'.head?, isIdentStart y

lemma scanString_split {s v rest : Bytes} (h : scanString s = .ok (v, rest)) :
    ∃ w, s = w ++ rest ∧ rest.head? ≠ some quote ∧
      ∀ rest', rest'.head? ≠ some quote → scanString (w ++ rest') = .ok (v, rest') := by
  fun_induction scanString s generalizing v rest with
  | case1 => cases h
  | case2 =>
    cases h
    refine ⟨[quote], rfl, by simp, fun rest' hne => ?_⟩
    cases rest' with
    | nil => rfl
    | cons b rest' =>
      have hb : b ≠ quote := by simpa using hne
      show scanString (quote :: b :: rest') = _
      simp [scanString, hb]
  | case3 => cases h
  | case4 s' v' rest' he ih =>
    cases h
    obtain ⟨w, rfl, hhead, hscan⟩ := ih he
    refine ⟨quote :: quote :: w, rfl, hhead, fun rest'' hne => ?_⟩
    show scanString (quote :: quote :: (w ++ rest'')) = _
    unfold scanString
    simp [hscan rest'' hne]
  | case5 b s' hb =>
    cases h
    refine ⟨[quote], rfl, by simpa using hb, fun rest' hne => ?_⟩
    cases rest' with
    | nil => rfl
    | cons b' rest' =>
      have hb' : b' ≠ quote := by simpa using hne
      show scanString (quote :: b' :: rest') = _
      simp [scanString, hb']
  | case6 => cases h
  | case7 b s' hb v' rest' he ih =>
    cases h
    obtain ⟨w, rfl, hhead, hscan⟩ := ih he
    refine ⟨b :: w, rfl, hhead, fun rest'' hne => ?_⟩
    show scanString (b :: (w ++ rest'')) = _
    unfold scanString
    simp [hb, hscan rest'' hne]

lemma Lexed.suffix (h : Lexed c s tok rest) : ∃ w, s = w ++ rest := by
  cases h with
  | space => exact ⟨[], rfl⟩
  | word | number | negative => exact ⟨_, rfl⟩
  | string hscan =>
    obtain ⟨w, rfl, -⟩ := scanString_split hscan
    exact ⟨w, rfl⟩
  | @two _ c' => exact ⟨[c'], rfl⟩
  | one => exact ⟨[], rfl⟩

lemma SameAhead.forall_not {p : UInt8 → Bool} {rest rest' : Bytes} (h : SameAhead rest rest')
    (hp : (∀ x, isIdentStart x → p x) ∨ ∀ x, isIdentStart x → ¬ p x)
    (hrest : ∀ b ∈ rest.head?, ¬ p b) : ∀ b ∈ rest'.head?, ¬ p b := by
  rcases h with heq | ⟨⟨x, hx, hstart⟩, y, hy, hstart'⟩
  · rwa [← heq]
  · rcases hp with hp | hp
    · exact absurd (hp x hstart) (hrest x hx)
    · intro b hb
      cases Option.mem_unique hy hb
      exact hp y hstart'

/-- **One character ahead**: the pass takes the same off a text that goes on alike. -/
lemma Lexed.ahead {w rest' : Bytes} (h : Lexed c (w ++ rest) tok rest)
    (hsame : SameAhead rest rest') : Lexed c (w ++ rest') tok rest' := by
  have hident := hsame.forall_not (p := isIdentChar)
    (.inl fun x hx => (isIdentStart_alone hx).2.2.1)
  have hdigit := hsame.forall_not (p := isDigit) (.inr fun x hx => by
    simp [(isIdentStart_alone hx).2.1])
  generalize hs : w ++ rest = s at h
  cases h with
  | space hspace =>
    obtain rfl := List.append_left_eq_self.mp hs
    exact .space hspace
  | word hstart hw hrest =>
    obtain rfl := List.append_cancel_right hs
    exact .word hstart hw (hident hrest)
  | number hstart hw hrest =>
    obtain rfl := List.append_cancel_right hs
    exact .number hstart hw (hdigit hrest)
  | negative hne hw hrest =>
    obtain rfl := List.append_cancel_right hs
    exact .negative hne hw (hdigit hrest)
  | string hscan =>
    obtain ⟨w', rfl, hhead, hscan'⟩ := scanString_split hscan
    obtain rfl := List.append_cancel_right hs
    refine .string (hscan' rest' fun hquote => ?_)
    rcases hsame with heq | ⟨-, y, hy, hstart⟩
    · exact hhead (heq.trans hquote)
    · cases Option.mem_unique hy hquote
      exact (isIdentStart_alone hstart).2.2.2.2 rfl
  | @two _ c' _ _ hsym =>
    obtain rfl : w = [c'] := List.append_cancel_right (hs.trans (List.singleton_append).symm)
    exact .two hsym
  | one hmem hnone =>
    obtain rfl := List.append_left_eq_self.mp hs
    rw [List.nil_append]
    refine .one hmem ?_
    rcases hsame with heq | ⟨-, y, hy, hstart⟩
    · rwa [← heq]
    · rw [Option.mem_def.mp hy, Option.bind_some]
      cases htwo : twoCharSymbol c y with
      | none => rfl
      | some sym =>
        obtain ⟨-, rfl | rfl, -⟩ := twoCharSymbol_mem htwo
        · exact absurd hstart (by decide)
        · exact absurd hstart (by decide)

lemma Lexed.type_ne (h : Lexed c s tok rest) : ∀ l ∈ tok, l.1 ≠ .kEnd := by
  rintro l hl
  cases h with
  | space => cases hl
  | word | number | negative | string | two | one =>
    cases hl
    exact nofun

lemma Lexed.start {v : Bytes} (h : Lexed c s (some (.kIdentifier, v)) rest) : isIdentStart c := by
  cases h with
  | word hstart => exact hstart

end

/-! ### The loop -/

/-- The loop reads tokens with these types and texts off the first text, and the second is left. -/
inductive Reads : Bytes → List (TokenType × Bytes) → Bytes → Prop
  | nil {u} : Reads u [] u
  | cons {c s tok rest ls u} : Lexed c s tok rest → Reads rest ls u →
      Reads (c :: s) (tok.toList ++ ls) u

def lexeme (t : Token) : TokenType × Bytes := (t.type, t.text)

def endLexeme : TokenType × Bytes := (.kEnd, [])

lemma tokenizeLoop_succ {n offset : ℕ} {c : UInt8} {s : Bytes} {tokens : List Token} :
    tokenizeLoop (n + 1) offset (c :: s) = .ok tokens ↔
      ∃ tok rest tokens', Lexed c s tok rest ∧
        tokenizeLoop n (offset + ((c :: s).length - rest.length)) rest = .ok tokens' ∧
        tokens = (tok.map fun l => (⟨l.1, l.2, offset⟩ : Token)).toList ++ tokens' := by
  rw [tokenizeLoop]
  constructor
  · intro h
    cases hnext : nextToken c s with
    | error e =>
      rw [hnext] at h
      cases h
    | ok tr =>
      obtain ⟨tok, rest⟩ := tr
      rw [hnext] at h
      dsimp only at h
      cases hloop : tokenizeLoop n (offset + ((c :: s).length - rest.length)) rest with
      | error e =>
        rw [hloop] at h
        cases h
      | ok tokens' =>
        rw [hloop] at h
        cases h
        exact ⟨tok, rest, tokens', nextToken_iff.mp hnext, hloop, rfl⟩
  · rintro ⟨tok, rest, tokens', hlexed, hloop, rfl⟩
    rw [hlexed.nextToken_eq]
    dsimp only
    rw [hloop]

section

variable {s u : Bytes} {ls ls' : List (TokenType × Bytes)} {tokens : List Token} {n offset : ℕ}

lemma Reads.append {v : Bytes} (h : Reads s ls u) (h' : Reads u ls' v) :
    Reads s (ls ++ ls') v := by
  induction h with
  | nil => exact h'
  | cons hlexed _ ih =>
    rw [List.append_assoc]
    exact .cons hlexed (ih h')

lemma Reads.type_ne (h : Reads s ls u) : ∀ l ∈ ls, l.1 ≠ .kEnd := by
  induction h with
  | nil => exact nofun
  | cons hlexed _ ih =>
    rw [List.forall_mem_append]
    exact ⟨fun l hl => hlexed.type_ne l (Option.mem_toList.mp hl), ih⟩

lemma Reads.mem (h : Reads s ls u) : ∀ l ∈ ls, ∃ c s' rest, s'.length < s.length ∧
    Lexed c s' (some l) rest := by
  induction h with
  | nil => exact nofun
  | @cons c s tok rest _ _ hlexed _ ih =>
    intro l hl
    rcases List.mem_append.mp hl with hhere | hlater
    · obtain rfl : tok = some l := Option.mem_toList.mp hhere
      exact ⟨c, s, rest, Nat.lt_succ_self _, hlexed⟩
    · obtain ⟨c', s', rest', hlt, hlexed'⟩ := ih l hlater
      obtain ⟨w, rfl⟩ := hlexed.suffix
      refine ⟨c', s', rest', ?_, hlexed'⟩
      rw [List.length_cons, List.length_append]
      omega

lemma Reads.length_le (h : Reads s ls u) : ls.length ≤ s.length := by
  induction h with
  | nil => exact Nat.zero_le _
  | @cons _ _ tok _ _ _ hlexed _ ih =>
    obtain ⟨w, rfl⟩ := hlexed.suffix
    have htok : tok.toList.length ≤ 1 := by cases tok <;> simp
    simp only [List.length_append, List.length_cons]
    omega

lemma Reads.suffix (h : Reads s ls u) : ∃ p, s = p ++ u := by
  induction h with
  | nil => exact ⟨[], rfl⟩
  | @cons c _ _ _ _ _ hlexed _ ih =>
    obtain ⟨w, rfl⟩ := hlexed.suffix
    obtain ⟨p, rfl⟩ := ih
    exact ⟨c :: (w ++ p), by simp⟩

lemma Reads.ahead {p v : Bytes} (h : Reads (p ++ u) ls u) (hsame : SameAhead u v) :
    Reads (p ++ v) ls v := by
  generalize hs : p ++ u = s at h
  induction h generalizing p with
  | nil =>
    obtain rfl := List.append_left_eq_self.mp hs
    exact .nil
  | @cons c _ tok _ ls u hlexed hreads ih =>
    obtain ⟨w, rfl⟩ := hlexed.suffix
    obtain ⟨p', rfl⟩ := hreads.suffix
    obtain rfl : p = c :: (w ++ p') := List.append_cancel_right (by simpa using hs)
    have hrest : SameAhead (p' ++ u) (p' ++ v) := by
      cases p' with
      | nil => exact hsame
      | cons b p' => exact .inl rfl
    have htail := ih hsame rfl
    have hhead : Lexed c (w ++ (p' ++ v)) tok (p' ++ v) := hlexed.ahead hrest
    rw [List.cons_append, List.append_assoc]
    exact .cons hhead htail

lemma reads_of_tokenizeLoop (h : tokenizeLoop n offset s = .ok tokens) :
    ∃ ls, Reads s ls [] ∧ tokens.map lexeme = ls ++ [endLexeme] := by
  induction n generalizing offset s tokens with
  | zero =>
    cases s with
    | nil =>
      cases h
      exact ⟨[], .nil, rfl⟩
    | cons c s => cases h
  | succ n ih =>
    cases s with
    | nil =>
      cases h
      exact ⟨[], .nil, rfl⟩
    | cons c s =>
      obtain ⟨tok, rest, tokens', hlexed, hloop, rfl⟩ := tokenizeLoop_succ.mp h
      obtain ⟨ls, hreads, hmap⟩ := ih hloop
      refine ⟨tok.toList ++ ls, .cons hlexed hreads, ?_⟩
      rw [List.map_append, hmap, List.append_assoc]
      cases tok <;> rfl

lemma Reads.tokenizeLoop_eq (h : Reads s ls []) (hn : s.length ≤ n) (offset : ℕ) :
    ∃ tokens, tokenizeLoop n offset s = .ok tokens ∧ tokens.map lexeme = ls ++ [endLexeme] := by
  generalize hu : ([] : Bytes) = u at h
  induction h generalizing n offset with
  | nil =>
    subst hu
    cases n <;> exact ⟨_, rfl, rfl⟩
  | @cons c s tok rest ls u hlexed _ ih =>
    obtain ⟨w, rfl⟩ := hlexed.suffix
    rw [List.length_cons, List.length_append] at hn
    obtain ⟨m, rfl⟩ : ∃ m, n = m + 1 := ⟨n - 1, by omega⟩
    obtain ⟨tokens, hloop, hmap⟩ := ih (n := m) (by omega) (offset + _) hu
    refine ⟨_, tokenizeLoop_succ.mpr ⟨tok, rest, tokens, hlexed, hloop, rfl⟩, ?_⟩
    rw [List.map_append, hmap, List.append_assoc]
    cases tok <;> rfl

/-- **What `Tokenize` reads**, but for the places of the tokens. -/
theorem tokenize_iff_reads : (∃ tokens, tokenize s = .ok tokens ∧
    tokens.map lexeme = ls ++ [endLexeme]) ↔ Reads s ls [] := by
  constructor
  · rintro ⟨tokens, htokens, hmap⟩
    obtain ⟨ls', hreads, hmap'⟩ := reads_of_tokenizeLoop htokens
    obtain rfl := List.append_cancel_right (hmap.symm.trans hmap')
    exact hreads
  · intro h
    exact h.tokenizeLoop_eq le_rfl 0

lemma tokenizeLoop_behind {before after : List Token} (hne : after ≠ [])
    (h : tokenizeLoop n offset s = .ok (before ++ after)) :
    ∃ p u m, s = p ++ u ∧ Reads s (before.map lexeme) u ∧
      tokenizeLoop m (offset + p.length) u = .ok after := by
  induction n generalizing offset s before with
  | zero =>
    cases before with
    | nil => exact ⟨[], s, 0, rfl, .nil, h⟩
    | cons b before =>
      cases s with
      | nil => exact absurd (List.append_eq_nil_iff.mp
          (List.cons.inj (Except.ok.inj h)).2.symm).2 hne
      | cons c s => cases h
  | succ n ih =>
    cases before with
    | nil => exact ⟨[], s, n + 1, rfl, .nil, h⟩
    | cons b before =>
      cases s with
      | nil => exact absurd (List.append_eq_nil_iff.mp
          (List.cons.inj (Except.ok.inj h)).2.symm).2 hne
      | cons c s =>
        obtain ⟨tok, rest, tokens', hlexed, hloop, heq⟩ := tokenizeLoop_succ.mp h
        obtain ⟨w, rfl⟩ := hlexed.suffix
        have hlen : (c :: (w ++ rest)).length - rest.length = (c :: w).length := by
          simp only [List.length_cons, List.length_append]
          omega
        rw [hlen] at hloop
        obtain ⟨before', hbefore, rfl⟩ : ∃ before',
            b :: before = (tok.map fun l => (⟨l.1, l.2, offset⟩ : Token)).toList ++ before' ∧
              tokens' = before' ++ after := by
          cases tok with
          | none => exact ⟨b :: before, rfl, heq.symm⟩
          | some l =>
            obtain ⟨rfl, htail⟩ := List.cons.inj heq
            exact ⟨before, rfl, htail.symm⟩
        obtain ⟨p, u, m, rfl, hreads, hafter⟩ := ih hloop
        refine ⟨c :: (w ++ p), u, m, by simp, ?_, ?_⟩
        · rw [hbefore, List.map_append]
          have hcons := Reads.cons hlexed hreads
          cases tok <;> exact hcons
        · rw [← hafter, List.length_cons, List.length_cons, List.length_append]
          congr 1
          omega

lemma tokenizeLoop_token {t : Token} {after : List Token}
    (h : tokenizeLoop n offset s = .ok (t :: after)) (ht : t.type ≠ .kEnd) :
    ∃ p c u rest m, s = p ++ c :: u ∧ t.offset = offset + p.length ∧ Reads s [] (c :: u) ∧
      Lexed c u (some (lexeme t)) rest ∧ tokenizeLoop m t.offset (c :: u) = .ok (t :: after) := by
  have hend : ∀ offset, (Except.ok [⟨.kEnd, [], offset⟩] : Except Exception (List Token)) ≠
      .ok (t :: after) := by
    intro offset heq
    obtain ⟨rfl, -⟩ := List.cons.inj (Except.ok.inj heq)
    exact ht rfl
  induction n generalizing offset s with
  | zero =>
    cases s with
    | nil => exact absurd h (hend offset)
    | cons c s => cases h
  | succ n ih =>
    cases s with
    | nil => exact absurd h (hend offset)
    | cons c s =>
      obtain ⟨tok, rest, tokens', hlexed, hloop, heq⟩ := tokenizeLoop_succ.mp h
      cases tok with
      | none =>
        obtain ⟨w, rfl⟩ := hlexed.suffix
        obtain rfl : tokens' = t :: after := heq.symm
        obtain ⟨p, c', u, rest', m, rfl, hoffset, hreads, hthis⟩ := ih hloop
        refine ⟨c :: (w ++ p), c', u, rest', m, by simp, ?_, .cons hlexed hreads, hthis⟩
        rw [hoffset]
        simp only [List.length_cons, List.length_append]
        omega
      | some l =>
        obtain ⟨rfl, -⟩ := List.cons.inj heq
        exact ⟨[], c, s, rest, n + 1, rfl, rfl, .nil, hlexed, h⟩

/-- **The text splits at the offset of a token**: what is in front of it is read as the tokens in
front of it, and what is behind as this token and the others. -/
theorem tokenize_split {before after : List Token} {t : Token}
    (h : tokenize s = .ok (before ++ t :: after)) (ht : t.type ≠ .kEnd) :
    ∃ c u rest ls, s.drop t.offset = c :: u ∧
      Reads (s.take t.offset ++ c :: u) (before.map lexeme) (c :: u) ∧
      Lexed c u (some (lexeme t)) rest ∧ Reads (c :: u) ls [] ∧
      (t :: after).map lexeme = ls ++ [endLexeme] := by
  obtain ⟨p, s', n, rfl, hbefore, hloop⟩ := tokenizeLoop_behind (List.cons_ne_nil t after) h
  obtain ⟨p', c, u, rest, m, rfl, hoffset, hspaces, hlexed, hthis⟩ :=
    tokenizeLoop_token hloop ht
  obtain ⟨ls, hreads, hmap⟩ := reads_of_tokenizeLoop hthis
  have hlen : t.offset = (p ++ p').length := by
    rw [hoffset, List.length_append]
    omega
  rw [← List.append_assoc, hlen, List.take_left, List.drop_left]
  refine ⟨c, u, rest, ls, rfl, ?_, hlexed, hreads, hmap⟩
  have hall := hbefore.append hspaces
  rwa [List.append_nil, ← List.append_assoc] at hall

end

end DistDB.SqlLexing
