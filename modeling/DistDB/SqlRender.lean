import DistDB.SqlTexts

/-!
Texts that are read as given tokens: every token is spelled and followed by a blank
(`tokenize_render`), and the tokens of an `INSERT` give that `INSERT` (`parse_insertText`).
-/

namespace DistDB.SqlRender

open SqlLexer SqlLexing SqlParser SqlGrammar SqlTexts

/-- A token without its place. -/
abbrev Lexeme := TokenType × Bytes

inductive Spellable : Lexeme → Prop
  | word {s} : IsWord s → Spellable (.kIdentifier, s)
  | string {v} : Spellable (.kString, v)
  | symbol {c} : c ∈ oneCharSymbols → Spellable (.kSymbol, [c])

/-- The contents of a string literal, with every quote doubled. -/
def escape (v : Bytes) : Bytes := v.flatMap fun c => if c = quote then [quote, quote] else [c]

def spell : Lexeme → Bytes
  | (.kString, v) => quote :: (escape v ++ [quote])
  | (_, v) => v

def render (ls : List Lexeme) : Bytes := ls.flatMap fun l => spell l ++ [chr ' ']

/-- The tokens, the first of them at `offset`. -/
def tokensAt : ℕ → List Lexeme → List Token
  | _, [] => []
  | offset, l :: ls => ⟨l.1, l.2, offset⟩ :: tokensAt (offset + (spell l).length + 1) ls

lemma length_render_cons (l : Lexeme) (ls : List Lexeme) :
    (render (l :: ls)).length = (spell l).length + 1 + (render ls).length := by
  rw [render, List.flatMap_cons, List.length_append, List.length_append]
  rfl

lemma tokensAt_append (offset : ℕ) (ls ls' : List Lexeme) :
    tokensAt offset (ls ++ ls') =
      tokensAt offset ls ++ tokensAt (offset + (render ls).length) ls' := by
  induction ls generalizing offset with
  | nil => rfl
  | cons l ls ih =>
    rw [List.cons_append, tokensAt, tokensAt, ih, List.cons_append, length_render_cons]
    simp only [Nat.add_assoc]

lemma scanString_escape (v rest : Bytes) :
    scanString (escape v ++ quote :: chr ' ' :: rest) = .ok (v, chr ' ' :: rest) := by
  induction v with
  | nil =>
    show scanString (quote :: chr ' ' :: rest) = _
    rw [scanString, if_pos rfl]
    rfl
  | cons c v ih =>
    by_cases hc : c = quote
    · subst hc
      show scanString (quote :: quote :: (escape v ++ quote :: chr ' ' :: rest)) = _
      unfold scanString
      rw [if_pos rfl]
      show (if quote = quote then _ else _) = _
      rw [if_pos rfl, ih]
    · have hcons : escape (c :: v) = c :: escape v := by
        simp [escape, hc]
      rw [hcons, List.cons_append]
      unfold scanString
      rw [if_neg hc, ih]

lemma nextToken_spell {l : Lexeme} (h : Spellable l) (rest : Bytes) :
    ∃ c s, spell l = c :: s ∧
      nextToken c (s ++ chr ' ' :: rest) = .ok (some l, chr ' ' :: rest) := by
  cases h with
  | @word s hword =>
    obtain ⟨c, s, rfl, hstart, hall⟩ := hword
    refine ⟨c, s, rfl, nextToken_iff.mpr (.word hstart hall ?_)⟩
    rintro b ⟨⟩
    decide
  | @string v =>
    refine ⟨quote, escape v ++ [quote], rfl, nextToken_iff.mpr (.string ?_)⟩
    rw [List.append_assoc]
    exact scanString_escape v rest
  | @symbol c hc =>
    refine ⟨c, [], rfl, nextToken_iff.mpr (.one hc ?_)⟩
    -- no symbol of two characters ends with a blank
    show twoCharSymbol c (chr ' ') = none
    cases htwo : twoCharSymbol c (chr ' ') with
    | none => rfl
    | some sym =>
      obtain ⟨-, heq | heq, -⟩ := twoCharSymbol_mem htwo
      · exact absurd heq (by decide)
      · exact absurd heq (by decide)

lemma tokenizeLoop_render {ls : List Lexeme} (hls : ∀ l ∈ ls, Spellable l) {n offset : ℕ}
    (hn : (render ls).length ≤ n) : tokenizeLoop n offset (render ls) =
      .ok (tokensAt offset ls ++ [⟨.kEnd, [], offset + (render ls).length⟩]) := by
  induction ls generalizing n offset with
  | nil => cases n <;> rfl
  | cons l ls ih =>
    obtain ⟨hl, hls⟩ := List.forall_mem_cons.mp hls
    obtain ⟨c, s, hspell, hnext⟩ := nextToken_spell hl (render ls)
    have hrender : render (l :: ls) = c :: (s ++ chr ' ' :: render ls) := by
      rw [render, List.flatMap_cons, hspell, List.append_assoc]
      rfl
    have hlen := length_render_cons l ls
    have hpos : (spell l).length = s.length + 1 := by rw [hspell, List.length_cons]
    obtain ⟨m, rfl⟩ : ∃ m, n = m + 2 := ⟨n - 2, by omega⟩
    -- one pass for the token and one for the blank
    have hblank : ∀ k offset, (render ls).length ≤ k →
        tokenizeLoop (k + 1) offset (chr ' ' :: render ls) =
          .ok (tokensAt (offset + 1) ls ++ [⟨.kEnd, [], offset + 1 + (render ls).length⟩]) := by
      intro k offset hk
      have hskip : nextToken (chr ' ') (render ls) = .ok (none, render ls) := rfl
      have hone : offset + ((chr ' ' :: render ls).length - (render ls).length) = offset + 1 := by
        simp
      rw [tokenizeLoop, hskip]
      dsimp only
      rw [hone, ih hls hk]
      rfl
    have hoffset : offset + ((c :: (s ++ chr ' ' :: render ls)).length -
        (chr ' ' :: render ls).length) = offset + (spell l).length := by
      simp only [List.length_cons, List.length_append]
      omega
    rw [hlen, hrender, tokenizeLoop, hnext]
    dsimp only
    rw [hoffset, hblank _ _ (by omega), tokensAt]
    simp only [Option.map_some, Option.toList_some, List.cons_append, List.nil_append,
      Nat.add_assoc]

/-- **The text is read as the tokens.** -/
theorem tokenize_render {ls : List Lexeme} (hls : ∀ l ∈ ls, Spellable l) :
    tokenize (render ls) = .ok (tokensAt 0 ls ++ [⟨.kEnd, [], (render ls).length⟩]) := by
  rw [tokenize, tokenizeLoop_render hls le_rfl, Nat.zero_add]

/-- Tokens that are a statement. -/
theorem parse_render {ls : List Lexeme} {stmt : Statement} (hls : ∀ l ∈ ls, Spellable l)
    (h : Derives (tokensAt 0 ls) stmt) (hshadow : ¬ Shadowed (tokensAt 0 ls) stmt) :
    parse (render ls) = .ok stmt :=
  parse_iff.mpr ⟨_, _, tokenize_render hls, _, _, h, hshadow, rfl,
    (Final.stop (e := ⟨.kEnd, [], _⟩) rfl).stops stmt, rfl⟩

/-! ### An INSERT -/

def commas (ls : List Lexeme) : List Lexeme := ls.intersperse (.kSymbol, text ",")

def tableLexemes (d t : Bytes) : List Lexeme :=
  [(.kIdentifier, d), (.kSymbol, text "."), (.kIdentifier, t)]

def insertLexemes (d t : Bytes) (columns values : List Bytes) : List Lexeme :=
  (.kIdentifier, text "INSERT") :: (.kIdentifier, text "INTO") :: (tableLexemes d t ++
    (.kSymbol, text "(") :: (commas (columns.map fun c => (.kIdentifier, c)) ++
      (.kSymbol, text ")") :: (.kIdentifier, text "VALUES") :: (.kSymbol, text "(") ::
        (commas (values.map fun v => (.kString, v)) ++ [(.kSymbol, text ")")])))

/-- `INSERT INTO d.t (columns) VALUES (values)`, with the values as string literals. -/
def insertText (d t : Bytes) (columns values : List Bytes) : Bytes :=
  render (insertLexemes d t columns values)

lemma mem_commas {ls : List Lexeme} {l : Lexeme} (h : l ∈ commas ls) :
    l ∈ ls ∨ l = (.kSymbol, text ",") := by
  unfold commas at h
  induction ls with
  | nil => exact .inl h
  | cons a ls ih =>
    cases ls with
    | nil => exact .inl h
    | cons b ls =>
      rw [List.intersperse_cons_cons] at h
      rcases List.mem_cons.mp h with rfl | h
      · exact .inl List.mem_cons_self
      rcases List.mem_cons.mp h with rfl | h
      · exact .inr rfl
      · rcases ih h with hmem | rfl
        · exact .inl (List.mem_cons_of_mem _ hmem)
        · exact .inr rfl

lemma sepBy_commas {item : List Token → Bytes → Prop} {type : TokenType} {as : List Bytes}
    (hitem : ∀ a offset, item [⟨type, a, offset⟩] a) (hne : as ≠ []) (offset : ℕ) :
    SepBy (IsSymbol (text ",")) item
      (tokensAt offset (commas (as.map fun a => (type, a)))) as := by
  induction as generalizing offset with
  | nil => exact absurd rfl hne
  | cons a as ih =>
    cases as with
    | nil => exact .one (hitem a offset)
    | cons b as =>
      have hrest := fun offset => ih (List.cons_ne_nil b as) offset
      exact .more (hitem a offset) ⟨rfl, rfl⟩ (hrest _)

lemma spellable_insert {d t : Bytes} {columns values : List Bytes} (hd : IsWord d) (ht : IsWord t)
    (hcolumns : ∀ c ∈ columns, IsWord c) :
    ∀ l ∈ insertLexemes d t columns values, Spellable l := by
  have hsymbol : ∀ c ∈ oneCharSymbols, Spellable (.kSymbol, [c]) := fun c hc => .symbol hc
  have hword : ∀ {w : Bytes}, (∃ c rest, w = c :: rest ∧ isIdentStart c ∧
      rest.all fun b => isIdentChar b) → Spellable (.kIdentifier, w) := by
    rintro w ⟨c, rest, rfl, hstart, hall⟩
    exact .word ⟨c, rest, rfl, hstart, List.all_eq_true.mp hall⟩
  have hinsert : Spellable (.kIdentifier, text "INSERT") :=
    hword ⟨_, _, rfl, by decide, by decide⟩
  have hinto : Spellable (.kIdentifier, text "INTO") := hword ⟨_, _, rfl, by decide, by decide⟩
  have hval : Spellable (.kIdentifier, text "VALUES") := hword ⟨_, _, rfl, by decide, by decide⟩
  have hdot : Spellable (.kSymbol, text ".") := hsymbol _ (by decide)
  have hleft : Spellable (.kSymbol, text "(") := hsymbol _ (by decide)
  have hright : Spellable (.kSymbol, text ")") := hsymbol _ (by decide)
  have hcomma : Spellable (.kSymbol, text ",") := hsymbol _ (by decide)
  have hnames : ∀ l ∈ commas (columns.map fun c => ((.kIdentifier, c) : Lexeme)),
      Spellable l := by
    intro l hl
    rcases mem_commas hl with hl | rfl
    · obtain ⟨c, hc, rfl⟩ := List.mem_map.mp hl
      exact .word (hcolumns c hc)
    · exact hcomma
  have hvalues : ∀ l ∈ commas (values.map fun v => ((.kString, v) : Lexeme)), Spellable l := by
    intro l hl
    rcases mem_commas hl with hl | rfl
    · obtain ⟨v, -, rfl⟩ := List.mem_map.mp hl
      exact .string
    · exact hcomma
  simp only [insertLexemes, tableLexemes, List.forall_mem_append, List.forall_mem_cons]
  exact ⟨hinsert, hinto, ⟨.word hd, hdot, .word ht, nofun⟩, hleft, hnames, hright, hval,
    hleft, hvalues, hright, nofun⟩

/-- **The text is read as the `INSERT`.** -/
theorem parse_insertText {d t : Bytes} {columns values : List Bytes} (hd : IsWord d) (ht : IsWord t)
    (hcolumns : ∀ c ∈ columns, IsWord c) (hne : columns ≠ [])
    (hlen : columns.length = values.length) :
    parse (insertText d t columns values) = .ok (.insert ⟨d, t, columns, values⟩) := by
  have hvalues : values ≠ [] := fun hnil =>
    hne (List.length_eq_zero_iff.mp (by rw [hlen, hnil]; rfl))
  refine parse_render (spellable_insert hd ht hcolumns) ?_ id
  have htable : ∀ offset, TableName (tokensAt offset (tableLexemes d t)) (d, t) := fun _ =>
    .mk rfl ⟨rfl, rfl⟩ rfl
  have hkeyword : ∀ {w : Bytes} (offset : ℕ), toUpper w = w →
      IsKeyword w ⟨.kIdentifier, w, offset⟩ :=
    fun _ hw => ⟨rfl, hw⟩
  simp only [insertLexemes, tokensAt, tokensAt_append]
  exact .insert (hkeyword _ (by decide)) (hkeyword _ (by decide)) (htable _) ⟨rfl, rfl⟩
    (sepBy_commas (fun _ _ => .mk rfl) hne _) ⟨rfl, rfl⟩ (hkeyword _ (by decide)) ⟨rfl, rfl⟩
    (sepBy_commas (fun _ _ => .mk (.inl rfl)) hvalues _) ⟨rfl, rfl⟩ hlen

end DistDB.SqlRender
