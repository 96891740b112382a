import DistDB.SqlParses
import DistDB.SqlLexing

/-!
What the names and literals of a statement look like: they are tokens of its text, so a name
holds letters, digits and underscores only, and nothing is longer than the text.
-/

namespace DistDB.SqlTexts

open SqlLexer SqlLexing SqlParser SqlGrammar Checks

/-- Letters, digits and underscores; no `/`, which separates the parts of a storage key. -/
def IsName (s : Bytes) : Prop := ∀ c ∈ s, isIdentChar c

/-- An identifier does not start with a digit. -/
def IsWord (s : Bytes) : Prop := ∃ c rest, s = c :: rest ∧ isIdentStart c ∧
    ∀ b ∈ rest, isIdentChar b

lemma IsWord.name {s : Bytes} (h : IsWord s) : IsName s := by
  obtain ⟨c, rest, rfl, hstart, hall⟩ := h
  refine List.forall_mem_cons.mpr ⟨?_, hall⟩
  simp [isIdentChar, hstart]

lemma IsWord.letter {c : UInt8} (h : isIdentStart c) : IsWord [c] := ⟨c, [], rfl, h, nofun⟩

/-! ### Tokens -/

/-- What a token of a text of `n` bytes looks like. -/
def TokenFits (n : ℕ) (type : TokenType) (v : Bytes) : Prop :=
  (type = .kIdentifier → IsName v) ∧ v.length ≤ n

lemma scanString_length {s v rest : Bytes} (h : scanString s = .ok (v, rest)) :
    v.length ≤ s.length := by
  fun_induction scanString s generalizing v rest with
  | case1 => cases h
  | case2 => cases h; exact Nat.zero_le _
  | case3 => cases h
  | case4 s' v' rest' he ih =>
    cases h
    have := ih he
    simp
    omega
  | case5 => cases h; exact Nat.zero_le _
  | case6 => cases h
  | case7 c s hc v' rest' he ih =>
    cases h
    have := ih he
    simp
    omega

lemma TokenFits.of_ne {n : ℕ} {type : TokenType} {v : Bytes} (h : type ≠ .kIdentifier)
    (hlen : v.length ≤ n) : TokenFits n type v :=
  ⟨fun htype => absurd htype h, hlen⟩

lemma Lexed.fits {c : UInt8} {s rest : Bytes} {type : TokenType} {v : Bytes}
    (h : Lexed c s (some (type, v)) rest) : TokenFits (s.length + 1) type v := by
  cases h with
  | word hstart hall =>
    refine ⟨fun _ => List.forall_mem_cons.mpr ⟨?_, hall⟩, by simp⟩
    simp [isIdentChar, hstart]
  | number | negative => exact .of_ne (by decide) (by simp)
  | string hscan => exact .of_ne (by decide) ((scanString_length hscan).trans (Nat.le_succ _))
  | two hsym =>
    have hlen := (twoCharSymbol_mem hsym).2.2
    exact .of_ne (by decide) (by simp [hlen])
  | one => exact .of_ne (by decide) (by simp)

lemma Lexed.isWord {c : UInt8} {s rest v : Bytes}
    (h : Lexed c s (some (.kIdentifier, v)) rest) : IsWord v := by
  cases h with
  | word hstart hall => exact ⟨c, _, rfl, hstart, hall⟩

lemma tokenize_mem {sql : Bytes} {tokens : List Token} (h : tokenize sql = .ok tokens) {t : Token}
    (ht : t ∈ tokens) : (t.type = .kEnd ∧ t.text = []) ∨
      ∃ c s' rest, s'.length < sql.length ∧ Lexed c s' (some (t.type, t.text)) rest := by
  obtain ⟨ls, hreads, hmap⟩ := reads_of_tokenizeLoop h
  have hmem : lexeme t ∈ ls ++ [endLexeme] := hmap ▸ List.mem_map_of_mem ht
  rcases List.mem_append.mp hmem with hls | hend
  · exact .inr (hreads.mem _ hls)
  · obtain ⟨htype, htext⟩ := Prod.mk.inj (List.mem_singleton.mp hend)
    exact .inl ⟨htype, htext⟩

lemma tokenize_fits {sql : Bytes} {tokens : List Token} (h : tokenize sql = .ok tokens) :
    ∀ t ∈ tokens, TokenFits sql.length t.type t.text := by
  intro t ht
  rcases tokenize_mem h ht with ⟨hend, hnil⟩ | ⟨c, s, rest, hlt, hlexed⟩
  · rw [hend, hnil]
    exact ⟨nofun, Nat.zero_le _⟩
  · obtain ⟨hname, hlen⟩ := Lexed.fits hlexed
    exact ⟨hname, hlen.trans hlt⟩

lemma tokenize_words {sql : Bytes} {tokens : List Token} (h : tokenize sql = .ok tokens) :
    ∀ t ∈ tokens, t.type = .kIdentifier → IsWord t.text := by
  intro t ht htype
  rcases tokenize_mem h ht with ⟨hend, -⟩ | ⟨c, s, rest, -, hlexed⟩
  · rw [hend] at htype
    cases htype
  · exact Lexed.isWord (htype ▸ hlexed)

lemma tokenize_length {sql : Bytes} {tokens : List Token} (h : tokenize sql = .ok tokens) :
    tokens.length ≤ sql.length + 1 := by
  obtain ⟨ls, hreads, hmap⟩ := reads_of_tokenizeLoop h
  have hlen := congrArg List.length hmap
  rw [List.length_map, List.length_append, List.length_singleton] at hlen
  rw [hlen]
  exact Nat.succ_le_succ hreads.length_le

/-- The name and the default of a column can be stored. -/
structure SmallColumn (c : ColumnDef) : Prop where
  name : c.name.length < 2 ^ 32
  default : ∀ v ∈ c.defaultValue, v.length < 2 ^ 32

/-- What is known of the parts of a statement in a text below 4 GiB. -/
def Written : Statement → Prop
  | .createTable s => IsName s.dbName ∧ IsName s.tableName
  | .alterTableAddColumn s => (IsName s.dbName ∧ IsName s.tableName) ∧ SmallColumn s.column
  | .insert s => (IsName s.dbName ∧ IsName s.tableName) ∧ ∀ v ∈ s.values, v.length < 2 ^ 32
  | .select s => IsName s.dbName ∧ IsName s.tableName
  | .update s => (IsName s.dbName ∧ IsName s.tableName) ∧
      ∀ a ∈ s.assignments, a.2.length < 2 ^ 32
  | .delete s => IsName s.dbName ∧ IsName s.tableName
  | _ => True

section

variable {n : ℕ} {body : List Token}

lemma TableName.names {p : Bytes × Bytes} (h : TableName body p)
    (hfits : ∀ t ∈ body, TokenFits n t.type t.text) : IsName p.1 ∧ IsName p.2 := by
  cases h with
  | mk hd hdot ht => exact ⟨(hfits _ (by simp)).1 hd, (hfits _ (by simp)).1 ht⟩

lemma TableName.words {p : Bytes × Bytes} (h : TableName body p)
    (hwords : ∀ t ∈ body, t.type = .kIdentifier → IsWord t.text) :
    IsWord p.1 ∧ IsWord p.2 := by
  cases h with
  | mk hd hdot ht => exact ⟨hwords _ (by simp) hd, hwords _ (by simp) ht⟩

lemma SepBy.forall {α : Type} {sep : Token → Prop} {item : List Token → α → Prop}
    {as : List α} {P : α → Prop} {Q : Token → Prop} (h : SepBy sep item body as)
    (hfits : ∀ t ∈ body, Q t)
    (hitem : ∀ body a, item body a → (∀ t ∈ body, Q t) → P a) : ∀ a ∈ as, P a := by
  induction h with
  | one h => simpa using hitem _ _ h hfits
  | more h _ _ ih =>
    refine List.forall_mem_cons.mpr ⟨hitem _ _ h fun t ht => hfits t (by simp [ht]), ?_⟩
    exact ih fun t ht => hfits t (by simp [ht])

lemma Derives.written {stmt : Statement} (h : Derives body stmt) (hn : n < 2 ^ 32)
    (hfits : ∀ t ∈ body, TokenFits n t.type t.text) : Written stmt := by
  have hsmall : ∀ t ∈ body, t.text.length < 2 ^ 32 := fun t ht => (hfits t ht).2.trans_lt hn
  cases h with
  | createDatabase => trivial
  | createTable _ _ htable => exact TableName.names htable fun t ht => hfits t (by simp [ht])
  | alterTable _ _ htable =>
    refine ⟨TableName.names htable fun t ht => hfits t (by simp [ht]),
      ⟨hsmall _ (by simp), ?_⟩⟩
    rintro _ ⟨⟩
    exact hsmall _ (by simp)
  | insert _ _ htable _ _ _ _ _ hvalues =>
    refine ⟨TableName.names htable fun t ht => hfits t (by simp [ht]), ?_⟩
    refine SepBy.forall hvalues (fun t ht => hfits t (by simp [ht])) fun _ _ hv hfits => ?_
    cases hv
    exact ((hfits _ (by simp)).2).trans_lt hn
  | select _ _ _ htable => exact TableName.names htable fun t ht => hfits t (by simp [ht])
  | update _ htable _ hassignments =>
    refine ⟨TableName.names htable fun t ht => hfits t (by simp [ht]), ?_⟩
    refine SepBy.forall hassignments (fun t ht => hfits t (by simp [ht])) fun _ _ ha hfits => ?_
    cases ha
    exact ((hfits _ (by simp)).2).trans_lt hn
  | delete _ _ htable => exact TableName.names htable fun t ht => hfits t (by simp [ht])
  | showTables => trivial
  | showDatabases => trivial

end

/-- **The parts of a parsed statement**. -/
theorem parse_written {sql : Bytes} {stmt : Statement} (h : parse sql = .ok stmt)
    (hsql : sql.length < 2 ^ 32) : Written stmt := by
  obtain ⟨tokens, rest, htokens, body, tail, hbody, -, rfl, hstops, -⟩ := parse_iff.mp h
  exact Derives.written hbody hsql fun t ht =>
    tokenize_fits htokens t (List.mem_append_left _ ht)

end DistDB.SqlTexts
