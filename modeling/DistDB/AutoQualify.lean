import DistDB.SqlLexing
import DistDB.SqlTexts

/-!
QualifyIfBare (`ui/main.cpp`), which puts a database in front of a bare table name.

The table name is looked for behind the first of the words `TABLE`, `INTO` and `FROM`. But the
parser takes these words for names, too: a column may have one, and what stands behind a
`CREATE DATABASE` is not read at all. In these two cases a line that could be parsed is changed
(`neverBreaks_iff`). Whatever the line is, no token is lost or split.
-/

namespace DistDB.AutoQualify

open SqlLexer SqlParser SqlGrammar SqlLexing SqlTexts

def IsTableWord (w : Bytes) : Prop := toUpper w ∈ [text "TABLE", text "INTO", text "FROM"]

def TableWord (t : Token) : Prop := t.type = .kIdentifier ∧ IsTableWord t.text

instance (w : Bytes) : Decidable (IsTableWord w) := inferInstanceAs (Decidable (_ ∈ _))
instance (t : Token) : Decidable (TableWord t) := inferInstanceAs (Decidable (_ ∧ _))

/-- The loop over the tokens: what stands behind the first of the three words. -/
def behindTableWord : List Token → List Token
  | [] => []
  | t :: ts => if TableWord t then ts else behindTableWord ts

/-- The tokens from `table_token` on. -/
def fromTable (tokens : List Token) : List Token :=
  if ∃ t ∈ tokens.head?, IsKeyword (text "UPDATE") t then tokens.tail
  else behindTableWord tokens

/-- The table name, if it is not qualified. -/
def bareName : List Token → Option Token
  | [] => none
  | name :: rest =>
    if name.type ≠ .kIdentifier then none
    else if ∃ t ∈ rest.head?, IsSymbol (text ".") t then none
    else some name

/-- The token that the database goes in front of. -/
def bareTable (tokens : List Token) : Option Token :=
  if ∃ t ∈ tokens.head?, IsKeyword (text "SHOW") t then none else bareName (fromTable tokens)

def qualifyIfBare (line db : Bytes) : Bytes :=
  if db = [] then line
  else
    match tokenize line with
    | .error _ => line
    | .ok tokens =>
      match bareTable tokens with
      | none => line
      | some name => line.take name.offset ++ db ++ text "." ++ line.drop name.offset

example : qualifyIfBare (text "insert into t (k) values (1)") (text "d") =
    text "insert into d.t (k) values (1)" := by decide +kernel

/-- What can be parsed is left alone, and otherwise at most one identifier gets the database in
front of it. -/
structure NeverBreaks (line db : Bytes) : Prop where
  unchanged : ∀ stmt, parse line = .ok stmt → qualifyIfBare line db = line
  spliced : ∀ tokens, tokenize line = .ok tokens → ∃ tokens',
    tokenize (qualifyIfBare line db) = .ok tokens' ∧
      (tokens'.map lexeme = tokens.map lexeme ∨
        ∃ before name after, tokens = before ++ name :: after ∧ IsIdentifier name ∧
          tokens'.map lexeme = before.map lexeme ++
            (.kIdentifier, db) :: (.kSymbol, text ".") :: (name :: after).map lexeme)

/-- The last of the columns is the first with the name of a word that a table follows. -/
def LastColumn (columns : List Bytes) : Prop :=
  ∃ before last, columns = before ++ [last] ∧ IsTableWord last ∧
    ∀ c ∈ before, ¬ IsTableWord c

/-- Behind the first of the three words there is an identifier, and no dot behind that. -/
def BareBehind (tokens : List Token) : Prop :=
  ∃ before word name rest, tokens = before ++ word :: name :: rest ∧
    (∀ t ∈ before, ¬ TableWord t) ∧ TableWord word ∧ IsIdentifier name ∧
    ∀ t ∈ rest.head?, ¬ IsSymbol (text ".") t

/-- The statements with tokens that are taken for a table name and are none: the `FROM` behind the
columns of a `SELECT`, or something behind a `CREATE DATABASE`, which the parser does not read. -/
def Misread (tokens : List Token) : Statement → Prop
  | .select s => LastColumn s.columns
  | .createDatabase _ => BareBehind (tokens.drop 2)
  | _ => False

/-! ### The splice -/

lemma bareName_eq_some {ts : List Token} {name : Token} : bareName ts = some name ↔
    ∃ rest, ts = name :: rest ∧ IsIdentifier name ∧ ∀ t ∈ rest.head?, ¬ IsSymbol
      (text ".") t := by
  cases ts with
  | nil => simp [bareName]
  | cons t ts =>
    rw [bareName]
    by_cases ht : t.type = .kIdentifier
    · rw [if_neg (not_not_intro ht)]
      by_cases hdot : ∃ t ∈ ts.head?, IsSymbol (text ".") t
      · rw [if_pos hdot]
        obtain ⟨t', ht', hsym⟩ := hdot
        refine iff_of_false nofun ?_
        rintro ⟨rest, heq, -, hnot⟩
        obtain ⟨-, rfl⟩ := List.cons.inj heq
        exact hnot t' ht' hsym
      · rw [if_neg hdot]
        constructor
        · rintro ⟨⟩
          exact ⟨ts, rfl, ht, fun t' ht' hsym => hdot ⟨t', ht', hsym⟩⟩
        · rintro ⟨rest, heq, -⟩
          rw [(List.cons.inj heq).1]
    · rw [if_pos ht]
      refine iff_of_false nofun ?_
      rintro ⟨rest, heq, hname, -⟩
      exact ht ((List.cons.inj heq).1 ▸ hname)

lemma behindTableWord_suffix (ts : List Token) : behindTableWord ts <:+ ts := by
  induction ts with
  | nil => exact List.suffix_rfl
  | cons t ts ih =>
    rw [behindTableWord]
    split_ifs
    · exact List.suffix_cons t ts
    · exact ih.trans (List.suffix_cons t ts)

lemma fromTable_suffix (tokens : List Token) : fromTable tokens <:+ tokens := by
  unfold fromTable
  split_ifs
  · exact List.tail_suffix tokens
  · exact behindTableWord_suffix tokens

lemma bareTable_mem {tokens : List Token} {name : Token} (h : bareTable tokens = some name) :
    ∃ before after, tokens = before ++ name :: after ∧ IsIdentifier name := by
  unfold bareTable at h
  split_ifs at h
  obtain ⟨rest, heq, hname, -⟩ := bareName_eq_some.mp h
  obtain ⟨before, hbefore⟩ := fromTable_suffix tokens
  exact ⟨before, rest, by rw [← hbefore, heq], hname⟩

lemma reads_database {db : Bytes} (hdb : IsWord db) (u : Bytes) :
    Reads (db ++ (text "." ++ u)) [(.kIdentifier, db), (.kSymbol, text ".")] u := by
  obtain ⟨c, w, rfl, hstart, hall⟩ := hdb
  have hword : Lexed c (w ++ (text "." ++ u)) (some (.kIdentifier, c :: w)) (text "." ++ u) := by
    refine .word hstart hall fun b hb => ?_
    cases hb
    decide
  have hdot : Lexed (chr '.') u (some (.kSymbol, [chr '.'])) u := by
    refine .one (by decide) ?_
    cases hhead : u.head? with
    | none => rfl
    | some b =>
      have htwo : twoCharSymbol (chr '.') b = none := by
        cases htwo : twoCharSymbol (chr '.') b with
        | none => rfl
        | some sym => simp [twoCharSymbol, chr] at htwo
      exact htwo
  exact .cons hword (.cons hdot .nil)

/-- **The splice**: the tokens of the line, and the database and a dot in front of the name. -/
lemma tokenize_spliced {line db : Bytes} {before after : List Token} {name : Token}
    (hdb : IsWord db) (h : tokenize line = .ok (before ++ name :: after))
    (hname : IsIdentifier name) : ∃ tokens',
      tokenize (line.take name.offset ++ db ++ text "." ++ line.drop name.offset) = .ok tokens' ∧
        tokens'.map lexeme = before.map lexeme ++
          (.kIdentifier, db) :: (.kSymbol, text ".") :: (name :: after).map lexeme := by
  obtain ⟨c, u, rest, ls, hdrop, hbefore, hlexed, hreads, hmap⟩ :=
    tokenize_split h (by rw [hname]; exact nofun)
  have hstart : isIdentStart c := by
    rw [lexeme, hname] at hlexed
    exact hlexed.start
  have hsame : SameAhead (c :: u) (db ++ (text "." ++ c :: u)) := by
    obtain ⟨b, w, rfl, hb, -⟩ := hdb
    exact .inr ⟨⟨c, rfl, hstart⟩, b, rfl, hb⟩
  have hall := (hbefore.ahead hsame).append ((reads_database hdb _).append hreads)
  rw [hdrop, hmap, List.append_assoc, List.append_assoc]
  obtain ⟨tokens', htokens', hmap'⟩ := tokenize_iff_reads.mpr hall
  refine ⟨tokens', htokens', ?_⟩
  rw [hmap']
  simp

lemma qualifyIfBare_cases {db : Bytes} (hdb : IsWord db) (line : Bytes) :
    qualifyIfBare line db = line ∧
      (∀ tokens, tokenize line = .ok tokens → bareTable tokens = none) ∨
      ∃ before name after, tokenize line = .ok (before ++ name :: after) ∧ IsIdentifier name ∧
        bareTable (before ++ name :: after) = some name ∧ qualifyIfBare line db =
          line.take name.offset ++ db ++ text "." ++ line.drop name.offset := by
  have hne : db ≠ [] := by
    obtain ⟨c, w, rfl, -⟩ := hdb
    exact List.cons_ne_nil c w
  unfold qualifyIfBare
  rw [if_neg hne]
  cases htokens : tokenize line with
  | error e => exact .inl ⟨rfl, nofun⟩
  | ok tokens =>
    dsimp only
    cases hbare : bareTable tokens with
    | none =>
      refine .inl ⟨rfl, ?_⟩
      rintro _ ⟨⟩
      exact hbare
    | some name =>
      obtain ⟨before, after, rfl, hname⟩ := bareTable_mem hbare
      exact .inr ⟨before, name, after, rfl, hname, hbare, rfl⟩

lemma qualifyIfBare_spliced {db : Bytes} (hdb : IsWord db) {line : Bytes} {tokens : List Token}
    (h : tokenize line = .ok tokens) : ∃ tokens',
      tokenize (qualifyIfBare line db) = .ok tokens' ∧
        (tokens'.map lexeme = tokens.map lexeme ∨
          ∃ before name after, tokens = before ++ name :: after ∧ IsIdentifier name ∧
            tokens'.map lexeme = before.map lexeme ++
              (.kIdentifier, db) :: (.kSymbol, text ".") :: (name :: after).map lexeme) := by
  rcases qualifyIfBare_cases hdb line with
    ⟨heq, -⟩ | ⟨before, name, after, htokens, hname, -, heq⟩
  · rw [heq]
    exact ⟨tokens, h, .inl rfl⟩
  · rw [htokens] at h
    cases h
    obtain ⟨tokens', htokens', hmap⟩ := tokenize_spliced hdb htokens hname
    rw [heq]
    exact ⟨tokens', htokens', .inr ⟨before, name, after, rfl, hname, hmap⟩⟩

lemma qualifyIfBare_eq_self {db : Bytes} (hdb : IsWord db) {line : Bytes} {tokens : List Token}
    (h : tokenize line = .ok tokens) : qualifyIfBare line db = line ↔
    bareTable tokens = none := by
  rcases qualifyIfBare_cases hdb line with
    ⟨heq, hnone⟩ | ⟨before, name, after, htokens, -, hsome, heq⟩
  · exact iff_of_true heq (hnone tokens h)
  · rw [htokens] at h
    cases h
    rw [hsome]
    refine iff_of_false (fun hself => ?_) nofun
    -- the result is longer than the line
    have hlen := congrArg List.length (heq.symm.trans hself)
    have hline := congrArg List.length (List.take_append_drop name.offset line)
    simp only [List.length_append] at hlen hline
    have hdot : (text ".").length = 1 := by decide
    omega

/-! ### Which statements are taken apart -/

section

variable {before ts rest table tail : List Token} {t t₁ f d : Token} {p : Bytes × Bytes}

lemma behindTableWord_cons_of_not (h : ¬ TableWord t) :
    behindTableWord (t :: ts) = behindTableWord ts := if_neg h

lemma behindTableWord_cons (h : TableWord t) : behindTableWord (t :: ts) = ts := if_pos h

lemma behindTableWord_append (h : ∀ t ∈ before, ¬ TableWord t) :
    behindTableWord (before ++ ts) = behindTableWord ts := by
  induction before with
  | nil => rfl
  | cons t before ih =>
    obtain ⟨ht, h⟩ := List.forall_mem_cons.mp h
    rw [List.cons_append, behindTableWord_cons_of_not ht, ih h]

lemma tableWord_of_keyword {w : Bytes} (h : IsKeyword w t)
    (hw : w ∈ [text "TABLE", text "INTO", text "FROM"]) : TableWord t :=
  ⟨h.1, by rw [IsTableWord, h.2]; exact hw⟩

lemma not_tableWord_of_keyword {w : Bytes} (h : IsKeyword w t)
    (hw : w ∉ [text "TABLE", text "INTO", text "FROM"]) : ¬ TableWord t := by
  rintro ⟨-, ht⟩
  rw [IsTableWord, h.2] at ht
  exact hw ht

lemma not_tableWord_of_symbol {w : Bytes} (h : IsSymbol w t) : ¬ TableWord t := by
  rintro ⟨ht, -⟩
  rw [h.1] at ht
  cases ht

lemma bareName_table (h : TableName table p) : bareName (table ++ rest) = none := by
  cases h with
  | @mk d dot n hd hdot hn =>
    rw [Option.eq_none_iff_forall_ne_some]
    intro name hname
    obtain ⟨rest', heq, -, hnot⟩ := bareName_eq_some.mp hname
    obtain ⟨-, rfl⟩ := List.cons.inj heq
    exact hnot dot rfl hdot

lemma bareName_isSome {ts : List Token} : (bareName (behindTableWord ts)).isSome ↔
    BareBehind ts := by
  rw [Option.isSome_iff_exists]
  constructor
  · rintro ⟨name, h⟩
    obtain ⟨rest, heq, hname, hdot⟩ := bareName_eq_some.mp h
    clear h
    induction ts with
    | nil => cases heq
    | cons t ts ih =>
      by_cases ht : TableWord t
      · rw [behindTableWord_cons ht] at heq
        exact ⟨[], t, name, rest, by rw [heq]; rfl, nofun, ht, hname, hdot⟩
      · rw [behindTableWord_cons_of_not ht] at heq
        obtain ⟨before, word, name', rest', rfl, hbefore, hrest⟩ := ih heq
        exact ⟨t :: before, word, name', rest', rfl, List.forall_mem_cons.mpr
          ⟨ht, hbefore⟩, hrest⟩
  · rintro ⟨before, word, name, rest, rfl, hbefore, hword, hname, hdot⟩
    rw [behindTableWord_append hbefore, behindTableWord_cons hword]
    exact ⟨name, bareName_eq_some.mpr ⟨rest, rfl, hname, hdot⟩⟩

lemma lastColumn_cons {c : Bytes} {columns : List Bytes} (hne : columns ≠ []) :
    LastColumn (c :: columns) ↔ ¬ IsTableWord c ∧ LastColumn columns := by
  constructor
  · rintro ⟨before, last, heq, hlast, hbefore⟩
    cases before with
    | nil => exact absurd (List.cons.inj heq).2 hne
    | cons c' before =>
      obtain ⟨rfl, rfl⟩ := List.cons.inj heq
      obtain ⟨hc, hbefore⟩ := List.forall_mem_cons.mp hbefore
      exact ⟨hc, before, last, rfl, hlast, hbefore⟩
  · rintro ⟨hc, before, last, rfl, hlast, hbefore⟩
    exact ⟨c :: before, last, rfl, hlast, List.forall_mem_cons.mpr ⟨hc, hbefore⟩⟩

lemma lastColumn_singleton {c : Bytes} : LastColumn [c] ↔ IsTableWord c := by
  constructor
  · rintro ⟨before, last, heq, hlast, -⟩
    obtain ⟨rfl, rfl⟩ : before = [] ∧ last = c := by
      cases before with
      | nil => exact ⟨rfl, (List.cons.inj heq).1.symm⟩
      | cons b before =>
        exact absurd (List.cons.inj heq).2.symm (by simp)
    exact hlast
  · intro hc
    exact ⟨[], c, rfl, hc, nofun⟩

lemma bareName_columns {body : List Token} {columns : List Bytes}
    (h : SepBy (IsSymbol (text ",")) Name body columns) (hf : IsKeyword (text "FROM") f)
    (htable : TableName table p) :
    (bareName (behindTableWord (body ++ f :: (table ++ tail)))).isSome ↔ LastColumn columns := by
  have hfrom : TableWord f := tableWord_of_keyword hf (by decide)
  induction h with
  | @one _ a hname =>
    obtain ⟨ht⟩ := hname
    rename_i t
    rw [lastColumn_singleton]
    by_cases hword : TableWord t
    · rw [List.singleton_append, behindTableWord_cons hword]
      refine iff_of_true (Option.isSome_iff_exists.mpr ⟨f, bareName_eq_some.mpr ?_⟩) hword.2
      cases htable with
      | mk hd =>
        refine ⟨_, rfl, hf.1, ?_⟩
        rintro _ ⟨⟩ hsym
        exact absurd (hsym.1.symm.trans hd) nofun
    · rw [List.singleton_append, behindTableWord_cons_of_not hword, behindTableWord_cons hfrom,
        bareName_table htable]
      exact iff_of_false nofun fun hw => hword ⟨ht, hw⟩
  | @more _ a comma rest as hname hcomma hrest ih =>
    obtain ⟨ht⟩ := hname
    rename_i t
    rw [lastColumn_cons hrest.ne_nil]
    by_cases hword : TableWord t
    · rw [List.append_assoc, List.singleton_append, behindTableWord_cons hword]
      refine iff_of_false ?_ fun hw => hw.1 hword.2
      rw [Option.not_isSome_iff_eq_none, List.cons_append, Option.eq_none_iff_forall_ne_some]
      intro name hname
      obtain ⟨rest', heq, hid, -⟩ := bareName_eq_some.mp hname
      obtain ⟨rfl, -⟩ := List.cons.inj heq
      exact absurd (hcomma.1.symm.trans hid) nofun
    · rw [List.append_assoc, List.singleton_append, behindTableWord_cons_of_not hword,
        List.cons_append, behindTableWord_cons_of_not (not_tableWord_of_symbol hcomma)]
      exact ih.trans (and_iff_right fun hw => hword ⟨ht, hw⟩).symm

lemma bareTable_keyword {w : Bytes} (h : IsKeyword w t) (hw : w ∉ [text "SHOW", text "UPDATE",
    text "TABLE", text "INTO", text "FROM"]) :
    bareTable (t :: ts) = bareName (behindTableWord ts) := by
  simp only [List.mem_cons, not_or] at hw
  obtain ⟨hshow, hupdate, hword⟩ := hw
  have hnot : ¬ TableWord t := not_tableWord_of_keyword h (by simpa using hword)
  rw [bareTable, if_neg, fromTable, if_neg, behindTableWord_cons_of_not hnot]
  · rintro ⟨_, ⟨⟩, ht⟩
    exact h.ne hupdate ht
  · rintro ⟨_, ⟨⟩, ht⟩
    exact h.ne hshow ht

lemma bareTable_table {w w' : Bytes} (h : IsKeyword w t) (h' : IsKeyword w' t₁)
    (hw : w ∉ [text "SHOW", text "UPDATE", text "TABLE", text "INTO", text "FROM"])
    (hw' : w' ∈ [text "TABLE", text "INTO", text "FROM"]) (htable : TableName table p) :
    bareTable (t :: t₁ :: (table ++ rest)) = none := by
  rw [bareTable_keyword h hw, behindTableWord_cons (tableWord_of_keyword h' hw'),
    bareName_table htable]

lemma bareTable_show (h : IsKeyword (text "SHOW") t) : bareTable (t :: ts) = none :=
  if_pos ⟨t, rfl, h⟩

lemma bareTable_update (h : IsKeyword (text "UPDATE") t) (htable : TableName table p) :
    bareTable (t :: (table ++ rest)) = none := by
  unfold bareTable fromTable
  rw [if_neg, if_pos ⟨t, rfl, h⟩]
  · exact bareName_table htable
  · rintro ⟨_, ⟨⟩, ht⟩
    exact h.ne (by decide) ht

/-- **Where the guess is wrong**: of the statements, only a `SELECT` and a `CREATE DATABASE` have
something behind one of the three words that is no table name. -/
lemma bareTable_isSome {body : List Token} {stmt : Statement} (h : Derives body stmt) :
    (bareTable (body ++ tail)).isSome ↔ Misread (body ++ tail) stmt := by
  have hnone : ∀ {ts : List Token}, bareTable ts = none →
      ((bareTable ts).isSome ↔ False) := by
    intro ts hts
    rw [hts]
    exact iff_of_false nofun id
  cases h with
  | createDatabase h₁ h₂ =>
    rw [List.cons_append, bareTable_keyword h₁ (by decide), List.cons_append,
      behindTableWord_cons_of_not (not_tableWord_of_keyword h₂ (by decide)), bareName_isSome]
    rfl
  | createTable h₁ h₂ htable | alterTable h₁ h₂ htable | insert h₁ h₂ htable
  | delete h₁ h₂ htable =>
    rw [List.cons_append, List.cons_append, List.append_assoc]
    exact hnone (bareTable_table h₁ h₂ (by decide) (by decide) htable)
  | @select t₁ body columns f table d n tail' conds h₁ hcolumns hf htable =>
    rw [List.cons_append, bareTable_keyword h₁ (by decide), List.append_assoc, List.cons_append,
      List.append_assoc]
    show _ ↔ LastColumn columns
    cases hcolumns with
    | star hstar =>
      rw [List.singleton_append, behindTableWord_cons_of_not (not_tableWord_of_symbol hstar),
        behindTableWord_cons (tableWord_of_keyword hf (by decide)), bareName_table htable]
      refine iff_of_false nofun ?_
      rintro ⟨before, last, heq, -⟩
      exact absurd heq (by simp)
    | names hnames => exact bareName_columns hnames hf htable
  | update h₁ htable =>
    rw [List.cons_append, List.append_assoc]
    exact hnone (bareTable_update h₁ htable)
  | showTables h₁ | showDatabases h₁ => exact hnone (bareTable_show h₁)

end

/-- **When the rewrite is harmless**: exactly if the line is not a statement that is misread. -/
theorem neverBreaks_iff {db : Bytes} (hdb : IsWord db) (line : Bytes) :
    NeverBreaks line db ↔ ∀ tokens stmt, tokenize line = .ok tokens →
      parse line = .ok stmt → ¬ Misread tokens stmt := by
  have hparsed : ∀ tokens stmt, tokenize line = .ok tokens → parse line = .ok stmt →
      (qualifyIfBare line db = line ↔ ¬ Misread tokens stmt) := by
    intro tokens stmt htokens hparse
    obtain ⟨_, _, htokens', body, tail, hbody, -, rfl, -⟩ := parse_iff.mp hparse
    rw [htokens'] at htokens
    cases htokens
    rw [qualifyIfBare_eq_self hdb htokens', ← Option.not_isSome_iff_eq_none,
      bareTable_isSome hbody]
  constructor
  · intro h tokens stmt htokens hparse
    exact (hparsed tokens stmt htokens hparse).mp (h.unchanged stmt hparse)
  · intro h
    refine ⟨fun stmt hparse => ?_, fun tokens => qualifyIfBare_spliced hdb⟩
    obtain ⟨tokens, -, htokens, -⟩ := parse_iff.mp hparse
    exact (hparsed tokens stmt htokens hparse).mpr (h tokens stmt htokens hparse)

/-- A column named `FROM` that is not the last one. -/
theorem neverBreaks_iff_first : NeverBreaks (text "SELECT from, a FROM d.t") (text "d") := by
  have hparse : parse (text "SELECT from, a FROM d.t") =
      .ok (.select ⟨text "d", text "t", [text "from", text "a"], []⟩) := by decide +kernel
  refine (neverBreaks_iff ⟨chr 'd', [], rfl, by decide, nofun⟩ _).mpr
    fun tokens stmt _ hstmt => ?_
  rw [hparse] at hstmt
  cases hstmt
  exact fun hlast => ((lastColumn_cons (List.cons_ne_nil _ _)).mp hlast).1 (by decide)

/-- **A column named `FROM`**: the `FROM` behind it is taken for a table name. -/
theorem column_from : ¬ ∀ line db, IsWord db → NeverBreaks line db := by
  intro h
  have hword : IsWord (text "d") := ⟨chr 'd', [], rfl, by decide, nofun⟩
  have hparse : parse (text "SELECT from FROM d.t") =
      .ok (.select ⟨text "d", text "t", [text "from"], []⟩) := by decide +kernel
  have hself := (h (text "SELECT from FROM d.t") (text "d") hword).unchanged _ hparse
  have hline : qualifyIfBare (text "SELECT from FROM d.t") (text "d") =
      text "SELECT from d.FROM d.t" := by decide +kernel
  rw [hline] at hself
  revert hself
  decide

end DistDB.AutoQualify
