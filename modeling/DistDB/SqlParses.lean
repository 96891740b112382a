import DistDB.SqlGrammar
import DistDB.SqlRuns

/-!
What the parser makes of the grammar.

The parser stops behind the longest statement it finds, whatever stands there
(`parseStatement_iff`). So a text is read as the grammar says exactly when every statement that
stands in front of it is followed by its end (`readsGrammar_iff`).
-/

namespace DistDB.SqlGrammar

open SqlLexer SqlParser SqlRuns Checks

/-! ### What the parser takes for a terminal -/

lemma peek_iff {ts rest : List Token} {t : Token} :
    peek ts = .ok (t, rest) ↔ t ∈ ts.head? ∧ rest = ts := by
  cases ts with
  | nil => simp [peek]
  | cons t' ts => simp [peek, eq_comm]

lemma advance_iff {ts rest : List Token} {t : Token} :
    advance ts = .ok (t, rest) ↔ ts = t :: rest := by
  cases ts with
  | nil => simp [advance]
  | cons t' ts => simp [advance]

lemma failUnless_iff {c : Bool} {what : Bytes} {ts rest : List Token} {u : Unit} :
    failUnless c what ts = .ok (u, rest) ↔ c = true ∧ rest = ts := by
  cases c with
  | false => exact iff_of_false (fun h => by cases h) (by simp)
  | true =>
    show (pure () : Parser Unit) ts = _ ↔ _
    rw [state_pure_eq_ok]
    simp [eq_comm]

lemma test_iff {f : Token → Bool} {P : Token → Prop} (hf : ∀ t, f t = true ↔ P t)
    {ts rest : List Token} {b : Bool} :
    (peek >>= fun t => pure (f t) : Parser Bool) ts = .ok (b, rest) ↔
      rest = ts ∧ ∃ t ∈ ts.head?, (b = true ↔ P t) := by
  simp only [state_bind_eq_ok, peek_iff, state_pure_eq_ok, ← hf]
  constructor
  · rintro ⟨t, _, ⟨ht, rfl⟩, rfl, rfl⟩
    exact ⟨rfl, t, ht, Iff.rfl⟩
  · rintro ⟨rfl, t, ht, hb⟩
    exact ⟨t, _, ⟨ht, rfl⟩, (Bool.eq_iff_iff.mpr hb).symm, rfl⟩

lemma checkKeyword_iff {keyword : Bytes} {ts rest : List Token} {b : Bool} :
    checkKeyword keyword ts = .ok (b, rest) ↔
      rest = ts ∧ ∃ t ∈ ts.head?, (b = true ↔ IsKeyword keyword t) :=
  test_iff fun t => by simp [IsKeyword]

lemma checkSymbol_iff {symbol : Bytes} {ts rest : List Token} {b : Bool} :
    checkSymbol symbol ts = .ok (b, rest) ↔
      rest = ts ∧ ∃ t ∈ ts.head?, (b = true ↔ IsSymbol symbol t) :=
  test_iff fun t => by simp [IsSymbol]

lemma expect_iff {check : Parser Bool} {P : Token → Prop}
    (hcheck : ∀ {ts rest b}, check ts = .ok (b, rest) ↔
      rest = ts ∧ ∃ t ∈ ts.head?, (b = true ↔ P t)) (what : Token → Bytes)
        {ts rest : List Token}
    {u : Unit} :
    (do
      let found ← check
      let t ← peek
      failUnless found (what t)
      let _ ← advance : Parser Unit) ts = .ok (u, rest) ↔ ∃ t, P t ∧ ts = t :: rest := by
  simp only [state_bind_eq_ok, hcheck, peek_iff, failUnless_iff, advance_iff, state_pure_eq_ok]
  constructor
  · rintro ⟨b, _, ⟨rfl, t, ht, hb⟩, _, _, ⟨-, rfl⟩, _, _, ⟨rfl, rfl⟩,
      t', _, rfl, -, rfl⟩
    cases ht
    exact ⟨t, hb.mp rfl, rfl⟩
  · rintro ⟨t, ht, rfl⟩
    exact ⟨true, _, ⟨rfl, t, rfl, by simp [ht]⟩, t, _, ⟨rfl, rfl⟩, (), _, ⟨rfl, rfl⟩,
      t, _, rfl, trivial, rfl⟩

lemma expectKeyword_iff {keyword : Bytes} {ts rest : List Token} {u : Unit} :
    expectKeyword keyword ts = .ok (u, rest) ↔ ∃ t, IsKeyword keyword t ∧ ts = t :: rest :=
  expect_iff checkKeyword_iff _

lemma expectSymbol_iff {symbol : Bytes} {ts rest : List Token} {u : Unit} :
    expectSymbol symbol ts = .ok (u, rest) ↔ ∃ t, IsSymbol symbol t ∧ ts = t :: rest :=
  expect_iff checkSymbol_iff _

/-- The text of the next token is taken if the token is of the kind that is asked for. -/
lemma take_iff {f : Token → Bool} {P : Token → Prop} (hf : ∀ t, f t = true ↔ P t)
    (what : Token → Bytes) {ts rest : List Token} {v : Bytes} :
    (do
      let t ← peek
      failUnless (f t) (what t)
      let t ← advance
      return t.text : Parser Bytes) ts = .ok (v, rest) ↔
      ∃ t, P t ∧ t.text = v ∧ ts = t :: rest := by
  simp only [state_bind_eq_ok, peek_iff, failUnless_iff, advance_iff, state_pure_eq_ok, hf]
  constructor
  · rintro ⟨t, _, ⟨ht, rfl⟩, _, _, ⟨hP, rfl⟩, t', _, rfl, rfl, rfl⟩
    cases ht
    exact ⟨t, hP, rfl, rfl⟩
  · rintro ⟨t, ht, rfl, rfl⟩
    exact ⟨t, _, ⟨rfl, rfl⟩, (), _, ⟨ht, rfl⟩, t, _, rfl, rfl, rfl⟩

lemma expectIdentifier_iff {ts rest : List Token} {v : Bytes} :
    expectIdentifier ts = .ok (v, rest) ↔ ∃ t, IsIdentifier t ∧
      t.text = v ∧ ts = t :: rest :=
  take_iff (fun t => by simp [IsIdentifier]) _

lemma expectLiteral_iff {ts rest : List Token} {v : Bytes} :
    expectLiteral ts = .ok (v, rest) ↔ ∃ t, IsLiteral t ∧ t.text = v ∧ ts = t :: rest :=
  take_iff (fun t => by simp [IsLiteral]) _

/-- What the parser leaves of these tokens: all but one semicolon in front. -/
def afterSemicolon : List Token → List Token
  | [] => []
  | t :: ts => if IsSymbol (text ";") t then ts else t :: ts

lemma skipSemicolon_iff {ts rest : List Token} {u : Unit} :
    skipSemicolon ts = .ok (u, rest) ↔ ts ≠ [] ∧ rest = afterSemicolon ts := by
  cases ts with
  | nil => simp [skipSemicolon, state_bind_eq_ok, checkSymbol_iff]
  | cons t ts =>
    simp only [skipSemicolon, state_bind_eq_ok, checkSymbol_iff, List.head?_cons,
      Option.mem_some_iff, exists_eq_left', ne_eq, reduceCtorEq, not_false_eq_true, true_and]
    constructor
    · rintro ⟨b, _, ⟨rfl, hb⟩, h⟩
      cases b with
      | false =>
        obtain ⟨-, rfl⟩ := state_pure_eq_ok.mp h
        rw [afterSemicolon, if_neg fun h => Bool.false_ne_true (hb.mpr h)]
      | true =>
        obtain ⟨_, _, htake, h⟩ := state_bind_eq_ok.mp h
        obtain ⟨-, rfl⟩ := state_pure_eq_ok.mp h
        cases advance_iff.mp htake
        rw [afterSemicolon, if_pos (hb.mp rfl)]
    · rintro rfl
      by_cases h : IsSymbol (text ";") t
      · exact ⟨true, _, ⟨rfl, by simp [h]⟩, by rw [afterSemicolon, if_pos h]; rfl⟩
      · exact ⟨false, _, ⟨rfl, by simp [h]⟩, by rw [afterSemicolon, if_neg h]; rfl⟩

section

variable {α : Type} {sep : Token → Prop} {item : Parser α} {L : List Token → α → Prop}

lemma SepBy.length_le (hL : ∀ body a, L body a → body ≠ []) {body : List Token} {as : List α}
    (h : SepBy sep L body as) : as.length ≤ body.length := by
  induction h with
  | one h => exact List.length_pos_iff.mpr (hL _ _ h)
  | more h _ _ ih =>
    have := List.length_pos_iff.mpr (hL _ _ h)
    simp only [List.length_append, List.length_cons]
    omega

lemma SepBy.ne_nil {body : List Token} {as : List α} (h : SepBy sep L body as) : as ≠ [] := by
  cases h <;> simp

lemma sepList_iff {more : Parser Bool} (hmore : ∀ {ts rest b}, more ts = .ok (b, rest) ↔
      rest = ts ∧ ∃ t ∈ ts.head?, (b = true ↔ sep t))
    (hitem : ∀ {ts rest a}, item ts = .ok (a, rest) ↔ ∃ body, L body a ∧ ts = body ++ rest)
    (n : ℕ) {ts rest : List Token} {as : List α} :
    sepList more item n ts = .ok (as, rest) ↔
      ∃ body, SepBy sep L body as ∧ as.length ≤ n ∧ ts = body ++ rest ∧
        Stops sep rest := by
  induction n generalizing ts rest as with
  | zero =>
    refine iff_of_false (fun h => by cases h) ?_
    rintro ⟨body, has, hle, -⟩
    exact has.ne_nil (List.length_eq_zero_iff.mp (Nat.le_zero.mp hle))
  | succ n ih =>
    rw [sepList, state_bind_eq_ok]
    simp only [hitem, state_bind_eq_ok, hmore]
    constructor
    · rintro ⟨a, _, ⟨body, ha, rfl⟩, b, _, ⟨rfl, t, ht, hb⟩, h⟩
      cases b with
      | false =>
        obtain ⟨rfl, rfl⟩ := state_pure_eq_ok.mp h
        exact ⟨body, .one ha, by simp, rfl, t, ht, fun hsep => Bool.false_ne_true (hb.mpr hsep)⟩
      | true =>
        obtain ⟨t', _, htake, h⟩ := state_bind_eq_ok.mp h
        obtain ⟨as', _, htail, h⟩ := state_bind_eq_ok.mp h
        obtain ⟨rfl, rfl⟩ := state_pure_eq_ok.mp h
        cases advance_iff.mp htake
        cases ht
        obtain ⟨body', has', hle, rfl, hstops⟩ := ih.mp htail
        exact ⟨body ++ t :: body', .more ha
          (hb.mp rfl) has', by simpa using hle, by simp, hstops⟩
    · rintro ⟨_, has, hle, rfl, hstops⟩
      cases has with
      | one ha =>
        obtain ⟨t, ht, hsep⟩ := hstops
        exact ⟨_, _, ⟨_, ha, rfl⟩, false, _, ⟨rfl, t, ht, by simp [hsep]⟩, rfl⟩
      | @more body a t body' as' ha ht has' =>
        refine ⟨a, t :: (body' ++ rest), ⟨body, ha, by simp⟩, true, _,
          ⟨rfl, t, rfl, by simp [ht]⟩, ?_⟩
        refine state_bind_eq_ok.mpr ⟨t, body' ++ rest, rfl,
          state_bind_eq_ok.mpr ⟨as', rest, ?_, rfl⟩⟩
        exact ih.mpr ⟨body', has', by simpa using hle, rfl, hstops⟩

lemma loop_iff {more : Parser Bool} (hmore : ∀ {ts rest b}, more ts = .ok (b, rest) ↔
      rest = ts ∧ ∃ t ∈ ts.head?, (b = true ↔ sep t))
    (hitem : ∀ {ts rest a}, item ts = .ok (a, rest) ↔ ∃ body, L body a ∧ ts = body ++ rest)
    (hL : ∀ body a, L body a → body ≠ []) {ts rest : List Token} {as : List α} :
    loop (sepList more item) ts = .ok (as, rest) ↔
      ∃ body, SepBy sep L body as ∧ ts = body ++ rest ∧ Stops sep rest := by
  rw [loop, sepList_iff hmore hitem]
  refine exists_congr fun body => ⟨fun ⟨h, _, hts, hstops⟩ => ⟨h, hts, hstops⟩, ?_⟩
  rintro ⟨h, rfl, hstops⟩
  exact ⟨h, (h.length_le hL).trans (by simp), rfl, hstops⟩

end

/-! ### Productions -/

lemma expectQualifiedTableName_iff {ts rest : List Token} {p : Bytes × Bytes} :
    expectQualifiedTableName ts = .ok (p, rest) ↔ ∃ body, TableName body p ∧
      ts = body ++ rest := by
  simp only [expectQualifiedTableName, state_bind_eq_ok, expectIdentifier_iff, checkSymbol_iff,
    failUnless_iff, advance_iff, state_pure_eq_ok]
  constructor
  · rintro ⟨_, _, ⟨d, hd, rfl, rfl⟩, b, _, ⟨rfl, t, ht, hb⟩, _, _, ⟨rfl, rfl⟩, dot,
      _, rfl, _, _, ⟨n, hn, rfl, rfl⟩, rfl, rfl⟩
    cases ht
    exact ⟨_, .mk hd (hb.mp rfl) hn, rfl⟩
  · rintro ⟨_, ⟨hd, hdot, hn⟩, rfl⟩
    exact ⟨_, _, ⟨_, hd, rfl, rfl⟩, true, _, ⟨rfl, _, rfl, by simp [hdot]⟩, (), _,
      ⟨rfl, rfl⟩, _, _, rfl, _, _, ⟨_, hn, rfl, rfl⟩, rfl, rfl⟩

lemma parseColumnType_iff {ts rest : List Token} {type : ColumnType} :
    parseColumnType ts = .ok (type, rest) ↔ ∃ t, TypeName t type ∧ ts = t :: rest := by
  simp only [parseColumnType, state_bind_eq_ok, expectIdentifier_iff]
  constructor
  · rintro ⟨_, _, ⟨t, ht, rfl, rfl⟩, h⟩
    split_ifs at h with htext hint
    · obtain ⟨rfl, rfl⟩ := state_pure_eq_ok.mp h
      exact ⟨t, .kText ⟨ht, htext⟩, rfl⟩
    · obtain ⟨rfl, rfl⟩ := state_pure_eq_ok.mp h
      exact ⟨t, .kInt ⟨ht, hint⟩, rfl⟩
    · cases h
  · rintro ⟨t, ⟨ht, htext⟩ | ⟨ht, hint⟩, rfl⟩
    · exact ⟨_, _, ⟨t, ht, rfl, rfl⟩, by rw [if_pos htext]; rfl⟩
    · refine ⟨_, _, ⟨t, ht, rfl, rfl⟩, ?_⟩
      rw [if_neg (by rw [hint]; decide), if_pos hint]
      rfl

lemma parseCompareOp_iff {ts rest : List Token} {op : CompareOp} :
    parseCompareOp ts = .ok (op, rest) ↔ ∃ t, IsSymbol (opSymbol op) t ∧ ts = t :: rest := by
  simp only [parseCompareOp, state_bind_eq_ok, peek_iff, failUnless_iff, advance_iff]
  constructor
  · rintro ⟨t, _, ⟨ht, rfl⟩, _, _, ⟨hsym, rfl⟩, t', _, rfl, h⟩
    cases ht
    have hsym : t.type = .kSymbol := by simpa using hsym
    split_ifs at h with h₁ h₂ h₃ h₄ h₅ h₆
    · obtain ⟨rfl, rfl⟩ := state_pure_eq_ok.mp h
      exact ⟨t, ⟨hsym, h₁⟩, rfl⟩
    · obtain ⟨rfl, rfl⟩ := state_pure_eq_ok.mp h
      exact ⟨t, ⟨hsym, h₂⟩, rfl⟩
    · obtain ⟨rfl, rfl⟩ := state_pure_eq_ok.mp h
      exact ⟨t, ⟨hsym, h₃⟩, rfl⟩
    · obtain ⟨rfl, rfl⟩ := state_pure_eq_ok.mp h
      exact ⟨t, ⟨hsym, h₄⟩, rfl⟩
    · obtain ⟨rfl, rfl⟩ := state_pure_eq_ok.mp h
      exact ⟨t, ⟨hsym, h₅⟩, rfl⟩
    · obtain ⟨rfl, rfl⟩ := state_pure_eq_ok.mp h
      exact ⟨t, ⟨hsym, h₆⟩, rfl⟩
    · cases h
  · rintro ⟨t, ⟨hsym, htext⟩, rfl⟩
    refine ⟨t, _, ⟨rfl, rfl⟩, (), _, ⟨by simp [hsym], rfl⟩, t, _, rfl, ?_⟩
    rw [htext]
    cases op <;> rfl

lemma parseCondition_iff {ts rest : List Token} {c : Condition} :
    parseCondition ts = .ok (c, rest) ↔ ∃ body, Comparison body c ∧ ts = body ++ rest := by
  simp only [parseCondition, state_bind_eq_ok, expectIdentifier_iff, parseCompareOp_iff,
    expectLiteral_iff, state_pure_eq_ok]
  constructor
  · rintro ⟨_, _, ⟨n, hn, rfl, rfl⟩, op, _, ⟨o, ho, rfl⟩, _, _,
      ⟨v, hv, rfl, rfl⟩, rfl, rfl⟩
    exact ⟨_, .mk hn ho hv, rfl⟩
  · rintro ⟨_, ⟨hn, ho, hv⟩, rfl⟩
    exact ⟨_, _, ⟨_, hn, rfl, rfl⟩, _, _, ⟨_, ho, rfl⟩, _, _,
      ⟨_, hv, rfl, rfl⟩, rfl, rfl⟩

lemma parseWhereClause_iff {ts rest : List Token} {conds : List Condition} :
    parseWhereClause ts = .ok (conds, rest) ↔
      ∃ body, SepBy (IsKeyword (text "AND")) Comparison body conds ∧ ts = body ++ rest ∧
        Stops (IsKeyword (text "AND")) rest :=
  loop_iff checkKeyword_iff parseCondition_iff (by rintro _ _ ⟨⟩; simp)

lemma parseOptionalWhere_iff {ts rest : List Token} {conds : List Condition} :
    parseOptionalWhere ts = .ok (conds, rest) ↔
      ∃ body, OptWhere body conds ∧ ts = body ++ rest ∧ Stops (WhereGoesOn conds) rest := by
  simp only [parseOptionalWhere, state_bind_eq_ok, checkKeyword_iff]
  constructor
  · rintro ⟨b, _, ⟨rfl, t, ht, hb⟩, h⟩
    cases b with
    | false =>
      obtain ⟨rfl, rfl⟩ := state_pure_eq_ok.mp h
      exact ⟨[], .absent, rfl, t, ht, fun hw => Bool.false_ne_true (hb.mpr hw)⟩
    | true =>
      obtain ⟨w, _, htake, h⟩ := state_bind_eq_ok.mp h
      cases advance_iff.mp htake
      cases ht
      obtain ⟨body, hconds, rfl, hstops⟩ := parseWhereClause_iff.mp h
      refine ⟨t :: body, .chain (hb.mp rfl) hconds, rfl, ?_⟩
      rwa [WhereGoesOn, if_neg hconds.ne_nil]
  · rintro ⟨_, hwhere, rfl, hstops⟩
    cases hwhere with
    | absent =>
      obtain ⟨t, ht, hw⟩ := hstops
      exact ⟨false, _, ⟨rfl, t, ht, by simpa [WhereGoesOn] using hw⟩, rfl⟩
    | @chain w body _ hw hconds =>
      refine ⟨true, _, ⟨rfl, w, rfl, by simp [hw]⟩, ?_⟩
      refine state_bind_eq_ok.mpr ⟨w, body ++ rest, rfl, ?_⟩
      rw [WhereGoesOn, if_neg hconds.ne_nil] at hstops
      exact parseWhereClause_iff.mpr ⟨body, hconds, rfl, hstops⟩

lemma parsePrimaryKey_iff {hasPk pk : Bool} {ts rest : List Token} :
    parsePrimaryKey hasPk ts = .ok (pk, rest) ↔
      (pk = false ∧ rest = ts ∧ Stops (IsKeyword (text "PRIMARY")) ts) ∨
      (pk = true ∧ hasPk = false ∧ ∃ p k, IsKeyword (text "PRIMARY") p ∧
        IsKeyword (text "KEY") k ∧ ts = p :: k :: rest) := by
  simp only [parsePrimaryKey, state_bind_eq_ok, checkKeyword_iff]
  constructor
  · rintro ⟨b, _, ⟨rfl, t, ht, hb⟩, h⟩
    cases b with
    | false =>
      obtain ⟨rfl, rfl⟩ := state_pure_eq_ok.mp h
      exact .inl ⟨rfl, rfl, t, ht, fun hp => Bool.false_ne_true (hb.mpr hp)⟩
    | true =>
      simp only [if_true, state_bind_eq_ok, advance_iff, expectKeyword_iff, failUnless_iff,
        state_pure_eq_ok] at h
      obtain ⟨p, _, rfl, _, _, ⟨k, hk, rfl⟩, _, _, ⟨hpk, rfl⟩, rfl, rfl⟩ := h
      cases ht
      exact .inr ⟨rfl, by simpa using hpk, _, k, hb.mp rfl, hk, rfl⟩
  · rintro (⟨rfl, rfl, t, ht, hp⟩ | ⟨rfl, rfl, p, k, hp, hk, rfl⟩)
    · exact ⟨false, _, ⟨rfl, t, ht, by simpa using hp⟩, rfl⟩
    · refine ⟨true, _, ⟨rfl, p, rfl, by simp [hp]⟩, ?_⟩
      simp only [if_true, state_bind_eq_ok, advance_iff, expectKeyword_iff, failUnless_iff,
        state_pure_eq_ok]
      exact ⟨p, _, rfl, (), _, ⟨k, hk, rfl⟩, (), _, ⟨rfl, rfl⟩, trivial, rfl⟩

lemma parsePrimaryKey_column {hasPk key : Bool} {n t : Token} {type : ColumnType}
    {ts rest : List Token} (hn : IsIdentifier n) (ht : TypeName t type)
    (h : parsePrimaryKey hasPk ts = .ok (key, rest)) :
    ∃ body, Column body ⟨n.text, type, key, none⟩ ∧ n :: t :: ts = body ++ rest ∧
      key.toNat + hasPk.toNat ≤ 1 := by
  rcases parsePrimaryKey_iff.mp h with ⟨rfl, rfl, -⟩ | ⟨rfl, rfl, p, k, hp, hk, rfl⟩
  · exact ⟨_, .plain hn ht, rfl, by cases hasPk <;> simp⟩
  · exact ⟨_, .key hn ht hp hk, rfl, by simp⟩

lemma column_parsePrimaryKey (hasPk : Bool) {body : List Token} (rest : List Token)
    {col : ColumnDef}
    (hcol : Column body col) (hone : col.primaryKey.toNat + hasPk.toNat ≤ 1)
    (hrest : Stops (IsKeyword (text "PRIMARY")) rest) :
    ∃ n t ts, IsIdentifier n ∧ TypeName t col.type ∧ body ++ rest = n :: t :: ts ∧
      parsePrimaryKey hasPk ts = .ok (col.primaryKey, rest) ∧
      col = ⟨n.text, col.type, col.primaryKey, none⟩ := by
  cases hcol with
  | plain hn ht =>
    exact ⟨_, _, _, hn, ht, rfl, parsePrimaryKey_iff.mpr (.inl ⟨rfl, rfl, hrest⟩), rfl⟩
  | key hn ht hp hk =>
    refine ⟨_, _, _, hn, ht, rfl, parsePrimaryKey_iff.mpr
      (.inr ⟨rfl, ?_, _, _, hp, hk, rfl⟩), rfl⟩
    cases hasPk
    · rfl
    · simp at hone

lemma IsSymbol.not_keyword {symbol keyword : Bytes} {t : Token} (h : IsSymbol symbol t) :
    ¬ IsKeyword keyword t := by
  rintro ⟨h', -⟩
  rw [h.1] at h'
  cases h'

lemma IsKeyword.ne {keyword keyword' : Bytes} {t : Token} (h : IsKeyword keyword t)
    (hne : keyword ≠ keyword') : ¬ IsKeyword keyword' t :=
  fun h' => hne (h.2.symm.trans h'.2)

lemma IsSymbol.ne {symbol symbol' : Bytes} {t : Token} (h : IsSymbol symbol t)
    (hne : symbol ≠ symbol') : ¬ IsSymbol symbol' t :=
  fun h' => hne (h.2.symm.trans h'.2)

lemma countP_cons_toNat {α : Type} (p : α → Bool) (a : α) (as : List α) :
    (a :: as).countP p = as.countP p + (p a).toNat := by
  cases h : p a <;> simp [h]

lemma parseColumns_iff (n : ℕ) {hasPk pk : Bool} {ts rest : List Token} {r : Token}
    {cols : List ColumnDef} (hr : IsSymbol (text ")") r) :
    parseColumns n hasPk ts = .ok ((cols, pk), r :: rest) ↔
      ∃ body, SepBy (IsSymbol (text ",")) Column body cols ∧ cols.length ≤ n ∧
        ts = body ++ r :: rest ∧ cols.countP ColumnDef.primaryKey + hasPk.toNat ≤ 1 ∧
        pk = (hasPk || cols.any ColumnDef.primaryKey) := by
  induction n generalizing ts hasPk pk cols with
  | zero =>
    refine iff_of_false (fun h => by cases h) ?_
    rintro ⟨body, hcols, hle, -⟩
    exact hcols.ne_nil (List.length_eq_zero_iff.mp (Nat.le_zero.mp hle))
  | succ n ih =>
    simp only [parseColumns, state_bind_eq_ok, expectIdentifier_iff, parseColumnType_iff,
      checkSymbol_iff]
    constructor
    · rintro ⟨_, _, ⟨name, hname, rfl, rfl⟩, type, _, ⟨t, ht, rfl⟩, key, _, hkey, b, _,
        ⟨rfl, t', ht', hb⟩, h⟩
      obtain ⟨col, hcol, hts, hone⟩ := parsePrimaryKey_column hname ht hkey
      rw [hts]
      cases b with
      | false =>
        obtain ⟨heq, rfl⟩ := state_pure_eq_ok.mp h
        cases heq
        refine ⟨col, .one hcol, by simp, rfl, ?_, by simp⟩
        rw [countP_cons_toNat]
        simpa using hone
      | true =>
        obtain ⟨_, _, htake, h⟩ := state_bind_eq_ok.mp h
        obtain ⟨⟨cols', pk'⟩, _, htail, h⟩ := state_bind_eq_ok.mp h
        obtain ⟨heq, rfl⟩ := state_pure_eq_ok.mp h
        cases heq
        cases advance_iff.mp htake
        cases ht'
        obtain ⟨body, hcols, hle, rfl, hcount, rfl⟩ := ih.mp htail
        refine ⟨col ++ t' :: body, .more hcol (hb.mp rfl) hcols, by simpa using hle, by simp, ?_,
          by simp [Bool.or_assoc]⟩
        rw [countP_cons_toNat]
        cases key <;> cases hasPk <;> simp at hone hcount ⊢ <;> omega
    · rintro ⟨_, hcols, hle, rfl, hcount, rfl⟩
      cases hcols with
      | @one body col hcol =>
        rw [countP_cons_toNat] at hcount
        obtain ⟨name, t, ts, hname, ht, hts, hkey, hcol'⟩ :=
          column_parsePrimaryKey hasPk (r :: rest) hcol
            (by simpa using hcount) ⟨r, rfl, hr.not_keyword⟩
        refine ⟨_, _, ⟨name, hname, rfl, hts⟩, _, _, ⟨t, ht, rfl⟩, _, _, hkey, false, _,
          ⟨rfl, r, rfl, by simp [hr.ne (show text ")" ≠ text "," by decide)]⟩, ?_⟩
        rw [← hcol', List.any_cons, List.any_nil, Bool.or_false]
        rfl
      | @more body col c body' cols' hcol hc hcols' =>
        rw [countP_cons_toNat] at hcount
        obtain ⟨name, t, ts, hname, ht, hts, hkey, hcol'⟩ :=
          column_parsePrimaryKey hasPk (c :: (body' ++ r :: rest)) hcol
            (by omega) ⟨c, rfl, hc.not_keyword⟩
        refine ⟨_, _, ⟨name, hname, rfl, by rw [← hts]; simp⟩, _, _, ⟨t, ht, rfl⟩, _, _,
          hkey, true, _, ⟨rfl, c, rfl, by simp [hc]⟩, ?_⟩
        refine state_bind_eq_ok.mpr ⟨c, body' ++ r :: rest, rfl, ?_⟩
        refine state_bind_eq_ok.mpr ⟨(cols', _), r :: rest,
          ih.mpr ⟨body', hcols', by simpa using hle, rfl, ?_, rfl⟩, ?_⟩
        · cases hk : col.primaryKey <;> cases hasPk <;> simp [hk] at hcount ⊢ <;> omega
        · rw [← hcol', List.any_cons, Bool.or_assoc]
          rfl

/-- The statement stands in front of `tail`, which does not go on with it; `rest` is what is left
behind one semicolon. -/
def Stands (stmt : Statement) (ts rest : List Token) : Prop :=
  ∃ body tail, Derives body stmt ∧ ¬ Shadowed body stmt ∧ ts = body ++ tail ∧
    Stops (GoesOn stmt) tail ∧ rest = afterSemicolon tail

lemma stops_iff_ne_nil {tail : List Token} : Stops (fun _ => False) tail ↔ tail ≠ [] := by
  cases tail <;> simp [Stops]

lemma parseCreateDatabase_iff {ts rest : List Token} {s : CreateDatabaseStatement} :
    parseCreateDatabase ts = .ok (s, rest) ↔ Stands (.createDatabase s) ts rest := by
  simp only [parseCreateDatabase, state_bind_eq_ok, expectKeyword_iff, expectIdentifier_iff,
    skipSemicolon_iff, state_pure_eq_ok]
  constructor
  · rintro ⟨_, _, ⟨t₁, h₁, rfl⟩, _, _, ⟨t₂, h₂, rfl⟩, _, _,
      ⟨n, hn, rfl, rfl⟩, _, _, ⟨htail, rfl⟩, rfl, rfl⟩
    exact ⟨_, _, .createDatabase h₁ h₂ hn, id, rfl, stops_iff_ne_nil.mpr htail, rfl⟩
  · rintro ⟨_, tail, h, -, rfl, hstops, rfl⟩
    cases h with
    | createDatabase h₁ h₂ hn =>
      exact ⟨(), _, ⟨_, h₁, rfl⟩, (), _, ⟨_, h₂, rfl⟩, _, _, ⟨_, hn, rfl, rfl⟩,
        (), _, ⟨stops_iff_ne_nil.mp hstops, rfl⟩, rfl, rfl⟩

lemma parseCreateTable_iff {ts rest : List Token} {s : CreateTableStatement} :
    parseCreateTable ts = .ok (s, rest) ↔ Stands (.createTable s) ts rest := by
  simp only [parseCreateTable, state_bind_eq_ok, expectKeyword_iff, Prod.exists,
    expectQualifiedTableName_iff, expectSymbol_iff, failUnless_iff, skipSemicolon_iff,
    state_pure_eq_ok]
  constructor
  · rintro ⟨_, _, ⟨t₁, h₁, rfl⟩, _, _, ⟨t₂, h₂, rfl⟩, d, n, _,
      ⟨table, htable, rfl⟩, _, _, ⟨l, hl, rfl⟩, cols, pk, _, hcols, _, _, ⟨r, hr, rfl⟩,
      _, _, ⟨rfl, rfl⟩, _, _, ⟨htail, rfl⟩,
      rfl, rfl⟩
    obtain ⟨body, hsep, -, rfl, hcount, hpk⟩ := (parseColumns_iff _ hr).mp hcols
    refine ⟨_, _, .createTable h₁ h₂ htable hl hsep hr ?_, id, by simp,
      stops_iff_ne_nil.mpr htail, rfl⟩
    have hpos : 0 < cols.countP ColumnDef.primaryKey := by
      rw [List.countP_pos_iff, ← List.any_eq_true]
      exact hpk.symm
    exact le_antisymm hcount hpos
  · rintro ⟨_, tail, h, -, rfl, hstops, rfl⟩
    cases h with
    | @createTable t₁ t₂ table d n l body cols r h₁ h₂ htable hl hcols hr hcount =>
      have hle : cols.length ≤ (body ++ r :: tail).length :=
        (hcols.length_le (by rintro _ _ ⟨⟩ <;> simp)).trans (by simp)
      have hany : cols.any ColumnDef.primaryKey = true := by
        rw [List.any_eq_true, ← List.countP_pos_iff]
        omega
      refine ⟨(), _, ⟨_, h₁, rfl⟩, (), _, ⟨_, h₂, rfl⟩, d, n, _,
        ⟨table, htable, ?_⟩, (), _, ⟨l, hl, rfl⟩, cols, true, r :: tail,
        (parseColumns_iff _ hr).mpr ⟨body, hcols, hle, rfl, by simp [hcount], by
          simp [hany]⟩, (), _,
        ⟨r, hr, rfl⟩, (), _, ⟨rfl, rfl⟩, (), _,
          ⟨stops_iff_ne_nil.mp hstops, rfl⟩, rfl, rfl⟩
      simp

lemma parseAlterTable_iff {ts rest : List Token} {s : AlterTableAddColumnStatement} :
    parseAlterTable ts = .ok (s, rest) ↔ Stands (.alterTableAddColumn s) ts rest := by
  simp only [parseAlterTable, state_bind_eq_ok, expectKeyword_iff, Prod.exists,
    expectQualifiedTableName_iff, checkKeyword_iff, expectIdentifier_iff, parseColumnType_iff,
    expectLiteral_iff, skipSemicolon_iff, state_pure_eq_ok]
  constructor
  · rintro ⟨_, _, ⟨t₁, h₁, rfl⟩, _, _, ⟨t₂, h₂, rfl⟩, d, n, _,
      ⟨_, ⟨hd, hdot, hn⟩, rfl⟩, _, _, ⟨a, ha, rfl⟩, b, _, ⟨rfl, t, ht, hb⟩, _, _,
      hword, _, _, ⟨c, hc, rfl, rfl⟩, type, _,
      ⟨t', ht', rfl⟩, _, _, ⟨k, hk, rfl⟩, _, _, ⟨v, hv, rfl, rfl⟩, _, _,
        ⟨htail, rfl⟩, rfl, rfl⟩
    cases b with
    | false =>
      obtain ⟨-, rfl⟩ := state_pure_eq_ok.mp hword
      cases ht
      refine ⟨_, _, .alterTable h₁ h₂ ⟨hd, hdot, hn⟩ ha .absent hc ht' hk hv, ?_, rfl,
        stops_iff_ne_nil.mpr htail, rfl⟩
      rintro ⟨-, _, ⟨⟩, hcolumn⟩
      exact Bool.false_ne_true (hb.mpr hcolumn)
    | true =>
      obtain ⟨_, _, htake, hpure⟩ := state_bind_eq_ok.mp hword
      obtain ⟨-, rfl⟩ := state_pure_eq_ok.mp hpure
      cases advance_iff.mp htake
      cases ht
      exact ⟨_, _, .alterTable h₁ h₂ ⟨hd, hdot, hn⟩ ha (.word (hb.mp rfl)) hc ht' hk hv,
        fun h => absurd h.1 (by simp), rfl, stops_iff_ne_nil.mpr htail, rfl⟩
  · rintro ⟨_, tail, h, hshadow, rfl, hstops, rfl⟩
    cases h with
    | @alterTable t₁ t₂ table d n a word c t type k v h₁ h₂ htable ha hword hc ht hk hv =>
      refine ⟨(), _, ⟨_, h₁, rfl⟩, (), _, ⟨_, h₂, rfl⟩, d, n,
        a :: (word ++ c :: t :: k :: v :: tail),
        ⟨table, htable, by simp⟩, (), _, ⟨a, ha, rfl⟩, ?_⟩
      cases hword with
      | absent =>
        refine ⟨false, _, ⟨rfl, c, rfl, ?_⟩, (), c :: t :: k :: v :: tail, rfl, ?_⟩
        · refine iff_of_false Bool.false_ne_true fun hcolumn => hshadow ?_
          cases htable
          exact ⟨rfl, c, rfl, hcolumn⟩
        · exact ⟨_, _, ⟨c, hc, rfl, rfl⟩, type, _, ⟨t, ht, rfl⟩, (), _, ⟨k, hk, rfl⟩,
            _, _, ⟨v, hv, rfl, rfl⟩, (), _, ⟨stops_iff_ne_nil.mp hstops, rfl⟩, rfl, rfl⟩
      | @word w hw =>
        refine ⟨true, _, ⟨rfl, w, rfl, by simp [hw]⟩, (), c :: t :: k :: v :: tail, rfl, ?_⟩
        exact ⟨_, _, ⟨c, hc, rfl, rfl⟩, type, _, ⟨t, ht, rfl⟩, (), _, ⟨k, hk, rfl⟩, _,
          _, ⟨v, hv, rfl, rfl⟩, (), _, ⟨stops_iff_ne_nil.mp hstops, rfl⟩, rfl, rfl⟩

lemma name_iff {ts rest : List Token} {v : Bytes} :
    expectIdentifier ts = .ok (v, rest) ↔ ∃ body, Name body v ∧ ts = body ++ rest := by
  rw [expectIdentifier_iff]
  constructor
  · rintro ⟨t, ht, rfl, rfl⟩
    exact ⟨[t], .mk ht, rfl⟩
  · rintro ⟨_, ⟨ht⟩, rfl⟩
    exact ⟨_, ht, rfl, rfl⟩

lemma value_iff {ts rest : List Token} {v : Bytes} :
    expectLiteral ts = .ok (v, rest) ↔ ∃ body, Value body v ∧ ts = body ++ rest := by
  rw [expectLiteral_iff]
  constructor
  · rintro ⟨t, ht, rfl, rfl⟩
    exact ⟨[t], .mk ht, rfl⟩
  · rintro ⟨_, ⟨ht⟩, rfl⟩
    exact ⟨_, ht, rfl, rfl⟩

lemma names_iff {ts rest : List Token} {vs : List Bytes} :
    commaList expectIdentifier ts = .ok (vs, rest) ↔
      ∃ body, SepBy (IsSymbol (text ",")) Name body vs ∧ ts = body ++ rest ∧
        Stops (IsSymbol (text ",")) rest :=
  loop_iff checkSymbol_iff name_iff (by rintro _ _ ⟨⟩; simp)

lemma values_iff {ts rest : List Token} {vs : List Bytes} :
    commaList expectLiteral ts = .ok (vs, rest) ↔
      ∃ body, SepBy (IsSymbol (text ",")) Value body vs ∧ ts = body ++ rest ∧
        Stops (IsSymbol (text ",")) rest :=
  loop_iff checkSymbol_iff value_iff (by rintro _ _ ⟨⟩; simp)

lemma stops_symbol {symbol symbol' : Bytes} {t : Token} {ts : List Token} (h : IsSymbol symbol t)
    (hne : symbol ≠ symbol') : Stops (IsSymbol symbol') (t :: ts) := ⟨t, rfl, h.ne hne⟩

lemma stops_keyword {symbol keyword : Bytes} {t : Token} {ts : List Token}
    (h : IsKeyword keyword t) : Stops (IsSymbol symbol) (t :: ts) :=
  ⟨t, rfl, fun hsym => hsym.not_keyword h⟩

lemma parseInsert_iff {ts rest : List Token} {s : InsertStatement} :
    parseInsert ts = .ok (s, rest) ↔ Stands (.insert s) ts rest := by
  simp only [parseInsert, state_bind_eq_ok, expectKeyword_iff, Prod.exists,
    expectQualifiedTableName_iff, expectSymbol_iff, names_iff, values_iff, failUnless_iff,
    skipSemicolon_iff, state_pure_eq_ok]
  constructor
  · rintro ⟨_, _, ⟨t₁, h₁, rfl⟩, _, _, ⟨t₂, h₂, rfl⟩, d, n, _,
      ⟨table, htable, rfl⟩, _, _, ⟨l, hl, rfl⟩, columns, _, ⟨body, hcolumns, rfl, -⟩, _,
      _, ⟨r, hr, rfl⟩, _, _, ⟨v, hv, rfl⟩,
      _, _, ⟨l', hl', rfl⟩, values, _, ⟨body', hvalues, rfl, -⟩, _, _,
        ⟨r', hr', rfl⟩, _, _,
      ⟨hlen, rfl⟩, _, _, ⟨htail, rfl⟩, rfl, rfl⟩
    exact ⟨_, _, .insert h₁ h₂ htable hl hcolumns hr hv hl' hvalues hr' (beq_iff_eq.mp hlen),
      id, by simp, stops_iff_ne_nil.mpr htail, rfl⟩
  · rintro ⟨_, tail, h, -, rfl, hstops, rfl⟩
    cases h with
    | @insert t₁ t₂ table d n l body columns r v l' body' values r' h₁ h₂ htable hl hcolumns
        hr hv hl' hvalues hr' hlen =>
      have hcomma : text ")" ≠ text "," := by decide
      exact ⟨(), _, ⟨_, h₁, rfl⟩, (), _, ⟨_, h₂, rfl⟩, d, n,
        l :: (body ++ r :: v :: l' :: (body' ++ r' :: tail)), ⟨table, htable, by simp⟩, (), _,
        ⟨l, hl, rfl⟩, columns, _, ⟨body, hcolumns, rfl, stops_symbol hr hcomma⟩, (), _,
        ⟨r, hr, rfl⟩, (), _, ⟨v, hv, rfl⟩, (), _, ⟨l', hl', rfl⟩, values, _,
        ⟨body', hvalues, rfl, stops_symbol hr' hcomma⟩, (), _, ⟨r', hr', rfl⟩, (), _,
        ⟨beq_iff_eq.mpr hlen, rfl⟩, (), _, ⟨stops_iff_ne_nil.mp hstops, rfl⟩, rfl, rfl⟩

lemma parseProjection_sound {ts rest : List Token} {columns : List Bytes}
    (h : parseProjection ts = .ok (columns, rest)) :
    ∃ body, Projection body columns ∧ ts = body ++ rest := by
  simp only [parseProjection, state_bind_eq_ok, checkSymbol_iff] at h
  obtain ⟨b, _, ⟨rfl, t, ht, hb⟩, h⟩ := h
  cases b with
  | false =>
    obtain ⟨body, hcolumns, rfl, -⟩ := names_iff.mp h
    exact ⟨body, .names hcolumns, rfl⟩
  | true =>
    obtain ⟨_, _, htake, h⟩ := state_bind_eq_ok.mp h
    obtain ⟨rfl, rfl⟩ := state_pure_eq_ok.mp h
    cases advance_iff.mp htake
    cases ht
    exact ⟨[t], .star (hb.mp rfl), rfl⟩

lemma parseProjection_complete {body rest : List Token} {columns : List Bytes}
    (h : Projection body columns) (hrest : Stops (IsSymbol (text ",")) rest) :
    parseProjection (body ++ rest) = .ok (columns, rest) := by
  simp only [parseProjection, state_bind_eq_ok, checkSymbol_iff]
  cases h with
  | @star t ht => exact ⟨true, _, ⟨rfl, t, rfl, by simp [ht]⟩, rfl⟩
  | names hcolumns =>
    have hhead : ∃ t ∈ (body ++ rest).head?, IsIdentifier t := by
      cases hcolumns with
      | one h => cases h with | mk ht => exact ⟨_, rfl, ht⟩
      | more h _ _ => cases h with | mk ht => exact ⟨_, rfl, ht⟩
    obtain ⟨t, ht, hid⟩ := hhead
    refine ⟨false, _, ⟨rfl, t, ht, ?_⟩, names_iff.mpr ⟨body, hcolumns, rfl, hrest⟩⟩
    refine iff_of_false Bool.false_ne_true fun hsym => ?_
    rw [IsIdentifier, hsym.1] at hid
    cases hid

lemma parseSelect_iff {ts rest : List Token} {s : SelectStatement} :
    parseSelect ts = .ok (s, rest) ↔ Stands (.select s) ts rest := by
  simp only [parseSelect, state_bind_eq_ok, expectKeyword_iff, Prod.exists,
    expectQualifiedTableName_iff, parseOptionalWhere_iff, skipSemicolon_iff, state_pure_eq_ok]
  constructor
  · rintro ⟨_, _, ⟨t₁, h₁, rfl⟩, columns, _, hcolumns, _, _, ⟨f, hf, rfl⟩, d, n, _,
      ⟨table, htable, rfl⟩, conds, _, ⟨tail, hwhere, rfl, hstops⟩, _, _,
      ⟨-, rfl⟩, rfl, rfl⟩
    obtain ⟨body, hbody, rfl⟩ := parseProjection_sound hcolumns
    exact ⟨_, _, .select h₁ hbody hf htable hwhere, id, by simp, hstops, rfl⟩
  · rintro ⟨_, tail, h, -, rfl, hstops, rfl⟩
    cases h with
    | @select t₁ body columns f table d n wh conds h₁ hbody hf htable hwhere =>
      have hne : tail ≠ [] := by
        rintro rfl
        obtain ⟨t, ht, -⟩ := hstops
        cases ht
      exact ⟨(), body ++ f :: (table ++ (wh ++ tail)), ⟨t₁, h₁, by simp⟩, columns, _,
        parseProjection_complete hbody (stops_keyword hf), (), _, ⟨f, hf, rfl⟩, d, n, _,
        ⟨table, htable, rfl⟩, conds, tail, ⟨wh, hwhere, rfl, hstops⟩, (), _,
          ⟨hne, rfl⟩, rfl, rfl⟩

lemma parseAssignment_iff {ts rest : List Token} {a : Bytes × Bytes} :
    parseAssignment ts = .ok (a, rest) ↔ ∃ body, Assignment body a ∧ ts = body ++ rest := by
  simp only [parseAssignment, state_bind_eq_ok, expectIdentifier_iff, expectSymbol_iff,
    expectLiteral_iff, state_pure_eq_ok]
  constructor
  · rintro ⟨_, _, ⟨c, hc, rfl, rfl⟩, _, _, ⟨e, he, rfl⟩, _, _,
      ⟨v, hv, rfl, rfl⟩, rfl, rfl⟩
    exact ⟨_, .mk hc he hv, rfl⟩
  · rintro ⟨_, ⟨hc, he, hv⟩, rfl⟩
    exact ⟨_, _, ⟨_, hc, rfl, rfl⟩, (), _, ⟨_, he, rfl⟩, _, _,
      ⟨_, hv, rfl, rfl⟩, rfl, rfl⟩

lemma Stops.ne_nil {goesOn : Token → Prop} {tail : List Token} (h : Stops goesOn tail) :
    tail ≠ [] := by
  rintro rfl
  obtain ⟨t, ht, -⟩ := h
  cases ht

lemma parseUpdate_iff {ts rest : List Token} {s : UpdateStatement} :
    parseUpdate ts = .ok (s, rest) ↔ Stands (.update s) ts rest := by
  simp only [parseUpdate, state_bind_eq_ok, expectKeyword_iff, Prod.exists, commaList,
    expectQualifiedTableName_iff, parseOptionalWhere_iff, skipSemicolon_iff, state_pure_eq_ok,
    loop_iff checkSymbol_iff parseAssignment_iff (by rintro _ _ ⟨⟩; simp)]
  constructor
  · rintro ⟨_, _, ⟨t₁, h₁, rfl⟩, d, n, _, ⟨table, htable, rfl⟩, _, _,
      ⟨t₂, h₂, rfl⟩, assignments, _, ⟨body, hbody, rfl, hcomma⟩, conds, _,
      ⟨tail, hwhere, rfl, hstops⟩, _, _, ⟨-, rfl⟩, rfl, rfl⟩
    refine ⟨_, _, .update h₁ htable h₂ hbody hwhere, id, by simp, ?_, rfl⟩
    obtain ⟨t, ht, hgoesOn⟩ := hstops
    refine ⟨t, ht, ?_⟩
    rintro (h | ⟨rfl, hsym⟩)
    · exact hgoesOn h
    · cases hwhere with
      | absent =>
        obtain ⟨t', ht', h⟩ := hcomma
        cases Option.mem_unique ht ht'
        exact h hsym
      | chain hw hconds => exact hconds.ne_nil rfl
  · rintro ⟨_, tail, h, -, rfl, hstops, rfl⟩
    cases h with
    | @update t₁ table d n t₂ body assignments wh conds h₁ htable h₂ hbody hwhere =>
      have hne := hstops.ne_nil
      obtain ⟨t, ht, hgoesOn⟩ := hstops
      refine ⟨(), _, ⟨t₁, h₁, rfl⟩, d, n, t₂ :: (body ++ (wh ++ tail)),
        ⟨table, htable, by simp⟩, (),
        _, ⟨t₂, h₂, rfl⟩, assignments, wh ++ tail, ⟨body, hbody, rfl, ?_⟩, conds, tail,
        ⟨wh, hwhere, rfl, t, ht, fun h => hgoesOn (.inl h)⟩, (), _, ⟨hne, rfl⟩, rfl, rfl⟩
      cases hwhere with
      | absent => exact ⟨t, ht, fun h => hgoesOn (.inr ⟨rfl, h⟩)⟩
      | chain hw hconds => exact stops_keyword hw

lemma parseDelete_iff {ts rest : List Token} {s : DeleteStatement} :
    parseDelete ts = .ok (s, rest) ↔ Stands (.delete s) ts rest := by
  simp only [parseDelete, state_bind_eq_ok, expectKeyword_iff, Prod.exists,
    expectQualifiedTableName_iff, parseOptionalWhere_iff, skipSemicolon_iff, state_pure_eq_ok]
  constructor
  · rintro ⟨_, _, ⟨t₁, h₁, rfl⟩, _, _, ⟨f, hf, rfl⟩, d, n, _,
      ⟨table, htable, rfl⟩, conds, _, ⟨tail, hwhere, rfl, hstops⟩, _, _,
      ⟨-, rfl⟩, rfl, rfl⟩
    exact ⟨_, _, .delete h₁ hf htable hwhere, id, by simp, hstops, rfl⟩
  · rintro ⟨_, tail, h, -, rfl, hstops, rfl⟩
    cases h with
    | @delete t₁ f table d n wh conds h₁ hf htable hwhere =>
      exact ⟨(), _, ⟨t₁, h₁, rfl⟩, (), _, ⟨f, hf, rfl⟩, d, n, wh ++ tail,
        ⟨table, htable, by simp⟩, conds, tail, ⟨wh, hwhere, rfl, hstops⟩, (), _,
        ⟨hstops.ne_nil, rfl⟩, rfl, rfl⟩

lemma parseShowTables_iff {ts rest : List Token} {s : ShowTablesStatement} :
    parseShowTables ts = .ok (s, rest) ↔ Stands (.showTables s) ts rest := by
  simp only [parseShowTables, state_bind_eq_ok, expectKeyword_iff, expectIdentifier_iff,
    skipSemicolon_iff, state_pure_eq_ok]
  constructor
  · rintro ⟨_, _, ⟨t₁, h₁, rfl⟩, _, _, ⟨t₂, h₂, rfl⟩, _, _, ⟨f, hf, rfl⟩, _,
      _, ⟨n, hn, rfl, rfl⟩, _, _, ⟨htail, rfl⟩, rfl, rfl⟩
    exact ⟨_, _, .showTables h₁ h₂ hf hn, id, rfl, stops_iff_ne_nil.mpr htail, rfl⟩
  · rintro ⟨_, tail, h, -, rfl, hstops, rfl⟩
    cases h with
    | showTables h₁ h₂ hf hn =>
      exact ⟨(), _, ⟨_, h₁, rfl⟩, (), _, ⟨_, h₂, rfl⟩, (), _, ⟨_, hf, rfl⟩, _, _,
        ⟨_, hn, rfl, rfl⟩, (), _, ⟨hstops.ne_nil, rfl⟩, rfl, rfl⟩

lemma parseShowDatabases_iff {ts rest : List Token} {u : Unit} :
    parseShowDatabases ts = .ok (u, rest) ↔ Stands .showDatabases ts rest := by
  simp only [parseShowDatabases, state_bind_eq_ok, expectKeyword_iff, skipSemicolon_iff]
  constructor
  · rintro ⟨_, _, ⟨t₁, h₁, rfl⟩, _, _, ⟨t₂, h₂, rfl⟩, htail, rfl⟩
    exact ⟨_, _, .showDatabases h₁ h₂, id, rfl, stops_iff_ne_nil.mpr htail, rfl⟩
  · rintro ⟨_, tail, h, -, rfl, hstops, rfl⟩
    cases h with
    | showDatabases h₁ h₂ =>
      exact ⟨(), _, ⟨_, h₁, rfl⟩, (), _, ⟨_, h₂, rfl⟩, hstops.ne_nil, rfl⟩

/-! ### Every statement -/

lemma checkKeyword_cons (keyword : Bytes) (t : Token) (ts : List Token) :
    checkKeyword keyword (t :: ts) = .ok (decide (IsKeyword keyword t), t :: ts) :=
  checkKeyword_iff.mpr ⟨rfl, t, rfl, by simp⟩

lemma secondIs_cons (keyword : Bytes) (t₁ t₂ : Token) (ts : List Token) :
    secondIs keyword (t₁ :: t₂ :: ts) =
      .ok (decide (IsKeyword keyword t₂), t₁ :: t₂ :: ts) := by
  have hb : (t₂.type == .kIdentifier && toUpper t₂.text == keyword) =
      decide (IsKeyword keyword t₂) := by
    rw [Bool.eq_iff_iff, decide_eq_true_iff]
    simp [IsKeyword]
  rw [← hb]
  rfl

lemma firstOf_keyword {ps : List (Bytes × Parser Statement)} {keyword : Bytes}
    {p : Parser Statement} {t : Token} {ts : List Token} (hp : (keyword, p) ∈ ps)
    (hps : (ps.map Prod.fst).Nodup) (ht : IsKeyword keyword t) :
    firstOf ps (t :: ts) = p (t :: ts) := by
  induction ps with
  | nil => cases hp
  | cons q ps ih =>
    obtain ⟨keyword', q⟩ := q
    rw [List.map_cons, List.nodup_cons] at hps
    rw [firstOf, state_bind_of_ok (checkKeyword_cons _ _ _)]
    rcases List.mem_cons.mp hp with heq | hp
    · cases heq
      rw [decide_eq_true ht, if_pos rfl]
    · have hne : ¬ IsKeyword keyword' t := by
        intro h
        refine hps.1 (List.mem_map.mpr ⟨_, hp, ?_⟩)
        exact ht.2.symm.trans h.2
      rw [decide_eq_false hne, if_neg Bool.false_ne_true]
      exact ih hp hps.2

lemma parseStatement_cons {keyword : Bytes} {p : Parser Statement} {t : Token} {ts : List Token}
    (hp : (keyword, p) ∈ productions) (ht : IsKeyword keyword t) :
    parseStatement (t :: ts) = p (t :: ts) :=
  firstOf_keyword hp (by decide) ht

/-- **What the parser accepts**: a statement of the grammar that does not go on with the next
token, whatever that is; only a column named `COLUMN` needs the word in front of it. -/
theorem parseStatement_iff {ts rest : List Token} {stmt : Statement} :
    parseStatement ts = .ok (stmt, rest) ↔ Stands stmt ts rest := by
  constructor
  · intro h
    obtain ⟨p, hp, h⟩ := firstOf_eq_ok h
    simp only [productions, List.mem_cons, List.not_mem_nil, or_false] at hp
    rcases hp with rfl | rfl | rfl | rfl | rfl | rfl | rfl
    · obtain ⟨b, ts', hb, h⟩ := state_bind_eq_ok.mp h
      obtain rfl : ts' = ts := (congrArg Prod.snd (Except.ok.inj hb)).symm
      cases b with
      | false =>
        obtain ⟨s, hs, rfl⟩ := state_map_eq_ok.mp h
        exact parseCreateTable_iff.mp hs
      | true =>
        obtain ⟨s, hs, rfl⟩ := state_map_eq_ok.mp h
        exact parseCreateDatabase_iff.mp hs
    · obtain ⟨s, hs, rfl⟩ := state_map_eq_ok.mp h
      exact parseAlterTable_iff.mp hs
    · obtain ⟨s, hs, rfl⟩ := state_map_eq_ok.mp h
      exact parseInsert_iff.mp hs
    · obtain ⟨s, hs, rfl⟩ := state_map_eq_ok.mp h
      exact parseSelect_iff.mp hs
    · obtain ⟨s, hs, rfl⟩ := state_map_eq_ok.mp h
      exact parseUpdate_iff.mp hs
    · obtain ⟨s, hs, rfl⟩ := state_map_eq_ok.mp h
      exact parseDelete_iff.mp hs
    · obtain ⟨b, ts', hb, h⟩ := state_bind_eq_ok.mp h
      obtain rfl : ts' = ts := (congrArg Prod.snd (Except.ok.inj hb)).symm
      cases b with
      | false =>
        obtain ⟨s, hs, rfl⟩ := state_map_eq_ok.mp h
        exact parseShowTables_iff.mp hs
      | true =>
        obtain ⟨s, hs, rfl⟩ := state_map_eq_ok.mp h
        exact parseShowDatabases_iff.mp hs
  · intro h
    obtain ⟨body, tail, hbody, -, rfl, -⟩ := id h
    cases hbody with
    | createDatabase h₁ h₂ hn =>
      refine (parseStatement_cons (.head _) h₁).trans ?_
      refine (state_bind_of_ok (secondIs_cons _ _ _ _)).trans ?_
      rw [decide_eq_true h₂, if_pos rfl]
      exact state_map_eq_ok.mpr ⟨_, parseCreateDatabase_iff.mpr h, rfl⟩
    | createTable h₁ h₂ _ _ _ _ _ =>
      refine (parseStatement_cons (.head _) h₁).trans ?_
      refine (state_bind_of_ok (secondIs_cons _ _ _ _)).trans ?_
      rw [decide_eq_false (h₂.ne (by decide)), if_neg Bool.false_ne_true]
      exact state_map_eq_ok.mpr ⟨_, parseCreateTable_iff.mpr h, rfl⟩
    | alterTable h₁ =>
      refine (parseStatement_cons (.tail _ (.head _)) h₁).trans ?_
      exact state_map_eq_ok.mpr ⟨_, parseAlterTable_iff.mpr h, rfl⟩
    | insert h₁ =>
      refine (parseStatement_cons (.tail _ (.tail _ (.head _))) h₁).trans ?_
      exact state_map_eq_ok.mpr ⟨_, parseInsert_iff.mpr h, rfl⟩
    | select h₁ =>
      refine (parseStatement_cons (.tail _ (.tail _ (.tail _ (.head _)))) h₁).trans ?_
      exact state_map_eq_ok.mpr ⟨_, parseSelect_iff.mpr h, rfl⟩
    | update h₁ =>
      refine (parseStatement_cons (.tail _ (.tail _ (.tail _ (.tail _ (.head _))))) h₁).trans ?_
      exact state_map_eq_ok.mpr ⟨_, parseUpdate_iff.mpr h, rfl⟩
    | delete h₁ =>
      refine (parseStatement_cons
        (.tail _ (.tail _ (.tail _ (.tail _ (.tail _ (.head _)))))) h₁).trans ?_
      exact state_map_eq_ok.mpr ⟨_, parseDelete_iff.mpr h, rfl⟩
    | showTables h₁ h₂ =>
      refine (parseStatement_cons
        (.tail _ (.tail _ (.tail _ (.tail _ (.tail _ (.tail _ (.head _))))))) h₁).trans ?_
      refine (state_bind_of_ok (secondIs_cons _ _ _ _)).trans ?_
      rw [decide_eq_false (h₂.ne (by decide)), if_neg Bool.false_ne_true]
      exact state_map_eq_ok.mpr ⟨_, parseShowTables_iff.mpr h, rfl⟩
    | showDatabases h₁ h₂ =>
      refine (parseStatement_cons
        (.tail _ (.tail _ (.tail _ (.tail _ (.tail _ (.tail _ (.head _))))))) h₁).trans ?_
      refine (state_bind_of_ok (secondIs_cons _ _ _ _)).trans ?_
      rw [decide_eq_true h₂, if_pos rfl]
      exact state_map_eq_ok.mpr ⟨(), parseShowDatabases_iff.mpr h, rfl⟩

/-! ### Whole texts -/

lemma Final.stops {tail : List Token} (h : Final tail) (stmt : Statement) :
    Stops (GoesOn stmt) tail := by
  have hwhere : ∀ {t : Token} (conds : List Condition), t.type ≠ .kIdentifier →
      ¬ WhereGoesOn conds t := by
    intro t conds ht h
    unfold WhereGoesOn at h
    split_ifs at h
    · exact ht h.1
    · exact ht h.1
  have hhead : ∃ t ∈ tail.head?, t.type ≠ .kIdentifier ∧ ¬ IsSymbol (text ",") t := by
    cases h with
    | stop he => exact ⟨_, rfl, by rw [he]; simp, fun h => by rw [h.1] at he; cases he⟩
    | semicolon hs he => exact ⟨_, rfl, by rw [hs.1]; simp, hs.ne (by decide)⟩
  obtain ⟨t, ht, hid, hcomma⟩ := hhead
  refine ⟨t, ht, ?_⟩
  cases stmt with
  | select s => exact hwhere _ hid
  | delete s => exact hwhere _ hid
  | update s => exact fun h => h.elim (hwhere _ hid) fun h => hcomma h.2
  | _ => exact id

lemma final_of_afterSemicolon {tail tail' : List Token} (h : Final tail') (hne : tail ≠ [])
    (heq : afterSemicolon tail = afterSemicolon tail') : Final tail := by
  obtain ⟨e, he, hrest⟩ : ∃ e, e.type = .kEnd ∧ afterSemicolon tail' = [e] := by
    cases h with
    | @stop e he =>
      have hsym : ¬ IsSymbol (text ";") e := fun h => by rw [h.1] at he; cases he
      exact ⟨e, he, if_neg hsym⟩
    | @semicolon s e hs he => exact ⟨e, he, if_pos hs⟩
  rw [hrest] at heq
  cases tail with
  | nil => exact absurd rfl hne
  | cons t ts =>
    rw [afterSemicolon] at heq
    split_ifs at heq with ht
    · rw [heq]
      exact .semicolon ht he
    · cases heq
      exact .stop he

lemma shadowed_fails {body tail : List Token} {stmt : Statement} (hbody : Derives body stmt)
    (hshadow : Shadowed body stmt) {stmt' : Statement} {rest : List Token} :
    ¬ Stands stmt' (body ++ tail) rest := by
  intro hstands
  cases hbody with
  | @alterTable t₁ t₂ table d n a word c t type k v h₁ h₂ htable ha hword hc ht hk hv =>
    have hparse := parseStatement_iff.mpr hstands
    rw [List.cons_append, parseStatement_cons (.tail _ (.head _)) h₁] at hparse
    obtain ⟨s', -, rfl⟩ := state_map_eq_ok.mp hparse
    obtain ⟨body', tail', hbody', hshadow', heq, -⟩ := hstands
    obtain ⟨hlen, c', hc', hcolumn⟩ := hshadow
    cases htable with
    | @mk x dot y hx hdot hy =>
      cases hword with
      | word hw => exact absurd hlen (by simp)
      | absent =>
        cases hc'
        cases hbody' with
        | alterTable h₁' h₂' htable' ha' hword' hc' ht' hk' hv' =>
          cases htable' with
          | mk hx' hdot' hy' =>
            cases hword' with
            | absent =>
              simp only [List.cons_append, List.nil_append, List.cons.injEq] at heq
              refine hshadow' ⟨rfl, _, rfl, ?_⟩
              rw [← heq.2.2.2.2.2.2.1]
              exact hcolumn
            | word hw' =>
              -- the type would be the word DEFAULT
              simp only [List.cons_append, List.nil_append, List.cons.injEq] at heq
              rw [← heq.2.2.2.2.2.2.2.2.1] at ht'
              cases ht' with
              | kText ht' => exact hk.ne (by decide) ht'
              | kInt ht' => exact hk.ne (by decide) ht'
  | _ => exact hshadow

/-- The text is read as the grammar says: it is a statement exactly when all of its tokens are,
up to the end, and then the one that is returned. -/
def ReadsGrammar (sql : Bytes) : Prop :=
  ∀ stmt, parse sql = .ok stmt ↔ ∃ body tail, tokenize sql = .ok (body ++ tail) ∧
    Derives body stmt ∧ Final tail

lemma parse_iff {sql : Bytes} {stmt : Statement} :
    parse sql = .ok stmt ↔ ∃ tokens rest, tokenize sql = .ok tokens ∧
      Stands stmt tokens rest := by
  unfold parse
  rw [bind_eq_ok]
  simp only [← parseStatement_iff]
  constructor
  · rintro ⟨tokens, htokens, h⟩
    rcases hstmt : parseStatement tokens with e | ⟨stmt', rest⟩
    · rw [hstmt] at h
      cases h
    · rw [hstmt] at h
      cases h
      exact ⟨tokens, rest, htokens, hstmt⟩
  · rintro ⟨tokens, rest, htokens, h⟩
    exact ⟨tokens, htokens, by rw [h]; rfl⟩

/-- **When a text is read as the grammar says**: every statement that stands in front of it, and
does not go on with the token behind it, is followed by the end of the text, unless the statement
calls a new column `COLUMN` without that word in front of it; then it is followed by more. -/
theorem readsGrammar_iff (sql : Bytes) :
    ReadsGrammar sql ↔ ∀ body tail stmt, tokenize sql = .ok (body ++ tail) →
      Derives body stmt → Stops (GoesOn stmt) tail →
        (Final tail ↔ ¬ Shadowed body stmt) := by
  constructor
  · intro h body tail stmt htokens hbody hstops
    constructor
    · intro hfinal hshadow
      obtain ⟨tokens, rest, htokens', hstands⟩ :=
        parse_iff.mp ((h stmt).mpr ⟨body, tail, htokens, hbody, hfinal⟩)
      obtain rfl : tokens = body ++ tail := Except.ok.inj (htokens'.symm.trans htokens)
      exact shadowed_fails hbody hshadow hstands
    · intro hshadow
      have hstands : Stands stmt (body ++ tail) (afterSemicolon tail) :=
        ⟨body, tail, hbody, hshadow, rfl, hstops, rfl⟩
      obtain ⟨body', tail', htokens', hbody', hfinal⟩ :=
        (h stmt).mp (parse_iff.mpr ⟨_, _, htokens, hstands⟩)
      have heq : body ++ tail = body' ++ tail' := Except.ok.inj (htokens.symm.trans htokens')
      have hshadow' : ¬ Shadowed body' stmt := fun hs =>
        shadowed_fails hbody' hs (heq ▸ hstands)
      -- the parser leaves the same tokens behind both
      have hrest := parseStatement_iff.mpr hstands
      have hrest' := parseStatement_iff.mpr
        ⟨body', tail', hbody', hshadow', heq, hfinal.stops stmt, rfl⟩
      rw [hrest] at hrest'
      exact final_of_afterSemicolon hfinal hstops.ne_nil (congrArg Prod.snd (Except.ok.inj hrest'))
  · intro h stmt
    rw [parse_iff]
    constructor
    · rintro ⟨tokens, rest, htokens, body, tail, hbody, hshadow, rfl, hstops, -⟩
      exact ⟨body, tail, htokens, hbody, (h body tail stmt htokens hbody hstops).mpr hshadow⟩
    · rintro ⟨body, tail, htokens, hbody, hfinal⟩
      have hstops := hfinal.stops stmt
      exact ⟨_, _, htokens, body, tail, hbody,
        (h body tail stmt htokens hbody hstops).mp hfinal, rfl, hstops, rfl⟩

lemma TableName.length {body : List Token} {p : Bytes × Bytes} (h : TableName body p) :
    body.length = 3 := by
  cases h
  rfl

lemma delete_length {body : List Token} {s : DeleteStatement} (h : Derives body (.delete s))
    (hs : s.whereClause = []) : body.length = 5 := by
  cases h with
  | delete h₁ hf htable hwhere =>
    cases hwhere with
    | absent => simp [htable.length]
    | chain _ hconds => exact absurd hs hconds.ne_nil

/-- **The rest of a text is dropped**: a misspelt `WHERE` deletes every row. -/
theorem drops_the_rest : ¬ ∀ sql, ReadsGrammar sql := by
  intro hall
  have hparse : parse (text "DELETE FROM d.t WHRE k = 'a'") =
      .ok (.delete ⟨text "d", text "t", []⟩) := by decide +kernel
  obtain ⟨body, tail, htokens, hbody, hfinal⟩ := (hall _ _).mp hparse
  have hlen : (tokenize (text "DELETE FROM d.t WHRE k = 'a'")).toOption.map List.length =
      some 10 := by decide +kernel
  have hbody : body.length = 5 := delete_length hbody rfl
  have htail : tail.length ≤ 2 := by cases hfinal <;> simp
  rw [htokens] at hlen
  have hsum : (body ++ tail).length = 10 := Option.some.inj hlen
  rw [List.length_append] at hsum
  omega

end DistDB.SqlGrammar
