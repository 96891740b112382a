import Mathlib.Data.List.Flatten
import Mathlib.Data.List.TakeWhile
import DistDB.Lines
import DistDB.SqlFrame
import DistDB.SqlReapply
import DistDB.SqlRouting

/-!
A `SELECT` that is sent to every shard, from `raft_main.cpp`: the results are read by lines and put
together again (`MergeSelectResults`).

The merge takes a line `(0 rows)` for the mark of an empty result and leaves out what
`std::getline` does, so a row whose text holds such a line is lost, and so is an empty line at the
end of a shard's result (`marker_row_lost`). Exactly without these rows the merged result is the
one of a single store (`gathered_iff`).
-/

namespace DistDB.SqlScatter

open Lines SqlLexer SqlParser SqlGrammar SqlTexts SqlExecutor SqlRuns SqlAtomic SqlStore SqlFrame
open SqlRouting WalModel EngineMap EngineInv OrdMap Checks Codec Bytes TxnSystem SqlReapply

def newline : UInt8 := chr '\n'

def noRowsLine : Bytes := text "(0 rows)"

/-- The first line of the last result that has one. -/
def mergedHeader (shardResults : List Bytes) : Bytes :=
  shardResults.foldl (fun header result => ((getlines newline result).head?).getD header) []

def dataLines (shardResults : List Bytes) : List Bytes :=
  shardResults.flatMap fun result =>
    (getlines newline result).tail.filter fun line => line ≠ noRowsLine

def mergeSelectResults (shardResults : List Bytes) : Bytes :=
  mergedHeader shardResults ++ joined newline (dataLines shardResults) ++
    if dataLines shardResults = [] then noRows else []

/-! ### What it loses -/

/-- A result with its rows. -/
def render (header : Bytes) (rows : List Bytes) : Bytes :=
  header ++ joined newline rows ++ if rows = [] then noRows else []

/-- No line of a row is `(0 rows)`, and no result ends with an empty line; or all that there is is
one row `(0 rows)`. -/
def Mergeable (blocks : List (List Bytes)) : Prop :=
  blocks.flatten = [noRowsLine] ∨
    ∀ rows ∈ blocks, (∀ row ∈ rows, noRowsLine ∉ getlines newline row) ∧
      ∀ row ∈ rows.getLast?, EndsOpen newline row

/-- The lines of a shard's result that the merge keeps. -/
def keptLines (rows : List Bytes) : List Bytes :=
  (rows.dropLast.flatMap (parts newline) ++ (rows.getLast?.elim [] (getlines newline))).filter
    fun line => line ≠ noRowsLine

lemma noRows_eq : noRows = newline :: noRowsLine := by decide

section

variable {header : Bytes}

lemma getlines_header (hheader : newline ∉ header) (rest : Bytes) :
    getlines newline (header ++ newline :: rest) = header :: getlines newline rest := by
  rw [getlines_append, parts_of_not_mem hheader]
  rfl

lemma getlines_joined {rows : List Bytes} (hrows : rows ≠ []) (hheader : newline ∉ header) :
    getlines newline (header ++ joined newline rows) =
      header :: (rows.dropLast.flatMap (parts newline) ++
        rows.getLast?.elim [] (getlines newline)) := by
  induction rows generalizing header with
  | nil => exact absurd rfl hrows
  | cons row rows ih =>
    rw [joined, List.flatMap_cons, List.cons_append, getlines_header hheader]
    congr 1
    cases rows with
    | nil => simp
    | cons row' rows =>
      rw [List.flatMap_cons, List.cons_append, getlines_append, List.dropLast_cons_cons,
        List.flatMap_cons, List.append_assoc]
      congr 1
      have hrest := @ih [] (List.cons_ne_nil _ _) List.not_mem_nil
      rw [List.nil_append, joined, List.flatMap_cons, List.cons_append, getlines,
        if_pos rfl] at hrest
      rw [(List.cons.inj hrest).2, List.getLast?_cons_cons]

lemma getlines_render (hheader : newline ∉ header) (rows : List Bytes) :
    (getlines newline (render header rows)).head? = some header ∧
      ((getlines newline (render header rows)).tail.filter fun line => line ≠ noRowsLine) =
        keptLines rows := by
  by_cases hrows : rows = []
  · subst hrows
    rw [render, joined, List.flatMap_nil, if_pos rfl, List.append_nil, noRows_eq,
      getlines_header hheader]
    exact ⟨rfl, by rw [List.tail_cons]; decide⟩
  · rw [render, if_neg hrows, List.append_nil, getlines_joined hrows hheader]
    exact ⟨rfl, rfl⟩

lemma mergedHeader_render (hheader : newline ∉ header) {blocks : List (List Bytes)}
    (hblocks : blocks ≠ []) : mergedHeader (blocks.map (render header)) = header := by
  have hlast : ∀ (blocks : List (List Bytes)) (start : Bytes),
      (blocks.map (render header)).foldl
        (fun header result => ((getlines newline result).head?).getD header) start =
      if blocks = [] then start else header := by
    intro blocks
    induction blocks with
    | nil => exact fun _ => rfl
    | cons rows blocks ih =>
      intro start
      rw [List.map_cons, List.foldl_cons, ih, (getlines_render hheader rows).1,
        if_neg (List.cons_ne_nil _ _)]
      split_ifs <;> rfl
  exact (hlast blocks []).trans (if_neg hblocks)

lemma dataLines_render (hheader : newline ∉ header) (blocks : List (List Bytes)) :
    dataLines (blocks.map (render header)) = blocks.flatMap keptLines := by
  rw [dataLines, List.flatMap_map]
  exact List.flatMap_congr fun rows _ => (getlines_render hheader rows).2

end

/-- All lines of the rows. -/
def allLines (rows : List Bytes) : List Bytes := rows.flatMap (parts newline)

lemma not_mem_allLines {rows : List Bytes} : ∀ line ∈ allLines rows, newline ∉ line := by
  intro line hline
  obtain ⟨row, -, hline⟩ := List.mem_flatMap.mp hline
  exact not_mem_parts hline

lemma noRowsLine_mem_parts {row : Bytes} :
    noRowsLine ∈ parts newline row ↔ noRowsLine ∈ getlines newline row := by
  rcases parts_eq newline row with ⟨-, h⟩ | ⟨-, h⟩
  · rw [h]
  · rw [h, List.mem_append, List.mem_singleton]
    exact or_iff_left (by decide)

lemma allLines_split {rows : List Bytes} {last : Bytes} (h : rows.getLast? = some last) :
    allLines rows = rows.dropLast.flatMap (parts newline) ++ parts newline last := by
  obtain ⟨init, rfl⟩ := List.getLast?_eq_some_iff.mp h
  rw [allLines, List.flatMap_append, List.dropLast_concat]
  simp

lemma keptLines_split {rows : List Bytes} {last : Bytes} (h : rows.getLast? = some last) :
    keptLines rows = (rows.dropLast.flatMap (parts newline) ++ getlines newline last).filter
      fun line => line ≠ noRowsLine := by
  rw [keptLines, h]
  rfl

lemma keptLines_sublist (rows : List Bytes) : (keptLines rows).Sublist (allLines rows) := by
  cases h : rows.getLast? with
  | none =>
    rw [List.getLast?_eq_none_iff.mp h]
    exact List.nil_sublist _
  | some last =>
    rw [keptLines_split h, allLines_split h]
    refine List.filter_sublist.trans (List.Sublist.append_left ?_ _)
    rcases parts_eq newline last with ⟨-, hp⟩ | ⟨-, hp⟩
    · rw [hp]
    · rw [hp]
      exact List.sublist_append_left _ _

lemma keptLines_eq {rows : List Bytes} : keptLines rows = allLines rows ↔
    (∀ row ∈ rows, noRowsLine ∉ getlines newline row) ∧
      ∀ row ∈ rows.getLast?, EndsOpen newline row := by
  cases h : rows.getLast? with
  | none =>
    rw [List.getLast?_eq_none_iff.mp h]
    exact iff_of_true rfl ⟨nofun, nofun⟩
  | some last =>
    have hlines : (∀ row ∈ rows, noRowsLine ∉ getlines newline row) ↔
      noRowsLine ∉ allLines rows := by
      rw [allLines, List.mem_flatMap]
      simp only [noRowsLine_mem_parts, not_exists, not_and]
    rw [hlines]
    simp only [Option.mem_def, Option.some.injEq, forall_eq']
    have hsub := keptLines_sublist rows
    rw [keptLines_split h] at hsub ⊢
    rw [allLines_split h]
    constructor
    · intro heq
      have hnot : noRowsLine ∉ rows.dropLast.flatMap (parts newline) ++ parts newline last := by
        rw [← heq, List.mem_filter]
        simp
      refine ⟨hnot, ?_⟩
      rcases parts_eq newline last with ⟨hopen, -⟩ | ⟨-, hp⟩
      · exact hopen
      · have hlen := congrArg List.length heq
        have hle := (List.filter_sublist (p := fun line => decide (line ≠ noRowsLine))
          (l := rows.dropLast.flatMap (parts newline) ++ getlines newline last)).length_le
        rw [hlen, hp, List.length_append, List.length_append, List.length_append,
          List.length_singleton] at hle
        omega
    · rintro ⟨hnot, hopen⟩
      rcases parts_eq newline last with ⟨-, hp⟩ | ⟨hclosed, -⟩
      · rw [← hp]
        refine List.filter_eq_self.mpr fun line hline => ?_
        rw [decide_eq_true_eq]
        rintro rfl
        exact hnot hline
      · exact absurd hopen hclosed

lemma flatMap_eq_of_sublist {α β : Type} {f g : α → List β}
    (hsub : ∀ a, (f a).Sublist (g a)) {as : List α} : as.flatMap f = as.flatMap g ↔
    ∀ a ∈ as, f a = g a := by
  refine ⟨fun h => ?_, List.flatMap_congr⟩
  induction as with
  | nil => exact nofun
  | cons a as ih =>
    rw [List.flatMap_cons, List.flatMap_cons] at h
    have hlen := congrArg List.length h
    rw [List.length_append, List.length_append] at hlen
    have ha := (hsub a).length_le
    have has : (as.flatMap f).length ≤ (as.flatMap g).length := by
      rw [List.length_flatMap, List.length_flatMap]
      exact List.sum_le_sum fun a _ => (hsub a).length_le
    obtain ⟨hhead, htail⟩ := List.append_inj h (by omega)
    exact List.forall_mem_cons.mpr ⟨hhead, ih htail⟩

lemma allLines_eq_noRowsLine {rows : List Bytes} :
    allLines rows = [noRowsLine] ↔ rows = [noRowsLine] := by
  constructor
  · intro h
    have hjoined : joined newline rows = joined newline [noRowsLine] := by
      rw [← joined_flatMap_parts rows, ← h]
      rfl
    cases rows with
    | nil => cases h
    | cons row rows =>
      rw [allLines, List.flatMap_cons] at h
      have hrest : rows = [] := by
        cases rows with
        | nil => rfl
        | cons row' rows =>
          have hlen := congrArg List.length h
          have hfirst := List.length_pos_of_ne_nil (parts_ne_nil newline row)
          have hsecond := List.length_pos_of_ne_nil (parts_ne_nil newline row')
          simp only [List.flatMap_cons, List.length_append, List.length_singleton] at hlen
          omega
      subst hrest
      simp only [joined, List.flatMap_cons, List.flatMap_nil, List.append_nil, List.cons.injEq,
        true_and] at hjoined
      rw [hjoined]
  · rintro rfl
    decide

/-- **What merging gives**: the result of all rows, exactly when no line of it is lost. -/
theorem merge_render {header : Bytes} (hheader : newline ∉ header) {blocks : List (List Bytes)}
    (hblocks : blocks ≠ []) :
    mergeSelectResults (blocks.map (render header)) = render header blocks.flatten ↔
      Mergeable blocks := by
  have hall : allLines blocks.flatten = blocks.flatMap allLines := by
    rw [allLines, ← List.flatMap_id, List.flatMap_assoc]
    rfl
  have hsub : (blocks.flatMap keptLines).Sublist (allLines blocks.flatten) := by
    rw [hall]
    exact List.Sublist.flatMap_right _ fun rows _ => keptLines_sublist rows
  have hkept : blocks.flatMap keptLines = allLines blocks.flatten ↔
      ∀ rows ∈ blocks, (∀ row ∈ rows, noRowsLine ∉ getlines newline row) ∧
        ∀ row ∈ rows.getLast?, EndsOpen newline row := by
    rw [hall, flatMap_eq_of_sublist keptLines_sublist]
    simp only [keptLines_eq]
  have hempty : blocks.flatten = [] ↔ allLines blocks.flatten = [] := by
    constructor
    · intro h
      rw [h]
      rfl
    · intro h
      refine List.eq_nil_iff_forall_not_mem.mpr fun row hrow => parts_ne_nil newline row ?_
      exact List.flatMap_eq_nil_iff.mp h row hrow
  rw [mergeSelectResults, mergedHeader_render hheader hblocks, dataLines_render hheader, render,
    List.append_assoc, List.append_assoc, List.append_cancel_left_eq, Mergeable, ← hkept,
    ← allLines_eq_noRowsLine, ← joined_flatMap_parts blocks.flatten]
  rw [← allLines]
  simp only [hempty]
  -- what is left knows of the kept lines only that they are some of all the lines
  generalize blocks.flatMap keptLines = kept at hsub
  have hfree : ∀ line ∈ allLines blocks.flatten, newline ∉ line := not_mem_allLines
  generalize allLines blocks.flatten = lines at hsub hfree
  by_cases hlines : lines = []
  · subst hlines
    obtain rfl := List.sublist_nil.mp hsub
    exact iff_of_true rfl (.inr rfl)
  rw [if_neg hlines, List.append_nil]
  by_cases hnone : kept = []
  · subst hnone
    rw [if_pos rfl, noRows_eq]
    have hone : (joined newline [] ++ newline :: noRowsLine = joined newline lines) ↔
        joined newline [noRowsLine] = joined newline lines := Iff.rfl
    rw [hone]
    refine ⟨fun h => .inl ?_, ?_⟩
    · have hlen : 1 = lines.length := by
        rw [← count_joined hfree, ← h]
        rfl
      obtain ⟨line, rfl⟩ := List.length_eq_one_iff.mp hlen.symm
      rw [List.singleton_inj]
      simpa [joined] using h.symm
    · rintro (rfl | rfl)
      · rfl
      · exact absurd rfl hlines
  · rw [if_neg hnone, List.append_nil]
    refine ⟨fun h => .inr (eq_of_joined hsub hfree h), ?_⟩
    rintro (rfl | rfl)
    · rcases List.sublist_singleton.mp hsub with rfl | rfl
      · exact absurd rfl hnone
      · rfl
    · rfl

/-! ### Names of columns -/

lemma not_newline {s : Bytes} (h : IsName s) : newline ∉ s := fun hmem =>
  absurd (h _ hmem) (by decide)

def NamedColumns (schema : TableSchema) : Prop := ∀ c ∈ schema.columns, IsName c.name

/-- The columns of every stored schema have names. -/
def NamedSchemas (store : Store) : Prop :=
  ∀ d t schema, loadSchema store d t = .ok schema → NamedColumns schema

/-- What is known of the columns that a statement in a text of `n` bytes names. -/
def ColumnsFit (n : ℕ) : Statement → Prop
  | .createTable s => ∀ c ∈ s.columns, IsName c.name ∧ c.name.length ≤ n ∧
      c.defaultValue = none
  | .alterTableAddColumn s => IsName s.column.name
  | .select s => ∀ c ∈ s.columns, IsName c
  | _ => True

lemma Column.fits {n : ℕ} {body : List Token} {c : ColumnDef} (h : Column body c)
    (hfits : ∀ t ∈ body, TokenFits n t.type t.text) :
    IsName c.name ∧ c.name.length ≤ n ∧ c.defaultValue = none := by
  cases h with
  | plain hname | key hname =>
    have hname' := hfits _ List.mem_cons_self
    exact ⟨hname'.1 hname, hname'.2, rfl⟩

lemma parse_columns {sql : Bytes} {stmt : Statement} (h : parse sql = .ok stmt) :
    ColumnsFit sql.length stmt := by
  obtain ⟨tokens, rest, htokens, body, tail, hbody, -, rfl, -, -⟩ := parse_iff.mp h
  have hfits : ∀ t ∈ body, TokenFits sql.length t.type t.text := fun t ht =>
    tokenize_fits htokens t (List.mem_append_left _ ht)
  cases hbody with
  | createTable _ _ _ _ hcolumns =>
    exact SepBy.forall hcolumns (fun t ht => hfits t (by simp [ht])) fun _ _ => Column.fits
  | alterTable _ _ _ _ _ hname => exact (hfits _ (by simp)).1 hname
  | select _ hprojection =>
    cases hprojection with
    | star => exact nofun
    | names hnames =>
      refine SepBy.forall hnames (fun t ht => hfits t (by simp [ht])) fun _ _ hname hfits => ?_
      cases hname with
      | mk hident => exact (hfits _ List.mem_cons_self).1 hident
  | _ => trivial


section

variable {store : Store}

lemma NamedSchemas.put (h : NamedSchemas store) {key blob : Bytes}
    (hblob : ∀ schema, TableSchema.deserialize blob = .ok schema → NamedColumns schema) :
    NamedSchemas (applyTo store (.put key blob)) := by
  intro d t schema hschema
  by_cases hkey : schemaKey d t = key
  · subst hkey
    rw [loadSchema, find_put] at hschema
    exact hblob schema hschema
  · refine h d t schema ?_
    rw [← hschema]
    refine (loadSchema_congr ?_).symm
    exact (find_applyTo _ _ _).trans (if_neg hkey)

lemma schemas_kept {stmt : Statement} (hcreate : ∀ s, stmt ≠ .createTable s)
    (halter : ∀ s, stmt ≠ .alterTableAddColumn s) {mu : Mutation}
    (hmu : mu ∈ (executeStatement store stmt).1) (d t : Bytes) :
    mu.record.key ≠ schemaKey d t := by
  have hrow : ∀ {d' t' whereClause}, tableOf stmt = some (d', t', whereClause) →
      mu.record.key ≠ schemaKey d t := by
    intro d' t' whereClause hstmt
    obtain ⟨kr, hkr, hkey⟩ := executeStatement_writes hstmt hmu
    obtain ⟨-, -, -, hin, -⟩ := mem_matching.mp hkr
    exact hkey ▸ rowPrefix_ne_schemaKey hin
  cases stmt with
  | createTable s => exact absurd rfl (hcreate s)
  | alterTableAddColumn s => exact absurd rfl (halter s)
  | select s | update s | delete s => exact hrow rfl
  | showTables s | showDatabases => cases hmu
  | createDatabase s =>
    simp only [executeStatement, executeCreateDatabase, Effect.ofWrite] at hmu
    split at hmu
    · cases hmu
    · rename_i mu' out hr
      obtain ⟨_, -, hr⟩ := bind_eq_ok.mp hr
      cases hr
      cases List.mem_singleton.mp hmu
      exact (schemaKey_ne_databaseKey d t s.name).symm
  | insert s =>
    simp only [executeStatement, executeInsert, Effect.ofWrite] at hmu
    split at hmu
    · cases hmu
    · rename_i mu' out hr
      obtain ⟨_, -, hr⟩ := bind_eq_ok.mp hr
      obtain ⟨_, -, hr⟩ := bind_eq_ok.mp hr
      obtain ⟨_, -, hr⟩ := bind_eq_ok.mp hr
      cases hr
      cases List.mem_singleton.mp hmu
      exact rowPrefix_ne_schemaKey (prefix_rowKey _ _ _)

lemma many_isPrefix {r : Reader Exception ColumnDef} {enc : ColumnDef → Bytes}
    {as bs : List ColumnDef} {n : ℕ} {t t' : Bytes}
    (h : ∀ a ∈ as, ∀ t, r (enc a ++ t) = .ok (a, t)) (hn : n ≤ as.length)
    (hmany : many r n (as.flatMap enc ++ t) = .ok (bs, t')) : bs <+: as := by
  induction as generalizing n bs with
  | nil =>
    obtain rfl := Nat.le_zero.mp hn
    cases hmany
    exact List.prefix_rfl
  | cons a as ih =>
    cases n with
    | zero =>
      cases hmany
      exact List.nil_prefix
    | succ n =>
      obtain ⟨ha, has⟩ := List.forall_mem_cons.mp h
      rw [List.flatMap_cons, List.append_assoc, many, state_bind_of_ok (ha _)] at hmany
      obtain ⟨bs', _, hbs, hmany⟩ := state_bind_eq_ok.mp hmany
      obtain ⟨rfl, rfl⟩ := state_pure_eq_ok.mp hmany
      exact List.cons_prefix_cons.mpr ⟨rfl, ih has (Nat.le_of_succ_le_succ hn) hbs⟩

/-- What is read back of a schema are columns of it, also when their number does not fit. -/
lemma deserialize_isPrefix {schema schema' : TableSchema}
    (hsmall : ∀ c ∈ schema.columns, SmallColumn c)
    (h : TableSchema.deserialize schema.serialize = .ok schema') :
    schema'.columns <+: schema.columns := by
  obtain ⟨columns, hcolumns, h⟩ := bind_eq_ok.mp h
  obtain ⟨_, -, h⟩ := bind_eq_ok.mp h
  cases h
  obtain ⟨t, hcolumns⟩ := run_eq_ok.mp hcolumns
  have hcount : le 4 schema.columns.length = le 4 (schema.columns.length % 256 ^ 4) := by
    rw [← val_le]
    exact (le_val (le 4 schema.columns.length)).symm
  rw [TableSchema.serialize, encVec, hcount, vec,
    state_bind_of_ok ((decodes_num 4 _ _ _).mpr ⟨rfl, Nat.mod_lt _ (by decide)⟩),
    ← List.append_nil (schema.columns.flatMap _)] at hcolumns
  exact many_isPrefix (fun c hc t => readColumn_encodeColumn (hsmall c hc) t)
    (Nat.mod_le _ _) hcolumns

lemma NamedSchemas.execute (h : NamedSchemas store) {sql : Bytes} (hsql : sql.length < 2 ^ 32) :
    NamedSchemas (applyAll store (execute store sql).1) := by
  unfold SqlExecutor.execute
  rcases hparse : parse sql with e | stmt
  · exact h
  have hfit := parse_columns hparse
  have hkept : (∀ s, stmt ≠ .createTable s) → (∀ s, stmt ≠ .alterTableAddColumn s) →
      NamedSchemas (applyAll store (executeStatement store stmt).1) := by
    intro hcreate halter d t schema hschema
    refine h d t schema ?_
    rw [← hschema]
    exact (loadSchema_congr (find_applyAll fun mu hmu => schemas_kept hcreate halter hmu d t)).symm
  by_cases hcreate : ∀ s, stmt ≠ .createTable s
  · by_cases halter : ∀ s, stmt ≠ .alterTableAddColumn s
    · exact hkept hcreate halter
    push Not at halter
    obtain ⟨s, rfl⟩ := halter
    have hwritten := parse_written hparse hsql
    simp only [executeStatement, executeAlterTableAddColumn, Effect.ofWrite]
    split
    · exact h
    · rename_i mu out hr
      obtain ⟨schema, hschema, hr⟩ := bind_eq_ok.mp hr
      obtain ⟨_, -, hr⟩ := bind_eq_ok.mp hr
      split at hr
      · cases hr
      · obtain ⟨_, -, hr⟩ := bind_eq_ok.mp hr
        cases hr
        refine h.put fun schema' hread c hc => ?_
        have hsmall : ∀ c ∈ schema.columns ++ [s.column], SmallColumn c := by
          simpa [or_imp, forall_and] using ⟨(loadSchema_small hschema).2, hwritten.2⟩
        rcases List.mem_append.mp ((deserialize_isPrefix hsmall hread).subset hc) with hc | hc
        · exact h _ _ schema hschema c hc
        · exact List.mem_singleton.mp hc ▸ hfit
  · push Not at hcreate
    obtain ⟨s, rfl⟩ := hcreate
    simp only [executeStatement, executeCreateTable, Effect.ofWrite]
    split
    · exact h
    · rename_i mu out hr
      obtain ⟨_, -, hr⟩ := bind_eq_ok.mp hr
      obtain ⟨_, -, hr⟩ := bind_eq_ok.mp hr
      cases hr
      refine h.put fun schema' hread c hc => ?_
      have hsmall : ∀ c ∈ s.columns, SmallColumn c := fun c hc => by
        obtain ⟨-, hlen, hdefault⟩ := hfit c hc
        exact ⟨hlen.trans_lt hsql, by rw [hdefault]; exact fun v hv => by cases hv⟩
      exact (hfit c ((deserialize_isPrefix hsmall hread).subset hc)).1

lemma runAll_namedSchemas {sqls : List Bytes} (h : NamedSchemas store)
    (hsqls : ∀ sql ∈ sqls, sql.length < 2 ^ 32) : NamedSchemas (runAll store sqls) := by
  induction sqls generalizing store with
  | nil => exact h
  | cons sql sqls ih =>
    obtain ⟨hsql, hsqls⟩ := List.forall_mem_cons.mp hsqls
    exact ih (h.execute hsql) hsqls

lemma namedSchemas_empty : NamedSchemas .empty := fun _ _ _ h => nomatch h

end

section

variable {table : RoutingTable}

/-- How many shards start at the key or before it. -/
def covering (table : RoutingTable) (key : Bytes) : ℕ :=
  (table.shards.takeWhile fun s => ¬ key < s.startKey).length

lemma shardFor_spec {key : Bytes} {sid : ShardId} (h : table.shardFor key = some sid) :
    0 < covering table key ∧ table.allShardIds[covering table key - 1]? = some sid := by
  obtain ⟨s, hs, rfl⟩ := Option.map_eq_some_iff.mp h
  rw [List.getLast?_eq_getElem?] at hs
  obtain ⟨hlt, hget⟩ := List.getElem?_eq_some_iff.mp hs
  refine ⟨by unfold covering; omega, ?_⟩
  rw [RoutingTable.allShardIds, List.getElem?_map]
  obtain ⟨rest, hrest⟩ := List.takeWhile_prefix (l := table.shards)
    (fun s : ShardRange => decide (¬ key < s.startKey))
  have hat : table.shards[covering table key - 1]? = some s := by
    rw [← hrest, covering, List.getElem?_append_left hlt]
    exact hs
  rw [hat]
  rfl

lemma covering_mono {k k' : Bytes} (h : k ≤ k') : covering table k ≤ covering table k' := by
  have hboth : (fun s : ShardRange => decide (¬ k < s.startKey)) = fun s =>
      decide (decide (¬ k < s.startKey) = true ∧ decide (¬ k' < s.startKey) = true) := by
    funext s
    by_cases hs : k < s.startKey
    · simp [hs]
    · have hs' : ¬ k' < s.startKey := fun hlt => hs (h.trans_lt hlt)
      simp [hs, hs']
  unfold covering
  rw [hboth, ← List.takeWhile_takeWhile]
  exact (List.takeWhile_prefix _).length_le

lemma ranges_apart (hdistinct : table.allShardIds.Nodup) :
    table.allShardIds.Pairwise fun a b =>
      ∀ k k', table.shardFor k = some a → table.shardFor k' = some b → k < k' := by
  rw [List.pairwise_iff_getElem]
  intro i j hi hj hij k k' hk hk'
  by_contra hle
  have hmono := @covering_mono table k' k (not_lt.mp hle)
  obtain ⟨hpos, hat⟩ := shardFor_spec hk
  obtain ⟨hpos', hat'⟩ := shardFor_spec hk'
  obtain ⟨hlt, hat⟩ := List.getElem?_eq_some_iff.mp hat
  obtain ⟨hlt', hat'⟩ := List.getElem?_eq_some_iff.mp hat'
  have hi' := (List.Nodup.getElem_inj_iff hdistinct).mp hat
  have hj' := (List.Nodup.getElem_inj_iff hdistinct).mp hat'
  omega

end

/-- The rows of a table, all in one store and each on the shard of its key. -/
structure Split (d t : Bytes) where
  routing : RoutingTable
  distinct : routing.allShardIds.Nodup
  covered : ∀ key, rowPrefix d t <+: key → routing.shardFor key ≠ none
  whole : Store
  reached : ∃ sqls : List Bytes, (∀ sql ∈ sqls, sql.length < 2 ^ 32) ∧
    whole = runAll .empty sqls
  store : ShardId → Store
  schema : ∀ sid ∈ routing.allShardIds,
    (store sid).find (schemaKey d t) = whole.find (schemaKey d t)
  rows : ∀ sid ∈ routing.allShardIds, ∀ key, rowPrefix d t <+: key →
    (store sid).find key = if routing.shardFor key = some sid then whole.find key else none

namespace Split

variable {d t : Bytes} (s : Split d t)

/-- What `main` gathers: the result of every shard, in the order of `AllShardIds`. -/
def gather (sql : Bytes) : Except Exception (List Bytes) :=
  s.routing.allShardIds.mapM fun sid => (execute (s.store sid) sql).2

/-- The merged result is the one of the store that holds all rows. -/
def Gathers (sql : Bytes) : Prop :=
  (s.gather sql).map mergeSelectResults = (execute s.whole sql).2

end Split

/-- The rows of a store, each on the shard of its key; what else there is, on every shard. -/
def split (routing : RoutingTable) (whole : Store) (d t : Bytes) (sid : ShardId) : Store :=
  whole.filterMap fun key blob =>
    if startsWith key (rowPrefix d t) = true ∧
      routing.shardFor key ≠ some sid then none else some blob

/-- Any store can be split. -/
def Split.of (d t : Bytes) (routing : RoutingTable) (distinct : routing.allShardIds.Nodup)
    (covered : ∀ key, rowPrefix d t <+: key → routing.shardFor key ≠ none) (sqls : List Bytes)
    (hsqls : ∀ sql ∈ sqls, sql.length < 2 ^ 32) : Split d t where
  routing := routing
  distinct := distinct
  covered := covered
  whole := runAll .empty sqls
  reached := ⟨sqls, hsqls, rfl⟩
  store := split routing (runAll .empty sqls) d t
  schema := by
    intro sid _
    rw [split, find_filterMap]
    have hkey : ¬ startsWith (schemaKey d t) (rowPrefix d t) = true := fun h =>
      rowPrefix_ne_schemaKey ((startsWith_iff _ _).mp h) rfl
    rcases (runAll .empty sqls).find (schemaKey d t) with _ | blob
    · rfl
    · rw [Option.bind_some, if_neg fun h => hkey h.1]
  rows := by
    intro sid _ key hkey
    rw [split, find_filterMap]
    have hstart : startsWith key (rowPrefix d t) = true := (startsWith_iff _ _).mpr hkey
    rcases (runAll .empty sqls).find key with _ | blob
    · split_ifs <;> rfl
    · show (if _ then none else some blob) = _
      by_cases hshard : routing.shardFor key = some sid
      · rw [if_pos hshard, if_neg fun h => h.2 hshard]
      · rw [if_neg hshard, if_pos ⟨hstart, hshard⟩]

/-- The texts of the rows that a `SELECT` prints. -/
def printed (store : Store) (stmt : SelectStatement) : List Bytes :=
  match loadSchema store stmt.dbName stmt.tableName with
  | .error _ => []
  | .ok schema =>
    match project schema stmt.columns with
    | .error _ => []
    | .ok projection =>
      (scan store (rowPrefix stmt.dbName stmt.tableName)).filterMap fun kv =>
        match selectRow schema stmt.whereClause projection kv.2 with
        | .ok line => line
        | .error _ => none

section

variable {d t : Bytes} (s : Split d t)

lemma ids_ne_nil : s.routing.allShardIds ≠ [] := by
  intro h
  obtain ⟨sid, hsid⟩ := Option.ne_none_iff_exists'.mp (s.covered _ List.prefix_rfl)
  have hat := (shardFor_spec hsid).2
  rw [h] at hat
  cases hat

lemma scan_split : (s.routing.allShardIds.flatMap fun sid => scan (s.store sid) (rowPrefix d t)) =
    scan s.whole (rowPrefix d t) := by
  have hrow : ∀ sid ∈ s.routing.allShardIds, ∀ kv, kv ∈ scan (s.store sid)
      (rowPrefix d t) ↔ kv ∈ scan s.whole (rowPrefix d t) ∧
      s.routing.shardFor kv.1 = some sid := by
    intro sid hsid kv
    rw [mem_scan, mem_scan]
    constructor
    · rintro ⟨hkey, hfind⟩
      rw [s.rows sid hsid _ hkey] at hfind
      split_ifs at hfind with hshard
      exact ⟨⟨hkey, hfind⟩, hshard⟩
    · rintro ⟨⟨hkey, hfind⟩, hshard⟩
      rw [s.rows sid hsid _ hkey, if_pos hshard]
      exact ⟨hkey, hfind⟩
  refine asc_of_mem ?_ (scan_asc _ _) fun kv => ?_
  · rw [Asc, List.pairwise_flatMap]
    refine ⟨fun sid _ => scan_asc _ _, (ranges_apart s.distinct).imp_of_mem ?_⟩
    intro a b ha hb hapart x hx y hy
    exact hapart x.1 y.1 ((hrow a ha x).mp hx).2 ((hrow b hb y).mp hy).2
  · rw [List.mem_flatMap]
    constructor
    · rintro ⟨sid, hsid, hkv⟩
      exact ((hrow sid hsid kv).mp hkv).1
    · intro hkv
      obtain ⟨sid, hshard⟩ := Option.ne_none_iff_exists'.mp (s.covered kv.1 (mem_scan.mp hkv).1)
      have hsid : sid ∈ s.routing.allShardIds := List.mem_of_getElem? (shardFor_spec hshard).2
      exact ⟨sid, hsid, (hrow sid hsid kv).mpr ⟨hkv, hshard⟩⟩

/-! ### What is gathered -/

lemma mem_joinTabs {b : UInt8} {cells : List Bytes} (h : b ∈ joinTabs cells) :
    b = chr '\t' ∨ ∃ c ∈ cells, b ∈ c := by
  rw [joinTabs] at h
  induction cells with
  | nil => cases h
  | cons c cells ih =>
    cases cells with
    | nil =>
      rw [List.intercalate_singleton] at h
      exact .inr ⟨c, List.mem_cons_self, h⟩
    | cons c' cells =>
      rw [List.intercalate_cons_cons, List.mem_append, List.mem_append, List.mem_singleton] at h
      rcases h with (h | h) | h
      · exact .inr ⟨c, List.mem_cons_self, h⟩
      · exact .inl h
      · exact (ih h).imp_right fun ⟨c, hc, hb⟩ => ⟨c, List.mem_cons_of_mem _ hc, hb⟩

/-- The names in the first line. -/
def headers (schema : TableSchema) (stmt : SelectStatement) : List Bytes :=
  if stmt.columns = [] then schema.columns.map ColumnDef.name else stmt.columns

lemma not_newline_headers {store : Store} {sql : Bytes} {stmt : SelectStatement}
    {schema : TableSchema} (hnamed : NamedSchemas store) (hparse : parse sql = .ok (.select stmt))
    (hschema : loadSchema store stmt.dbName stmt.tableName = .ok schema) :
    newline ∉ joinTabs (headers schema stmt) := by
  intro h
  rcases mem_joinTabs h with h | ⟨c, hc, h⟩
  · cases h
  · refine not_newline ?_ h
    unfold headers at hc
    split_ifs at hc
    · obtain ⟨col, hcol, rfl⟩ := List.mem_map.mp hc
      exact hnamed _ _ schema hschema col hcol
    · exact parse_columns hparse c hc

lemma executeSelect_eq {store : Store} {stmt : SelectStatement} {schema : TableSchema}
    {projection : List ℕ} (hschema : loadSchema store stmt.dbName stmt.tableName = .ok schema)
    (hprojection : project schema stmt.columns = .ok projection) :
    (executeSelect store stmt).2 = ((scan store (rowPrefix stmt.dbName stmt.tableName)).mapM
      fun kv => selectRow schema stmt.whereClause projection kv.2).map fun lines =>
        render (joinTabs (headers schema stmt)) (lines.filterMap id) := by
  unfold executeSelect Effect.ofRead
  rw [hschema]
  show (project schema stmt.columns >>= _) = _
  rw [hprojection]
  show (((scan store (rowPrefix stmt.dbName stmt.tableName)).mapM fun kv =>
    selectRow schema stmt.whereClause projection kv.2) >>= _) = _
  rcases (scan store (rowPrefix stmt.dbName stmt.tableName)).mapM
    fun kv => selectRow schema stmt.whereClause projection kv.2 with e | lines
  · rfl
  · rfl

lemma printed_eq {store : Store} {stmt : SelectStatement} {schema : TableSchema}
    {projection : List ℕ} {lines : List (Option Bytes)}
    (hschema : loadSchema store stmt.dbName stmt.tableName = .ok schema)
    (hprojection : project schema stmt.columns = .ok projection)
    (hlines : ((scan store (rowPrefix stmt.dbName stmt.tableName)).mapM
      fun kv => selectRow schema stmt.whereClause projection kv.2) = .ok lines) :
    printed store stmt = lines.filterMap id := by
  unfold printed
  rw [hschema]
  simp only [hprojection]
  generalize scan store (rowPrefix stmt.dbName stmt.tableName) = rows at hlines
  induction rows generalizing lines with
  | nil =>
    cases hlines
    rfl
  | cons kv rows ih =>
    rw [List.mapM_cons] at hlines
    obtain ⟨line, hline, hlines⟩ := bind_eq_ok.mp hlines
    obtain ⟨lines', hlines', hlines⟩ := bind_eq_ok.mp hlines
    cases hlines
    rw [List.filterMap_cons, List.filterMap_cons, hline, ih hlines']
    rfl

lemma executeSelect_unloaded {store : Store} {stmt : SelectStatement} {e : Exception}
    (hschema : loadSchema store stmt.dbName stmt.tableName = .error e) :
    (executeSelect store stmt).2 = .error e := by
  simp only [executeSelect, Effect.ofRead, hschema]
  rfl

lemma executeSelect_unprojected {store : Store} {stmt : SelectStatement} {schema : TableSchema}
    {e : Exception} (hschema : loadSchema store stmt.dbName stmt.tableName = .ok schema)
    (hprojection : project schema stmt.columns = .error e) :
    (executeSelect store stmt).2 = .error e := by
  simp only [executeSelect, Effect.ofRead, hschema]
  show (project schema stmt.columns >>= _) = _
  rw [hprojection]
  rfl

/-- **Gathering a scattered `SELECT`** gives what one store with all rows gives, exactly when no
printed row holds a line `(0 rows)` and no shard's last one ends with an empty line, or all that is
printed is one row `(0 rows)`. -/
theorem gathered_iff {sql : Bytes} {stmt : SelectStatement}
    (hparse : parse sql = .ok (.select stmt))
    (s : Split stmt.dbName stmt.tableName) :
    s.Gathers sql ↔ (Succeeds (execute s.whole sql).2 →
      Mergeable (s.routing.allShardIds.map fun sid => printed (s.store sid) stmt)) := by
  obtain ⟨sqls, hsqls, hreached⟩ := s.reached
  have hnamed : NamedSchemas s.whole := hreached ▸ runAll_namedSchemas namedSchemas_empty hsqls
  have hexecute : ∀ store, execute store sql = executeSelect store stmt := by
    intro store
    rw [execute, hparse]
    rfl
  have hload : ∀ sid ∈ s.routing.allShardIds, loadSchema
      (s.store sid) stmt.dbName stmt.tableName = loadSchema s.whole stmt.dbName stmt.tableName :=
      fun sid hsid =>
    loadSchema_congr (s.schema sid hsid)
  simp only [Split.Gathers, Split.gather, hexecute]
  -- what is thrown before the first row is thrown everywhere
  have hthrown : ∀ {e : Exception}, (executeSelect s.whole stmt).2 = .error e →
      (∀ sid ∈ s.routing.allShardIds, (executeSelect (s.store sid) stmt).2 = .error e) →
      ((s.routing.allShardIds.mapM fun sid => (executeSelect (s.store sid) stmt).2).map
        mergeSelectResults = (executeSelect s.whole stmt).2 ↔
      (Succeeds (executeSelect s.whole stmt).2 →
        Mergeable (s.routing.allShardIds.map fun sid => printed (s.store sid) stmt))) := by
    intro e hwhole hall
    rw [mapM_error (ids_ne_nil s) hall, hwhole]
    exact iff_of_true rfl fun h => absurd h (succeeds_error e)
  rcases hschema : loadSchema s.whole stmt.dbName stmt.tableName with e | schema
  · exact hthrown (executeSelect_unloaded hschema) fun sid hsid =>
      executeSelect_unloaded ((hload sid hsid).trans hschema)
  have hschemas := fun sid hsid => (hload sid hsid).trans hschema
  rcases hprojection : project schema stmt.columns with e | projection
  · exact hthrown (executeSelect_unprojected hschema hprojection) fun sid hsid =>
      executeSelect_unprojected (hschemas sid hsid) hprojection
  have hheader := not_newline_headers hnamed hparse hschema
  rw [executeSelect_eq hschema hprojection, ← scan_split s, mapM_flatMap,
    mapM_congr fun sid hsid => executeSelect_eq (hschemas sid hsid) hprojection, mapM_map]
  rcases hparts : s.routing.allShardIds.mapM fun sid =>
    (scan (s.store sid) (rowPrefix stmt.dbName stmt.tableName)).mapM fun kv =>
      selectRow schema stmt.whereClause projection kv.2 with e | parts
  · rw [hparts]
    exact iff_of_true rfl fun h => absurd h (succeeds_error e)
  rw [hparts]
  have hprinted : (s.routing.allShardIds.map fun sid => printed (s.store sid) stmt) =
      parts.map (List.filterMap id) :=
    map_of_mapM hparts fun sid hsid lines hlines =>
      printed_eq (hschemas sid hsid) hprojection hlines
  have hparts_ne : parts ≠ [] := by
    intro h
    have hlen := length_mapM hparts
    rw [h] at hlen
    exact ids_ne_nil s (List.length_eq_zero_iff.mp hlen.symm)
  have hmerge := merge_render hheader (mt List.map_eq_nil_iff.mp hparts_ne :
    parts.map (List.filterMap id) ≠ [])
  rw [hprinted, ← hmerge, ← List.filterMap_flatten, List.map_map]
  show Except.ok (mergeSelectResults _) = Except.ok (render _ _) ↔ (Succeeds (.ok _) → _)
  rw [Except.ok.injEq]
  exact ⟨fun h _ => h, fun h => h (succeeds_ok _)⟩

end

/-- The first shard has the row `0`, and a row whose key is the text of an empty result; the second
has the row `a`. -/
def markedRows : List Bytes := [
  text "CREATE DATABASE d",
  text "CREATE TABLE d.t (k TEXT PRIMARY KEY, n INT)",
  text "INSERT INTO d.t (k, n) VALUES ('(0 rows)', 1)",
  text "INSERT INTO d.t (k, n) VALUES ('0', 2)",
  text "INSERT INTO d.t (k, n) VALUES ('a', 3)"]

lemma twoRanges_covered (key : Bytes) : twoRanges.shardFor key ≠ none := by
  have hfirst : ¬ key < [] := List.not_lt_nil key
  simp [RoutingTable.shardFor, twoRanges, List.takeWhile_cons, hfirst]

def markedSplit : Split (text "d") (text "t") :=
  .of _ _ twoRanges (by decide) (fun key _ => twoRanges_covered key) markedRows (by decide)

/-- Both columns are printed, so no line is the one of an empty result. -/
theorem gathered_iff_marked : markedSplit.Gathers (text "SELECT * FROM d.t") := by
  have hparse : parse (text "SELECT * FROM d.t") =
      .ok (.select ⟨text "d", text "t", [], []⟩) := by decide +kernel
  have hprinted : (markedSplit.routing.allShardIds.map fun sid =>
      printed (markedSplit.store sid) ⟨text "d", text "t", [], []⟩) =
      [[text "(0 rows)\t1", text "0\t2"], [text "a\t3"]] := by decide +kernel
  refine (gathered_iff hparse markedSplit).mpr fun _ => .inr ?_
  rw [hprinted]
  unfold EndsOpen
  decide +kernel

/-- **A row that reads like an empty result is lost**. -/
theorem marker_row_lost : ¬ ∀ (sql : Bytes) (stmt : SelectStatement),
    parse sql = .ok (.select stmt) → ∀ s : Split stmt.dbName stmt.tableName, s.Gathers sql := by
  intro hall
  have hparse : parse (text "SELECT k FROM d.t") =
      .ok (.select ⟨text "d", text "t", [text "k"], []⟩) := by decide +kernel
  have hgathers := hall _ _ hparse markedSplit
  have hmerged : markedSplit.gather (text "SELECT k FROM d.t") =
      .ok [text "k\n(0 rows)\n0", text "k\na"] := by decide +kernel
  have hwhole : (execute markedSplit.whole (text "SELECT k FROM d.t")).2 =
      .ok (text "k\n(0 rows)\n0\na") := by decide +kernel
  rw [Split.Gathers, hmerged, hwhole] at hgathers
  exact absurd (Except.ok.inj hgathers) (by decide)

end DistDB.SqlScatter
