import DistDB.SqlRelational
import DistDB.SqlScatter
import DistDB.Wire

/-!
The window of `ui/main.cpp`: what it sends for a statement, and what it shows of the answer.

An answer is taken apart at the tabs and line breaks that `ExecuteSelect` has put in, so the grid
is what the `SELECT` has found exactly when no cell holds one of them, no last cell is empty, and no
row is a single cell `(0 rows)` (`select_shown_iff`). The list of databases holds names only, and is
always right (`databases_listed`).
-/

namespace DistDB.Window

open NodeModel SqlParser SqlExecutor SqlFrame SqlRuns SqlScatter SqlSchemas SqlTexts SqlRelational
  Relational Lines Bytes
open Checks Decimal Wire

inductive ResultKind
  | kText
  | kTable
  | kError
  deriving DecidableEq

structure StatementResult where
  kind : ResultKind
  text : Bytes

/-- `FormatClientResponse`. -/
def formatClientResponse (resp : ClientResponse) : Bytes :=
  if resp.success then
    text "OK (committed at index " ++ toText resp.index ++ text ", via leader node " ++
      toText resp.leaderHint ++ text ")"
  else
    text "FAILED" ++
      if resp.notLeader ∧ resp.leaderHint ≠ 0 then
        text " (best known leader is node " ++ toText resp.leaderHint ++
          text ", but still failed" ++
          (if resp.error ≠ [] then text ": " ++ resp.error else []) ++ text " - retry)"
      else if resp.error ≠ [] then text " (" ++ resp.error ++ text ")" else []

def isRead : Statement → Bool
  | .select _ | .showTables _ | .showDatabases => true
  | _ => false

/-- `SendStatement`, with what `SendReadRequest` and `SendClientRequest` return or throw. -/
def sendStatement (peers : OrdMap NodeId PeerAddress) (read : Bytes → Except Bytes Bytes)
    (write : Bytes → Except Bytes ClientResponse) (line : Bytes) : StatementResult :=
  if peers.size = 0 then
    ⟨.kError, text "ERROR: no peers configured - enter a peer list first"⟩
  else match parse line with
    | .error e => ⟨.kError, text "ERROR: " ++ e.what⟩
    | .ok stmt =>
      if isRead stmt then
        match read line with
        | .ok out => ⟨.kTable, out⟩
        | .error what => ⟨.kError, text "ERROR: " ++ what⟩
      else
        match write line with
        | .ok resp => ⟨if resp.success then .kText else .kError, formatClientResponse resp⟩
        | .error what => ⟨.kError, text "ERROR: " ++ what⟩

def tab : UInt8 := chr '\t'

/-- `TryParseSelectTable`: the headers and the rows. -/
def tryParseSelectTable (s : Bytes) : Option (List Bytes × List (List Bytes)) :=
  match getlines newline s with
  | [] => none
  | headerLine :: lines =>
    if headerLine = [] ∨ getlines tab headerLine = [] then none
    else some (getlines tab headerLine, (lines.filter (· ≠ noRowsLine)).map (getlines tab))

structure HistoryEntry where
  kind : ResultKind
  text : Bytes
  headers : List Bytes
  rows : List (List Bytes)

def makeHistoryEntry (result : StatementResult) : HistoryEntry :=
  match result.kind, tryParseSelectTable result.text with
  | .kTable, some (headers, rows) => ⟨.kTable, result.text, headers, rows⟩
  | .kTable, none => ⟨.kText, result.text, [], []⟩
  | kind, _ => ⟨kind, result.text, [], []⟩

/-- `refresh_known_databases`. -/
def refreshKnownDatabases (known : List Bytes) (result : StatementResult) : List Bytes :=
  match result.kind, tryParseSelectTable result.text with
  | .kTable, some (_, rows) => rows.filterMap List.head?
  | _, _ => known

/-! ### Grids -/

/-- The cells are read back from the line they are printed in. -/
def Shown (row : List Bytes) : Prop :=
  (∀ c ∈ row, newline ∉ c ∧ tab ∉ c) ∧ row.getLast? ≠ some [] ∧ row ≠ [noRowsLine]

/-- A cell with neither a tab nor a line break, that is not empty. -/
def Solid (c : Bytes) : Prop := c ≠ [] ∧ newline ∉ c ∧ tab ∉ c

lemma solid_of_isWord {c : Bytes} (h : IsWord c) : Solid c := by
  obtain ⟨b, rest, rfl, -, -⟩ := id h
  exact ⟨List.cons_ne_nil b rest, fun hmem => absurd (h.name _ hmem) (by decide),
    fun hmem => absurd (h.name _ hmem) (by decide)⟩

lemma shown_of_isWord {c : Bytes} (h : IsWord c) : Shown [c] := by
  obtain ⟨hne, hclean⟩ := solid_of_isWord h
  refine ⟨List.forall_mem_singleton.mpr hclean, fun hlast => hne (Option.some.inj hlast), ?_⟩
  intro hmark
  obtain rfl := List.singleton_inj.mp hmark
  exact absurd (h.name (chr '(') List.mem_cons_self) (by decide)

lemma not_newline_joinTabs {cells : List Bytes} (h : ∀ c ∈ cells, newline ∉ c) :
    newline ∉ joinTabs cells := by
  intro hmem
  rcases mem_joinTabs hmem with htab | ⟨c, hc, hmem⟩
  · cases htab
  · exact h c hc hmem

lemma getlines_joinTabs_iff {row : List Bytes} (hne : row ≠ []) :
    getlines tab (joinTabs row) = row ↔ (∀ c ∈ row, tab ∉ c) ∧ row.getLast? ≠ some [] :=
  getlines_intercalate_iff hne

lemma listing_eq (heading : Bytes) (lines : List Bytes) : listing heading lines =
    [newline].intercalate (heading :: if lines = [] then [noRowsLine] else lines) := by
  rw [intercalate_cons]
  unfold listing
  split_ifs with h
  · rw [h, List.flatMap_nil, List.append_nil]
    rfl
  · rw [List.append_nil]
    rfl

lemma shown_of_rows {rows : List (List Bytes)} (hne : rows ≠ [])
    (hrows : ∀ row ∈ rows, row ≠ []) :
      ((getlines newline ([newline].intercalate (rows.map joinTabs))).filter
        (· ≠ noRowsLine)).map (getlines tab) = rows ↔ ∀ row ∈ rows, Shown row := by
  have hne' : rows.map joinTabs ≠ [] := mt List.map_eq_nil_iff.mp hne
  constructor
  · intro h
    have hclean : ∀ row ∈ rows, ∀ c ∈ row, newline ∉ c := by
      intro row hrow c hc hmem
      rw [← h] at hrow
      obtain ⟨line, hline, rfl⟩ := List.mem_map.mp hrow
      exact not_mem_getlines (List.mem_of_mem_filter hline) (mem_of_mem_getlines hc hmem)
    have hlines : ∀ line ∈ rows.map joinTabs, newline ∉ line := by
      rintro _ hline
      obtain ⟨row, hrow, rfl⟩ := List.mem_map.mp hline
      exact not_newline_joinTabs (hclean row hrow)
    -- no line is lost, neither an empty last one nor one that is taken for the mark
    have hlen := congrArg List.length h
    rw [List.length_map] at hlen
    have hle := List.length_filter_le (· ≠ noRowsLine)
      (getlines newline ([newline].intercalate (rows.map joinTabs)))
    have hread : getlines newline ([newline].intercalate (rows.map joinTabs)) =
        rows.map joinTabs := by
      rcases getlines_intercalate_or hne' hlines with hread | hread
      · exact hread
      · have hlost := congrArg List.length hread
        rw [List.length_append, List.length_map, List.length_singleton] at hlost
        omega
    rw [hread] at h hlen
    have hmark : ∀ line ∈ rows.map joinTabs, decide (line ≠ noRowsLine) = true :=
      List.length_filter_eq_length_iff.mp (hlen.trans (List.length_map joinTabs).symm)
    rw [List.filter_eq_self.mpr hmark, List.map_map] at h
    have hback : ∀ row ∈ rows, getlines tab (joinTabs row) = row :=
      List.map_inj_left.mp (h.trans (List.map_id rows).symm)
    intro row hrow
    obtain ⟨htabs, hlast⟩ := (getlines_joinTabs_iff (hrows row hrow)).mp (hback row hrow)
    refine ⟨fun c hc => ⟨hclean row hrow c hc, htabs c hc⟩, hlast, fun heq => ?_⟩
    exact of_decide_eq_true (hmark _ (List.mem_map_of_mem hrow))
      (heq ▸ List.intercalate_singleton)
  · intro h
    have hback : ∀ row ∈ rows, getlines tab (joinTabs row) = row := fun row hrow =>
      (getlines_joinTabs_iff (hrows row hrow)).mpr
        ⟨fun c hc => ((h row hrow).1 c hc).2, (h row hrow).2.1⟩
    have hread : getlines newline ([newline].intercalate (rows.map joinTabs)) =
        rows.map joinTabs := by
      refine getlines_intercalate ?_ ?_
      · rintro _ hline
        obtain ⟨row, hrow, rfl⟩ := List.mem_map.mp hline
        exact not_newline_joinTabs fun c hc => ((h row hrow).1 c hc).1
      · rintro _ hline hnil
        obtain ⟨row, hrow, rfl⟩ := List.mem_map.mp hline
        have hrow' := hback row hrow
        rw [hnil] at hrow'
        exact hrows row hrow hrow'.symm
    have hmark : ∀ line ∈ rows.map joinTabs, decide (line ≠ noRowsLine) = true := by
      intro line hline
      obtain ⟨row, hrow, rfl⟩ := List.mem_map.mp hline
      refine decide_eq_true fun heq => (h row hrow).2.2 ?_
      rw [← hback row hrow, heq]
      decide
    rw [hread, List.filter_eq_self.mpr hmark, List.map_map]
    exact (List.map_inj_left.mpr hback).trans (List.map_id rows)

/-- **What the window makes of a listing**: the headers, and the rows when each of them is read
back. -/
lemma tryParse_listing {headers : List Bytes} {rows : List (List Bytes)} (hne : headers ≠ [])
    (hsolid : ∀ h ∈ headers, Solid h) (hrows : ∀ row ∈ rows, row ≠ []) :
    ∃ rows', tryParseSelectTable (listing (joinTabs headers) (rows.map joinTabs)) =
      some (headers, rows') ∧ (rows' = rows ↔ ∀ row ∈ rows, Shown row) := by
  have hback : getlines tab (joinTabs headers) = headers := by
    refine (getlines_joinTabs_iff hne).mpr ⟨fun h hh => (hsolid h hh).2.2, fun hlast => ?_⟩
    exact (hsolid _ (List.mem_of_getLast? hlast)).1 rfl
  have hhead : joinTabs headers ≠ [] := by
    intro h
    rw [h] at hback
    exact hne hback.symm
  have hclean : newline ∉ joinTabs headers := not_newline_joinTabs fun h hh => (hsolid h hh).2.1
  have hparse : ∀ l ls, tryParseSelectTable
      ([newline].intercalate (joinTabs headers :: l :: ls)) =
        some (headers,
          ((getlines newline ([newline].intercalate (l :: ls))).filter (· ≠ noRowsLine)).map
          (getlines tab)) := by
    intro l ls
    rw [tryParseSelectTable, getlines_intercalate_cons hclean]
    dsimp only
    rw [if_neg (not_or.mpr ⟨hhead, fun h => hne (hback.symm.trans h)⟩), hback]
  rw [listing_eq]
  cases rows with
  | nil => exact ⟨_, hparse noRowsLine [], iff_of_true (by decide) (List.forall_mem_nil _)⟩
  | cons row rows =>
    rw [List.map_cons, if_neg (List.cons_ne_nil _ _)]
    exact ⟨_, hparse _ _, shown_of_rows (List.cons_ne_nil row rows) hrows⟩

lemma map_joinTabs_singleton (ls : List Bytes) : (ls.map fun d => [d]).map joinTabs = ls := by
  induction ls with
  | nil => rfl
  | cons d ls ih =>
    rw [List.map_cons, List.map_cons, ih, joinTabs, List.intercalate_singleton]

lemma tryParse_names {heading : Bytes} (hheading : IsWord heading) {ls : List Bytes}
    (h : ∀ d ∈ ls, IsWord d) :
    tryParseSelectTable (listing heading ls) = some ([heading], ls.map fun d => [d]) := by
  have hrow : ∀ row ∈ ls.map fun d => [d], row ≠ [] ∧ Shown row := by
    rintro _ hrow
    obtain ⟨d, hd, rfl⟩ := List.mem_map.mp hrow
    exact ⟨List.cons_ne_nil d [], shown_of_isWord (h d hd)⟩
  obtain ⟨rows', hparsed, hiff⟩ := tryParse_listing (List.cons_ne_nil heading [])
    (List.forall_mem_singleton.mpr (solid_of_isWord hheading)) fun row hmem => (hrow row hmem).1
  rw [map_joinTabs_singleton, joinTabs, List.intercalate_singleton] at hparsed
  rw [hparsed, hiff.mpr fun row hmem => (hrow row hmem).2]

/-- The names in the catalog are words, and no relation is without columns. -/
structure WellNamed (cat : Catalog) : Prop where
  database : ∀ d, cat.find d ≠ none → IsWord d
  columns : ∀ d t r, relationAt cat d t = some r → r.columns ≠ [] ∧
    ∀ c ∈ r.columns, IsWord c.name

lemma parse_database {sql : Bytes} {s : CreateDatabaseStatement}
    (h : parse sql = .ok (.createDatabase s)) : IsWord s.name := by
  obtain ⟨body, hbody, hwords⟩ := parse_words h
  cases hbody with
  | createDatabase _ _ hname => exact hwords _ (by simp) hname

namespace WellNamed

variable {cat : Catalog} {d t : Bytes} {r : Relation}

lemma empty : WellNamed .empty := ⟨fun _ h => absurd rfl h, fun _ _ _ h => by cases h⟩

lemma set (h : WellNamed cat) (hd : cat.find d ≠ none)
    (hr : r.columns ≠ [] ∧ ∀ c ∈ r.columns, IsWord c.name) :
    WellNamed (setRelation cat d t r) where
  database d' hd' := by
    unfold setRelation at hd'
    rw [OrdMap.find_insert] at hd'
    split_ifs at hd' with heq
    · exact heq ▸ h.database d hd
    · exact h.database d' hd'
  columns d' t' r' hr' := by
    rw [relationAt_setRelation] at hr'
    split_ifs at hr'
    · exact Option.some.inj hr' ▸ hr
    · exact h.columns d' t' r' hr'

lemma commit (h : WellNamed cat) {x : Except Exception Catalog}
    (hx : ∀ cat', x = .ok cat' → WellNamed cat') : WellNamed (Relational.commit cat x).1 := by
  cases x with
  | error e => exact h
  | ok cat' => exact hx cat' rfl

lemma changeRows (h : WellNamed cat) (hr : relation cat d t = .ok r) (whereClause : List Condition)
    (f : Row → Option Row) (what : Bytes) :
    WellNamed (Relational.changeRows cat d t r whereClause f what).1 := by
  have hat := relation_eq_ok.mp hr
  exact h.set (Refines.database_of_relation hat) (h.columns d t r hat)

lemma createDatabase (h : WellNamed cat) {s : CreateDatabaseStatement} (hname : IsWord s.name) :
    WellNamed (Relational.createDatabase cat s).1 := by
  refine h.commit fun cat' hcat' => ?_
  obtain ⟨-, -, hcat'⟩ := bind_eq_ok.mp hcat'
  obtain rfl := Except.ok.inj hcat'
  constructor
  · intro d hd
    rw [OrdMap.find_insert] at hd
    split_ifs at hd with heq
    · exact heq ▸ hname
    · exact h.database d hd
  · intro d t r hr
    unfold relationAt at hr
    rw [OrdMap.find_insert] at hr
    split_ifs at hr
    · cases hr
    · exact h.columns d t r hr

lemma createTable (h : WellNamed cat) {s : CreateTableStatement}
    (hcolumns : s.columns ≠ [] ∧ ∀ c ∈ s.columns, IsWord c.name) :
    WellNamed (Relational.createTable cat s).1 := by
  refine h.commit fun cat' hcat' => ?_
  obtain ⟨tables, htables, hcat'⟩ := bind_eq_ok.mp hcat'
  obtain ⟨-, -, hcat'⟩ := bind_eq_ok.mp hcat'
  obtain rfl := Except.ok.inj hcat'
  refine h.set (fun hnone => ?_) hcolumns
  rw [Relational.database, hnone] at htables
  cases htables

lemma alterTable (h : WellNamed cat) {s : AlterTableAddColumnStatement}
    (hword : IsWord s.column.name) : WellNamed (Relational.alterTableAddColumn cat s).1 := by
  refine h.commit fun cat' hcat' => ?_
  obtain ⟨r, hr, hcat'⟩ := bind_eq_ok.mp hcat'
  obtain ⟨-, -, hcat'⟩ := bind_eq_ok.mp hcat'
  have hat := relation_eq_ok.mp hr
  cases hdefault : s.column.defaultValue with
  | none =>
    rw [hdefault] at hcat'
    cases hcat'
  | some v =>
    rw [hdefault] at hcat'
    obtain ⟨-, -, hcat'⟩ := bind_eq_ok.mp hcat'
    obtain rfl := Except.ok.inj hcat'
    exact h.set (Refines.database_of_relation hat)
      ⟨List.append_ne_nil_of_right_ne_nil _ (List.cons_ne_nil _ _), List.forall_mem_append.mpr
        ⟨(h.columns _ _ r hat).2, List.forall_mem_singleton.mpr hword⟩⟩

lemma insert (h : WellNamed cat) (s : InsertStatement) :
    WellNamed (Relational.insert cat s).1 := by
  refine h.commit fun cat' hcat' => ?_
  obtain ⟨r, hr, hcat'⟩ := bind_eq_ok.mp hcat'
  obtain ⟨⟨row, pk⟩, -, hcat'⟩ := bind_eq_ok.mp hcat'
  obtain ⟨-, -, hcat'⟩ := bind_eq_ok.mp hcat'
  obtain rfl := Except.ok.inj hcat'
  have hat := relation_eq_ok.mp hr
  exact h.set (Refines.database_of_relation hat) (h.columns _ _ r hat)

lemma update (h : WellNamed cat) (s : UpdateStatement) :
    WellNamed (Relational.update cat s).1 := by
  unfold Relational.update
  cases hr : relation cat s.dbName s.tableName with
  | error e => exact h
  | ok r =>
    dsimp only
    cases s.assignments.mapM (checkAssignment r.schema) with
    | error e => exact h
    | ok assignments => exact h.changeRows hr _ _ _

lemma delete (h : WellNamed cat) (s : DeleteStatement) :
    WellNamed (Relational.delete cat s).1 := by
  unfold Relational.delete
  cases hr : relation cat s.dbName s.tableName with
  | error e => exact h
  | ok r => exact h.changeRows hr _ _ _

lemma execute (h : WellNamed cat) (sql : Bytes) : WellNamed (Relational.execute cat sql).1 := by
  unfold Relational.execute
  cases hparse : parse sql with
  | error e => exact h
  | ok stmt =>
    cases stmt with
    | createDatabase s => exact h.createDatabase (parse_database hparse)
    | createTable s =>
      obtain ⟨hwords, hone⟩ := parse_worded hparse
      refine h.createTable ⟨fun hnil => ?_, hwords⟩
      rw [hnil] at hone
      cases hone
    | alterTableAddColumn s => exact h.alterTable (parse_worded hparse).1
    | insert s => exact h.insert s
    | update s => exact h.update s
    | delete s => exact h.delete s
    | select | showTables | showDatabases => exact h

lemma after (h : WellNamed cat) (sqls : List Bytes) : WellNamed (catalogAfter cat sqls) := by
  induction sqls generalizing cat with
  | nil => exact h
  | cons sql sqls ih => exact ih (h.execute sql)

end WellNamed

/-! ### What is shown of an answer -/

variable {cat : Catalog} {peers : OrdMap NodeId PeerAddress}
  {write : Bytes → Except Bytes ClientResponse} {sqls : List Bytes}

/-- The headers, and the cells of each row, of what a `SELECT` finds. -/
def selection (cat : Catalog) (s : SelectStatement) :
    Except Exception (List Bytes × List (List Bytes)) := do
  let r ← relation cat s.dbName s.tableName
  let projection ← project r.schema s.columns
  (r.satisfying s.whereClause).2
  return (if s.columns = [] then r.columns.map ColumnDef.name else s.columns,
    (r.satisfying s.whereClause).1.map fun e => projection.map fun i => e.2.getD i [])

lemma select_of_selection {s : SelectStatement} {headers : List Bytes} {rows : List (List Bytes)}
    (h : selection cat s = .ok (headers, rows)) :
    Relational.select cat s = .ok (listing (joinTabs headers) (rows.map joinTabs)) := by
  obtain ⟨r, hr, h⟩ := bind_eq_ok.mp h
  obtain ⟨projection, hproject, h⟩ := bind_eq_ok.mp h
  obtain ⟨u, hu, h⟩ := bind_eq_ok.mp h
  obtain ⟨rfl, rfl⟩ := Prod.mk.inj (Except.ok.inj h)
  rw [Relational.select, bind_of_ok hr, bind_of_ok hproject, bind_of_ok hu, List.map_map]
  rfl

lemma WellNamed.selection (hcat : WellNamed cat) {s : SelectStatement} {headers : List Bytes}
    {rows : List (List Bytes)} (h : Window.selection cat s = .ok (headers, rows)) :
    headers ≠ [] ∧ (∀ h ∈ headers, Solid h) ∧ ∀ row ∈ rows, row ≠ [] := by
  obtain ⟨r, hr, h⟩ := bind_eq_ok.mp h
  obtain ⟨projection, hproject, h⟩ := bind_eq_ok.mp h
  obtain ⟨-, -, h⟩ := bind_eq_ok.mp h
  obtain ⟨rfl, rfl⟩ := Prod.mk.inj (Except.ok.inj h)
  obtain ⟨hne, hwords⟩ := hcat.columns _ _ r (relation_eq_ok.mp hr)
  have hrows : projection ≠ [] → ∀ row ∈ (r.satisfying s.whereClause).1.map fun e =>
      projection.map fun i => e.2.getD i [], row ≠ [] := by
    intro hsome row hrow
    obtain ⟨e, -, rfl⟩ := List.mem_map.mp hrow
    exact mt List.map_eq_nil_iff.mp hsome
  unfold project at hproject
  split_ifs at hproject ⊢ with hstar
  · refine ⟨mt List.map_eq_nil_iff.mp hne, fun h hh => ?_, hrows ?_⟩
    · obtain ⟨c, hc, rfl⟩ := List.mem_map.mp hh
      exact solid_of_isWord (hwords c hc)
    · rw [← Except.ok.inj hproject]
      exact mt List.range_eq_nil.mp (mt List.length_eq_zero_iff.mp hne)
  · refine ⟨hstar, fun h hh => ?_, hrows fun hnil => ?_⟩
    · obtain ⟨i, hi⟩ := succeeds_mapM.mp ⟨_, hproject⟩ h hh
      obtain ⟨hlt, hname, -⟩ := List.findIdx?_eq_some_iff_getElem.mp (indexOf_eq_ok.mp hi)
      rw [← eq_of_beq hname]
      exact solid_of_isWord (hwords _ (List.getElem_mem hlt))
    · have hlen := length_mapM hproject
      rw [hnil] at hlen
      exact hstar (List.length_eq_zero_iff.mp hlen.symm)

/-- What a node with this store makes of a query. -/
def answerOf (store : Store) (query : Bytes) : Except Bytes Bytes :=
  (SqlExecutor.execute store query).2.mapError Exception.what

lemma sendStatement_read {read : Bytes → Except Bytes Bytes} {line out : Bytes} {stmt : Statement}
    (hpeers : peers.size ≠ 0) (hparse : parse line = .ok stmt) (hread : isRead stmt = true)
    (hout : read line = .ok out) : sendStatement peers read write line = ⟨.kTable, out⟩ := by
  rw [sendStatement, if_neg hpeers, hparse]
  dsimp only
  rw [if_pos hread, hout]

lemma answerOf_runAll (hsqls : ∀ sql ∈ sqls, sql.length + sqls.length < 2 ^ 32)
    {query out : Bytes} (hquery : query.length < 2 ^ 32)
    (hout : (Relational.execute (catalogAfter .empty sqls) query).2 = .ok out) :
    answerOf (SqlAtomic.runAll .empty sqls) query = .ok out := by
  have hrefines : Refines 1 (SqlAtomic.runAll .empty sqls) (catalogAfter .empty sqls) :=
    Refines.empty.runAll hsqls
  rw [answerOf, (hrefines.execute (n := 0) hquery).answer, hout]
  rfl

/-- **The grid of a `SELECT`** has its headers, and it has its rows exactly when each of them can be
shown. -/
theorem select_shown_iff (hsqls : ∀ sql ∈ sqls, sql.length + sqls.length < 2 ^ 32)
    (hpeers : peers.size ≠ 0) {line : Bytes} (hline : line.length < 2 ^ 32) {s : SelectStatement}
    (hparse : parse line = .ok (.select s)) {headers : List Bytes} {rows : List (List Bytes)}
    (hselect : selection (catalogAfter .empty sqls) s = .ok (headers, rows)) :
    ∃ rows', makeHistoryEntry (sendStatement peers (answerOf (SqlAtomic.runAll .empty sqls))
        write line) = ⟨.kTable, listing (joinTabs headers) (rows.map joinTabs), headers,
          rows'⟩ ∧
      (rows' = rows ↔ ∀ row ∈ rows, Shown row) := by
  obtain ⟨hne, hsolid, hrows⟩ := (WellNamed.empty.after sqls).selection hselect
  obtain ⟨rows', hparsed, hiff⟩ := tryParse_listing hne hsolid hrows
  refine ⟨rows', ?_, hiff⟩
  have hout : (Relational.execute (catalogAfter .empty sqls) line).2 =
      .ok (listing (joinTabs headers) (rows.map joinTabs)) := by
    rw [Relational.execute, hparse]
    exact select_of_selection hselect
  rw [sendStatement_read hpeers hparse rfl (answerOf_runAll hsqls hline hout), makeHistoryEntry]
  dsimp only
  rw [hparsed]

/-- The last cell of the second row is empty. -/
def emptyCell : List Bytes := [
  text "CREATE DATABASE d",
  text "CREATE TABLE d.t (k TEXT PRIMARY KEY, v TEXT)",
  text "INSERT INTO d.t (k, v) VALUES ('a', 'x')",
  text "INSERT INTO d.t (k, v) VALUES ('b', '')"]

def onePeer : OrdMap NodeId PeerAddress := OrdMap.empty.insert 1 ⟨text "127.0.0.1", 9001⟩

def noWrites : Bytes → Except Bytes ClientResponse := fun _ => .error []

theorem select_shown_iff_emptyCell : ∃ rows',
    makeHistoryEntry (sendStatement onePeer (answerOf (SqlAtomic.runAll .empty emptyCell)) noWrites
      (text "SELECT * FROM d.t")) =
        ⟨.kTable, text "k\tv\na\tx\nb\t", [text "k", text "v"], rows'⟩ ∧
    rows' ≠ [[text "a", text "x"], [text "b", []]] := by
  obtain ⟨rows', hentry, hiff⟩ := @select_shown_iff onePeer noWrites emptyCell (by decide)
    (by decide) _ (by decide) _
      (show parse (text "SELECT * FROM d.t") =
        .ok (.select ⟨text "d", text "t", [], []⟩) by decide +kernel) _ _
          (show selection (catalogAfter .empty emptyCell) ⟨text "d", text "t", [], []⟩ =
      .ok ([text "k", text "v"], [[text "a", text "x"], [text "b", []]]) by decide +kernel)
  refine ⟨rows', hentry, fun heq => ?_⟩
  exact ((hiff.mp heq) _ (List.mem_cons_of_mem _ List.mem_cons_self)).2.1 rfl

/-- **The list of databases** is the databases there are. -/
theorem databases_listed (hsqls : ∀ sql ∈ sqls, sql.length + sqls.length < 2 ^ 32)
    (hpeers : peers.size ≠ 0) (known : List Bytes) :
    refreshKnownDatabases known (sendStatement peers (answerOf (SqlAtomic.runAll .empty sqls))
      write (text "SHOW DATABASES")) = names (catalogAfter .empty sqls) := by
  have hparse : parse (text "SHOW DATABASES") = .ok .showDatabases := by decide +kernel
  have hheading : IsWord (text "database") :=
    ⟨100, text "atabase", by decide, by decide, by decide +kernel⟩
  have hwords : ∀ d ∈ names (catalogAfter .empty sqls), IsWord d := by
    intro d hd
    obtain ⟨e, he, rfl⟩ := List.mem_map.mp hd
    refine (WellNamed.empty.after sqls).database _ fun hnone => ?_
    rw [(OrdMap.mem_entries _).mp he] at hnone
    cases hnone
  have hout : (Relational.execute (catalogAfter .empty sqls) (text "SHOW DATABASES")).2 =
      .ok (listing (text "database") (names (catalogAfter .empty sqls))) := by
    rw [Relational.execute, hparse]
    rfl
  rw [sendStatement_read hpeers hparse rfl (answerOf_runAll hsqls (by decide) hout),
    refreshKnownDatabases]
  dsimp only
  rw [tryParse_names hheading hwords]
  dsimp only
  rw [List.filterMap_map]
  exact List.filterMap_some

theorem databases_listed_emptyCell : refreshKnownDatabases [] (sendStatement onePeer
    (answerOf (SqlAtomic.runAll .empty emptyCell)) noWrites (text "SHOW DATABASES")) =
      [text "d"] := by
  have h := @databases_listed onePeer noWrites emptyCell (by decide) (by decide) []
  have hnames : names (catalogAfter .empty emptyCell) = [text "d"] := by decide +kernel
  exact h.trans hnames

end DistDB.Window
