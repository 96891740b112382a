import DistDB.SqlStore
import DistDB.TxnSystem

/-!
The routing of a statement to one shard, from `shard/routing.cpp` and the dispatch in
`raft_main.cpp`.

`TryExtractRowKey` takes the literal of an equality on the primary key for the key of the one row
the statement touches. The row itself compares the literal by the type of the column, so for an
`INT` key another spelling of the number satisfies the `WHERE` under another key
(`other_spelling_missed`). Apart from that, a statement that is sent to the shard of its key does
what it would do on every shard (`routesWhole_iff`).
-/

namespace DistDB.SqlRouting

open SqlLexer SqlParser SqlExecutor SqlTexts SqlRuns SqlAtomic SqlStore WalModel EngineMap
open Checks TxnSystem

structure ShardRange where
  id : ShardId
  startKey : Bytes

structure RoutingTable where
  shards : List ShardRange
  /-- `LoadFromFile` sorts them. -/
  sorted : shards.Pairwise fun a b => a.startKey ≤ b.startKey

namespace RoutingTable

variable (table : RoutingTable)

/-- `ShardFor`: the shard before the first one that starts behind the key; `none` if there is
none, where it throws. -/
def shardFor (key : Bytes) : Option ShardId :=
  ((table.shards.takeWhile fun s => ¬ key < s.startKey).getLast?).map ShardRange.id

def allShardIds : List ShardId := table.shards.map ShardRange.id

end RoutingTable

/-- What the shards hold: each what statements below 4 GiB have left in it, and every row where
`ShardFor` puts its key. -/
structure Content where
  routing : RoutingTable
  store : ShardId → Store
  reached : ∀ sid ∈ routing.allShardIds, ∃ sqls : List Bytes,
    (∀ sql ∈ sqls, sql.length < 2 ^ 32) ∧ store sid = runAll .empty sqls
  routed : ∀ sid ∈ routing.allShardIds, ∀ d t key blob, rowPrefix d t <+: key →
    (store sid).find key = some blob → routing.shardFor key = some sid

/-! ### The rows of a statement -/

/-- The table and the `WHERE` of a `SELECT`, `UPDATE` or `DELETE`. -/
def tableOf : Statement → Option (Bytes × Bytes × List Condition)
  | .select s => some (s.dbName, s.tableName, s.whereClause)
  | .update s => some (s.dbName, s.tableName, s.whereClause)
  | .delete s => some (s.dbName, s.tableName, s.whereClause)
  | _ => none

/-- The rows of a shard that satisfy the `WHERE`, with their keys. -/
def matching (store : Store) (d t : Bytes) (whereClause : List Condition) : List (Bytes × Row) :=
  match loadSchema store d t with
  | .error _ => []
  | .ok schema => (scan store (rowPrefix d t)).filterMap fun kv =>
    match matchRow schema whereClause kv.2 with
    | .ok (some row) => some (kv.1, row)
    | _ => none

/-- On the shard of `k` alone the statement does what it does on every shard: no other row
satisfies its `WHERE`, nothing is returned or written elsewhere, and what is written is the row
that `k` locks. -/
structure RoutesWhole (c : Content) (stmt : Statement) (d t : Bytes) (whereClause : List Condition)
    (k : Bytes) : Prop where
  keys : ∀ sid ∈ c.routing.allShardIds,
    ∀ kr ∈ matching (c.store sid) d t whereClause, kr.1 = k
  elsewhere : ∀ sid ∈ c.routing.allShardIds, c.routing.shardFor k ≠ some sid →
    matching (c.store sid) d t whereClause = []
  unchanged : ∀ sid ∈ c.routing.allShardIds, c.routing.shardFor k ≠ some sid →
    (executeStatement (c.store sid) stmt).1 = []
  silent : ∀ s, stmt = .select s → ∀ sid ∈ c.routing.allShardIds,
    c.routing.shardFor k ≠ some sid →
      ∀ out, (executeStatement (c.store sid) stmt).2 = .ok out →
        ∃ headers, out = joinTabs headers ++ noRows
  locked : ∀ sid ∈ c.routing.allShardIds, ∀ mu ∈ (executeStatement (c.store sid) stmt).1,
    mu.record.key = k

/-- The text, dispatched by a node of shard `here`, is routed whole. -/
def Routed (c : Content) (here : ShardId) (sql : Bytes) : Prop :=
  ∀ stmt d t whereClause k, parse sql = .ok stmt → tableOf stmt = some (d, t, whereClause) →
    tryExtractRowKey (c.store here) stmt = some k → RoutesWhole c stmt d t whereClause k

/-- Not the literal, but the same number in an `INT` column, or a value of another column. -/
def Misspelt (pk pk' : ColumnDef) (literal cell : Bytes) : Prop :=
  cell ≠ literal ∧ (pk'.type = .kInt ∨ pk'.name ≠ pk.name)

/-- The literal that the `WHERE` demands of the primary key column `pk`, in the schema of a node
of shard `here`. -/
def Demands (c : Content) (here : ShardId) (d t : Bytes) (whereClause : List Condition)
    (pk : ColumnDef) (literal : Bytes) : Prop :=
  ∃ schema idx, loadSchema (c.store here) d t = .ok schema ∧
    schema.primaryKeyIndex = some idx ∧ schema.columns[idx]? = some pk ∧
      findPkEquality schema whereClause = .ok (some literal)

/-- No row that satisfies the `WHERE` has its primary key spelled otherwise than the literal. -/
def SpelledAlike (c : Content) (here : ShardId) (sql : Bytes) : Prop :=
  ∀ stmt d t whereClause pk literal, parse sql = .ok stmt →
    tableOf stmt = some (d, t, whereClause) → Demands c here d t whereClause pk literal →
    ∀ sid ∈ c.routing.allShardIds, ∀ schema idx pk' cell,
      loadSchema (c.store sid) d t = .ok schema → schema.primaryKeyIndex = some idx →
      schema.columns[idx]? = some pk' →
      ∀ kr ∈ matching (c.store sid) d t whereClause, kr.2[idx]? = some cell →
        ¬ Misspelt pk pk' literal cell

section

variable {store : Store} {d t : Bytes} {whereClause : List Condition}

lemma mem_matching {kr : Bytes × Row} : kr ∈ matching store d t whereClause ↔
    ∃ schema blob, loadSchema store d t = .ok schema ∧ rowPrefix d t <+: kr.1 ∧
      store.find kr.1 = some blob ∧ matchRow schema whereClause blob = .ok (some kr.2) := by
  unfold matching
  rcases hschema : loadSchema store d t with e | schema
  · simp
  · simp only [List.mem_filterMap, Except.ok.injEq]
    constructor
    · rintro ⟨⟨key, blob⟩, hkv, h⟩
      obtain ⟨hkey, hblob⟩ := mem_scan.mp hkv
      split at h
      · rename_i row hrow
        cases h
        exact ⟨schema, blob, rfl, hkey, hblob, hrow⟩
      · cases h
    · rintro ⟨_, blob, rfl, hkey, hblob, hrow⟩
      exact ⟨(kr.1, blob), mem_scan.mpr ⟨hkey, hblob⟩, by simp [hrow]⟩

/-- What a statement writes, it writes under the key of a row that satisfies its `WHERE`. -/
lemma executeStatement_writes {stmt : Statement} (hstmt : tableOf stmt = some (d, t, whereClause))
    {mu : Mutation} (hmu : mu ∈ (executeStatement store stmt).1) :
    ∃ kr ∈ matching store d t whereClause, kr.1 = mu.record.key := by
  cases stmt with
  | select s => cases hmu
  | update s =>
    cases hstmt
    simp only [executeStatement, executeUpdate, Effect.ofRows] at hmu
    split at hmu
    · cases hmu
    · rename_i writes count hr
      obtain ⟨schema, hschema, hr⟩ := bind_eq_ok.mp hr
      obtain ⟨assignments, -, hr⟩ := bind_eq_ok.mp hr
      obtain ⟨rfl, rfl⟩ := Prod.mk.inj (Except.ok.inj hr)
      obtain ⟨kv, hkv, row, hmatch, hwrite⟩ := mem_writeRows hmu
      obtain ⟨hkey, hblob⟩ := mem_scan.mp hkv
      exact ⟨(kv.1, row), mem_matching.mpr ⟨schema, kv.2, hschema, hkey, hblob, hmatch⟩,
        (rewrite_key hwrite).symm⟩
  | delete s =>
    cases hstmt
    simp only [executeStatement, executeDelete, Effect.ofRows] at hmu
    split at hmu
    · cases hmu
    · rename_i writes count hr
      obtain ⟨schema, hschema, hr⟩ := bind_eq_ok.mp hr
      obtain ⟨rfl, rfl⟩ := Prod.mk.inj (Except.ok.inj hr)
      obtain ⟨kv, hkv, row, hmatch, hwrite⟩ := mem_writeRows hmu
      obtain ⟨hkey, hblob⟩ := mem_scan.mp hkv
      cases hwrite
      exact ⟨(kv.1, row), mem_matching.mpr
        ⟨schema, kv.2, hschema, hkey, hblob, hmatch⟩, rfl⟩
  | _ => cases hstmt

lemma executeSelect_silent {s : SelectStatement} {out : Bytes}
    (hnone : matching store s.dbName s.tableName s.whereClause = [])
    (h : (executeStatement store (.select s)).2 = .ok out) :
    ∃ headers, out = joinTabs headers ++ noRows := by
  obtain ⟨schema, hschema, h⟩ := bind_eq_ok.mp h
  obtain ⟨projection, -, h⟩ := bind_eq_ok.mp h
  obtain ⟨lines, hlines, h⟩ := bind_eq_ok.mp h
  have hfound : lines.filterMap id = [] := by
    refine List.filterMap_eq_nil_iff.mpr fun line hline => ?_
    obtain ⟨⟨key, blob⟩, hkv, hselect⟩ := mem_mapM hlines line hline
    obtain ⟨hkey, hblob⟩ := mem_scan.mp hkv
    obtain ⟨found, hfound, hselect⟩ := bind_eq_ok.mp hselect
    cases found with
    | none => cases hselect; rfl
    | some row =>
      have hmem : (key, row) ∈ matching store s.dbName s.tableName s.whereClause :=
        mem_matching.mpr ⟨schema, blob, hschema, hkey, hblob, hfound⟩
      rw [hnone] at hmem
      cases hmem
  rw [hfound] at h
  cases h
  exact ⟨if s.columns = [] then schema.columns.map ColumnDef.name else s.columns, by simp⟩

/-- The key of the statement is made of the literal that it demands of the primary key. -/
lemma tryExtractRowKey_iff {stmt : Statement} (hstmt : tableOf stmt = some (d, t, whereClause))
    {k : Bytes} : tryExtractRowKey store stmt = some k ↔
      ∃ schema literal, loadSchema store d t = .ok schema ∧
        findPkEquality schema whereClause = .ok (some literal) ∧ k = rowKey d t literal := by
  have hextract : extractRowKey store stmt = (do
      let schema ← loadSchema store d t
      let pk ← findPkEquality schema whereClause
      return pk.map (rowKey d t)) := by
    cases stmt <;> cases hstmt <;> rfl
  unfold tryExtractRowKey
  rw [hextract]
  constructor
  · intro h
    split at h
    · rename_i key hkey
      obtain ⟨schema, hschema, hkey⟩ := bind_eq_ok.mp hkey
      obtain ⟨pk, hpk, hkey⟩ := bind_eq_ok.mp hkey
      cases hkey
      obtain ⟨literal, rfl, rfl⟩ := Option.map_eq_some_iff.mp h
      exact ⟨schema, literal, hschema, hpk, rfl⟩
    · cases h
  · rintro ⟨schema, literal, hschema, hpk, rfl⟩
    rw [bind_of_ok hschema, bind_of_ok hpk]
    rfl

lemma findPkEquality_spec {schema : TableSchema} {literal : Bytes}
    (h : findPkEquality schema whereClause = .ok (some literal)) :
    ∃ idx pk, schema.primaryKeyIndex = some idx ∧ schema.columns[idx]? = some pk ∧
      ∃ c ∈ whereClause, c.column = pk.name ∧ c.op = .kEq ∧ c.literal = literal := by
  unfold findPkEquality at h
  split at h
  · cases h
  · rename_i idx hidx
    obtain ⟨pk, hpk, h⟩ := bind_eq_ok.mp h
    obtain ⟨c, hc, rfl⟩ := Option.map_eq_some_iff.mp (Except.ok.inj h)
    have hfound := List.find?_some hc
    simp only [Bool.and_eq_true, beq_iff_eq] at hfound
    exact ⟨idx, pk, hidx, columnAt_eq_ok.mp hpk, c, List.mem_of_find?_eq_some hc, hfound.1,
      hfound.2, rfl⟩

lemma matchesWhere_spec {schema : TableSchema} {row : Row} (conds : List Condition)
    (h : matchesWhere schema row conds = .ok true) : ∀ c ∈ conds, ∃ idx col lhs,
      schema.columnIndex c.column = some idx ∧ schema.columns[idx]? = some col ∧
      row[idx]? = some lhs ∧ compareLiterals col.type lhs c.op c.literal = .ok true := by
  induction conds with
  | nil => exact fun c hc => nomatch hc
  | cons cond conds ih =>
    rw [matchesWhere] at h
    obtain ⟨idx, hidx, h⟩ := bind_eq_ok.mp h
    obtain ⟨col, hcol, h⟩ := bind_eq_ok.mp h
    obtain ⟨lhs, hlhs, h⟩ := bind_eq_ok.mp h
    obtain ⟨holds, hcompare, h⟩ := bind_eq_ok.mp h
    cases holds with
    | false => cases h
    | true =>
      refine List.forall_mem_cons.mpr ⟨⟨idx, col, lhs, indexOf_eq_ok.mp hidx,
        columnAt_eq_ok.mp hcol, ?_, hcompare⟩, ih h⟩
      unfold cell at hlhs
      split at hlhs
      · rename_i v hv
        cases hlhs
        exact hv
      · cases hlhs

end

variable (c : Content) (here : ShardId) (sql : Bytes)

lemma matching_rowOf {sid : ShardId} (hsid : sid ∈ c.routing.allShardIds) {d t : Bytes}
    (hd : IsName d) (ht : IsName t) {whereClause : List Condition} {kr : Bytes × Row}
    (hkr : kr ∈ matching (c.store sid) d t whereClause) :
    ∃ schema idx pk cell, loadSchema (c.store sid) d t = .ok schema ∧
      schema.primaryKeyIndex = some idx ∧ schema.columns[idx]? = some pk ∧
      schema.columnIndex pk.name = some idx ∧ kr.2[idx]? = some cell ∧
      kr.1 = rowKey d t cell ∧
      matchesWhere schema kr.2 whereClause = .ok true := by
  obtain ⟨sqls, hsqls, hstore⟩ := c.reached sid hsid
  have hwell : WellStored (c.store sid) := hstore ▸ runAll_wellStored wellStored_empty hsqls
  obtain ⟨schema, blob, hschema, hkey, hblob, hmatch⟩ := mem_matching.mp hkr
  obtain ⟨stored, idx, cell, hstored, hidx, hcell, hrowKey, hfirst⟩ :=
    hwell.row d t schema hd ht hschema kr.1 blob hkey hblob
  obtain ⟨hwhere, stored', missing, hstored', hrow, -⟩ := matchRow_spec hmatch
  cases hstored.symm.trans hstored'
  have hlt := primaryKeyIndex_lt hidx
  refine ⟨schema, idx, _, cell, hschema, hidx, List.getElem?_eq_getElem hlt,
    hfirst _ (List.getElem?_eq_getElem hlt), ?_, hrowKey, hwhere⟩
  obtain ⟨hlt', -⟩ := List.getElem?_eq_some_iff.mp hcell
  rw [hrow, List.getElem?_append_left hlt', hcell]

variable {sql} in
lemma parse_names {stmt : Statement} {d t : Bytes} {whereClause : List Condition}
    (hparse : parse sql = .ok stmt) (hstmt : tableOf stmt = some (d, t, whereClause)) :
    IsName d ∧ IsName t := by
  obtain ⟨tokens, rest, htokens, body, tail, hbody, -, rfl, -⟩ := SqlGrammar.parse_iff.mp hparse
  have hfits : ∀ tok ∈ body, TokenFits sql.length tok.type tok.text := fun tok htok =>
    tokenize_fits htokens tok (List.mem_append_left _ htok)
  cases hbody with
  | select _ _ _ htable =>
    cases hstmt
    exact TableName.names htable fun tok htok => hfits tok (by simp [htok])
  | update _ htable =>
    cases hstmt
    exact TableName.names htable fun tok htok => hfits tok (by simp [htok])
  | delete _ _ htable =>
    cases hstmt
    exact TableName.names htable fun tok htok => hfits tok (by simp [htok])
  | _ => cases hstmt

/-- If every row that satisfies the `WHERE` has the key `k`, the shard of `k` is enough. -/
lemma routesWhole_of_keys {stmt : Statement} {d t : Bytes} {whereClause : List Condition}
    {k : Bytes}
    (hstmt : tableOf stmt = some (d, t, whereClause))
    (hkeys : ∀ sid ∈ c.routing.allShardIds, ∀ kr ∈ matching (c.store sid) d t whereClause,
      kr.1 = k) : RoutesWhole c stmt d t whereClause k := by
  have helsewhere : ∀ sid ∈ c.routing.allShardIds, c.routing.shardFor k ≠ some sid →
      matching (c.store sid) d t whereClause = [] := by
    intro sid hsid hne
    refine List.eq_nil_iff_forall_not_mem.mpr fun kr hkr => hne ?_
    obtain ⟨schema, blob, -, hkey, hblob, -⟩ := mem_matching.mp hkr
    rw [← hkeys sid hsid kr hkr]
    exact c.routed sid hsid d t kr.1 blob hkey hblob
  refine ⟨hkeys, helsewhere, fun sid hsid hne => ?_, ?_, fun sid hsid mu hmu => ?_⟩
  · refine List.eq_nil_iff_forall_not_mem.mpr fun mu hmu => ?_
    obtain ⟨kr, hkr, -⟩ := executeStatement_writes hstmt hmu
    rw [helsewhere sid hsid hne] at hkr
    cases hkr
  · rintro s rfl sid hsid hne out hout
    cases hstmt
    exact executeSelect_silent (helsewhere sid hsid hne) hout
  · obtain ⟨kr, hkr, hkey⟩ := executeStatement_writes hstmt hmu
    rw [← hkey]
    exact hkeys sid hsid kr hkr

/-- **When one shard is enough**: exactly when no row that satisfies the `WHERE` has its primary
key spelled otherwise than the literal. -/
theorem routesWhole_iff : Routed c here sql ↔ SpelledAlike c here sql := by
  constructor
  · intro h stmt d t whereClause pk literal hparse hstmt hdemands sid hsid schema idx pk' cell
      hschema hidx hpk' kr hkr hcell hmisspelt
    obtain ⟨schema₀, idx₀, hschema₀, -, -, hfind⟩ := hdemands
    obtain ⟨hd, ht⟩ := parse_names hparse hstmt
    have hroutes := h stmt d t whereClause (rowKey d t literal) hparse hstmt
      ((tryExtractRowKey_iff hstmt).mpr ⟨schema₀, literal, hschema₀, hfind, rfl⟩)
    obtain ⟨schema', idx', pk'', cell', hschema', hidx', -, -, hcell', hkey, -⟩ :=
      matching_rowOf c hsid hd ht hkr
    cases hschema.symm.trans hschema'
    cases hidx.symm.trans hidx'
    cases hcell.symm.trans hcell'
    have hsame := hroutes.keys sid hsid kr hkr
    rw [hkey, rowKey_inj] at hsame
    exact hmisspelt.1 hsame
  · intro h stmt d t whereClause k hparse hstmt hextract
    obtain ⟨schema₀, literal, hschema₀, hfind, rfl⟩ :=
      (tryExtractRowKey_iff hstmt).mp hextract
    obtain ⟨idx₀, pk, hidx₀, hpk, cond, hcond, hcolumn, hop, rfl⟩ :=
      findPkEquality_spec hfind
    obtain ⟨hd, ht⟩ := parse_names hparse hstmt
    refine routesWhole_of_keys c hstmt fun sid hsid kr hkr => ?_
    obtain ⟨schema, idx, pk', cell, hschema, hidx, hpk', hfirst, hcell, hkey, hwhere⟩ :=
      matching_rowOf c hsid hd ht hkr
    have hspelled := h stmt d t whereClause pk cond.literal hparse hstmt
      ⟨schema₀, idx₀, hschema₀, hidx₀, hpk, hfind⟩ sid hsid schema idx pk' cell
      hschema hidx hpk' kr
      hkr hcell
    rw [hkey, rowKey_inj]
    by_contra hne
    -- the column is the primary key column of this shard too, and no `INT`
    have hname : pk'.name = pk.name := by
      by_contra hname
      exact hspelled ⟨hne, .inr hname⟩
    have htype : pk'.type = .kText := by
      cases htype : pk'.type with
      | kText => rfl
      | kInt => exact absurd ⟨hne, .inl htype⟩ hspelled
    obtain ⟨idx', col, lhs, hidx', hcol, hlhs, hcompare⟩ :=
      matchesWhere_spec _ hwhere cond hcond
    rw [hcolumn, ← hname, hfirst] at hidx'
    cases hidx'
    cases hpk'.symm.trans hcol
    cases hcell.symm.trans hlhs
    rw [htype, hop] at hcompare
    simp only [compareLiterals, compareWith, Except.ok.injEq, decide_eq_true_eq] at hcompare
    exact hne hcompare

def tableSqls : List Bytes := [
  text "CREATE DATABASE d",
  text "CREATE TABLE d.t (k INT PRIMARY KEY, n INT)"]

def insertSql : Bytes := text "INSERT INTO d.t (k, n) VALUES (01, 5)"

/-- The first shard holds the keys below `__row__/d/t/1`. -/
def twoRanges : RoutingTable :=
  ⟨[⟨1, []⟩, ⟨2, rowKey (text "d") (text "t") (text "1")⟩], by decide⟩

lemma routed_of_entries {table : RoutingTable} {store : Store} {sid : ShardId}
    (h : ∀ kv ∈ store.entries, Bytes.startsWith kv.1 (text "__row__/") = true →
      table.shardFor kv.1 = some sid) {d t key blob : Bytes} (hkey : rowPrefix d t <+: key)
    (hblob : store.find key = some blob) : table.shardFor key = some sid := by
  refine h (key, blob) ((OrdMap.mem_entries store).mpr hblob) ?_
  rw [Bytes.startsWith_iff]
  refine List.IsPrefix.trans ?_ hkey
  simp only [rowPrefix, List.append_assoc]
  exact List.prefix_append _ _

/-- The row `01` on the first shard. -/
def twoShards : Content where
  routing := twoRanges
  store sid := runAll .empty (if sid = 1 then tableSqls ++ [insertSql] else tableSqls)
  reached := by
    rintro sid -
    have hall : ∀ sql ∈ tableSqls ++ [insertSql], sql.length < 2 ^ 32 := by decide
    refine ⟨_, fun sql hsql => ?_, rfl⟩
    split_ifs at hsql
    · exact hall sql hsql
    · exact hall sql (List.mem_append_left _ hsql)
  routed := by
    intro sid hsid d t key blob
    have hsid : sid = 1 ∨ sid = 2 := by simpa [twoRanges, RoutingTable.allShardIds] using hsid
    rcases hsid with rfl | rfl
    · exact routed_of_entries (by decide +kernel)
    · exact routed_of_entries (by decide +kernel)

/-- **A row under another spelling is missed**: the row `01` satisfies `k = 1`, but its key is
not the one the statement is routed by, and it lies on another shard. -/
theorem other_spelling_missed : ¬ ∀ (c : Content) (here : ShardId) (sql : Bytes),
    Routed c here sql := by
  intro hall
  have hparse : parse (text "SELECT * FROM d.t WHERE k = 1") =
      .ok (.select ⟨text "d", text "t", [],
        [⟨text "k", .kEq, text "1"⟩]⟩) := by decide +kernel
  have hkey : tryExtractRowKey (twoShards.store 1)
      (.select ⟨text "d", text "t", [], [⟨text "k", .kEq, text "1"⟩]⟩) =
      some (rowKey (text "d") (text "t") (text "1")) := by decide +kernel
  have hroutes := hall twoShards 1 _ _ _ _ _ _ hparse rfl hkey
  have hmatching : matching (twoShards.store 1) (text "d") (text "t")
      [⟨text "k", .kEq, text "1"⟩] =
      [(rowKey (text "d") (text "t") (text "01"), [text "01", text "5"])] := by decide +kernel
  have hother := hroutes.elsewhere 1 (by decide) (by decide +kernel)
  rw [hmatching] at hother
  cases hother

end DistDB.SqlRouting
