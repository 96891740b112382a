import DistDB.ShardedRuns

/-!
What the queries of the sessions print. A `SELECT` that names a row reads the shard of the row, any
other reads every shard, and the names of tables and databases are on every shard. So a query that
one store answers is answered alike (`reads_alike`), other than rows that another spelling of the
key hides and rows that read like an empty result.
-/

namespace DistDB.ShardedReads

open NodeModel TxnModel TxnSystem SqlParser SqlExecutor SqlRuns SqlAtomic SqlStore SqlRouting
open SqlTables SqlCells SqlShards SqlScatter Shell ShardedSessions ShardedTxns ShardedRuns
open Checks Bytes

variable {σ ι : Type} {o : Outside σ} {p : Process} {home : ShardId}
  {shards : σ → ShardId → Shard} {table : RoutingTable} {whole : Store} {repl : Repl}
  {sql out : Bytes} {w : σ}

lemma mapM_filter {α β ε : Type} {f : α → Except ε (Option β)} {here : α → Bool}
    {l : List α} {lines : List (Option β)} (h : l.mapM f = .ok lines)
    (hother : ∀ a ∈ l, here a = false → ∀ b, f a = .ok b → b = none) :
    ∃ lines', (l.filter here).mapM f = .ok lines' ∧
      lines'.filterMap id = lines.filterMap id := by
  induction l generalizing lines with
  | nil =>
    cases h
    exact ⟨[], rfl, rfl⟩
  | cons a l ih =>
    rw [List.mapM_cons] at h
    obtain ⟨line, hline, h⟩ := bind_eq_ok.mp h
    obtain ⟨rest, hrest, h⟩ := bind_eq_ok.mp h
    cases h
    obtain ⟨hhead, htail⟩ := List.forall_mem_cons.mp hother
    obtain ⟨lines', hlines', hsame⟩ := ih hrest htail
    cases ha : here a with
    | true =>
      rw [List.filter_cons_of_pos ha, List.mapM_cons, hline, hlines']
      exact ⟨line :: lines', rfl, by rw [List.filterMap_cons, List.filterMap_cons, hsame]⟩
    | false =>
      rw [List.filter_cons_of_neg (by simp [ha])]
      obtain rfl := hhead ha line hline
      exact ⟨lines', hlines', hsame⟩

lemma select_parts {store : Store} {q : SelectStatement} (h : (executeSelect store q).2 = .ok out) :
    ∃ schema projection lines, loadSchema store q.dbName q.tableName = .ok schema ∧
      project schema q.columns = .ok projection ∧
      ((scan store (rowPrefix q.dbName q.tableName)).mapM
        fun kv => selectRow schema q.whereClause projection kv.2) = .ok lines ∧
      out = render (joinTabs (headers schema q)) (lines.filterMap id) := by
  rcases hschema : loadSchema store q.dbName q.tableName with e | schema
  · cases (executeSelect_unloaded hschema).symm.trans h
  rcases hprojection : project schema q.columns with e | projection
  · cases (executeSelect_unprojected hschema hprojection).symm.trans h
  rw [executeSelect_eq hschema hprojection] at h
  rcases hlines : (scan store (rowPrefix q.dbName q.tableName)).mapM
    fun kv => selectRow schema q.whereClause projection kv.2 with e | lines
  · rw [hlines] at h
    cases h
  · rw [hlines] at h
    cases h
    exact ⟨schema, projection, lines, rfl, hprojection, hlines, rfl⟩

lemma matchRow_of_selectRow {schema : TableSchema} {whereClause : List Condition}
    {projection : List ℕ} {blob line : Bytes}
    (h : selectRow schema whereClause projection blob = .ok (some line)) :
    ∃ row, matchRow schema whereClause blob = .ok (some row) := by
  obtain ⟨found, hfound, h⟩ := bind_eq_ok.mp h
  cases found with
  | none => cases h
  | some row => exact ⟨row, hfound⟩

lemma select_at_key {q : SelectStatement} {k : Bytes} {sid : ShardId}
    (hsid : table.shardFor k = some sid)
    (hpinned : ∀ kr ∈ matching whole q.dbName q.tableName q.whereClause, kr.1 = k)
    (h : (executeSelect whole q).2 = .ok out) :
    (executeSelect (share table whole sid) q).2 = .ok out := by
  obtain ⟨schema, projection, lines, hschema, hprojection, hlines, rfl⟩ := select_parts h
  have hother : ∀ kv ∈ scan whole (rowPrefix q.dbName q.tableName),
      decide (Placement.Lives (owner table) sid kv.1) = false →
      ∀ line, selectRow schema q.whereClause projection kv.2 = .ok line → line = none := by
    rintro ⟨key, blob⟩ hkv haway line hline
    obtain ⟨hkey, hblob⟩ := mem_scan.mp hkv
    cases line with
    | none => rfl
    | some line =>
      obtain ⟨row, hrow⟩ := matchRow_of_selectRow hline
      have hk : key = k :=
        hpinned (key, row) (mem_matching.mpr ⟨schema, blob, hschema, hkey, hblob, hrow⟩)
      refine absurd ?_ (of_decide_eq_false haway)
      exact .inr ((owner_rowPrefix hkey).trans (hk ▸ hsid))
  obtain ⟨lines', hlines', hsame⟩ := mapM_filter hlines hother
  rw [executeSelect_eq ((loadSchema_share _ _).trans hschema) hprojection, scan_share, hlines',
    ← hsame]
  rfl

lemma scan_shares (hcovers : Covers table) (d t : Bytes) :
    (table.allShardIds.flatMap fun sid => scan (share table whole sid) (rowPrefix d t)) =
      scan whole (rowPrefix d t) := by
  have hrow : ∀ sid kv, kv ∈ scan (share table whole sid) (rowPrefix d t) ↔
      kv ∈ scan whole (rowPrefix d t) ∧ table.shardFor kv.1 = some sid := by
    intro sid kv
    rw [scan_share, List.mem_filter, decide_eq_true_eq]
    refine and_congr_right fun hkv => ?_
    obtain ⟨sid', hsid'⟩ := Option.ne_none_iff_exists'.mp (hcovers.covered kv.1)
    rw [Placement.lives_iff ((owner_rowPrefix (mem_scan.mp hkv).1).trans hsid'), hsid',
      Option.some.injEq]
  refine OrdMap.asc_of_mem ?_ (scan_asc _ _) fun kv => ?_
  · rw [OrdMap.Asc, List.pairwise_flatMap]
    refine ⟨fun sid _ => scan_asc _ _, (ranges_apart hcovers.distinct).imp ?_⟩
    intro a b hapart x hx y hy
    exact hapart x.1 y.1 ((hrow a x).mp hx).2 ((hrow b y).mp hy).2
  · rw [List.mem_flatMap]
    constructor
    · rintro ⟨sid, -, hkv⟩
      exact ((hrow sid kv).mp hkv).1
    · intro hkv
      obtain ⟨sid, hsid⟩ := Option.ne_none_iff_exists'.mp (hcovers.covered kv.1)
      exact ⟨sid, shardFor_mem hsid, (hrow sid kv).mpr ⟨hkv, hsid⟩⟩

lemma select_everywhere {q : SelectStatement} (hcovers : Covers table)
    (hnamed : NamedSchemas whole) (hparse : parse sql = .ok (.select q))
    (hmergeable : Mergeable (table.allShardIds.map fun sid => printed (share table whole sid) q))
    (h : (executeSelect whole q).2 = .ok out) :
    ∃ results, (table.allShardIds.mapM fun sid => (executeSelect (share table whole sid) q).2) =
      .ok results ∧ mergeSelectResults results = out := by
  obtain ⟨schema, projection, lines, hschema, hprojection, hlines, rfl⟩ := select_parts h
  have hschemas : ∀ sid, loadSchema (share table whole sid) q.dbName q.tableName = .ok schema :=
    fun sid => (loadSchema_share _ _).trans hschema
  rw [← scan_shares hcovers, mapM_flatMap] at hlines
  rcases hparts : table.allShardIds.mapM fun sid =>
    (scan (share table whole sid) (rowPrefix q.dbName q.tableName)).mapM fun kv =>
      selectRow schema q.whereClause projection kv.2 with e | parts
  · rw [hparts] at hlines
    cases hlines
  rw [hparts] at hlines
  cases hlines
  have hprinted : (table.allShardIds.map fun sid => printed (share table whole sid) q) =
      parts.map (List.filterMap id) :=
    map_of_mapM hparts fun sid _ lines hlines => printed_eq (hschemas sid) hprojection hlines
  have hne : parts.map (List.filterMap id) ≠ [] := by
    intro hnil
    obtain ⟨sid, hsid⟩ := Option.ne_none_iff_exists'.mp (hcovers.covered [])
    have hlen := congrArg List.length (hprinted.trans hnil)
    rw [List.length_map] at hlen
    have hids := List.length_eq_zero_iff.mp hlen
    have hmem := shardFor_mem hsid
    rw [hids] at hmem
    cases hmem
  refine ⟨(parts.map (List.filterMap id)).map (render (joinTabs (headers schema q))), ?_, ?_⟩
  · rw [mapM_congr fun sid _ => executeSelect_eq (hschemas sid) hprojection, mapM_map, hparts,
      List.map_map]
    rfl
  · rw [hprinted] at hmergeable
    rw [(merge_render (not_newline_headers hnamed hparse hschema) hne).mpr hmergeable,
      List.filterMap_flatten]

/-! ### What is printed -/

lemma query_answered (h : Serves o p.shardId shards) (sid : ShardId) :
    (query o p sid sql w).2 = answered (execute (shards w sid).store sql).2 ∧
      shards (query o p sid sql w).1 = shards w := by
  obtain ⟨hsame, hanswer⟩ := h.read sid sql w
  unfold query
  split_ifs with hhome
  · subst hhome
    rw [executeHere, h.engine]
    exact ⟨rfl, rfl⟩
  · exact ⟨hanswer, hsame⟩

lemma gather_answered (h : Serves o p.shardId shards) {sids : List ShardId} {results : List Bytes}
    (hresults : (sids.mapM fun sid => (execute (shards w sid).store sql).2) = .ok results)
    (shardResults failures : List Bytes) : (gather o p sql sids shardResults failures w).2 =
      (shardResults ++ results, failures) := by
  induction sids generalizing shardResults results w with
  | nil =>
    obtain rfl : results = [] := (Except.ok.inj hresults).symm
    exact congrArg (·, failures) (List.append_nil _).symm
  | cons sid sids ih =>
    rw [List.mapM_cons] at hresults
    obtain ⟨result, hresult, hresults⟩ := bind_eq_ok.mp hresults
    obtain ⟨rest, hrest, hresults⟩ := bind_eq_ok.mp hresults
    cases hresults
    obtain ⟨hanswer, hsame⟩ := @query_answered _ o p shards sql w h sid
    rw [hresult] at hanswer
    have hquery : query o p sid sql w = ((query o p sid sql w).1, .ok result) :=
      Prod.ext rfl hanswer
    rw [gather, hquery]
    rw [← hsame] at hrest
    show (gather o p sql sids (shardResults ++ [result]) failures _).2 = _
    rw [ih hrest, List.append_assoc]
    rfl

lemma scatter_of_gather {line : Bytes} {results : List Bytes}
    (h : (gather o p line p.routing.allShardIds [] [] w).2 = (results, [])) :
    (scatter o p line w).2 = mergeSelectResults results ++ endl := by
  have hgather : gather o p line p.routing.allShardIds [] [] w =
      ((gather o p line p.routing.allShardIds [] [] w).1, results, []) := Prod.ext rfl h
  rw [scatter, hgather]
  rfl

/-- The shards answer the query as one store does: no row that satisfies a `WHERE` has its key in
another spelling, and no row is lost by the merge. -/
inductive ReadsAlike (table : RoutingTable) (whole : Store) : Statement → Prop
  | row {q k} : tryExtractRowKey whole (.select q) = some k →
      (∀ kr ∈ matching whole q.dbName q.tableName q.whereClause, kr.1 = k) →
      ReadsAlike table whole (.select q)
  | rows {q} : tryExtractRowKey whole (.select q) = none →
      Mergeable (table.allShardIds.map fun sid => printed (share table whole sid) q) →
      ReadsAlike table whole (.select q)
  | tables {s} : ReadsAlike table whole (.showTables s)
  | databases : ReadsAlike table whole .showDatabases

/-- The line is a statement, and runs where it is typed. -/
structure Dispatched (repl : Repl) (input : Bytes) (stmt : Statement) : Prop where
  word : ∃ first args, firstWord input = some (first, args) ∧ first ≠ text "commit" ∧
    first ∉ ownWords
  outside : repl.inTxn = false
  parsed : parse (stripBom input) = .ok stmt

lemma pass_dispatched {input : Bytes} {stmt : Statement} (h : Dispatched repl input stmt) :
    pass o p repl input w = dispatch o p repl (stripBom input) stmt w := by
  obtain ⟨⟨first, args, hfirst, hcommit, hown⟩, houtside, hparsed⟩ := h
  rw [firstWord] at hfirst
  unfold Shell.pass
  rw [hfirst]
  show command o p repl (stripBom input) first args w = _
  rw [command_statement hcommit hown, runStatement, hparsed, houtside]
  rfl

section

variable {line : Bytes} (hcovers : Covers p.routing) (h : Serves o p.shardId shards)
  (hhome : p.shardId ∈ p.routing.allShardIds) (hholds : Holds p.routing (shards w) whole)

include hcovers h hhome hholds

/-- **What a query prints** is what one store answers. -/
theorem dispatch_prints {stmt : Statement} (hnamed : NamedSchemas whole)
    (hparse : parse line = .ok stmt) (halike : ReadsAlike p.routing whole stmt)
    (hout : (execute whole line).2 = .ok out) :
    (dispatch o p repl line stmt w).2 = .ok (repl, out ++ endl) := by
  have hexecute : ∀ store, execute store line = executeStatement store stmt := by
    intro store
    rw [execute, hparse]
  have hstore : ∀ sid ∈ p.routing.allShardIds,
      (shards w sid).store = share p.routing whole sid :=
    fun sid hsid => by rw [hholds sid hsid]
  rw [hexecute] at hout
  have hhere : executeStatement (share p.routing whole p.shardId) stmt =
      executeStatement whole stmt →
      Shell.printed (executeHere o line w) = out ++ endl := by
    intro hsame
    rw [executeHere, h.engine, hstore _ hhome, hexecute, hsame, hout]
    rfl
  have hengine : ∀ q, tryExtractRowKey (o.engine w) (.select q) =
      tryExtractRowKey whole (.select q) := by
    intro q
    rw [h.engine, hstore _ hhome, tryExtractRowKey_share]
  cases halike with
  | @tables s =>
    exact congrArg (fun text => Except.ok (repl, text)) (hhere (executeShowTables_share s))
  | databases =>
    exact congrArg (fun text => Except.ok (repl, text)) (hhere executeShowDatabases_share)
  | @rows q hkey hmergeable =>
    obtain ⟨results, hresults, hmerged⟩ :=
      select_everywhere hcovers hnamed hparse hmergeable hout
    have hanswers : (p.routing.allShardIds.mapM
        fun sid => (execute (shards w sid).store line).2) = .ok results := by
      rw [← hresults]
      refine mapM_congr fun sid hsid => ?_
      rw [hstore sid hsid, hexecute]
      rfl
    have hgather := gather_answered h hanswers [] []
    simp only [dispatch, hengine, hkey]
    rw [scatter_of_gather hgather, List.nil_append, hmerged]
  | @row q k hkey hpinned =>
    obtain ⟨sid, hsid⟩ := Option.ne_none_iff_exists'.mp (hcovers.covered k)
    have hanswer := (@query_answered _ o p shards line w h sid).1
    have hown : (executeStatement (share p.routing whole sid) (.select q)).2 = .ok out :=
      select_at_key hsid hpinned hout
    rw [hstore _ (shardFor_mem hsid), hexecute, hown] at hanswer
    simp only [dispatch, hengine, hkey]
    unfold routed
    rw [hsid]
    show Except.ok (repl, Shell.printed (query o p sid line w).2) = _
    rw [hanswer]
    rfl

end

/-- **A query on the shards prints what one store answers**, in every state that the sessions lead
to from an empty database. -/
theorem reads_alike [DecidableEq ι] {o : ι → Outside σ} {p : ι → Process}
    (hcluster : Cluster o p shards table) (hstart : Holds table (shards w) .empty)
    {s : Sessions ι σ}
    (h : Reach (StepOf (step o p)) (fun s e => Fair s.store (s.repls e.1) e.2)
      ⟨w, fun _ => .start, .empty⟩ s) {i : ι} {input : Bytes} {stmt : Statement}
    (hdispatched : Dispatched (s.repls i) input stmt) (halike : ReadsAlike table s.store stmt)
    (hout : (execute s.store (stripBom input)).2 = .ok out) :
    (pass (o i) (p i) (s.repls i) input s.world).2 = .ok (s.repls i, out ++ endl) := by
  have hrefines : Refines shards table s ∧ NamedSchemas s.store := by
    refine h.invariant (I := fun s => Refines shards table s ∧ NamedSchemas s.store)
      ⟨⟨hstart, fun i => buffered_of_nil rfl⟩, namedSchemas_empty⟩ ?_
    rintro s e _ ⟨hrefines, hnamed⟩ hfair rfl
    exact ⟨hrefines.step hcluster hfair,
      @afterLine_keeps _ _ _ NamedSchemas (fun hlen h => h.execute hlen) hfair.short
        (fun b hb => ((hrefines.buffered e.1).lengths b hb).2) hnamed⟩
  have hrouting := hcluster.routing i
  rw [pass_dispatched hdispatched]
  exact dispatch_prints (hrouting ▸ hcluster.covers) (hcluster.serves i)
    (hrouting ▸ hcluster.home i) (hrouting ▸ hrefines.1.holds) hrefines.2 hdispatched.parsed
    (hrouting ▸ halike) hout

theorem reads_alike_two : (pass (twoOutside true) (twoProcesses true) (twoEnd.repls true)
    (text "SELECT * FROM d.t") twoEnd.world).2 =
      .ok (twoEnd.repls true, text "k\tn\n0\t5\n1\t6" ++ endl) := by
  have hparse : parse (stripBom (text "SELECT * FROM d.t")) =
      .ok (.select ⟨text "d", text "t", [], []⟩) := by decide +kernel
  have hdispatched : Dispatched (twoEnd.repls true) (text "SELECT * FROM d.t")
      (.select ⟨text "d", text "t", [], []⟩) :=
    ⟨⟨text "SELECT", text " * FROM d.t", by decide, by decide, by decide⟩, by decide +kernel,
      hparse⟩
  have hkey : tryExtractRowKey twoEnd.store (.select ⟨text "d", text "t", [], []⟩) = none := by
    decide +kernel
  have hprinted : (twoRanges.allShardIds.map fun sid => SqlScatter.printed
      (share twoRanges twoEnd.store sid) ⟨text "d", text "t", [], []⟩) =
      [[text "0\t5"], [text "1\t6"]] := by decide +kernel
  have halike : ReadsAlike twoRanges twoEnd.store (.select ⟨text "d", text "t", [], []⟩) := by
    refine .rows hkey ?_
    rw [hprinted]
    refine .inr ?_
    unfold Lines.EndsOpen
    decide +kernel
  have hout : (execute twoEnd.store (stripBom (text "SELECT * FROM d.t"))).2 =
      .ok (text "k\tn\n0\t5\n1\t6") := by decide +kernel
  have hstart : Holds twoRanges twoStart.world .empty := fun _ _ => rfl
  have hprints := reads_alike twoCluster hstart twoEnd_reached hdispatched halike hout
  exact hprints

end DistDB.ShardedReads
