import DistDB.Placement
import DistDB.SqlReapply
import DistDB.SqlRouting
import DistDB.SqlTables

/-!
One store on several shards: the schemas and the databases are on every shard, and each row is on
the shard that `ShardFor` gives for its key.

A statement that a shard runs does to the shard's share what it does to the whole store, as far as
that lies on the shard (`executeStatement_share`): a statement on schemas does the same everywhere,
an `INSERT` does on the shard of its key what it would do to all, and an `UPDATE` or a `DELETE`
changes the rows that are there, as long as its `WHERE` can be evaluated on every row.
-/

namespace DistDB.SqlShards

open SqlParser SqlExecutor SqlRuns SqlAtomic SqlStore SqlFrame SqlRouting SqlReapply SqlTables
open Placement WalModel EngineInv EngineMap Checks Bytes TxnSystem

variable {table : RoutingTable} {whole : Store} {sid : ShardId}

/-- The shard of a row; everything else is on every shard. -/
def owner (table : RoutingTable) (key : Bytes) : Option ShardId :=
  if startsWith key (text "__row__/") = true then table.shardFor key else none

/-- What of the store is on the shard. -/
abbrev share (table : RoutingTable) (whole : Store) (sid : ShardId) : Store :=
  part (owner table) whole sid

/-- The writes that lie on the shard. -/
def ownWrites (table : RoutingTable) (sid : ShardId) (writes : List Mutation) : List Mutation :=
  writes.filter fun mu => Lives (owner table) sid mu.record.key

lemma owner_rowPrefix {d t key : Bytes} (h : rowPrefix d t <+: key) :
    owner table key = table.shardFor key := by
  refine if_pos ((startsWith_iff _ _).mpr (List.IsPrefix.trans ?_ h))
  simp only [rowPrefix, List.append_assoc]
  exact List.prefix_append _ _

lemma owner_of_third {key : Bytes} {c : UInt8} (hc : c ≠ chr 'r') (h : key[2]? = some c) :
    owner table key = none := by
  refine if_neg fun hrow => hc ?_
  obtain ⟨rest, rfl⟩ := (startsWith_iff _ _).mp hrow
  exact (Option.some.inj h).symm

lemma owner_schema {d key : Bytes} (h : schemaPrefix d <+: key) : owner table key = none :=
  owner_of_third (by decide) (third_schemaPrefix h)

lemma owner_database {key : Bytes} (h : databasePrefix <+: key) : owner table key = none :=
  owner_of_third (by decide) (third_databasePrefix h)

lemma lives_schemaKey (d t : Bytes) : Lives (owner table) sid (schemaKey d t) :=
  lives_of_none (owner_schema (prefix_schemaKey d t))

lemma lives_databaseKey (n : Bytes) : Lives (owner table) sid (databaseKey n) :=
  lives_of_none (owner_database (prefix_databaseKey n))

lemma loadSchema_share (d t : Bytes) :
    loadSchema (share table whole sid) d t = loadSchema whole d t :=
  loadSchema_congr (find_part_of_lives (lives_schemaKey d t))

lemma find_database_share (n : Bytes) :
    (share table whole sid).find (databaseKey n) = whole.find (databaseKey n) :=
  find_part_of_lives (lives_databaseKey n)

lemma scan_share (p : Bytes) : scan (share table whole sid) p =
    (scan whole p).filter fun kv => Lives (owner table) sid kv.1 := by
  rw [scan, scan, entries_part, List.filter_filter, List.filter_filter]
  exact List.filter_congr fun kv _ => Bool.and_comm _ _

lemma listNames_share {heading p : Bytes} (hp : ∀ key, p <+: key → owner table key = none) :
    listNames (share table whole sid) heading p = listNames whole heading p := by
  have hscan : scan (share table whole sid) p = scan whole p := by
    rw [scan_share, List.filter_eq_self]
    intro kv hkv
    exact decide_eq_true (lives_of_none (hp _ (mem_scan.mp hkv).1))
  unfold listNames
  rw [hscan]

lemma applyTo_share (mu : Mutation) : share table (applyTo whole mu) sid =
    if Lives (owner table) sid mu.record.key then applyTo (share table whole sid) mu
    else share table whole sid := by
  cases mu with
  | put key value => exact part_insert value
  | delete key => exact part_erase

/-- **The shares of a written store**: each shard has made the writes that lie on it. -/
lemma applyAll_share (writes : List Mutation) : share table (applyAll whole writes) sid =
    applyAll (share table whole sid) (ownWrites table sid writes) := by
  induction writes generalizing whole with
  | nil => rfl
  | cons mu writes ih =>
    show share table (applyAll (applyTo whole mu) writes) sid = _
    rw [ih, applyTo_share, ownWrites, ownWrites, List.filter_cons]
    by_cases h : Lives (owner table) sid mu.record.key
    · rw [if_pos h, if_pos (decide_eq_true h)]
      rfl
    · rw [if_neg h, if_neg (by simpa using h)]

lemma ownWrites_of_lives {writes : List Mutation}
    (h : ∀ mu ∈ writes, Lives (owner table) sid mu.record.key) :
    ownWrites table sid writes = writes :=
  List.filter_eq_self.mpr fun mu hmu => decide_eq_true (h mu hmu)

/-! ### Statements -/

/-- What a statement does on the shard is the shard's share of what it does. -/
structure SharesEffect (table : RoutingTable) (sid : ShardId) (effect own : Effect) : Prop where
  writes : own.1 = ownWrites table sid effect.1
  error : ∀ e, own.2 = .error e ↔ effect.2 = .error e

/-- Every row can be read, and the `WHERE` evaluated on it. -/
def Evaluable (store : Store) (stmt : Statement) : Prop :=
  ∀ d t whereClause schema, tableOf stmt = some (d, t, whereClause) →
    loadSchema store d t = .ok schema → Filters store schema d t whereClause

/-- An `INSERT` that gets as far as its key writes to the shard. -/
def InsertsAt (table : RoutingTable) (sid : ShardId) (store : Store) (stmt : Statement) : Prop :=
  ∀ s schema row pk, stmt = .insert s → loadSchema store s.dbName s.tableName = .ok schema →
    insertRow schema s = .ok (row, pk) →
    table.shardFor (rowKey s.dbName s.tableName pk) = some sid

lemma SharesEffect.succeeds {effect own : Effect} (h : SharesEffect table sid effect own) :
    Succeeds own.2 ↔ Succeeds effect.2 := by
  have herror := h.error
  rcases hown : own.2 with e | out
  · have heffect := (herror e).mp hown
    simp [heffect]
  · rcases heffect : effect.2 with e | out'
    · have hown' := (herror e).mpr heffect
      rw [hown] at hown'
      cases hown'
    · simp

lemma sharesEffect_of_eq {effect own : Effect} (heq : own = effect)
    (h : ∀ mu ∈ effect.1, Lives (owner table) sid mu.record.key) :
    SharesEffect table sid effect own := by
  subst heq
  exact ⟨(ownWrites_of_lives h).symm, fun e => Iff.rfl⟩

lemma rowChange_key {schema : TableSchema} {whereClause : List Condition}
    {write : Bytes → Row → Except Exception Mutation} {kv : Bytes × Bytes} {mu : Mutation}
    (hwrite : ∀ key row mu, write key row = .ok mu → mu.record.key = key)
    (h : rowChange schema whereClause write kv = .ok (some mu)) : mu.record.key = kv.1 := by
  rcases hmatch : matchRow schema whereClause kv.2 with e | _ | row
  · rw [rowChange_of_error kv hmatch] at h
    cases h
  · rw [rowChange_of_none kv hmatch] at h
    cases h
  · rw [rowChange_of_some kv hmatch] at h
    rcases hmu : write kv.1 row with e | mu'
    · rw [hmu] at h
      cases h
    · rw [hmu] at h
      cases h
      exact hwrite _ _ _ hmu

lemma writeRows_filter {schema : TableSchema} {whereClause : List Condition}
    {write : Bytes → Row → Except Exception Mutation} {rows : List (Bytes × Bytes)}
    (hwrite : ∀ key row mu, write key row = .ok mu → mu.record.key = key)
    (hrows : ∀ kv ∈ rows, Succeeds (rowChange schema whereClause write kv))
    (keep : Bytes → Bool) : (writeRows schema whereClause write
      (rows.filter fun kv => keep kv.1)).1 = (writeRows schema whereClause write rows).1.filter
      fun mu => keep mu.record.key := by
  induction rows with
  | nil => rfl
  | cons kv rows ih =>
    obtain ⟨⟨mu, hmu⟩, hrows⟩ := List.forall_mem_cons.mp hrows
    have hkey : ∀ mu' ∈ mu.toList, mu'.record.key = kv.1 := by
      intro mu' hmu'
      rw [Option.mem_toList.mp hmu'] at hmu
      exact rowChange_key hwrite hmu
    rw [writeRows_cons_go hmu, List.filter_append, ← ih hrows, List.filter_cons]
    split_ifs with hkeep
    · have hkept : (mu.toList.filter fun mu => keep mu.record.key) = mu.toList :=
        List.filter_eq_self.mpr fun mu' hmu' => by rw [hkey mu' hmu', hkeep]
      rw [writeRows_cons_go hmu, hkept]
    · have hdropped : (mu.toList.filter fun mu => keep mu.record.key) = [] :=
        List.filter_eq_nil_iff.mpr fun mu' hmu' => by rwa [hkey mu' hmu']
      rw [hdropped, List.nil_append]

lemma sharesEffect_rows {schema : TableSchema} {whereClause : List Condition}
    {w : Bytes → Row → Except Exception Mutation} {d t what : Bytes}
    (hwrite : ∀ key row mu, w key row = .ok mu → mu.record.key = key)
    (hsucceeds : ∀ key row, schema.columns.length ≤ row.length → Succeeds (w key row))
    (hfilters : Filters whole schema d t whereClause) :
    SharesEffect table sid
      (.ofRows (.ok (writeRows schema whereClause w (scan whole (rowPrefix d t)))) what)
      (.ofRows (.ok (writeRows schema whereClause w
        (scan (share table whole sid) (rowPrefix d t)))) what) := by
  have hfilters' : ∀ kv ∈ scan (share table whole sid) (rowPrefix d t),
      Succeeds (matchRow schema whereClause kv.2) := by
    rw [scan_share]
    exact fun kv hkv => hfilters kv (List.mem_of_mem_filter hkv)
  obtain ⟨n, hn⟩ := (writeRows_succeeds whereClause hsucceeds _).mpr hfilters
  obtain ⟨n', hn'⟩ := (writeRows_succeeds whereClause hsucceeds _).mpr hfilters'
  constructor
  · show (writeRows _ _ _ _).1 = ownWrites table sid (writeRows _ _ _ _).1
    rw [scan_share]
    refine writeRows_filter hwrite (fun kv hkv => ?_) fun key => Lives (owner table) sid key
    obtain ⟨found, hfound⟩ := hfilters kv hkv
    cases found with
    | none => exact ⟨_, rowChange_of_none kv hfound⟩
    | some row =>
      rw [rowChange_of_some kv hfound]
      exact succeeds_map.mpr (hsucceeds _ _ (matchRow_length hfound))
  · intro e
    show (writeRows _ _ _ _).2.map _ = _ ↔ (writeRows _ _ _ _).2.map _ = _
    rw [hn, hn']
    exact iff_of_false (by simp [Except.map]) (by simp [Except.map])

lemma sharesEffect_throws (e : Exception) : SharesEffect table sid (throws e) (throws e) :=
  ⟨rfl, fun _ => Iff.rfl⟩

lemma executeUpdate_share {s : UpdateStatement} (h : Evaluable whole (.update s)) :
    SharesEffect table sid (executeUpdate whole s) (executeUpdate (share table whole sid) s) := by
  unfold executeUpdate
  rw [loadSchema_share]
  rcases hschema : loadSchema whole s.dbName s.tableName with e | schema
  · exact sharesEffect_throws e
  show SharesEffect table sid (.ofRows (s.assignments.mapM (checkAssignment schema) >>= _) _)
    (.ofRows (s.assignments.mapM (checkAssignment schema) >>= _) _)
  rcases hchecked : s.assignments.mapM (checkAssignment schema) with e | checked
  · exact sharesEffect_throws e
  refine sharesEffect_rows (w := rewrite checked) (fun _ _ _ => rewrite_key)
    (fun key row hrow => succeeds_map.mpr (assign_succeeds (fun a ha => ?_) hrow))
    (h _ _ _ schema rfl hschema)
  obtain ⟨a', -, ha'⟩ := mem_mapM hchecked a ha
  exact checkAssignment_lt ha'

lemma executeDelete_share {s : DeleteStatement} (h : Evaluable whole (.delete s)) :
    SharesEffect table sid (executeDelete whole s) (executeDelete (share table whole sid) s) := by
  unfold executeDelete
  rw [loadSchema_share]
  rcases hschema : loadSchema whole s.dbName s.tableName with e | schema
  · exact sharesEffect_throws e
  refine sharesEffect_rows (w := fun key _ => .ok (.delete key)) ?_
    (fun _ _ _ => succeeds_ok _) (h _ _ _ schema rfl hschema)
  rintro key row mu ⟨⟩
  rfl

lemma executeInsert_share {s : InsertStatement} (h : InsertsAt table sid whole (.insert s)) :
    SharesEffect table sid (executeInsert whole s) (executeInsert (share table whole sid) s) := by
  unfold executeInsert
  rw [loadSchema_share]
  rcases hschema : loadSchema whole s.dbName s.tableName with e | schema
  · exact sharesEffect_throws e
  show SharesEffect table sid (.ofWrite (insertRow schema s >>= _))
    (.ofWrite (insertRow schema s >>= _))
  rcases hrow : insertRow schema s with e | ⟨row, pk⟩
  · exact sharesEffect_throws e
  have hlives : Lives (owner table) sid (rowKey s.dbName s.tableName pk) := by
    refine lives_of_owner ?_
    rw [owner_rowPrefix (prefix_rowKey _ _ _)]
    exact h s schema row pk rfl hschema hrow
  show SharesEffect table sid (.ofWrite (throwIf (whole.find _ ≠ none) _ >>= _))
    (.ofWrite (throwIf ((share table whole sid).find _ ≠ none) _ >>= _))
  rw [find_part_of_lives hlives]
  refine sharesEffect_of_eq rfl fun mu hmu => ?_
  by_cases hfree : whole.find (rowKey s.dbName s.tableName pk) ≠ none
  · rw [throwIf, if_pos hfree] at hmu
    cases hmu
  · rw [throwIf, if_neg hfree] at hmu
    obtain rfl := List.mem_singleton.mp hmu
    exact hlives

lemma ofWrite_share {r r' : Except Exception (Mutation × Bytes)} (heq : r' = r)
    (h : ∀ mu out, r = .ok (mu, out) → Lives (owner table) sid mu.record.key) :
    SharesEffect table sid (.ofWrite r) (.ofWrite r') := by
  refine sharesEffect_of_eq (congrArg _ heq) fun mu hmu => ?_
  rcases r with e | ⟨mu', out⟩
  · cases hmu
  · obtain rfl := List.mem_singleton.mp hmu
    exact h _ out rfl

lemma executeShowTables_share (s : ShowTablesStatement) :
    executeShowTables (share table whole sid) s = executeShowTables whole s := by
  have hnames : listNames (share table whole sid) (text "table") (schemaPrefix s.dbName) =
      listNames whole (text "table") (schemaPrefix s.dbName) :=
    listNames_share fun key hkey => owner_schema hkey
  simp only [schemaPrefix] at hnames
  simp only [executeShowTables, requireDatabaseExists, find_database_share, hnames]

lemma executeShowDatabases_share :
    executeShowDatabases (share table whole sid) = executeShowDatabases whole := by
  have hnames : listNames (share table whole sid) (text "database") databasePrefix =
      listNames whole (text "database") databasePrefix :=
    listNames_share fun key hkey => owner_database hkey
  exact congrArg (fun names => Effect.ofRead (.ok names)) hnames

lemma executeSchemas_share {stmt : Statement} (hstmt : tableOf stmt = none)
    (hinsert : ∀ s, stmt ≠ .insert s) :
    SharesEffect table sid (executeStatement whole stmt)
      (executeStatement (share table whole sid) stmt) := by
  cases stmt with
  | select s | update s | delete s => cases hstmt
  | insert s => exact absurd rfl (hinsert s)
  | createDatabase s =>
    refine ofWrite_share ?_ fun mu out hr => ?_
    · rw [find_database_share]
    · obtain ⟨_, -, hr⟩ := bind_eq_ok.mp hr
      cases hr
      exact lives_databaseKey s.name
  | createTable s =>
    refine ofWrite_share ?_ fun mu out hr => ?_
    · rw [requireDatabaseExists, requireDatabaseExists, find_database_share,
        find_part_of_lives (lives_schemaKey _ _)]
    · obtain ⟨_, -, hr⟩ := bind_eq_ok.mp hr
      obtain ⟨_, -, hr⟩ := bind_eq_ok.mp hr
      cases hr
      exact lives_schemaKey _ _
  | alterTableAddColumn s =>
    refine ofWrite_share ?_ fun mu out hr => ?_
    · rw [loadSchema_share]
    · obtain ⟨schema, -, hr⟩ := bind_eq_ok.mp hr
      obtain ⟨_, -, hr⟩ := bind_eq_ok.mp hr
      split at hr
      · cases hr
      · obtain ⟨_, -, hr⟩ := bind_eq_ok.mp hr
        cases hr
        exact lives_schemaKey _ _
  | showTables s =>
    exact sharesEffect_of_eq (executeShowTables_share s) (List.forall_mem_nil _)
  | showDatabases => exact sharesEffect_of_eq executeShowDatabases_share (List.forall_mem_nil _)

/-- **What a statement does on a shard**: its share of what it does to the whole store. -/
theorem executeStatement_share {stmt : Statement} (hselect : ∀ s, stmt ≠ .select s)
    (hevaluable : Evaluable whole stmt) (hinsert : InsertsAt table sid whole stmt) :
    SharesEffect table sid (executeStatement whole stmt)
      (executeStatement (share table whole sid) stmt) := by
  cases stmt with
  | select s => exact absurd rfl (hselect s)
  | insert s => exact executeInsert_share hinsert
  | update s => exact executeUpdate_share hevaluable
  | delete s => exact executeDelete_share hevaluable
  | createDatabase s | createTable s | alterTableAddColumn s | showTables s | showDatabases =>
    exact executeSchemas_share rfl fun _ h => by cases h

end DistDB.SqlShards
