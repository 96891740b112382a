import DistDB.Dispatch
import DistDB.ShellRuns
import DistDB.SqlShards

/-!
Sessions on a sharded database, and the same sessions on one store.

Requests are answered once they are applied, and every process sees its shard (`Serves`). Lines are
typed at any of the processes, one after the other. Then each shard holds its share of what one
store holds that the statements run on in turn (`dispatch_holds`), a transaction's statements at its
`commit`.
-/

namespace DistDB.ShardedSessions

open NodeModel TxnModel TxnSystem SqlParser SqlExecutor SqlRuns SqlAtomic SqlRouting SqlTables
open SqlShards Shell Checks Bytes

variable {σ : Type} {o : Outside σ} {home : ShardId} {shards : σ → ShardId → Shard}
  {table : RoutingTable} {whole : Store} {w : σ}

/-- The requests of a process on the shard `home` are answered by shards with these states. -/
structure Serves (o : Outside σ) (home : ShardId) (shards : σ → ShardId → Shard) : Prop where
  propose : ∀ sid command w shard error, command.head? ≠ some 1 →
    applyCallback (shards w sid) command = .ok (shard, error) →
    shards (o.propose sid command w).1 = Function.update (shards w) sid shard ∧
      reply (o.propose sid command w).2 = .response (error = []) error
  /-- What a change of the servers is answered does not matter. -/
  servers : ∀ sid cc w, shards (o.propose sid (encodeConfChange cc) w).1 = shards w
  read : ∀ sid sql w, shards (o.read sid sql w).1 = shards w ∧
    (o.read sid sql w).2 = answered (execute (shards w sid).store sql).2
  engine : ∀ w, o.engine w = (shards w home).store

/-- A process on the shard `home` that can call the shards themselves. -/
def direct (home : ShardId) : Outside (ShardId → Shard) where
  propose sid command s :=
    if command.head? = some 1 then (s, .ok ⟨true, 0, false, 0, []⟩)
    else
      match applyCallback (s sid) command with
      | .ok (shard, error) => (Function.update s sid shard,
          .ok ⟨error = [], 0, false, 0, error⟩)
      | .error e => (s, .error e.what)
  read sid sql s := (s, answered (execute (s sid).store sql).2)
  engine s := (s home).store
  status _ := (.kLeader, 0, 0)

lemma serves_direct (home : ShardId) : Serves (direct home) home fun s => s where
  propose := fun sid command s shard error hcommand happly => by
    unfold direct
    dsimp only
    rw [if_neg hcommand, happly]
    exact ⟨rfl, rfl⟩
  servers := fun sid cc s => by
    simp only [direct, Dispatch.head_encodeConfChange, if_true]
  read := fun sid sql s => ⟨rfl, rfl⟩
  engine := fun s => rfl

/-- Every shard holds its share, and no transaction is pending. -/
def Holds (table : RoutingTable) (shards : ShardId → Shard) (whole : Store) : Prop :=
  ∀ sid ∈ table.allShardIds, shards sid = ⟨share table whole sid, .empty⟩

/-- What a shard is after a statement. -/
def ran (s : Shard) (sql : Bytes) : Shard := { s with store := after s.store sql }

/-- Text that parses starts with no tag. -/
structure Plain (sql : Bytes) : Prop where
  notControl : sql.head? ≠ some 0
  notConfChange : sql.head? ≠ some 1

lemma applyCallback_statement (s : Shard) {sql : Bytes} (h : Plain sql) :
    ∃ error, applyCallback s sql = .ok (ran s sql, error) := by
  unfold applyCallback
  rw [show tryDecodeTxnControl sql = .ok none from if_neg h.notControl]
  exact ⟨_, rfl⟩

lemma Serves.statement (h : Serves o home shards) {sql : Bytes} (hsql : Plain sql) (sid : ShardId)
    (w : σ) : ∃ resp, o.propose sid sql w = ((o.propose sid sql w).1, .ok resp) ∧
      shards (o.propose sid sql w).1 =
        Function.update (shards w) sid (ran (shards w sid) sql) := by
  obtain ⟨error, happly⟩ := applyCallback_statement (shards w sid) hsql
  obtain ⟨hshards, hreply⟩ := h.propose sid sql w _ error hsql.notConfChange happly
  rcases hresp : (o.propose sid sql w).2 with what | resp
  · rw [hresp] at hreply
    cases hreply
  · exact ⟨resp, by rw [← hresp], hshards⟩

lemma Serves.broadcastWrite (h : Serves o home shards) {sql : Bytes} (hsql : Plain sql)
    {sids : List ShardId} (hnodup : sids.Nodup) (result : BroadcastResult) (w : σ) :
    Succeeds (broadcastWrite o sql sids result w).2 ∧
      ∀ sid, shards (broadcastWrite o sql sids result w).1 sid =
        if sid ∈ sids then ran (shards w sid) sql else shards w sid := by
  induction sids generalizing result w with
  | nil => exact ⟨succeeds_ok _, fun sid => rfl⟩
  | cons sid sids ih =>
    obtain ⟨hnot, hnodup⟩ := List.nodup_cons.mp hnodup
    obtain ⟨resp, hpropose, hshards⟩ := h.statement hsql sid w
    rw [Shell.broadcastWrite, hpropose]
    obtain ⟨hsucceeds, hrest⟩ := ih hnodup (if resp.success then
      { result with okCount := result.okCount + 1 } else
      { result with failures := result.failures ++ [aboutShard sid resp.error] })
      (o.propose sid sql w).1
    refine ⟨hsucceeds, fun sid' => (hrest sid').trans ?_⟩
    rw [hshards, Function.update_apply]
    by_cases heq : sid' = sid
    · subst heq
      simp [hnot]
    · simp [heq]

/-- On the shard the statement does its share of what it does to the whole store. -/
def SharesStatement (table : RoutingTable) (whole : Store) (sql : Bytes) (sid : ShardId) : Prop :=
  SharesEffect table sid (execute whole sql) (execute (share table whole sid) sql)

lemma after_share {sql : Bytes} {sid : ShardId} (h : SharesStatement table whole sql sid) :
    after (share table whole sid) sql = share table (after whole sql) sid := by
  rw [after, after, applyAll_share, h.writes]

lemma share_elsewhere {sql : Bytes} {sid : ShardId}
    (h : ownWrites table sid (execute whole sql).1 = []) :
    share table (after whole sql) sid = share table whole sid := by
  rw [after, applyAll_share, h]
  rfl

lemma Holds.ran_all {s : ShardId → Shard} (h : Holds table s whole) {sql : Bytes}
    (hshares : ∀ sid ∈ table.allShardIds, SharesStatement table whole sql sid) :
    Holds table (fun sid => if sid ∈ table.allShardIds then ran (s sid) sql else s sid)
      (after whole sql) := by
  intro sid hsid
  simp only [if_pos hsid, ran, h sid hsid, after_share (hshares sid hsid)]

lemma Holds.ran_one {s : ShardId → Shard} (h : Holds table s whole) {sql : Bytes} {sid : ShardId}
    (hsid : sid ∈ table.allShardIds) (hshares : SharesStatement table whole sql sid)
    (helsewhere : ∀ sid' ∈ table.allShardIds, sid' ≠ sid →
      ownWrites table sid' (execute whole sql).1 = []) :
    Holds table (Function.update s sid (ran (s sid) sql)) (after whole sql) := by
  intro sid' hsid'
  rw [Function.update_apply]
  by_cases heq : sid' = sid
  · subst heq
    rw [if_pos rfl, ran, h sid' hsid', after_share hshares]
  · rw [if_neg heq, h sid' hsid', share_elsewhere (helsewhere sid' hsid' heq)]

/-- One store and its shards run the statement alike: the `WHERE` can be evaluated on every row,
and a key that it pins is the key of every row that satisfies it. -/
structure Alike (store : Store) (stmt : Statement) : Prop where
  evaluable : Evaluable store stmt
  pinned : ∀ d t whereClause k, tableOf stmt = some (d, t, whereClause) →
    tryExtractRowKey store stmt = some k → ∀ kr ∈ matching store d t whereClause, kr.1 = k

/-- The table gives every key a shard, and no shard two ranges. -/
structure Covers (table : RoutingTable) : Prop where
  distinct : table.allShardIds.Nodup
  covered : ∀ key, table.shardFor key ≠ none

lemma tryExtractRowKey_share (stmt : Statement) (sid : ShardId) :
    tryExtractRowKey (share table whole sid) stmt = tryExtractRowKey whole stmt := by
  cases stmt <;> simp only [tryExtractRowKey, extractRowKey, loadSchema_share]

section

variable {sql k : Bytes} {stmt : Statement} {sid : ShardId}

lemma Alike.writes_key (h : Alike whole stmt) (hparse : parse sql = .ok stmt)
    (hkey : tryExtractRowKey whole stmt = some k) :
    ∀ mu ∈ (executeStatement whole stmt).1, mu.record.key = k := by
  intro mu hmu
  have hrows : ∀ {d t whereClause}, tableOf stmt = some (d, t, whereClause) →
      mu.record.key = k := by
    intro d t whereClause hstmt
    obtain ⟨kr, hkr, hmukey⟩ := executeStatement_writes hstmt hmu
    exact hmukey ▸ h.pinned d t whereClause k hstmt hkey kr hkr
  cases stmt with
  | select s | update s | delete s => exact hrows rfl
  | createDatabase s | createTable s | alterTableAddColumn s | showTables s | showDatabases =>
    cases hkey
  | insert s =>
    simp only [executeStatement, executeInsert, Effect.ofWrite] at hmu
    split at hmu
    · cases hmu
    · rename_i mu' out hr
      obtain ⟨schema, hschema, hr⟩ := bind_eq_ok.mp hr
      obtain ⟨⟨row, pk⟩, hrow, hr⟩ := bind_eq_ok.mp hr
      obtain ⟨_, -, hr⟩ := bind_eq_ok.mp hr
      cases hr
      obtain rfl := List.mem_singleton.mp hmu
      have hown := tryExtractRowKey_row (parse_insert hparse) hschema hrow
      exact Option.some.inj (hown.symm.trans hkey)

lemma insertsAt_of_key (hparse : parse sql = .ok stmt) (hkey : tryExtractRowKey whole stmt = some k)
    (hsid : table.shardFor k = some sid) : InsertsAt table sid whole stmt := by
  rintro s schema row pk rfl hschema hrow
  have hown := tryExtractRowKey_row (parse_insert hparse) hschema hrow
  rw [hkey, Option.some.injEq] at hown
  rw [← hown]
  exact hsid

lemma insertsAt_of_none (hparse : parse sql = .ok stmt)
    (hkey : tryExtractRowKey whole stmt = none) : InsertsAt table sid whole stmt := by
  rintro s schema row pk rfl hschema hrow
  have hown := tryExtractRowKey_row (parse_insert hparse) hschema hrow
  rw [hkey] at hown
  cases hown

lemma sharesStatement (hparse : parse sql = .ok stmt) (hselect : ∀ s, stmt ≠ .select s)
    (h : Alike whole stmt) (hinsert : InsertsAt table sid whole stmt) :
    SharesStatement table whole sql sid := by
  have hexecute : ∀ store, execute store sql = executeStatement store stmt := by
    intro store
    rw [execute, hparse]
  rw [SharesStatement, hexecute, hexecute]
  exact executeStatement_share hselect h.evaluable hinsert

lemma ownWrites_elsewhere {writes : List WalModel.Mutation} {d t : Bytes}
    (hrow : rowPrefix d t <+: k) (hwrites : ∀ mu ∈ writes, mu.record.key = k)
    (hsid : table.shardFor k = some sid) {sid' : ShardId} (hne : sid' ≠ sid) :
    ownWrites table sid' writes = [] := by
  refine List.filter_eq_nil_iff.mpr fun mu hmu => ?_
  rw [hwrites mu hmu, decide_eq_true_eq, Placement.lives_iff (owner_rowPrefix hrow ▸ hsid)]
  exact hne.symm

lemma rowPrefix_of_key (hkey : tryExtractRowKey whole stmt = some k) :
    ∃ d t, rowPrefix d t <+: k := by
  have hrows : ∀ {d t whereClause}, tableOf stmt = some (d, t, whereClause) →
      ∃ d t, rowPrefix d t <+: k := by
    intro d t whereClause hstmt
    obtain ⟨schema, literal, -, -, rfl⟩ := (tryExtractRowKey_iff hstmt).mp hkey
    exact ⟨d, t, SqlStore.prefix_rowKey d t literal⟩
  cases stmt with
  | select s | update s | delete s => exact hrows rfl
  | createDatabase s | createTable s | alterTableAddColumn s | showTables s | showDatabases =>
    cases hkey
  | insert s =>
    obtain ⟨schema, idx, pk, cv, -, -, -, -, rfl⟩ := tryExtractRowKey_insert.mp hkey
    exact ⟨_, _, SqlStore.prefix_rowKey _ _ _⟩

end

/-! ### Dispatch -/

section

variable {p : Process} {repl : Repl} {line : Bytes} {stmt : Statement}

lemma plain_of_parse (hparse : parse line = .ok stmt) : Plain line :=
  ⟨(Dispatch.head_of_parse hparse).1, (Dispatch.head_of_parse hparse).2⟩

lemma Serves.reads (h : Serves o home shards) (s : ShardId → Shard) :
    Keeps o (fun _ _ => False) fun w => shards w = s where
  propose := fun _ _ _ hfalse => hfalse.elim
  read := fun sid sql w hw => (h.read sid sql w).1.trans hw

lemma after_of_no_writes (hparse : parse line = .ok stmt)
    (hwrites : (executeStatement whole stmt).1 = []) : after whole line = whole := by
  rw [after_of_ok hparse, hwrites]
  rfl

variable (hcovers : Covers p.routing) (h : Serves o p.shardId shards)

include h

lemma proposeHere_shards (hline : Plain line) :
    shards (proposeHere o p repl line w).1 =
      Function.update (shards w) p.shardId (ran (shards w p.shardId) line) := by
  obtain ⟨resp, hpropose, hshards⟩ := h.statement hline p.shardId w
  rw [proposeHere, hpropose]
  exact hshards

lemma routed_shards (hline : Plain line) {k : Bytes} {sid : ShardId}
    (hsid : p.routing.shardFor k = some sid) :
    shards (routed o p repl line false k w).1 =
      Function.update (shards w) sid (ran (shards w sid) line) := by
  obtain ⟨resp, hpropose, hshards⟩ := h.statement hline sid w
  unfold routed
  rw [hsid]
  simp only [Bool.false_eq_true, if_false]
  split_ifs with hhome
  · subst hhome
    exact proposeHere_shards h hline
  · rw [hpropose]
    exact hshards

lemma routed_query (k : Bytes) : shards (routed o p repl line true k w).1 = shards w := by
  have hquery : ∀ sid, shards (query o p sid line w).1 = shards w := fun sid =>
    (h.reads (shards w)).query rfl
  unfold routed
  split
  · rfl
  · rw [if_pos rfl]
    exact hquery _

include hcovers

lemma broadcast_holds {verb : Bytes} (hline : Plain line)
    (hholds : Holds p.routing (shards w) whole)
    (hshares : ∀ sid ∈ p.routing.allShardIds, SharesStatement p.routing whole line sid) :
    Holds p.routing (shards (broadcast o p repl line verb w).1) (after whole line) := by
  obtain ⟨⟨result, hresult⟩, hshards⟩ :=
    h.broadcastWrite hline hcovers.distinct ⟨0, []⟩ w
  unfold broadcast
  split
  · rename_i w' result heq
    rw [heq] at hshards
    rw [show shards w' = _ from funext hshards]
    exact hholds.ran_all hshares
  · rename_i w' what heq
    rw [heq] at hresult
    cases hresult

lemma dispatch_holds (hhome : p.shardId ∈ p.routing.allShardIds) (hparse : parse line = .ok stmt)
    (hholds : Holds p.routing (shards w) whole)
    (halike : (∀ s, stmt ≠ .select s) → Alike whole stmt) :
    Holds p.routing (shards (dispatch o p repl line stmt w).1) (after whole line) := by
  have hline := plain_of_parse hparse
  have hengine : ∀ stmt, tryExtractRowKey (o.engine w) stmt = tryExtractRowKey whole stmt := by
    intro stmt
    rw [h.engine, hholds p.shardId hhome]
    exact tryExtractRowKey_share stmt p.shardId
  have hbroadcast : ∀ verb, (∀ s, stmt ≠ .select s) → tryExtractRowKey whole stmt = none →
      Holds p.routing (shards (broadcast o p repl line verb w).1) (after whole line) :=
    fun verb hselect hkey => broadcast_holds hcovers h hline hholds fun sid _ =>
      sharesStatement hparse hselect (halike hselect) (insertsAt_of_none hparse hkey)
  have hrouted : ∀ k, (∀ s, stmt ≠ .select s) → tryExtractRowKey whole stmt = some k →
      Holds p.routing (shards (routed o p repl line false k w).1) (after whole line) := by
    intro k hselect hkey
    obtain ⟨sid, hsid⟩ := Option.ne_none_iff_exists'.mp (hcovers.covered k)
    obtain ⟨d, t, hrow⟩ := rowPrefix_of_key hkey
    rw [routed_shards h hline hsid]
    refine hholds.ran_one (shardFor_mem hsid)
      (sharesStatement hparse hselect (halike hselect) (insertsAt_of_key hparse hkey hsid)) ?_
    intro sid' _ hne
    refine ownWrites_elsewhere hrow (fun mu hmu => ?_) hsid hne
    rw [execute, hparse] at hmu
    exact (halike hselect).writes_key hparse hkey mu hmu
  cases stmt with
  | createDatabase s | createTable s | alterTableAddColumn s =>
    exact hbroadcast _ (fun _ h => by cases h) rfl
  | showTables s | showDatabases =>
    rw [after_of_no_writes hparse rfl]
    exact hholds
  | select s =>
    rw [after_of_no_writes hparse rfl]
    have hscatter : shards (scatter o p line w).1 = shards w := (h.reads (shards w)).scatter rfl
    simp only [dispatch]
    split
    · rwa [hscatter]
    · rwa [routed_query h]
  | insert s | update s | delete s =>
    simp only [dispatch, hengine]
    split
    · rename_i hkey
      exact hbroadcast _ (fun _ h => by cases h) hkey
    · rename_i k hkey
      exact hrouted k (fun _ h => by cases h) hkey

end

end DistDB.ShardedSessions
