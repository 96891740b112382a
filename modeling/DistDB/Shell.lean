import DistDB.MembershipRuns
import DistDB.SqlScatter
import DistDB.Wire

/-!
The loop over the input lines in `raft_main.cpp`: the words of its own, the buffered transaction,
and where a statement is sent.

What the loop asks of the node and of other shards is a parameter (`Outside`): any of it may fail,
and every request may change the world in any way.
-/

namespace DistDB.Shell

open NodeModel TxnModel TxnSystem SqlParser SqlExecutor SqlRouting SqlScatter FormattedInput
open MembershipRuns
open Wire (ClientResponse)

variable {σ : Type}

/-- What the loop reaches outside of it. An exception is what its `what()` says. -/
structure Outside (σ : Type) where
  /-- `ProposeOrForward` for the shard of the node, `SendClientRequest` for any other. -/
  propose : ShardId → Bytes → σ → σ × Except Bytes ClientResponse
  /-- `SendReadRequest`. -/
  read : ShardId → Bytes → σ → σ × Except Bytes Bytes
  /-- The engine of the node. -/
  engine : σ → Store
  /-- `role()`, `current_term()` and `leader_hint()`. -/
  status : σ → Role × ℕ × NodeId

structure Process where
  platform : Platform
  nodeId : NodeId
  shardId : ShardId
  routing : RoutingTable

/-- The variables of the loop. -/
structure Repl where
  inTxn : Bool
  txnBuffer : List BufferedTxnStatement
  txnCounter : ℕ
  deriving DecidableEq

def Repl.start : Repl := ⟨false, [], 0⟩

/-- How the loop ends before its input does. -/
inductive Ending
  | exits
  /-- An exception reaches `main`. -/
  | fatal (what : Bytes)
  deriving DecidableEq

/-- What a pass of the loop leaves and prints. -/
abbrev Pass := Except Ending (Repl × Bytes)

def endl : Bytes := [chr '\n']

def errorLine (what : Bytes) : Bytes := text "ERROR: " ++ what ++ endl

/-- ` [f]` for each failure. -/
def bracketed (failures : List Bytes) : Bytes :=
  failures.flatMap fun f => text " [" ++ f ++ text "]"

def aboutShard (sid : ShardId) (what : Bytes) : Bytes :=
  text "shard " ++ toText sid ++ text ": " ++ what

def roleName : Role → Bytes
  | .kFollower => text "follower"
  | .kCandidate => text "candidate"
  | .kLeader => text "leader"

/-- `PrintClientResponse`. -/
def printClientResponse (resp : ClientResponse) : Bytes :=
  if resp.success then
    text "OK (committed at index " ++ toText resp.index ++ text ", via leader node " ++
      toText resp.leaderHint ++ text ")" ++ endl
  else
    text "FAILED" ++
      (if resp.notLeader ∧ resp.leaderHint ≠ 0 then
        text " (best known leader is node " ++ toText resp.leaderHint ++
          text ", but still failed" ++
          (if resp.error ≠ [] then text ": " ++ resp.error else []) ++ text " - retry)"
      else if resp.error ≠ [] then text " (" ++ resp.error ++ text ")" else []) ++ endl

structure BroadcastResult where
  okCount : ℕ
  failures : List Bytes

/-- The loop of `BroadcastWrite`. It catches nothing. -/
def broadcastWrite (o : Outside σ) (command : Bytes) :
    List ShardId → BroadcastResult → σ → σ × Except Bytes BroadcastResult
  | [], result, w => (w, .ok result)
  | sid :: sids, result, w =>
    match o.propose sid command w with
    | (w, .error what) => (w, .error what)
    | (w, .ok resp) =>
      broadcastWrite o command sids
        (if resp.success then { result with okCount := result.okCount + 1 }
        else { result with failures := result.failures ++ [aboutShard sid resp.error] }) w

def printBroadcastResult (result : BroadcastResult) (verb : Bytes) : Bytes :=
  if result.failures = [] then
    text "OK (" ++ verb ++ text " on " ++ toText result.okCount ++ text " shard(s))" ++ endl
  else
    text "PARTIAL (" ++ toText result.okCount ++ text " shard(s) ok):" ++
      bracketed result.failures ++ endl

/-- What a query gives, or what its exception says. -/
def answered : Except Exception Bytes → Except Bytes Bytes
  | .ok result => .ok result
  | .error e => .error e.what

/-- `sql.Execute` of a query, on the node's own engine. -/
def executeHere (o : Outside σ) (sql : Bytes) (w : σ) : Except Bytes Bytes :=
  answered (execute (o.engine w) sql).2

/-- A query to one shard. -/
def query (o : Outside σ) (p : Process) (sid : ShardId) (sql : Bytes) (w : σ) :
    σ × Except Bytes Bytes :=
  if sid = p.shardId then (w, executeHere o sql w) else o.read sid sql w

/-- The results of a query to every shard, and the failures. -/
def gather (o : Outside σ) (p : Process) (sql : Bytes) :
    List ShardId → List Bytes → List Bytes → σ → σ × List Bytes × List Bytes
  | [], shardResults, failures, w => (w, shardResults, failures)
  | sid :: sids, shardResults, failures, w =>
    match query o p sid sql w with
    | (w, .ok result) => gather o p sql sids (shardResults ++ [result]) failures w
    | (w, .error what) =>
      gather o p sql sids shardResults (failures ++ [aboutShard sid what]) w

/-! ### Transactions -/

/-- What `send_to_shard` gives. -/
def reply : Except Bytes ClientResponse → Reply
  | .ok resp => .response resp.success resp.error
  | .error what => .threw what

/-- The loop of the PREPAREs: who has prepared, and why it has stopped, if it has. -/
def prepareAll (o : Outside σ) : List (ShardId × TxnPrepare) → List ShardId → σ →
    σ × List ShardId × Option Bytes
  | [], preparedShards, w => (w, preparedShards, none)
  | (sid, prepare) :: rest, preparedShards, w =>
    match o.propose sid (encodeTxnPrepare prepare) w with
    | (w, resp) =>
      match (reply resp).failure sid with
      | some abortReason => (w, preparedShards, some abortReason)
      | none => prepareAll o rest (preparedShards ++ [sid]) w

/-- The loops of the ABORTs and of the COMMITs, with the failures. -/
def tellAll (o : Outside σ) (command : Bytes) : List ShardId → List Bytes →
    σ → σ × List Bytes
  | [], failures, w => (w, failures)
  | sid :: sids, failures, w =>
    match o.propose sid command w with
    | (w, resp) => tellAll o command sids (failures ++ ((reply resp).failure sid).toList) w

/-- `RunTransaction`. -/
def runTransaction (o : Outside σ) (txnId : ℕ) (buffer : List BufferedTxnStatement) (w : σ) :
    σ × Bytes :=
  match prepareAll o (byShard txnId buffer).entries [] w with
  | (w, preparedShards, some abortReason) =>
    match tellAll o (encodeTxnAbort txnId) preparedShards [] w with
    | (w, abortFailures) =>
      (w, text "ABORTED (" ++ abortReason ++ text ")" ++
        abortFailures.flatMap fun f => text " [rollback also failed on " ++ f ++ text "]")
  | (w, _, none) =>
    match tellAll o (encodeTxnCommit txnId) ((byShard txnId buffer).entries.map Prod.fst) [] w with
    | (w, []) =>
      (w, text "OK (committed transaction " ++ toText txnId ++ text " across " ++
        toText (byShard txnId buffer).size ++ text " shard(s))")
    | (w, commitFailures) =>
      (w, text "transaction " ++ toText txnId ++
        text " was DECIDED TO COMMIT but couldn't notify every shard:" ++
        bracketed commitFailures ++
        text (" - those shard(s) may still be holding locks; " ++
          "retrying the same COMMIT is safe once they're reachable"))

def noSchemaInTxn : Bytes :=
  text "CREATE DATABASE/TABLE and ALTER TABLE are not supported inside a transaction"

def noReadInTxn : Bytes :=
  text ("SELECT/SHOW TABLES/SHOW DATABASES are not supported inside a transaction " ++
    "(writes are staged, not applied, until commit - a read here could never see them " ++
    "anyway); run it before begin or after commit/rollback")

def noKeyInTxn : Bytes :=
  text ("this statement's WHERE doesn't pin the primary key, so it has no single " ++
    "shard to lock - not supported inside a transaction")

/-- What `ShardFor` throws. -/
def noShard (key : Bytes) : Bytes := text "no shard covers key: " ++ key

/-- A statement on one row is put into the buffer. -/
def stageRow (o : Outside σ) (p : Process) (repl : Repl) (line : Bytes) (stmt : Statement)
    (w : σ) : Repl × Bytes :=
  match tryExtractRowKey (o.engine w) stmt with
  | none => (repl, errorLine noKeyInTxn)
  | some key =>
    match p.routing.shardFor key with
    | none => (repl, errorLine (noShard key))
    | some sid =>
      ({ repl with txnBuffer := repl.txnBuffer ++ [⟨sid, key, line⟩] },
        text "OK (queued on shard " ++ toText sid ++ text ")" ++ endl)

/-- A statement inside a transaction. -/
def stage (o : Outside σ) (p : Process) (repl : Repl) (line : Bytes) (stmt : Statement) (w : σ) :
    Repl × Bytes :=
  match stmt with
  | .createDatabase _ | .createTable _ | .alterTableAddColumn _ => (repl, errorLine noSchemaInTxn)
  | .select _ | .showTables _ | .showDatabases => (repl, errorLine noReadInTxn)
  | .insert _ | .update _ | .delete _ => stageRow o p repl line stmt w

/-- A statement to every shard, outside of every `try`. -/
def broadcast (o : Outside σ) (p : Process) (repl : Repl) (line verb : Bytes)
    (w : σ) : σ × Pass :=
  match broadcastWrite o line p.routing.allShardIds ⟨0, []⟩ w with
  | (w, .ok result) => (w, .ok (repl, printBroadcastResult result verb))
  | (w, .error what) => (w, .error (.fatal what))

/-- A query that is printed, or its error. -/
def printed : Except Bytes Bytes → Bytes
  | .ok result => result ++ endl
  | .error what => errorLine what

/-- A request that the node answers outside of every `try`. -/
def proposeHere (o : Outside σ) (p : Process) (repl : Repl) (command : Bytes)
    (w : σ) : σ × Pass :=
  match o.propose p.shardId command w with
  | (w, .ok resp) => (w, .ok (repl, printClientResponse resp))
  | (w, .error what) => (w, .error (.fatal what))

/-- A `SELECT` without a key: every shard, and the results put together. -/
def scatter (o : Outside σ) (p : Process) (line : Bytes) (w : σ) : σ × Bytes :=
  match gather o p line p.routing.allShardIds [] [] w with
  | (w, shardResults, failures) =>
    (w, if failures ≠ [] then
        errorLine (text "some shards did not respond:" ++ bracketed failures)
      else mergeSelectResults shardResults ++ endl)

/-- A statement that names a row goes to the shard of the row. -/
def routed (o : Outside σ) (p : Process) (repl : Repl) (line : Bytes) (isSelect : Bool)
    (key : Bytes) (w : σ) : σ × Pass :=
  match p.routing.shardFor key with
  | none => (w, .ok (repl, errorLine (noShard key)))
  | some sid =>
    if isSelect then
      match query o p sid line w with
      | (w, result) => (w, .ok (repl, printed result))
    else if sid = p.shardId then proposeHere o p repl line w
    else
      match o.propose sid line w with
      | (w, .ok resp) => (w, .ok (repl, printClientResponse resp))
      | (w, .error what) => (w, .ok (repl, errorLine what))

/-- A statement outside a transaction. -/
def dispatch (o : Outside σ) (p : Process) (repl : Repl) (line : Bytes) (stmt : Statement)
    (w : σ) :
    σ × Pass :=
  match stmt with
  | .createDatabase _ | .createTable _ => broadcast o p repl line (text "created") w
  | .alterTableAddColumn _ => broadcast o p repl line (text "altered") w
  | .showTables _ | .showDatabases => (w, .ok (repl, printed (executeHere o line w)))
  | .select _ =>
    match tryExtractRowKey (o.engine w) stmt with
    | none =>
      match scatter o p line w with
      | (w, out) => (w, .ok (repl, out))
    | some key => routed o p repl line true key w
  | .insert _ | .update _ | .delete _ =>
    match tryExtractRowKey (o.engine w) stmt with
    | none => broadcast o p repl line (text "applied") w
    | some key => routed o p repl line false key w

/-- A line that starts with no word of the shell. -/
def runStatement (o : Outside σ) (p : Process) (repl : Repl) (line : Bytes)
    (w : σ) : σ × Pass :=
  match parse line with
  | .error e => (w, .ok (repl, errorLine e.what))
  | .ok stmt =>
    if repl.inTxn then (w, .ok (stage o p repl line stmt w))
    else dispatch o p repl line stmt w

/-- The UTF-8 byte order mark in front of a line is dropped. -/
def stripBom (line : Bytes) : Bytes :=
  if line.take 3 = [0xEF, 0xBB, 0xBF] then line.drop 3 else line

def notInTxn : Bytes := errorLine (text "not in a transaction")

def begin (repl : Repl) : Repl × Bytes :=
  if repl.inTxn then
    (repl, errorLine (text "already in a transaction - commit or rollback it first"))
  else ({ repl with inTxn := true, txnBuffer := [] }, text "OK (transaction started)" ++ endl)

def rollback (repl : Repl) : Repl × Bytes :=
  if repl.inTxn then
    ({ repl with inTxn := false, txnBuffer := [] },
      text "OK (rolled back - nothing was ever sent)" ++ endl)
  else (repl, notInTxn)

def commit (o : Outside σ) (p : Process) (repl : Repl) (w : σ) : σ × Repl × Bytes :=
  if repl.inTxn then
    if repl.txnBuffer = [] then
      (w, { repl with inTxn := false }, text "OK (empty transaction, nothing to commit)" ++ endl)
    else
      let txnCounter := (repl.txnCounter + 1) % 2 ^ 32
      match runTransaction o (p.nodeId * 2 ^ 32 + txnCounter) repl.txnBuffer w with
      | (w, out) => (w, ⟨false, [], txnCounter⟩, out ++ endl)
  else (w, repl, notInTxn)

/-- `iss >> target_id_raw` behind the word `remove-server`. -/
def readRemoveServer (p : Platform) (args : Bytes) : Option ConfChangeCommand := do
  let (targetId, _) ← unsigned p.ulong args
  pure ⟨kRemoveServer, targetId % 2 ^ 32, [], 0⟩

/-- `add-server` and `remove-server`. -/
def changeServers (o : Outside σ) (p : Process) (repl : Repl) (read : Option ConfChangeCommand)
    (usage : Bytes) (w : σ) : σ × Pass :=
  match read with
  | none => (w, .ok (repl, errorLine (text "usage: " ++ usage)))
  | some cc => proposeHere o p repl (encodeConfChange cc) w

def status (o : Outside σ) (p : Process) (w : σ) : Bytes :=
  text "shard=" ++ toText p.shardId ++ text " role=" ++ roleName (o.status w).1 ++
    text " term=" ++ toText (o.status w).2.1 ++ text " leader_hint=" ++
    toText (o.status w).2.2 ++ endl

/-- A line by its first word. The text of `PrintHelp` and the time a statement took are left
out. -/
def command (o : Outside σ) (p : Process) (repl : Repl) (line first args : Bytes) (w : σ) :
    σ × Pass :=
  if first = text "exit" ∨ first = text "quit" then (w, .error .exits)
  else if first = text "help" then (w, .ok (repl, []))
  else if first = text "status" then (w, .ok (repl, status o p w))
  else if first = text "begin" then (w, .ok (begin repl))
  else if first = text "rollback" then (w, .ok (rollback repl))
  else if first = text "commit" then ((commit o p repl w).1, .ok (commit o p repl w).2)
  else if first = text "add-server" then
    changeServers o p repl (readAddServer p.platform args) (text "add-server <id> <host> <port>") w
  else if first = text "remove-server" then
    changeServers o p repl (readRemoveServer p.platform args) (text "remove-server <id>") w
  else runStatement o p repl line w

/-- One pass of the loop. -/
def pass (o : Outside σ) (p : Process) (repl : Repl) (input : Bytes) (w : σ) : σ × Pass :=
  match word (stripBom input) with
  | none => (w, .ok (repl, []))
  | some (first, args) => command o p repl (stripBom input) first args w

/-- The lines of a session, until one ends it. -/
def session (o : Outside σ) (p : Process) : List Bytes → Repl → σ → σ × Except Ending Repl
  | [], repl, w => (w, .ok repl)
  | line :: lines, repl, w =>
    match pass o p repl line w with
    | (w, .ok (repl, _)) => session o p lines repl w
    | (w, .error ending) => (w, .error ending)

end DistDB.Shell
