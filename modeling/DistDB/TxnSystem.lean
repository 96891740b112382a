import Mathlib.Logic.Function.Basic
import DistDB.RaftLog
import DistDB.Runs
import DistDB.TxnLocks

/-!
Two-phase commit over the shards: `RunTransaction` of `raft_main.cpp`, the coordinators that
call it, and the shards that apply what it sends.

A shard is the state machine of its Raft group. A request may be applied any number of times,
at any later time, or never, whatever the coordinator is told; only a reply of success means
that the request was applied without an error.
-/

namespace DistDB.TxnSystem

open TxnModel

abbrev ShardId := ℕ

structure BufferedTxnStatement where
  shardId : ShardId
  key : Bytes
  sql : Bytes
  deriving DecidableEq

/-- `by_shard`: the PREPARE of each shard. -/
def byShard (txnId : ℕ) (buffer : List BufferedTxnStatement) : OrdMap ShardId TxnPrepare :=
  buffer.foldl (fun m stmt =>
    let prepare := (m.find stmt.shardId).getD ⟨0, [], []⟩
    m.insert stmt.shardId ⟨txnId, prepare.keys ++ [stmt.key],
      prepare.commands ++ [stmt.sql]⟩) .empty

/-- What `send_to_shard` gives. -/
inductive Reply
  | response (success : Bool) (error : Bytes)
  | threw (what : Bytes)

/-- The text about a shard whose reply is not a success. -/
def Reply.failure (sid : ShardId) : Reply → Option Bytes
  | .response true _ => none
  | .response false error => some (text "shard " ++ toText sid ++ text ": " ++ error)
  | .threw what => some (text "shard " ++ toText sid ++ text ": " ++ what)

/-- The node a coordinator runs on. A `NodeId` names a node of its own shard only. -/
structure Coordinator where
  shardId : ShardId
  nodeId : NodeId
  deriving DecidableEq

/-- A call, without where it is. -/
structure Call where
  coordinator : Coordinator
  txnId : ℕ
  buffer : List BufferedTxnStatement

/-- Where a call is; the first shard of `todo` is the one whose reply it waits for. -/
inductive Phase
  | preparing (prepared todo : List ShardId)
  | aborting (prepared : List ShardId) (reason : Bytes) (failures : List Bytes)
    (todo : List ShardId)
  | committing (failures : List Bytes) (todo : List ShardId)
  /-- The process of the coordinator has ended. -/
  | lost
  deriving DecidableEq

namespace Call

variable (c : Call)

def prepares : OrdMap ShardId TxnPrepare := byShard c.txnId c.buffer

def shardIds : List ShardId := c.prepares.entries.map Prod.fst

/-- The loop of the PREPAREs, and what follows its end. -/
def prepareNext (prepared todo : List ShardId) : Phase :=
  if todo = [] then .committing [] c.shardIds else .preparing prepared todo

/-- What the call has sent and waits for. -/
def request : Phase → Option (ShardId × Bytes)
  | .preparing _ (sid :: _) => (c.prepares.find sid).map fun p => (sid, encodeTxnPrepare p)
  | .aborting _ _ _ (sid :: _) => some (sid, encodeTxnAbort c.txnId)
  | .committing _ (sid :: _) => some (sid, encodeTxnCommit c.txnId)
  | _ => none

/-- What the call does with the reply it waits for. -/
def receive (reply : Reply) : Phase → Phase
  | .preparing prepared (sid :: todo) =>
    match reply.failure sid with
    | some reason => .aborting prepared reason [] prepared
    | none => c.prepareNext (prepared ++ [sid]) todo
  | .aborting prepared reason failures (sid :: todo) =>
    .aborting prepared reason (failures ++ (reply.failure sid).toList) todo
  | .committing failures (sid :: todo) =>
    .committing (failures ++ (reply.failure sid).toList) todo
  | phase => phase

/-- What the call returns, once it does. -/
def outcome : Phase → Option Bytes
  | .aborting _ reason failures [] =>
    some (text "ABORTED (" ++ reason ++ text ")" ++
      failures.flatMap fun f => text " [rollback also failed on " ++ f ++ text "]")
  | .committing [] [] =>
    some (text "OK (committed transaction " ++ toText c.txnId ++ text " across " ++
      toText c.prepares.size ++ text " shard(s))")
  | .committing failures [] =>
    some (text "transaction " ++ toText c.txnId ++
      text " was DECIDED TO COMMIT but couldn't notify every shard:" ++
      (failures.flatMap fun f => text " [" ++ f ++ text "]") ++
      text (" - those shard(s) may still be holding locks; " ++
        "retrying the same COMMIT is safe once they're reachable"))
  | _ => none

/-- Where the call is after its process has ended. -/
def lose (phase : Phase) : Phase := if (c.outcome phase).isSome then phase else .lost

end Call

/-! ### The system -/

/-- A request, with the position of the call that sent it. -/
abbrev Request := ℕ × ShardId × Bytes

structure System where
  shards : ShardId → Shard
  /-- `txn_counter` of the process that runs on the node. -/
  counters : Coordinator → ℕ
  /-- How many transactions the earlier processes of the node have begun. -/
  earlier : Coordinator → ℕ
  calls : List Call
  /-- Where the call at each position is. -/
  phases : ℕ → Phase
  sent : List Request
  /-- The requests that were applied and answered without an error. -/
  done : List Request

inductive Event
  | begin (coordinator : Coordinator) (buffer : List BufferedTxnStatement)
  | reply (call : ℕ) (reply : Reply)
  /-- A copy of a request is applied. -/
  | apply (request : Request)
  /-- A plain statement is applied. -/
  | client (sid : ShardId) (command : Bytes)
  | restartCoordinator (coordinator : Coordinator)
  /-- A restart of the shard, which forgets what is pending. -/
  | restartShard (sid : ShardId)

namespace System

def init : System :=
  ⟨fun _ => .start, fun _ => 0, fun _ => 0, [], fun _ => .lost, [], []⟩

/-- `(node_id << 32) | ++txn_counter`. -/
def nextTxnId (s : System) (coordinator : Coordinator) : ℕ :=
  coordinator.nodeId * 2 ^ 32 + (s.counters coordinator + 1) % 2 ^ 32

/-- The call at this position goes on in this phase, and sends what it has to. -/
def proceed (s : System) (i : ℕ) (c : Call) (phase : Phase) : System :=
  { s with
    phases := Function.update s.phases i phase
    sent := s.sent ++ (c.request phase).toList.map fun r => (i, r.1, r.2) }

/-- A new call, which has not sent anything yet. -/
def enroll (s : System) (c : Call) : System :=
  { s with
    counters :=
      Function.update s.counters c.coordinator ((s.counters c.coordinator + 1) % 2 ^ 32)
    calls := s.calls ++ [c]
    phases := Function.update s.phases s.calls.length .lost }

/-- A coordinator calls `RunTransaction` with a new transaction id. -/
def newCall (s : System) (coordinator : Coordinator)
    (buffer : List BufferedTxnStatement) : System :=
  let c : Call := ⟨coordinator, s.nextTxnId coordinator, buffer⟩
  (s.enroll c).proceed s.calls.length c (c.prepareNext [] c.shardIds)

def setShard (s : System) (sid : ShardId) (shard : Shard) : System :=
  { s with shards := Function.update s.shards sid shard }

/-- A new process on the node of a coordinator; the calls of the old one end. -/
def restart (s : System) (coordinator : Coordinator) : System :=
  { s with
    counters := Function.update s.counters coordinator 0
    earlier := Function.update s.earlier coordinator
      (s.earlier coordinator + s.counters coordinator)
    phases := fun i =>
      match s.calls[i]? with
      | some c => if c.coordinator = coordinator then c.lose (s.phases i) else s.phases i
      | none => s.phases i }

def step (s : System) : Event → Option System
  | .begin c buffer => if c.nodeId < 2 ^ 32 ∧
      buffer ≠ [] then some (s.newCall c buffer) else none
  | .reply i reply =>
    match s.calls[i]? with
    | none => none
    | some c =>
      match c.request (s.phases i) with
      | none => none
      | some r =>
        if (reply.failure r.1).isSome ∨ (i, r.1, r.2) ∈ s.done then
          some (s.proceed i c (c.receive reply (s.phases i)))
        else none
  | .apply (i, sid, command) =>
    if (i, sid, command) ∈ s.sent then
      match applyCallback (s.shards sid) command with
      | .error _ => none
      | .ok (shard, error) =>
        some { s.setShard sid shard with
          done := if error = [] then s.done ++ [(i, sid, command)] else s.done }
    else none
  | .client sid command =>
    match tryDecodeTxnControl command, applyCallback (s.shards sid) command with
    | .ok none, .ok (shard, _) => some (s.setShard sid shard)
    | _, _ => none
  | .restartCoordinator c => some (s.restart c)
  | .restartShard sid => some (s.setShard sid { s.shards sid with participant := .empty })

end System

/-- The steps of the system. -/
abbrev Step : System → Event → System → Prop := StepOf? System.step

end DistDB.TxnSystem
