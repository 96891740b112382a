import Mathlib.Data.Finset.Basic
import DistDB.SqlExecutor

/-!
Transactions on one shard: the control commands of `txn/txn.cpp`, the participant of
`txn/participant.cpp`, and the apply callback of `raft_main.cpp`, which hands a committed
command to the one or to the SQL executor.
-/

namespace DistDB.TxnModel

open SqlParser SqlExecutor Codec Bytes

/-- `enum class TxnControlType : uint8_t`; a command may hold any byte. -/
abbrev TxnControlType := ℕ

def kPrepare : TxnControlType := 1
def kCommit : TxnControlType := 2
def kAbort : TxnControlType := 3

structure TxnPrepare where
  txnId : ℕ
  keys : List Bytes
  commands : List Bytes

structure TxnControlCommand where
  type : TxnControlType
  txnId : ℕ
  keys : List Bytes
  commands : List Bytes
  deriving DecidableEq

/-- The tag, the type and the transaction. -/
def encodeControl (type : TxnControlType) (txnId : ℕ) : Bytes :=
  le 1 0 ++ le 1 type ++ le 8 txnId

def encodeTxnPrepare (p : TxnPrepare) : Bytes :=
  encodeControl kPrepare p.txnId ++ encVec encStr p.keys ++ encVec encStr p.commands

def encodeTxnCommit (txnId : ℕ) : Bytes := encodeControl kCommit txnId

def encodeTxnAbort (txnId : ℕ) : Bytes := encodeControl kAbort txnId

def corruptTxn : Exception := .runtimeError (text "corrupt or truncated txn control command")

/-- What follows the type and the transaction. -/
def readTxnBody (type : TxnControlType) (txnId : ℕ) : Reader Exception TxnControlCommand :=
  if type = kPrepare then do
    let keys ← vec corruptTxn (str corruptTxn)
    let commands ← vec corruptTxn (str corruptTxn)
    return ⟨type, txnId, keys, commands⟩
  else return ⟨type, txnId, [], []⟩

def readTxnControl : Reader Exception TxnControlCommand := do
  let _tag ← num corruptTxn 1
  let type ← num corruptTxn 1
  let txnId ← num corruptTxn 8
  readTxnBody type txnId

/-- `TryDecodeTxnControl`; `none` is a command that is not a control command. -/
def tryDecodeTxnControl (command : Bytes) : Except Exception (Option TxnControlCommand) :=
  if command.head? = some 0 then some <$> Codec.run readTxnControl command else .ok none

structure Pending where
  keys : List Bytes
  commands : List Bytes
  deriving DecidableEq

structure TxnParticipant where
  pending : OrdMap ℕ Pending
  lockedKeys : Finset Bytes

namespace TxnParticipant

def empty : TxnParticipant := ⟨.empty, ∅⟩

/-- `Prepare`; the empty text is a yes vote. -/
def prepare (p : TxnParticipant) (txnId : ℕ) (keys commands : List Bytes) :
    TxnParticipant × Bytes :=
  if (p.pending.find txnId).isSome then (p, []) else
  match keys.find? (· ∈ p.lockedKeys) with
  | some key => (p, text "key '" ++ key ++ text "' is locked by another in-flight transaction")
  | none =>
    (⟨p.pending.insert txnId ⟨keys, commands⟩, keys.foldl
      (fun l k => insert k l) p.lockedKeys⟩, [])

/-- The participant without `txnId`, whose locks are released. -/
def resolve (p : TxnParticipant) (txnId : ℕ) (pending : Pending) : TxnParticipant :=
  ⟨p.pending.erase txnId, pending.keys.foldl Finset.erase p.lockedKeys⟩

def abort (p : TxnParticipant) (txnId : ℕ) : TxnParticipant × Bytes :=
  match p.pending.find txnId with
  | none => (p, [])
  | some pending => (p.resolve txnId pending, [])

end TxnParticipant

/-! ### The state machine of a shard -/

/-- What the apply callback works on. -/
structure Shard where
  store : Store
  participant : TxnParticipant

def Shard.start : Shard := ⟨.empty, .empty⟩

/-- Running staged commands: the store they leave, and the first exception. -/
def runStaged : Store → List Bytes → Store × Except Exception Unit
  | store, [] => (store, .ok ())
  | store, command :: commands =>
    let (writes, result) := execute store command
    match result with
    | .error e => (applyAll store writes, .error e)
    | .ok _ => runStaged (applyAll store writes) commands

/-- `Commit` and the `catch` around it: what COMMIT answers. -/
def commit (s : Shard) (txnId : ℕ) : Shard × Bytes :=
  match s.participant.pending.find txnId with
  | none => (s, text "commit of unknown or already-resolved transaction " ++ toText txnId)
  | some pending =>
    let (store, result) := runStaged s.store pending.commands
    (⟨store, s.participant.resolve txnId pending⟩,
      match result with
      | .ok _ => []
      | .error e => e.what)

/-- `FindStagedDuplicateKey`; the empty text when there is none. -/
def findStagedDuplicateKey (store : Store) : List Bytes → Bytes
  | [] => []
  | command :: commands =>
    match parse command with
    | .ok (.insert stmt) =>
      match tryExtractRowKey store (.insert stmt) with
      | none => findStagedDuplicateKey store commands
      | some key =>
        if (store.find key).isSome then
          text "duplicate primary key in staged command '" ++ command ++ text "'"
        else findStagedDuplicateKey store commands
    | _ => findStagedDuplicateKey store commands

/-- The SQL branch of the apply callback. -/
def applySql (s : Shard) (command : Bytes) : Shard × Bytes :=
  let (writes, result) := execute s.store command
  ({ s with store := applyAll s.store writes },
    match result with
    | .ok _ => []
    | .error e => e.what)

/-- `apply_callback`: the state it leaves and the error text it returns. The decoder of the
control commands is outside every `try`. -/
def applyCallback (s : Shard) (command : Bytes) : Except Exception (Shard × Bytes) := do
  match ← tryDecodeTxnControl command with
  | none => return applySql s command
  | some control =>
    if control.type = kPrepare then
      let error := findStagedDuplicateKey s.store control.commands
      if error ≠ [] then return (s, error)
      let (participant, error) := s.participant.prepare control.txnId control.keys control.commands
      return ({ s with participant := participant }, error)
    else if control.type = kCommit then return commit s control.txnId
    else if control.type = kAbort then
      let (participant, error) := s.participant.abort control.txnId
      return ({ s with participant := participant }, error)
    else return applySql s command

/-- Committed commands, applied in order; the answers are dropped. -/
def applyCommands (s : Shard) (commands : List Bytes) : Except Exception Shard :=
  commands.foldlM (fun s command => Prod.fst <$> applyCallback s command) s

lemma applyCommands_cons {s s' : Shard} {command error : Bytes} (commands : List Bytes)
    (h : applyCallback s command = .ok (s', error)) :
    applyCommands s (command :: commands) = applyCommands s' commands := by
  rw [applyCommands, List.foldlM_cons, h]
  rfl

lemma applyCommands_append {s s' : Shard} {before : List Bytes} (commands : List Bytes)
    (h : applyCommands s before = .ok s') :
    applyCommands s (before ++ commands) = applyCommands s' commands := by
  unfold applyCommands at h ⊢
  rw [List.foldlM_append, h]
  rfl

end DistDB.TxnModel
