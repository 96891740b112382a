import Mathlib.Data.Finset.Basic
import Mathlib.Data.List.Sort
import Mathlib.Tactic.Simps.Basic
import DistDB.Codec
import DistDB.RaftLog
import DistDB.Text

/-!
The Raft node of `raft/node.cpp`, one function for each critical section under its mutex,
with the conf changes of `raft/conf_change.cpp` and the state of `raft/membership_state.cpp`
and `raft/persistent_state.cpp`.

A node is generic in the state machine `σ` behind its callbacks. A function that decodes or
applies commands may throw, and then leaves the node as it is at that moment (`Outcome`).
Timers are left out, except for the moment of the last contact with a leader, which a vote
depends on.
-/

namespace DistDB.NodeModel

open Codec Bytes

structure PeerAddress where
  host : Bytes
  port : ℕ
  deriving DecidableEq

/-- `enum class ConfChangeType : uint8_t`; a command may hold any byte. -/
abbrev ConfChangeType := ℕ

def kAddServer : ConfChangeType := 1
def kRemoveServer : ConfChangeType := 2

structure ConfChangeCommand where
  type : ConfChangeType
  serverId : NodeId
  host : Bytes
  port : ℕ
  deriving DecidableEq

def encodeConfChange (c : ConfChangeCommand) : Bytes :=
  le 1 1 ++ le 1 c.type ++ le 4 c.serverId ++ encStr c.host ++ le 2 c.port

def corruptConfChange : Exception := .runtimeError (text "corrupt or truncated conf-change command")

def readConfChange : Reader Exception ConfChangeCommand := do
  let _tag ← num corruptConfChange 1
  let type ← num corruptConfChange 1
  let serverId ← num corruptConfChange 4
  let host ← str corruptConfChange
  let port ← num corruptConfChange 2
  return ⟨type, serverId, host, port⟩

/-- `TryDecodeConfChange`; `none` is a command that is not a conf change. -/
def tryDecodeConfChange (command : Bytes) : Except Exception (Option ConfChangeCommand) :=
  if command.head? = some 1 then some <$> Codec.run readConfChange command else .ok none

/-! ### The node -/

inductive Role
  | kFollower
  | kCandidate
  | kLeader
  deriving DecidableEq

structure PersistentState where
  currentTerm : ℕ
  votedFor : Option NodeId
  deriving DecidableEq

structure MembershipState where
  basePeers : OrdMap NodeId PeerAddress
  selfIsMember : Bool
  ownAddress : PeerAddress

/-- The callbacks a node is built with. `apply` returns the error text of the command. -/
structure Callbacks (σ : Type) where
  apply : σ → ℕ → Bytes → σ × Except Exception Bytes
  snapshot : σ → Bytes
  restore : σ → Bytes → σ

structure Node (σ : Type) where
  id : NodeId
  ownAddress : PeerAddress
  peers : OrdMap NodeId PeerAddress
  state : PersistentState
  log : RaftLog
  membershipState : MembershipState
  role : Role
  leaderHint : NodeId
  commitIndex : ℕ
  lastApplied : ℕ
  selfIsMember : Bool
  /-- Zero when none is pending. -/
  pendingSelfRemovalIndex : ℕ
  applyErrors : OrdMap ℕ Bytes
  votesReceived : ℕ
  /-- In milliseconds; `none` is the epoch. -/
  lastLeaderContact : Option ℕ
  nextIndex : OrdMap NodeId ℕ
  matchIndex : OrdMap NodeId ℕ
  replicationInFlight : Finset NodeId
  /-- What the callbacks work on. -/
  machine : σ

def kElectionTimeoutMinMs : ℕ := 400
def kCompactionThreshold : ℕ := 5

variable {σ α β : Type}

/-- The node that a function leaves, and what the function returns or throws. -/
abbrev Outcome (σ α : Type) := Node σ × Except Exception α

/-- The rest of a function, unless it has thrown. -/
def Outcome.andThen (x : Outcome σ α) (f : Node σ → α → Outcome σ β) : Outcome σ β :=
  match x.2 with
  | .error e => (x.1, .error e)
  | .ok a => f x.1 a

/-- The constructor on the files a node finds: the term and vote, the log and the
membership, which it has already seeded on its first run. -/
def construct (id : NodeId) (state : PersistentState) (log : RaftLog)
    (membershipState : MembershipState) (machine : σ) : Node σ where
  id := id
  ownAddress := membershipState.ownAddress
  peers := membershipState.basePeers
  state := state
  log := log
  membershipState := membershipState
  role := .kFollower
  leaderHint := 0
  commitIndex := log.appliedIndex
  lastApplied := log.appliedIndex
  selfIsMember := membershipState.selfIsMember
  pendingSelfRemovalIndex := 0
  applyErrors := .empty
  votesReceived := 0
  lastLeaderContact := none
  nextIndex := .empty
  matchIndex := .empty
  replicationInFlight := ∅
  machine := machine

/-- The constructor on a first run: the membership is seeded from the arguments. -/
def bootstrap (id : NodeId) (ownAddress : PeerAddress) (peers : OrdMap NodeId PeerAddress)
    (joining : Bool) (machine : σ) : Node σ :=
  construct id ⟨0, none⟩ .empty ⟨peers, !joining, ownAddress⟩ machine

namespace Node

/-- A crash and a restart: the constructor on what the node had saved, and the state machine
on its own files. -/
def restart (n : Node σ) (machine : σ) : Node σ :=
  construct n.id n.state n.log n.membershipState machine

@[simps]
def withLog (n : Node σ) (log : RaftLog) : Node σ := { n with log := log }

@[simps]
def withCommitIndex (n : Node σ) (index : ℕ) : Node σ := { n with commitIndex := index }

/-- The conf changes the log holds at the indices above `lo` up to `hi`. -/
def confChanges (log : RaftLog) (lo hi : ℕ) :
    Except Exception (List (ℕ × ConfChangeCommand)) :=
  (List.range' (lo + 1) (hi - lo)).filterMapM fun i =>
    match log.get i with
    | none => return none
    | some entry => (Option.map (i, ·)) <$> tryDecodeConfChange entry.command

/-- What the fold of `RefreshMembership` computes. -/
structure Effective where
  peers : OrdMap NodeId PeerAddress
  selfMember : Bool
  pendingRemoval : ℕ

/-- One pass of the fold, for a node in this role with this commit index. -/
def effectiveStep (id : NodeId) (role : Role) (commitIndex : ℕ) (m : Effective)
    (change : ℕ × ConfChangeCommand) : Effective :=
  let (i, cc) := change
  if cc.type = kAddServer then
    if cc.serverId = id then { m with selfMember := true, pendingRemoval := 0 }
    else { m with peers := m.peers.insert cc.serverId ⟨cc.host, cc.port⟩ }
  else if cc.serverId = id then
    if role = .kLeader ∧ commitIndex < i then { m with pendingRemoval := i }
    else { m with selfMember := false }
  else { m with peers := m.peers.erase cc.serverId }

/-- The fold of `RefreshMembership` over these changes. -/
def effective (n : Node σ) (changes : List (ℕ × ConfChangeCommand)) : Effective :=
  changes.foldl (effectiveStep n.id n.role n.commitIndex)
    ⟨n.membershipState.basePeers, n.membershipState.selfIsMember, 0⟩

/-- The rest of `RefreshMembership`: its two loops over the peers leave exactly the effective
ones. -/
def setMembership (n : Node σ) (m : Effective) : Node σ :=
  let added := m.peers.entries.filter fun p => (n.peers.find p.1).isNone
  let removed := n.peers.entries.filter fun p => (m.peers.find p.1).isNone
  let seed := fun (map : OrdMap NodeId ℕ) (v : ℕ) =>
    removed.foldl (fun map p => map.erase p.1)
      (if n.role = .kLeader then added.foldl (fun map p => map.insert p.1 v) map else map)
  { n with
    selfIsMember := m.selfMember
    pendingSelfRemovalIndex := m.pendingRemoval
    peers := m.peers
    nextIndex := seed n.nextIndex 1
    matchIndex := seed n.matchIndex 0
    replicationInFlight := removed.foldl (fun s p => s.erase p.1) n.replicationInFlight }

/-- `RefreshMembership`. -/
def refreshMembership (n : Node σ) : Outcome σ Unit :=
  match confChanges n.log n.log.snapshotIndex n.log.lastIndex with
  | .error e => ({ n with pendingSelfRemovalIndex := 0 }, .error e)
  | .ok changes => (n.setMembership (n.effective changes), .ok ())

def becomeFollower (n : Node σ) (term : ℕ) : Node σ :=
  { n with
    state := if term > n.state.currentTerm then ⟨term, none⟩ else n.state
    role := .kFollower }

/-- How the handlers of a leader's requests begin, for a term that is not behind. -/
def heardFrom (now : ℕ) (n : Node σ) (term : ℕ) (leaderId : NodeId) : Node σ :=
  let n := if term > n.state.currentTerm ∨ n.role ≠ .kFollower then n.becomeFollower term else n
  { n with lastLeaderContact := some now, leaderHint := leaderId }

def becomeLeader (n : Node σ) : Outcome σ Unit :=
  n.refreshMembership.andThen fun n _ =>
    ({ n with
      role := .kLeader
      leaderHint := n.id
      replicationInFlight := ∅
      nextIndex := n.peers.entries.foldl (fun m p => m.insert p.1 (n.log.lastIndex + 1)) n.nextIndex
      matchIndex := n.peers.entries.foldl (fun m p => m.insert p.1 0) n.matchIndex }, .ok ())

/-- The part of the loop of `ApplyCommitted` between its two counters. -/
def applyEntry (cb : Callbacks σ) (n : Node σ) (entry : LogEntry) : Outcome σ Unit :=
  match tryDecodeConfChange entry.command with
  | .error e => (n, .error e)
  | .ok (some _) => (n, .ok ())
  | .ok none =>
    match cb.apply n.machine entry.index entry.command with
    | (machine, .error e) => ({ n with machine := machine }, .error e)
    | (machine, .ok error) =>
      ({ n with
        machine := machine
        applyErrors := if error = [] then n.applyErrors
          else n.applyErrors.insert entry.index error },
        .ok ())

/-- One pass of the loop of `ApplyCommitted`. -/
def applyNext (cb : Callbacks σ) (n : Node σ) : Outcome σ Unit :=
  let n := { n with lastApplied := n.lastApplied + 1 }
  Outcome.andThen (match n.log.get n.lastApplied with
    | none => (n, .ok ())
    | some entry => n.applyEntry cb entry) fun n _ =>
  ({ n with log := n.log.setAppliedIndex n.lastApplied }, .ok ())

def applyLoop (cb : Callbacks σ) : ℕ → Node σ → Outcome σ Unit
  | 0, n => (n, .ok ())
  | k + 1, n => (n.applyNext cb).andThen fun n _ => n.applyLoop cb k

/-- One pass of the fold that moves compacted conf changes into the persisted base. -/
def baseStep (id : NodeId) (m : OrdMap NodeId PeerAddress × Bool) (cc : ConfChangeCommand) :
    OrdMap NodeId PeerAddress × Bool :=
  if cc.type = kAddServer then
    if cc.serverId = id then (m.1, true) else (m.1.insert cc.serverId ⟨cc.host, cc.port⟩, m.2)
  else if cc.serverId = id then (m.1, false) else (m.1.erase cc.serverId, m.2)

/-- The end of `ApplyCommitted`: everything applied is dropped from the log. -/
def compact (n : Node σ) : Outcome σ Unit :=
  let old := n.log.snapshotIndex
  match confChanges n.log old n.lastApplied with
  | .error e => (n, .error e)
  | .ok changes =>
    let base := (changes.map Prod.snd).foldl (baseStep n.id)
      (n.membershipState.basePeers, n.membershipState.selfIsMember)
    ({ n with
      membershipState :=
        if changes = [] then n.membershipState else ⟨base.1, base.2, n.ownAddress⟩
      log := n.log.compactTo n.lastApplied (n.log.termAt n.lastApplied)
      applyErrors := n.applyErrors.filterMap fun i e => if i ≤ old then none else some e },
      .ok ())

/-- `last_applied_ - log_.snapshot_index()`, on unsigned numbers. -/
def appliedGap (n : Node σ) : ℕ :=
  if n.log.snapshotIndex ≤ n.lastApplied then n.lastApplied - n.log.snapshotIndex
  else 2 ^ 64 + n.lastApplied - n.log.snapshotIndex

def applyCommitted (cb : Callbacks σ) (n : Node σ) : Outcome σ Unit :=
  (n.applyLoop cb (n.commitIndex - n.lastApplied)).andThen fun n _ =>
    if n.appliedGap ≥ kCompactionThreshold then n.compact else (n, .ok ())

structure RequestVoteRequest where
  term : ℕ
  candidateId : NodeId
  lastLogIndex : ℕ
  lastLogTerm : ℕ
  deriving DecidableEq

structure RequestVoteResponse where
  term : ℕ
  voteGranted : Bool
  deriving DecidableEq

/-- The candidate's last entry against this node's. -/
def candidateLogOk (n : Node σ) (req : RequestVoteRequest) : Prop :=
  req.lastLogTerm > n.log.lastTerm ∨
    (req.lastLogTerm = n.log.lastTerm ∧ req.lastLogIndex ≥ n.log.lastIndex)

instance (n : Node σ) (req : RequestVoteRequest) : Decidable (n.candidateLogOk req) :=
  inferInstanceAs (Decidable (_ ∨ _))

def handleRequestVote (now : ℕ) (n : Node σ) (req : RequestVoteRequest) :
    Node σ × RequestVoteResponse :=
  if n.lastLeaderContact.any fun t => now - t < kElectionTimeoutMinMs then
    (n, ⟨n.state.currentTerm, false⟩)
  else if req.term < n.state.currentTerm then (n, ⟨n.state.currentTerm, false⟩)
  else
    let n := if req.term > n.state.currentTerm then n.becomeFollower req.term else n
    let votedElsewhere := n.state.votedFor.any (· ≠ req.candidateId)
    if ¬ votedElsewhere ∧ n.candidateLogOk req then
      ({ n with state := ⟨n.state.currentTerm, some req.candidateId⟩ },
        ⟨n.state.currentTerm, true⟩)
    else (n, ⟨n.state.currentTerm, false⟩)

/-- Whether the votes are a majority of the node and its peers. -/
def hasMajority (n : Node σ) : Prop := n.votesReceived * 2 > n.peers.size + 1

instance (n : Node σ) : Decidable n.hasMajority := inferInstanceAs (Decidable (_ > _))

/-- `StartElection`: the request to send to every peer; none when the node is no member or
wins at once. -/
def startElection (n : Node σ) : Outcome σ (Option RequestVoteRequest) :=
  n.refreshMembership.andThen fun n _ =>
    if ¬ n.selfIsMember then (n, .ok none)
    else
      let n := { n with
        state := ⟨n.state.currentTerm + 1, some n.id⟩
        role := .kCandidate
        votesReceived := 1 }
      if n.hasMajority then n.becomeLeader.andThen fun n _ => (n, .ok none)
      else (n, .ok (some ⟨n.state.currentTerm, n.id, n.log.lastIndex, n.log.lastTerm⟩))

/-- What the thread that asked for a vote in `electionTerm` does with the answer. -/
def voteReply (n : Node σ) (electionTerm : ℕ) (resp : RequestVoteResponse) : Outcome σ Unit :=
  if resp.term > n.state.currentTerm then (n.becomeFollower resp.term, .ok ())
  else if n.role ≠ .kCandidate ∨ electionTerm ≠ n.state.currentTerm then (n, .ok ())
  else if resp.voteGranted then
    let n := { n with votesReceived := n.votesReceived + 1 }
    if n.hasMajority then n.becomeLeader else (n, .ok ())
  else (n, .ok ())

/-! ### Replication -/

structure AppendEntriesRequest where
  term : ℕ
  leaderId : NodeId
  prevLogIndex : ℕ
  prevLogTerm : ℕ
  entries : List LogEntry
  leaderCommit : ℕ
  deriving DecidableEq

structure AppendEntriesResponse where
  term : ℕ
  success : Bool
  matchIndex : ℕ
  deriving DecidableEq

/-- A follower learns the commit index of the leader. -/
def followCommit (cb : Callbacks σ) (n : Node σ) (leaderCommit : ℕ) : Outcome σ Unit :=
  if leaderCommit > n.commitIndex then
    (n.withCommitIndex (min leaderCommit n.log.lastIndex)).applyCommitted cb
  else (n, .ok ())

def handleAppendEntries (cb : Callbacks σ) (now : ℕ) (n : Node σ) (req : AppendEntriesRequest) :
    Outcome σ AppendEntriesResponse :=
  if req.term < n.state.currentTerm then (n, .ok ⟨n.state.currentTerm, false, 0⟩)
  else
    let n := n.heardFrom now req.term req.leaderId
    match n.log.appendEntriesFrom req.prevLogIndex req.prevLogTerm req.entries with
    | none => (n, .ok ⟨n.state.currentTerm, false, 0⟩)
    | some log =>
      (n.withLog log).refreshMembership.andThen fun n _ =>
      (n.followCommit cb req.leaderCommit).andThen fun n _ =>
      (n, .ok ⟨n.state.currentTerm, true, req.prevLogIndex + req.entries.length⟩)

/-- The index a majority of the leader and its peers has: the middle one, from the highest
down. -/
def majorityIndex (n : Node σ) : ℕ :=
  let indices := n.log.lastIndex :: n.matchIndex.entries.map Prod.snd
  (indices.insertionSort (· ≥ ·)).getD (indices.length / 2) 0

/-- The end of `MaybeAdvanceCommitIndex`: a leader whose own removal is committed steps
down. -/
def stepDownIfRemoved (n : Node σ) : Outcome σ Unit :=
  if n.pendingSelfRemovalIndex ≠ 0 ∧ n.commitIndex ≥ n.pendingSelfRemovalIndex then
    let wasLeader := n.role = .kLeader
    n.refreshMembership.andThen fun n _ =>
      (if wasLeader ∧ ¬ n.selfIsMember then { n with role := .kFollower } else n, .ok ())
  else (n, .ok ())

def maybeAdvanceCommitIndex (cb : Callbacks σ) (n : Node σ) : Outcome σ Unit :=
  if n.majorityIndex > n.commitIndex ∧ n.log.termAt n.majorityIndex = n.state.currentTerm then
    ((n.withCommitIndex n.majorityIndex).applyCommitted cb).andThen fun n _ =>
      n.stepDownIfRemoved
  else (n, .ok ())

/-- What `ReplicateTo` sends. -/
inductive Replication
  | append (req : AppendEntriesRequest)
  /-- `SendInstallSnapshot` is to be called with this term. -/
  | snapshot (term : ℕ)

/-- `ReplicateTo`: nothing when the node does not lead or a call to the peer is in flight. -/
def replicateTo (n : Node σ) (peer : NodeId) : Node σ × Option Replication :=
  if n.role ≠ .kLeader ∨ peer ∈ n.replicationInFlight then (n, none)
  else
    -- `next_index_[peer_id]` creates a missing entry
    let n := { n with nextIndex := n.nextIndex.emplace peer 0 }
    let nextIdx := (n.nextIndex.find peer).getD 0
    let n := { n with replicationInFlight := insert peer n.replicationInFlight }
    if nextIdx ≤ n.log.snapshotIndex then (n, some (.snapshot n.state.currentTerm))
    else
      let entries := (List.range' nextIdx (n.log.lastIndex + 1 - nextIdx)).filterMap n.log.get
      (n, some (.append ⟨n.state.currentTerm, n.id, nextIdx - 1,
        n.log.termAt (nextIdx - 1), entries,
        n.commitIndex⟩))

/-- The call to the peer failed. -/
def replicationLost (n : Node σ) (peer : NodeId) : Node σ :=
  { n with replicationInFlight := n.replicationInFlight.erase peer }

/-- What the thread that sent `sentCount` entries behind `prevLogIndex` in `term` does with
the answer. -/
def appendReply (cb : Callbacks σ) (n : Node σ) (peer : NodeId) (term : ℕ)
    (prevLogIndex sentCount : ℕ) (resp : AppendEntriesResponse) : Outcome σ Unit :=
  let n := n.replicationLost peer
  if (n.peers.find peer).isNone then (n, .ok ())
  else if resp.term > n.state.currentTerm then (n.becomeFollower resp.term, .ok ())
  else if n.role ≠ .kLeader ∨ term ≠ n.state.currentTerm then (n, .ok ())
  else if resp.success then
    let newMatch := max (prevLogIndex + sentCount) ((n.matchIndex.find peer).getD 0)
    ({ n with
      matchIndex := n.matchIndex.insert peer newMatch
      nextIndex := n.nextIndex.insert peer (newMatch + 1) } : Node σ).maybeAdvanceCommitIndex cb
  else
    let nextIdx := (n.nextIndex.find peer).getD 0
    ({ n with
      nextIndex := n.nextIndex.insert peer (if nextIdx > 1 then nextIdx - 1 else nextIdx) }, .ok ())

structure InstallSnapshotRequest where
  term : ℕ
  leaderId : NodeId
  lastIncludedIndex : ℕ
  lastIncludedTerm : ℕ
  data : Bytes
  membership : OrdMap NodeId PeerAddress
  deriving DecidableEq

structure InstallSnapshotResponse where
  term : ℕ
  deriving DecidableEq

/-- The critical section of `SendInstallSnapshot`. -/
def sendInstallSnapshot (cb : Callbacks σ) (n : Node σ) (peer : NodeId) (term : ℕ) :
    Node σ × Option InstallSnapshotRequest :=
  if n.role ≠ .kLeader ∨ term ≠ n.state.currentTerm then (n.replicationLost peer, none)
  else (n, some ⟨term, n.id, n.lastApplied, n.log.termAt n.lastApplied, cb.snapshot n.machine,
    n.peers.insert n.id n.ownAddress⟩)

def snapshotReply (n : Node σ) (peer : NodeId) (term : ℕ) (snapshotIndex : ℕ)
    (resp : InstallSnapshotResponse) : Node σ :=
  let n := n.replicationLost peer
  if (n.peers.find peer).isNone then n
  else if resp.term > n.state.currentTerm then n.becomeFollower resp.term
  else if n.role ≠ .kLeader ∨ term ≠ n.state.currentTerm then n
  else { n with
    nextIndex := n.nextIndex.insert peer (snapshotIndex + 1)
    matchIndex := n.matchIndex.insert peer snapshotIndex }

/-- The first critical section of `HandleInstallSnapshot`; with an answer the call is over. -/
def installCheck (now : ℕ) (n : Node σ) (req : InstallSnapshotRequest) :
    Node σ × Option InstallSnapshotResponse :=
  if req.term < n.state.currentTerm then (n, some ⟨n.state.currentTerm⟩)
  else
    let n := n.heardFrom now req.term req.leaderId
    if req.lastIncludedIndex ≤ n.log.snapshotIndex then (n, some ⟨n.state.currentTerm⟩)
    else (n, none)

/-- The call of `restore_callback_`, outside the mutex. -/
def installRestore (cb : Callbacks σ) (n : Node σ) (req : InstallSnapshotRequest) : Node σ :=
  { n with machine := cb.restore n.machine req.data }

/-- The node with the snapshot adopted, before its members are derived again. -/
@[simps]
def adopted (n : Node σ) (req : InstallSnapshotRequest) : Node σ :=
  { n with
    log :=
      if req.lastIncludedIndex > n.lastApplied then
        (n.log.compactTo req.lastIncludedIndex req.lastIncludedTerm).setAppliedIndex
          req.lastIncludedIndex
      else n.log.compactTo req.lastIncludedIndex req.lastIncludedTerm
    commitIndex := max req.lastIncludedIndex n.commitIndex
    lastApplied := max req.lastIncludedIndex n.lastApplied
    ownAddress := (req.membership.find n.id).getD n.ownAddress
    membershipState := ⟨req.membership.erase n.id, (req.membership.find n.id).isSome,
      (req.membership.find n.id).getD n.ownAddress⟩ }

/-- The second critical section of `HandleInstallSnapshot`. -/
def installAdopt (n : Node σ) (req : InstallSnapshotRequest) :
    Outcome σ InstallSnapshotResponse :=
  Outcome.andThen (if req.lastIncludedIndex > n.log.snapshotIndex then
      (n.adopted req).refreshMembership
    else (n, .ok ())) fun n _ =>
  (n, .ok ⟨n.state.currentTerm⟩)

/-- The check of a conf change against what is pending and against the members; the text of
the error. -/
def checkConfChange (n : Node σ) (cc : ConfChangeCommand) : Except Exception (Option Bytes) := do
  let pending ← confChanges n.log n.commitIndex n.log.lastIndex
  if pending ≠ [] then return some (text "a membership change is already pending")
  else
    let member := cc.serverId = n.id ∨ (n.peers.find cc.serverId).isSome
    if cc.type = kAddServer then
      return if member then
        some (text "server " ++ toText cc.serverId ++ text " is already a member") else none
    else
      return if member then none
        else some (text "server " ++ toText cc.serverId ++ text " is not a member")

/-- What `Propose` answers before it appends: a refusal, with its error text if it has
one. -/
def refusal (n : Node σ) (command : Bytes) : Except Exception (Option (Option Bytes)) :=
  if n.role ≠ .kLeader then .ok (some none)
  else do
    match ← tryDecodeConfChange command with
    | none => return none
    | some cc => return (← n.checkConfChange cc).map some

/-- The first critical section of `Propose`: refused, with the error text if there is one,
or appended at an index. -/
inductive Proposal
  | refused (error : Option Bytes)
  | appended (index : ℕ)
  deriving DecidableEq

def propose (cb : Callbacks σ) (n : Node σ) (command : Bytes) : Outcome σ Proposal :=
  match n.refusal command with
  | .error e => (n, .error e)
  | .ok (some error) => (n, .ok (.refused error))
  | .ok none =>
    let (log, index) := n.log.append n.state.currentTerm command
    (n.withLog log).refreshMembership.andThen fun n _ =>
    (n.maybeAdvanceCommitIndex cb).andThen fun n _ =>
    (n, .ok (.appended index))

/-- What `Propose` returns for the entry at `index`, once it has the mutex again. -/
def proposeResult (n : Node σ) (index : ℕ) : Bool := index ≤ n.commitIndex

/-- The error of applying the entry, for a call that returns true. -/
def proposeError (n : Node σ) (index : ℕ) : Bytes := (n.applyErrors.find index).getD []

end Node

end DistDB.NodeModel
