import DistDB.Elections

/-!
A Raft group with everything its nodes send each other: votes, AppendEntries,
InstallSnapshot, and the calls of Propose.

A request stays in flight for ever, so it may arrive late, more than once, or not at all; a
thread that waits for an answer gets one of those that its call was given, or gives up. A node
may be stopped between any two of its functions and start again on its disk. Nothing is
assumed of the time.
-/

namespace DistDB.ClusterModel

open NodeModel NodeModel.Node Elections

variable {σ : Type}

inductive Rpc
  | append (req : AppendEntriesRequest)
  /-- With the entries that the snapshot stands for, which are not sent. -/
  | snapshot (req : InstallSnapshotRequest) (covered : List LogEntry)
  deriving DecidableEq

/-- A thread of a leader and its call to one peer. -/
structure Call where
  caller : NodeId
  target : NodeId
  rpc : Rpc
  /-- The thread still waits for the answer. -/
  waiting : Bool

def Call.stop (c : Call) : Call := { c with waiting := false }

inductive Answer
  | append (resp : AppendEntriesResponse)
  | snapshot (resp : InstallSnapshotResponse)

/-- `HandleInstallSnapshot` between its critical sections, under `install_mutex_`. -/
structure Install where
  call : ℕ
  request : InstallSnapshotRequest
  covered : List LogEntry
  restored : Bool

/-- A call of `Propose` that has appended its entry. -/
structure Proposal where
  node : NodeId
  command : Bytes
  term : ℕ
  index : ℕ
  waiting : Bool
  /-- What it has returned. -/
  result : Option Bool

def Proposal.stop (p : Proposal) : Proposal := { p with waiting := false }

structure Cluster (σ : Type) where
  group : RaftGroup σ
  /-- The log of each node with the entries that it has compacted away. -/
  whole : NodeId → List LogEntry
  /-- The calls of `ReplicateTo` that are still to be made. -/
  rounds : List (NodeId × NodeId)
  /-- The calls of `SendInstallSnapshot` that are still to be made, with their term. -/
  sending : List (NodeId × NodeId × ℕ)
  /-- All that were ever made. -/
  calls : List Call
  /-- Each with the position of its call. -/
  answers : List (ℕ × Answer)
  installs : NodeId → Option Install
  proposals : List Proposal

inductive Event (σ : Type)
  /-- One of the events of an election. -/
  | election (e : Elections.Event σ)
  | replicateToAll (v : NodeId)
  | replicateTo (v peer : NodeId)
  | sendInstallSnapshot (v peer : NodeId) (term : ℕ)
  | appendEntries (call now : ℕ)
  | appendReply (call answer : ℕ)
  | installCheck (call now : ℕ)
  | installRestore (v : NodeId)
  | installAdopt (v : NodeId)
  | snapshotReply (call answer : ℕ)
  | lost (call : ℕ)
  | propose (v : NodeId) (command : Bytes)
  /-- `Propose` has the mutex again, in time or not. -/
  | finish (proposal : ℕ)
  /-- The end of `ApplyCommitted`, whatever its threshold. -/
  | compact (v : NodeId)
  | restart (v : NodeId) (machine : σ)

/-! ### Steps -/

/-- The events of an election proper. -/
def OfElection : Elections.Event σ → Bool
  | .handle .. | .crash .. => false
  | _ => true

/-- The log after the entries of a request, if the node takes them. -/
def logAfter (n : Node σ) (req : AppendEntriesRequest) : RaftLog :=
  if req.term < n.state.currentTerm then n.log
  else (n.log.appendEntriesFrom req.prevLogIndex req.prevLogTerm req.entries).getD n.log

namespace Cluster

def init (nodes : NodeId → Node σ) : Cluster σ :=
  ⟨.init nodes, fun _ => [], [], [], [], [], fun _ => none, []⟩

/-- A function of a node, behind which its whole log is `entries`. -/
def setNode (s : Cluster σ) (v : NodeId) (n : Node σ) (entries : List LogEntry) : Cluster σ :=
  { s with group := s.group.setNode v n, whole := Function.update s.whole v entries }

abbrev node (s : Cluster σ) (v : NodeId) : Node σ := s.group.nodes v

def stopCall (s : Cluster σ) (call : ℕ) : Cluster σ :=
  { s with calls := s.calls.modify call Call.stop }

/-- The whole log of a node whose log has become `log`, behind the same snapshot. -/
def extended (s : Cluster σ) (v : NodeId) (log : RaftLog) : List LogEntry :=
  (s.whole v).take (s.node v).log.snapshotIndex ++ log.entries

def addAnswer (s : Cluster σ) (call : ℕ) (answer : Option Answer) : Cluster σ :=
  { s with answers := s.answers ++ answer.toList.map (call, ·) }

/-- An answer, unless the function has thrown. -/
def answered {α : Type} (f : α → Answer) : Except Exception α → Option Answer
  | .ok resp => some (f resp)
  | .error _ => none

def step? (cb : Callbacks σ) (s : Cluster σ) : Event σ → Option (Cluster σ)
  | .election e =>
    if OfElection e then (s.group.step? cb e).map fun group => { s with group := group } else none
  | .replicateToAll v =>
    if (s.node v).role = .kLeader then
      some { s with rounds := s.rounds ++ (s.node v).peers.entries.map fun p => (v, p.1) }
    else none
  | .replicateTo v peer =>
    if (v, peer) ∈ s.rounds then
      let out := (s.node v).replicateTo peer
      let s := { s.setNode v out.1 (s.whole v) with rounds := s.rounds.erase (v, peer) }
      some (match out.2 with
        | none => s
        | some (.append req) => { s with calls := s.calls ++ [⟨v, peer, .append req, true⟩] }
        | some (.snapshot term) => { s with sending := s.sending ++ [(v, peer, term)] })
    else none
  | .sendInstallSnapshot v peer term =>
    if (v, peer, term) ∈ s.sending then
      let out := (s.node v).sendInstallSnapshot cb peer term
      let covered := (s.whole v).take (s.node v).lastApplied
      let s := { s.setNode v out.1 (s.whole v) with sending := s.sending.erase (v, peer, term) }
      some (match out.2 with
        | none => s
        | some req => { s with calls := s.calls ++ [⟨v, peer, .snapshot req covered, true⟩] })
    else none
  | .appendEntries call now =>
    match s.calls[call]? with
    | some ⟨_, target, .append req, _⟩ =>
      let out := (s.node target).handleAppendEntries cb now req
      some ((s.setNode target out.1 (s.extended target (logAfter (s.node target) req))).addAnswer
        call (answered .append out.2))
    | _ => none
  | .appendReply call answer =>
    match s.calls[call]?, s.answers[answer]? with
    | some ⟨caller, target, .append req, true⟩, some (call', .append resp) =>
      if call' = call then
        let out := (s.node caller).appendReply cb target req.term req.prevLogIndex
          req.entries.length resp
        some ((s.setNode caller out.1 (s.whole caller)).stopCall call)
      else none
    | _, _ => none
  | .installCheck call now =>
    match s.calls[call]? with
    | some ⟨_, target, .snapshot req covered, _⟩ =>
      if s.installs target = none then
        let out := (s.node target).installCheck now req
        let s := s.setNode target out.1 (s.whole target)
        some (match out.2 with
          | some resp => s.addAnswer call (some (.snapshot resp))
          | none => { s with
            installs := Function.update s.installs target (some ⟨call, req, covered, false⟩) })
      else none
    | _ => none
  | .installRestore v =>
    match s.installs v with
    | some ⟨call, req, covered, false⟩ =>
      some { s.setNode v ((s.node v).installRestore cb req) (s.whole v) with
        installs := Function.update s.installs v (some ⟨call, req, covered, true⟩) }
    | _ => none
  | .installAdopt v =>
    match s.installs v with
    | some ⟨call, req, covered, true⟩ =>
      let out := (s.node v).installAdopt req
      let entries := if req.lastIncludedIndex > (s.node v).log.snapshotIndex then
        covered ++ ((s.node v).adopted req).log.entries else s.whole v
      some { (s.setNode v out.1 entries).addAnswer call (answered .snapshot out.2) with
        installs := Function.update s.installs v none }
    | _ => none
  | .snapshotReply call answer =>
    match s.calls[call]?, s.answers[answer]? with
    | some ⟨caller, target, .snapshot req _, true⟩, some (call', .snapshot resp) =>
      if call' = call then
        let n := (s.node caller).snapshotReply target req.term req.lastIncludedIndex resp
        some ((s.setNode caller n (s.whole caller)).stopCall call)
      else none
    | _, _ => none
  | .lost call =>
    match s.calls[call]? with
    | some ⟨caller, target, _, true⟩ =>
      some ((s.setNode caller ((s.node caller).replicationLost target)
        (s.whole caller)).stopCall call)
    | _ => none
  | .propose v command =>
    let n := s.node v
    let out := n.propose cb command
    if n.refusal command = .ok none then
      let appended := n.log.append n.state.currentTerm command
      some { s.setNode v out.1 (s.extended v appended.1) with
        proposals := s.proposals ++
          [⟨v, command, n.state.currentTerm, appended.2, out.2.isOk, none⟩] }
    else some (s.setNode v out.1 (s.whole v))
  | .finish proposal =>
    match s.proposals[proposal]? with
    | some p =>
      if p.waiting then
        some { s with proposals := s.proposals.modify proposal fun p =>
          { p with waiting := false, result := some ((s.node p.node).proposeResult p.index) } }
      else none
    | none => none
  | .compact v => some (s.setNode v (s.node v).compact.1 (s.whole v))
  | .restart v machine =>
    let n := s.node v
    (s.group.step? cb (.crash v ⟨n.state, n.log, n.membershipState⟩ machine)).map fun group =>
      { s with
        group := group
        rounds := s.rounds.filter fun r => r.1 ≠ v
        sending := s.sending.filter fun r => r.1 ≠ v
        calls := s.calls.map fun c => if c.caller = v then c.stop else c
        installs := Function.update s.installs v none
        proposals := s.proposals.map fun p => if p.node = v then p.stop else p }

/-- The cluster on its first run: a server of `base` is started with the others as its peers,
any other one with `--joining`. -/
def boot (base : Finset NodeId) (own : NodeId → PeerAddress)
    (peers : NodeId → OrdMap NodeId PeerAddress) (machine : NodeId → σ) : Cluster σ :=
  init fun v => if v ∈ base then bootstrap v (own v) (peers v) false (machine v)
    else bootstrap v (own v) .empty true (machine v)

end Cluster

end DistDB.ClusterModel
