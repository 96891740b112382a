import DistDB.NodeMoves
import DistDB.Runs

/-!
The nodes of a Raft group and the requests for votes between them.

What leaders send is left open here: a node may be handed any request of a leader and any
answer to one of its own. A node may stop at any time, also inside a function. It then starts
again with the term and the vote that it has saved, which are those from before the function
or those of a higher term that the function has entered first; log and members on its disk may
be whatever a function leaves of them.
-/

namespace DistDB.Elections

open NodeModel NodeModel.Node

variable {σ : Type}

/-- A function of the node with its arguments. -/
inductive Handler
  | appendEntries (now : ℕ) (req : AppendEntriesRequest)
  | replicateTo (peer : NodeId)
  | replicationLost (peer : NodeId)
  | appendReply (peer : NodeId) (term prevLogIndex sentCount : ℕ) (resp : AppendEntriesResponse)
  | sendInstallSnapshot (peer : NodeId) (term : ℕ)
  | snapshotReply (peer : NodeId) (term snapshotIndex : ℕ) (resp : InstallSnapshotResponse)
  | installCheck (now : ℕ) (req : InstallSnapshotRequest)
  | installRestore (req : InstallSnapshotRequest)
  | installAdopt (req : InstallSnapshotRequest)
  | propose (command : Bytes)

/-- The node that the function leaves. -/
def Handler.run (cb : Callbacks σ) (n : Node σ) : Handler → Node σ
  | .appendEntries now req => (n.handleAppendEntries cb now req).1
  | .replicateTo peer => (n.replicateTo peer).1
  | .replicationLost peer => n.replicationLost peer
  | .appendReply peer term prevLogIndex sentCount resp =>
    (n.appendReply cb peer term prevLogIndex sentCount resp).1
  | .sendInstallSnapshot peer term => (n.sendInstallSnapshot cb peer term).1
  | .snapshotReply peer term snapshotIndex resp => n.snapshotReply peer term snapshotIndex resp
  | .installCheck now req => (n.installCheck now req).1
  | .installRestore req => n.installRestore cb req
  | .installAdopt req => (n.installAdopt req).1
  | .propose command => (n.propose cb command).1

/-- `StartElection` on its way through the peers. -/
structure Campaign where
  request : RequestVoteRequest
  called : Finset NodeId

/-- The campaign that `StartElection` begins with what it returns. -/
def Campaign.begun : Except Exception (Option RequestVoteRequest) → Option Campaign
  | .ok (some req) => some ⟨req, ∅⟩
  | _ => none

/-- A thread of `StartElection` and its call to one peer. -/
structure VoteCall where
  caller : NodeId
  target : NodeId
  request : RequestVoteRequest
  /-- The thread still waits for the answer. -/
  waiting : Bool

def VoteCall.stop (c : VoteCall) : VoteCall := { c with waiting := false }

structure RaftGroup (σ : Type) where
  nodes : NodeId → Node σ
  campaigns : NodeId → Option Campaign
  /-- All that were ever made. A request may arrive late, or more than once. -/
  voteCalls : List VoteCall
  /-- Each with the position of its call. -/
  voteAnswers : List (ℕ × RequestVoteResponse)
  /-- What each node has been after each of its functions. -/
  past : List (NodeId × PersistentState × Role)

/-- What a node finds when it starts again. -/
structure Disk where
  state : PersistentState
  log : RaftLog
  membership : MembershipState

inductive Event (σ : Type)
  | startElection (v : NodeId)
  /-- The next pass of the loop of `StartElection`. -/
  | callVote (v peer : NodeId)
  /-- A request arrives. -/
  | requestVote (call now : ℕ)
  /-- The thread gets one of the answers to its call. -/
  | voteReply (call answer : ℕ)
  | voteLost (call : ℕ)
  | handle (v : NodeId) (handler : Handler)
  | crash (v : NodeId) (disk : Disk) (machine : σ)

namespace RaftGroup

def init (nodes : NodeId → Node σ) : RaftGroup σ := ⟨nodes, fun _ => none, [], [], []⟩

def setNode (s : RaftGroup σ) (v : NodeId) (n : Node σ) : RaftGroup σ :=
  { s with nodes := Function.update s.nodes v n, past := (v, n.state, n.role) :: s.past }

def stopCall (s : RaftGroup σ) (call : ℕ) : RaftGroup σ :=
  { s with voteCalls := s.voteCalls.modify call VoteCall.stop }

/-- No thread of the node is left. -/
def stopThreads (s : RaftGroup σ) (v : NodeId) : RaftGroup σ :=
  { s with
    campaigns := Function.update s.campaigns v none
    voteCalls := s.voteCalls.map fun c => if c.caller = v then c.stop else c }

/-- What a function that is interrupted may have done to the term and the vote. -/
def Interrupted (state saved : PersistentState) : Prop :=
  saved = state ∨ (state.currentTerm < saved.currentTerm ∧ saved.votedFor = none)

instance (state saved : PersistentState) : Decidable (Interrupted state saved) :=
  inferInstanceAs (Decidable (_ ∨ _))

def step? (cb : Callbacks σ) (s : RaftGroup σ) : Event σ → Option (RaftGroup σ)
  | .startElection v =>
    let out := (s.nodes v).startElection
    some { s.setNode v out.1 with
      campaigns := Function.update s.campaigns v (Campaign.begun out.2) }
  | .callVote v peer =>
    match s.campaigns v with
    | none => none
    | some campaign =>
      if peer ∈ (s.nodes v).peers.keys ∧ peer ∉ campaign.called then
        some { s with
          campaigns := Function.update s.campaigns v
            (some { campaign with called := insert peer campaign.called })
          voteCalls := s.voteCalls ++ [⟨v, peer, campaign.request, true⟩] }
      else none
  | .requestVote call now =>
    match s.voteCalls[call]? with
    | none => none
    | some c =>
      let out := (s.nodes c.target).handleRequestVote now c.request
      some { s.setNode c.target out.1 with voteAnswers := s.voteAnswers ++ [(call, out.2)] }
  | .voteReply call answer =>
    match s.voteCalls[call]?, s.voteAnswers[answer]? with
    | some c, some (call', resp) =>
      if c.waiting ∧ call' = call then
        some ((s.setNode c.caller
          ((s.nodes c.caller).voteReply c.request.term resp).1).stopCall call)
      else none
    | _, _ => none
  | .voteLost call => some (s.stopCall call)
  | .handle v handler => some (s.setNode v (handler.run cb (s.nodes v)))
  | .crash v disk machine =>
    if Interrupted (s.nodes v).state disk.state then
      some ((s.setNode v (construct v disk.state disk.log disk.membership machine)).stopThreads v)
    else none

end RaftGroup

/-- The node has kept its term, its vote and its role, or competes no longer. -/
def Quiet (n n' : Node σ) : Prop :=
  n'.id = n.id ∧
    ((n'.state = n.state ∧
        (n'.role = .kFollower ∨ (n'.role = n.role ∧ n'.votesReceived = n.votesReceived))) ∨
      (n.state.currentTerm < n'.state.currentTerm ∧ n'.state.votedFor = none ∧
        n'.role = .kFollower))

variable {cb : Callbacks σ} {n n' : Node σ}

namespace Quiet

lemma refl (n : Node σ) : Quiet n n := ⟨rfl, .inl ⟨rfl, .inr ⟨rfl, rfl⟩⟩⟩

lemma trans {m : Node σ} (h : Quiet n m) (h' : Quiet m n') : Quiet n n' := by
  obtain ⟨hid, h⟩ := h
  obtain ⟨hid', h'⟩ := h'
  refine ⟨hid'.trans hid, ?_⟩
  rcases h with ⟨hstate, hrole⟩ | ⟨hterm, hvote, hrole⟩ <;>
    rcases h' with ⟨hstate', hrole'⟩ | ⟨hterm', hvote', hrole'⟩
  · refine .inl ⟨hstate'.trans hstate, ?_⟩
    rcases hrole' with hrole' | ⟨hrole', hvotes'⟩
    · exact .inl hrole'
    · rw [hrole', hvotes']
      exact hrole
  · exact .inr ⟨by rwa [hstate] at hterm', hvote', hrole'⟩
  · refine .inr ⟨by rwa [hstate'], by rwa [hstate'], ?_⟩
    rcases hrole' with hrole' | ⟨hrole', -⟩
    · exact hrole'
    · rwa [hrole']
  · exact .inr ⟨hterm.trans hterm', hvote', hrole'⟩

lemma not_candidate (h : Quiet n n') (hrole : n.role ≠ .kCandidate) :
    n'.role ≠ .kCandidate := by
  obtain ⟨-, ⟨-, hfollower | ⟨hsame, -⟩⟩ | ⟨-, -, hfollower⟩⟩ := h
  · rw [hfollower]
    decide
  · rwa [hsame]
  · rw [hfollower]
    decide

lemma of_eq (hid : n'.id = n.id) (hstate : n'.state = n.state) (hrole : n'.role = n.role)
    (hvotes : n'.votesReceived = n.votesReceived) : Quiet n n' :=
  ⟨hid, .inl ⟨hstate, .inr ⟨hrole, hvotes⟩⟩⟩

lemma becomeFollower (n : Node σ) (term : ℕ) : Quiet n (n.becomeFollower term) := by
  unfold Node.becomeFollower
  rcases Nat.lt_or_ge n.state.currentTerm term with hlt | hge
  · simp only [if_pos hlt]
    exact ⟨rfl, .inr ⟨hlt, rfl, rfl⟩⟩
  · simp only [if_neg (show ¬ term > n.state.currentTerm by omega)]
    exact ⟨rfl, .inl ⟨rfl, .inl rfl⟩⟩

lemma heardFrom (now : ℕ) (n : Node σ) (term : ℕ) (leaderId : NodeId) :
    Quiet n (n.heardFrom now term leaderId) := by
  unfold Node.heardFrom
  dsimp only
  split
  · exact (becomeFollower n term).trans (of_eq rfl rfl rfl rfl)
  · exact of_eq rfl rfl rfl rfl

lemma refreshMembership (n : Node σ) : Quiet n n.refreshMembership.1 := by
  unfold Node.refreshMembership
  split <;> exact of_eq rfl rfl rfl rfl

lemma applyCommitted (n : Node σ) : Quiet n (n.applyCommitted cb).1 := by
  refine applyCommitted_induct (P := Quiet n) (Q := Quiet n) (refl n) (fun m hm _ => ?_)
    (fun m hm => hm) fun m hm => ?_
  · obtain ⟨errors, log, heq, -⟩ := @applyNext_eq σ cb m
    rw [heq]
    exact hm.trans (of_eq rfl rfl rfl rfl)
  · rcases m.compact_eq with heq | ⟨changes, errors, -, heq⟩
    · rwa [heq]
    · rw [heq]
      exact hm.trans (of_eq rfl rfl rfl rfl)

lemma settles {commits : ℕ → ℕ → Prop} (h : Settles cb commits n n') : Quiet n n' := by
  refine Settles.keeps (P := Quiet n) h (refl n) fun a b ha hmove => ha.trans ?_
  cases hmove with
  | refresh => exact refreshMembership a
  | commit i _ =>
    exact (of_eq rfl rfl rfl rfl : Quiet a (a.withCommitIndex i)).trans (applyCommitted _)
  | note next inFlight _ => exact of_eq rfl rfl rfl rfl
  | stepDown => exact ⟨rfl, .inl ⟨rfl, .inl rfl⟩⟩

/-- **Nothing else competes**: the functions outside the elections are all quiet. -/
theorem run (cb : Callbacks σ) (n : Node σ) (h : Handler) : Quiet n (h.run cb n) := by
  cases h with
  | appendEntries now req =>
    have hheard := heardFrom now n req.term req.leaderId
    rcases @handleAppendEntries_cases σ cb now n req with
      ⟨-, heq⟩ | ⟨-, -, heq⟩ | ⟨-, log, -, hs, -⟩
    · rw [Handler.run, heq]
      exact refl n
    · rw [Handler.run, heq]
      exact hheard
    · have hlog : Quiet n ((n.heardFrom now req.term req.leaderId).withLog log) :=
        hheard.trans (of_eq rfl rfl rfl rfl)
      exact hlog.trans (settles hs)
  | replicateTo peer => exact settles (@replicateTo_settles σ cb n peer)
  | replicationLost peer => exact of_eq rfl rfl rfl rfl
  | appendReply peer term prevLogIndex sentCount resp =>
    rcases @appendReply_cases σ cb n peer term prevLogIndex sentCount resp with
      hs | ⟨-, heq⟩ | ⟨-, -, -, -, matched, -, hs⟩
    · exact settles hs
    · rw [Handler.run, heq]
      exact (of_eq rfl rfl rfl rfl : Quiet n (n.replicationLost peer)).trans (becomeFollower _ _)
    · exact (of_eq rfl rfl rfl rfl :
        Quiet n ((n.replicationLost peer).acknowledged peer matched)).trans
        (settles hs)
  | sendInstallSnapshot peer term => exact settles (sendInstallSnapshot_settles n peer term)
  | snapshotReply peer term snapshotIndex resp =>
    rcases n.snapshotReply_cases peer term snapshotIndex resp with
      heq | ⟨-, heq⟩ | ⟨-, -, -, -, heq⟩ <;> rw [Handler.run, heq]
    · exact of_eq rfl rfl rfl rfl
    · exact (of_eq rfl rfl rfl rfl : Quiet n (n.replicationLost peer)).trans (becomeFollower _ _)
    · exact of_eq rfl rfl rfl rfl
  | installCheck now req =>
    rcases installCheck_cases now n req with ⟨-, heq⟩ | ⟨-, heq, -⟩ <;>
      rw [Handler.run, heq]
    · exact refl n
    · exact heardFrom now n req.term req.leaderId
  | installRestore req => exact of_eq rfl rfl rfl rfl
  | installAdopt req =>
    rcases n.installAdopt_cases req with ⟨-, heq⟩ | ⟨-, heq⟩ <;> rw [Handler.run, heq]
    · exact refl n
    · exact (of_eq rfl rfl rfl rfl : Quiet n (n.adopted req)).trans (refreshMembership _)
  | propose command =>
    rcases @propose_cases σ cb n command with ⟨-, heq, -⟩ | ⟨-, -, m, rfl, hs, -⟩
    · rw [Handler.run, heq]
      exact refl n
    · have hlog : Quiet n (n.withLog (n.log.append n.state.currentTerm command).1) :=
        of_eq rfl rfl rfl rfl
      exact (hlog.trans (refreshMembership _)).trans (settles hs)

end Quiet

/-! ### What all functions keep -/

/-- A property of the members that a node knows, of its own address and of the entries of its
log, kept when members are derived from the log and moved out of it. -/
structure Kept (P : Node σ → Prop) : Prop where
  congr : ∀ {n n' : Node σ}, P n → n'.id = n.id → n'.ownAddress = n.ownAddress →
    n'.peers = n.peers → n'.membershipState = n.membershipState →
    n'.log.entries = n.log.entries → P n'
  refresh : ∀ {n : Node σ}, P n → P n.refreshMembership.1
  compact : ∀ {n : Node σ}, P n → P n.compact.1

namespace Kept

variable {P : Node σ → Prop}

lemma becomeFollower (hP : Kept P) (hn : P n) (term : ℕ) : P (n.becomeFollower term) :=
  hP.congr hn rfl rfl rfl rfl rfl

lemma heardFrom (hP : Kept P) (hn : P n) (now term : ℕ) (leaderId : NodeId) :
    P (n.heardFrom now term leaderId) := by
  unfold Node.heardFrom
  dsimp only
  split
  · exact hP.congr (hP.becomeFollower hn term) rfl rfl rfl rfl rfl
  · exact hP.congr hn rfl rfl rfl rfl rfl

lemma settles (hP : Kept P) (hn : P n) {commits : ℕ → ℕ → Prop}
    (h : Settles cb commits n n') : P n' := by
  refine Settles.keeps h hn fun a b ha hmove => ?_
  cases hmove with
  | refresh => exact hP.refresh ha
  | commit i _ =>
    refine applyCommitted_induct (P := P) (Q := P) (hP.congr ha rfl rfl rfl rfl rfl)
      (fun m hm _ => ?_) (fun m hm => hm) fun m hm => hP.compact hm
    obtain ⟨errors, log, heq, hlog⟩ := @applyNext_eq σ cb m
    rw [heq]
    refine hP.congr hm rfl rfl rfl rfl ?_
    rcases hlog with rfl | rfl <;> rfl
  | note next inFlight _ => exact hP.congr ha rfl rfl rfl rfl rfl
  | stepDown => exact hP.congr ha rfl rfl rfl rfl rfl

lemma heardFrom_withLog (n : Node σ) (log : RaftLog) (now term : ℕ) (leaderId : NodeId) :
    (n.withLog log).heardFrom now term leaderId = (n.heardFrom now term leaderId).withLog log := by
  simp only [Node.heardFrom, withLog_state, withLog_role]
  split_ifs <;> rfl

/-- **The rule for the functions outside the elections**: only three of them give the node
another log or other members. -/
theorem run (hP : Kept P) (hn : P n) (h : Handler)
    (hlog : ∀ now req log, h = .appendEntries now req →
      n.log.appendEntriesFrom req.prevLogIndex req.prevLogTerm req.entries = some log →
      P (n.withLog log))
    (hadopt : ∀ req, h = .installAdopt req → P (n.adopted req))
    (hpropose : ∀ command, h = .propose command → n.refusal command = .ok none →
      P (n.withLog (n.log.append n.state.currentTerm command).1)) : P (h.run cb n) := by
  cases h with
  | appendEntries now req =>
    rcases @handleAppendEntries_cases σ cb now n req with
      ⟨-, heq⟩ | ⟨-, -, heq⟩ | ⟨-, log, hsome, hs, -⟩
    · rw [Handler.run, heq]
      exact hn
    · rw [Handler.run, heq]
      exact hP.heardFrom hn now req.term req.leaderId
    · have hheard := hP.heardFrom (hlog now req log rfl hsome) now req.term req.leaderId
      rw [heardFrom_withLog] at hheard
      exact hP.settles hheard hs
  | replicateTo peer => exact hP.settles hn (@replicateTo_settles σ cb n peer)
  | replicationLost peer => exact hP.congr hn rfl rfl rfl rfl rfl
  | appendReply peer term prevLogIndex sentCount resp =>
    rcases @appendReply_cases σ cb n peer term prevLogIndex sentCount resp with
      hs | ⟨-, heq⟩ | ⟨-, -, -, -, matched, -, hs⟩
    · exact hP.settles hn hs
    · rw [Handler.run, heq]
      exact hP.congr hn rfl rfl rfl rfl rfl
    · have hacked : P ((n.replicationLost peer).acknowledged peer matched) :=
        hP.congr hn rfl rfl rfl rfl rfl
      exact hP.settles hacked hs
  | sendInstallSnapshot peer term => exact hP.settles hn (sendInstallSnapshot_settles n peer term)
  | snapshotReply peer term snapshotIndex resp =>
    rcases n.snapshotReply_cases peer term snapshotIndex resp with
      heq | ⟨-, heq⟩ | ⟨-, -, -, -, heq⟩ <;> rw [Handler.run, heq] <;>
      exact hP.congr hn rfl rfl rfl rfl rfl
  | installCheck now req =>
    rcases installCheck_cases now n req with ⟨-, heq⟩ | ⟨-, heq, -⟩ <;>
      rw [Handler.run, heq]
    · exact hn
    · exact hP.heardFrom hn now req.term req.leaderId
  | installRestore req => exact hP.congr hn rfl rfl rfl rfl rfl
  | installAdopt req =>
    rcases n.installAdopt_cases req with ⟨-, heq⟩ | ⟨-, heq⟩ <;> rw [Handler.run, heq]
    · exact hn
    · exact hP.refresh (hadopt req rfl)
  | propose command =>
    rcases @propose_cases σ cb n command with ⟨-, heq, -⟩ | ⟨-, hrefusal, m, rfl, hs, -⟩
    · rw [Handler.run, heq]
      exact hn
    · exact hP.settles (hP.refresh (hpropose command rfl hrefusal)) hs

lemma becomeLeader (hP : Kept P) (hn : P n) : P n.becomeLeader.1 := by
  rcases n.becomeLeader_cases with heq | ⟨-, heq⟩ <;> rw [heq]
  · exact hP.refresh hn
  · exact hP.congr (hP.refresh hn) rfl rfl rfl rfl rfl

lemma startElection (hP : Kept P) (hn : P n) : P n.startElection.1 := by
  have hstanding : P n.refreshMembership.1.standing := hP.congr (hP.refresh hn) rfl rfl rfl rfl rfl
  rcases n.startElection_cases with ⟨heq, -⟩ | ⟨-, heq⟩ | ⟨-, -, heq, -⟩ <;> rw [heq]
  · exact hP.refresh hn
  · exact hstanding
  · exact hP.becomeLeader hstanding

lemma voteReply (hP : Kept P) (hn : P n) (electionTerm : ℕ) (resp : RequestVoteResponse) :
    P (n.voteReply electionTerm resp).1 := by
  have hcounting : P n.counting := hP.congr hn rfl rfl rfl rfl rfl
  rcases n.voteReply_cases electionTerm resp with
    heq | ⟨-, heq⟩ | ⟨-, -, -, ⟨-, heq⟩ | ⟨-, heq⟩⟩ <;> rw [heq]
  · exact hn
  · exact hP.becomeFollower hn _
  · exact hcounting
  · exact hP.becomeLeader hcounting

lemma handleRequestVote (hP : Kept P) (hn : P n) (now : ℕ) (req : RequestVoteRequest) :
    P (n.handleRequestVote now req).1 := by
  have hterm : P (n.atTerm req.term) := by
    unfold atTerm
    split
    · exact hP.becomeFollower hn _
    · exact hn
  rcases handleRequestVote_cases now n req with
    ⟨-, heq | ⟨-, heq⟩⟩ | ⟨-, -, -, heq⟩ <;> rw [heq]
  · exact hn
  · exact hterm
  · exact hP.congr hterm rfl rfl rfl rfl rfl

end Kept

/-- A property of the members that a node knows and of the entries of its log, kept when
members are derived from the log and moved out of it. -/
structure Stable (P : Node σ → Prop) : Prop where
  congr : ∀ {n n' : Node σ}, P n → n'.id = n.id → n'.peers = n.peers →
    n'.membershipState = n.membershipState → n'.log.entries = n.log.entries → P n'
  refresh : ∀ {n : Node σ}, P n → P n.refreshMembership.1
  compact : ∀ {n : Node σ}, P n → P n.compact.1

namespace Stable

variable {P : Node σ → Prop}

lemma kept (hP : Stable P) : Kept P :=
  ⟨fun hn hid _ => hP.congr hn hid, hP.refresh, hP.compact⟩

lemma settles (hP : Stable P) (hn : P n) {commits : ℕ → ℕ → Prop}
    (h : Settles cb commits n n') : P n' := hP.kept.settles hn h

/-- The rule, for a property that is not about the own address. -/
theorem run (hP : Stable P) (hn : P n) (h : Handler)
    (hlog : ∀ now req log, h = .appendEntries now req →
      n.log.appendEntriesFrom req.prevLogIndex req.prevLogTerm req.entries = some log →
      P (n.withLog log))
    (hadopt : ∀ req, h = .installAdopt req → P (n.adopted req))
    (hpropose : ∀ command, h = .propose command → n.refusal command = .ok none →
      P (n.withLog (n.log.append n.state.currentTerm command).1)) : P (h.run cb n) :=
  hP.kept.run hn h hlog hadopt hpropose

lemma startElection (hP : Stable P) (hn : P n) : P n.startElection.1 := hP.kept.startElection hn

lemma voteReply (hP : Stable P) (hn : P n) (electionTerm : ℕ) (resp : RequestVoteResponse) :
    P (n.voteReply electionTerm resp).1 := hP.kept.voteReply hn electionTerm resp

lemma handleRequestVote (hP : Stable P) (hn : P n) (now : ℕ) (req : RequestVoteRequest) :
    P (n.handleRequestVote now req).1 := hP.kept.handleRequestVote hn now req

end Stable

/-! ### The members a node knows -/

/-- A node is no peer of its own. -/
structure Apart (v : NodeId) (n : Node σ) : Prop where
  id : n.id = v
  peers : v ∉ n.peers.keys
  base : v ∉ n.membershipState.basePeers.keys

lemma apart_effective {v : NodeId} {role : Role} {commitIndex : ℕ}
    (changes : List (ℕ × ConfChangeCommand)) {m : Effective} (hm : v ∉ m.peers.keys) :
    v ∉ (changes.foldl (effectiveStep v role commitIndex) m).peers.keys := by
  induction changes generalizing m with
  | nil => exact hm
  | cons change changes ih =>
    refine ih ?_
    unfold effectiveStep
    dsimp only
    split_ifs with hadd hself hself hpending
    · exact hm
    · simp only [OrdMap.keys_insert, Finset.mem_insert, not_or]
      exact ⟨fun h => hself h.symm, hm⟩
    · exact hm
    · exact hm
    · simp only [OrdMap.keys_erase, Finset.mem_erase]
      exact fun h => hm h.2

lemma apart_base {v : NodeId} (changes : List ConfChangeCommand)
    {m : OrdMap NodeId PeerAddress × Bool} (hm : v ∉ m.1.keys) :
    v ∉ (changes.foldl (baseStep v) m).1.keys := by
  induction changes generalizing m with
  | nil => exact hm
  | cons cc changes ih =>
    refine ih ?_
    unfold baseStep
    split_ifs with hadd hself hself
    · exact hm
    · simp only [OrdMap.keys_insert, Finset.mem_insert, not_or]
      exact ⟨fun h => hself h.symm, hm⟩
    · exact hm
    · simp only [OrdMap.keys_erase, Finset.mem_erase]
      exact fun h => hm h.2

theorem stable_apart (v : NodeId) : Stable (@Apart σ v) where
  congr := fun h hid hpeers hms _ => ⟨hid ▸ h.id, hpeers ▸ h.peers, hms ▸ h.base⟩
  refresh := by
    intro n h
    unfold refreshMembership
    split
    · exact ⟨h.id, h.peers, h.base⟩
    · rename_i changes hchanges
      refine ⟨h.id, ?_, h.base⟩
      show v ∉ (n.effective changes).peers.keys
      unfold effective
      rw [h.id]
      exact apart_effective changes h.base
  compact := by
    intro n h
    rcases n.compact_eq with heq | ⟨changes, errors, -, heq⟩ <;> rw [heq]
    · exact h
    · refine ⟨h.id, h.peers, ?_⟩
      dsimp only
      rw [h.id]
      split
      · exact h.base
      · exact apart_base _ h.base

def IsConfChange (command : Bytes) : Prop := ∃ cc, tryDecodeConfChange command = .ok (some cc)

/-- No entry of the log is a conf change. -/
def Plain (log : RaftLog) : Prop := ∀ e ∈ log.entries, ¬ IsConfChange e.command

/-- A member of a group whose members do not change. -/
structure Fixed (members : Finset NodeId) (v : NodeId) (n : Node σ) : Prop where
  id : n.id = v
  peers : n.peers.keys = members.erase v
  base : n.membershipState.basePeers.keys = members.erase v
  plain : Plain n.log

lemma confChanges_plain {log : RaftLog} (h : Plain log) {lo hi : ℕ}
    {changes : List (ℕ × ConfChangeCommand)} (hok : confChanges log lo hi = .ok changes) :
    changes = [] := by
  refine List.eq_nil_iff_forall_not_mem.mpr fun b hb => ?_
  obtain ⟨i, -, hi⟩ := Checks.mem_filterMapM hok b hb
  cases hget : log.get i with
  | none =>
    rw [hget] at hi
    cases hi
  | some entry =>
    rw [hget] at hi
    dsimp only at hi
    cases hdecode : tryDecodeConfChange entry.command with
    | error e =>
      rw [hdecode] at hi
      cases hi
    | ok cc =>
      cases cc with
      | none =>
        rw [hdecode] at hi
        cases hi
      | some cc => exact h entry (RaftLog.get_mem hget) ⟨cc, hdecode⟩

lemma Plain.compactTo {log : RaftLog} (h : Plain log) (index term : ℕ) :
    Plain (log.compactTo index term) := by
  unfold RaftLog.compactTo
  intro e he
  split_ifs at he
  · exact h e he
  · exact h e (List.mem_of_mem_drop he)
  · cases he

lemma Plain.append {log : RaftLog} (h : Plain log) (term : ℕ) {command : Bytes}
    (hcommand : ¬ IsConfChange command) : Plain (log.append term command).1 := by
  intro e he
  rcases List.mem_append.mp he with he | he
  · exact h e he
  · rw [List.mem_singleton.mp he]
    exact hcommand

lemma Plain.put {log : RaftLog} (h : Plain log) (idx : ℕ) {e : LogEntry}
    (he : ¬ IsConfChange e.command) : Plain (log.put idx e) := by
  unfold RaftLog.put
  dsimp only
  intro e' he'
  split_ifs at he' with hidx
  · exact h e' he'
  split at he'
  · split_ifs at he' with hterm
    · exact h e' he'
    · rcases List.mem_append.mp he' with he' | he'
      · exact h e' (List.mem_of_mem_take he')
      · rw [List.mem_singleton.mp he']
        exact he
  · rcases List.mem_append.mp he' with he' | he'
    · exact h e' he'
    · rw [List.mem_singleton.mp he']
      exact he

lemma Plain.putAll {log : RaftLog} (h : Plain log) (idx : ℕ) {es : List LogEntry}
    (hes : ∀ e ∈ es, ¬ IsConfChange e.command) : Plain (log.putAll idx es) := by
  induction es generalizing log idx with
  | nil => exact h
  | cons e es ih =>
    exact ih (h.put idx (hes e (by simp))) (idx + 1) fun e' he' => hes e' (by simp [he'])

lemma Plain.appendEntriesFrom {log log' : RaftLog} (h : Plain log) {prev prevTerm : ℕ}
    {es : List LogEntry} (hes : ∀ e ∈ es, ¬ IsConfChange e.command)
    (hsome : log.appendEntriesFrom prev prevTerm es = some log') : Plain log' := by
  unfold RaftLog.appendEntriesFrom at hsome
  split at hsome
  · cases hsome
  · cases hsome
    exact h.putAll _ hes

theorem stable_fixed (members : Finset NodeId) (v : NodeId) :
    Stable (@Fixed σ members v) where
  congr := fun h hid hpeers hms hlog => ⟨hid ▸ h.id, hpeers ▸ h.peers, hms ▸ h.base,
    fun e he => h.plain e (hlog ▸ he)⟩
  refresh := by
    intro n h
    unfold refreshMembership
    split
    · exact ⟨h.id, h.peers, h.base, h.plain⟩
    · rename_i changes hchanges
      rw [confChanges_plain h.plain hchanges]
      exact ⟨h.id, h.base, h.base, h.plain⟩
  compact := by
    intro n h
    rcases n.compact_eq with heq | ⟨changes, errors, hchanges, heq⟩ <;> rw [heq]
    · exact h
    · refine ⟨h.id, h.peers, ?_, h.plain.compactTo _ _⟩
      rw [confChanges_plain h.plain hchanges]
      exact h.base

end DistDB.Elections
