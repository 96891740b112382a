import Mathlib.Logic.Relation
import DistDB.NodeSteps

/-!
The functions of the Raft node as sequences of a few moves.

Once a handler has dealt with the term, the role and the log, it settles: it derives its
members, learns a commit index, applies, compacts, and takes notes about its peers. What each
of these moves keeps, every handler keeps; the rest of a handler is said by one lemma for
each.
-/

namespace DistDB.NodeModel.Node

variable {σ : Type} {cb : Callbacks σ}

/-- A move of a node. `commits` tells which commit indices it may take, and from which. -/
inductive Move (cb : Callbacks σ) (commits : ℕ → ℕ → Prop) : Node σ → Node σ → Prop
  | refresh (n : Node σ) : Move cb commits n n.refreshMembership.1
  | commit (n : Node σ) (i : ℕ) (h : commits n.commitIndex i) :
      Move cb commits n ((n.withCommitIndex i).applyCommitted cb).1
  | note (n : Node σ) (next : OrdMap NodeId ℕ) (inFlight : Finset NodeId)
      (h : ∀ p i, next.find p = some i → i ≤ (n.nextIndex.find p).getD 0) :
      Move cb commits n { n with nextIndex := next, replicationInFlight := inFlight }
  | stepDown (n : Node σ) : Move cb commits n { n with role := .kFollower }

/-- The moves of a node, one after the other. -/
abbrev Settles (cb : Callbacks σ) (commits : ℕ → ℕ → Prop) : Node σ →
    Node σ → Prop :=
  Relation.ReflTransGen (Move cb commits)

variable {commits : ℕ → ℕ → Prop} {n n' : Node σ}

/-- **The rule for settling**: what each move keeps is kept. -/
theorem Settles.keeps {P : Node σ → Prop} (h : Settles cb commits n n') (hn : P n)
    (hmove : ∀ a b, P a → Move cb commits a b → P b) : P n' := by
  induction h with
  | refl => exact hn
  | tail _ hm ih => exact hmove _ _ ih hm

lemma Settles.andThen {α β : Type} {x : Outcome σ α} {f : Node σ → α → Outcome σ β}
    (hx : Settles cb commits n x.1) (hf : ∀ a, Settles cb commits x.1 (f x.1 a).1) :
    Settles cb commits n (x.andThen f).1 :=
  Outcome.andThen_rule (P := Settles cb commits n) hx fun a _ => hx.trans (hf a)

/-- A follower learns no more than the leader's commit index and the end of its own log. -/
def Follows (leaderCommit lastIndex : ℕ) (old new : ℕ) : Prop :=
  old < leaderCommit ∧ new = min leaderCommit lastIndex

lemma followCommit_settles (n : Node σ) (leaderCommit : ℕ) :
    Settles cb (Follows leaderCommit n.log.lastIndex) n (n.followCommit cb leaderCommit).1 := by
  unfold followCommit
  split
  · rename_i hlt
    exact .single (.commit n _ ⟨hlt, rfl⟩)
  · exact .refl

lemma stepDownIfRemoved_settles (n : Node σ) : Settles cb commits n n.stepDownIfRemoved.1 := by
  unfold stepDownIfRemoved
  split
  · refine Settles.andThen (.single (.refresh n)) fun _ => ?_
    dsimp only
    split
    · exact .single (.stepDown _)
    · exact .refl
  · exact .refl

/-- What a leader in this state may commit. -/
def Advances (n : Node σ) (old new : ℕ) : Prop :=
  old < new ∧ new = n.majorityIndex ∧ n.log.termAt new = n.state.currentTerm

lemma maybeAdvanceCommitIndex_settles (n : Node σ) :
    Settles cb n.Advances n (n.maybeAdvanceCommitIndex cb).1 := by
  unfold maybeAdvanceCommitIndex
  split
  · rename_i hcheck
    refine Settles.andThen ?_ fun _ => stepDownIfRemoved_settles _
    exact .single (.commit n _ ⟨hcheck.1, rfl, hcheck.2⟩)
  · exact .refl

/-! ### The handlers -/

/-- What a leader notes when a peer has acknowledged its log up to an index. -/
@[simps]
def acknowledged (n : Node σ) (peer : NodeId) (index : ℕ) : Node σ :=
  { n with
    nextIndex := n.nextIndex.insert peer (index + 1)
    matchIndex := n.matchIndex.insert peer index }

/-- A follower's side of the replication, when the request is not behind its term and its
log goes on from there. -/
lemma handleAppendEntries_cases (now : ℕ) (n : Node σ) (req : AppendEntriesRequest) :
    (req.term < n.state.currentTerm ∧
      n.handleAppendEntries cb now req = (n, .ok ⟨n.state.currentTerm, false, 0⟩)) ∨
    (n.state.currentTerm ≤ req.term ∧
      n.log.appendEntriesFrom req.prevLogIndex req.prevLogTerm req.entries = none ∧
      n.handleAppendEntries cb now req = (n.heardFrom now req.term req.leaderId,
        .ok ⟨(n.heardFrom now req.term req.leaderId).state.currentTerm, false, 0⟩)) ∨
    (n.state.currentTerm ≤ req.term ∧ ∃ log,
      n.log.appendEntriesFrom req.prevLogIndex req.prevLogTerm req.entries = some log ∧
      Settles cb (Follows req.leaderCommit log.lastIndex)
        ((n.heardFrom now req.term req.leaderId).withLog log)
        (n.handleAppendEntries cb now req).1 ∧
      ∀ resp, (n.handleAppendEntries cb now req).2 = .ok resp →
        resp = ⟨(n.handleAppendEntries cb now req).1.state.currentTerm, true,
          req.prevLogIndex + req.entries.length⟩) := by
  unfold handleAppendEntries
  rcases Nat.lt_or_ge req.term n.state.currentTerm with hlt | hge
  · rw [if_pos hlt]
    exact .inl ⟨hlt, rfl⟩
  rw [if_neg (by omega)]
  dsimp only
  rw [heardFrom_log]
  cases hlog : n.log.appendEntriesFrom req.prevLogIndex req.prevLogTerm req.entries with
  | none => exact .inr (.inl ⟨hge, rfl, rfl⟩)
  | some log =>
    refine .inr (.inr ⟨hge, log, rfl, ?_, ?_⟩)
    · refine Settles.andThen (.single (.refresh _)) fun _ => ?_
      refine Settles.andThen ?_ fun _ => .refl
      have hfollow := @followCommit_settles σ cb
        ((n.heardFrom now req.term req.leaderId).withLog log).refreshMembership.1 req.leaderCommit
      simpa using hfollow
    · intro resp hresp
      unfold Outcome.andThen at hresp ⊢
      cases hrefresh : ((n.heardFrom now req.term req.leaderId).withLog
        log).refreshMembership.2 with
      | error e => simp [hrefresh] at hresp
      | ok u =>
        simp only [hrefresh] at hresp ⊢
        cases hfollow : (((n.heardFrom now req.term req.leaderId).withLog log).refreshMembership.1
            |>.followCommit cb req.leaderCommit).2 with
        | error e => simp [hfollow] at hresp
        | ok u =>
          simp only [hfollow, Except.ok.injEq] at hresp ⊢
          exact hresp.symm

/-- The leader's side: an old or late answer is only noted, a higher term ends the lead, and
a success may commit. -/
lemma appendReply_cases (n : Node σ) (peer : NodeId) (term prevLogIndex sentCount : ℕ)
    (resp : AppendEntriesResponse) :
    Settles cb (fun _ _ => False) n (n.appendReply cb peer term prevLogIndex sentCount resp).1 ∨
    (n.state.currentTerm < resp.term ∧
      (n.appendReply cb peer term prevLogIndex sentCount resp).1 =
        (n.replicationLost peer).becomeFollower resp.term) ∨
    (resp.success ∧ n.role = .kLeader ∧ term = n.state.currentTerm ∧
      (n.peers.find peer).isSome ∧
      ∃ matched, (matched = prevLogIndex + sentCount ∨
        n.matchIndex.find peer = some matched) ∧
          Settles cb ((n.replicationLost peer).acknowledged peer matched).Advances
          ((n.replicationLost peer).acknowledged peer matched)
          (n.appendReply cb peer term prevLogIndex sentCount resp).1) := by
  unfold appendReply
  dsimp only
  have hlost : Settles cb (fun _ _ => False) n (n.replicationLost peer) :=
    .single (.note n _ _ fun p i hi => by rw [hi]; exact le_rfl)
  by_cases hpeer : ((n.replicationLost peer).peers.find peer).isNone
  · rw [if_pos hpeer]
    exact .inl hlost
  rw [if_neg hpeer]
  by_cases hterm : resp.term > (n.replicationLost peer).state.currentTerm
  · rw [if_pos hterm]
    exact .inr (.inl ⟨hterm, rfl⟩)
  rw [if_neg hterm]
  by_cases hstale : (n.replicationLost peer).role ≠ .kLeader ∨
      term ≠ (n.replicationLost peer).state.currentTerm
  · rw [if_pos hstale]
    exact .inl hlost
  rw [if_neg hstale]
  push Not at hstale
  cases hsuccess : resp.success with
  | true =>
    refine .inr (.inr ⟨rfl, hstale.1, hstale.2, ?_, _, ?_, maybeAdvanceCommitIndex_settles _⟩)
    · simpa [replicationLost, Option.isSome_iff_ne_none] using hpeer
    · cases hold : (n.replicationLost peer).matchIndex.find peer with
      | none => exact .inl (by simp)
      | some j =>
        rcases Nat.le_total (prevLogIndex + sentCount) j with hle | hle
        · exact .inr (hold.trans (by simp [hle]))
        · exact .inl (by simp [hle])
  | false =>
    refine .inl (hlost.tail (.note _ _ _ fun p i hi => ?_))
    rw [OrdMap.find_insert] at hi
    by_cases heq : p = peer
    · rw [if_pos heq] at hi
      have := Option.some.inj hi
      rw [heq]
      split_ifs at this <;> omega
    · rw [if_neg heq] at hi
      rw [hi]
      exact le_rfl

lemma replicateTo_settles (n : Node σ) (peer : NodeId) :
    Settles cb (fun _ _ => False) n (n.replicateTo peer).1 := by
  unfold replicateTo
  split
  · exact .refl
  · have hnote := @Move.note σ cb (fun _ _ => False) n (n.nextIndex.emplace peer 0)
      (insert peer n.replicationInFlight) fun p i hi => by
        rw [OrdMap.find_emplace] at hi
        split_ifs at hi with heq
        · rw [heq]
          cases hold : n.nextIndex.find peer <;> simp_all
        · rw [hi]
          exact le_rfl
    dsimp only
    split <;> exact .single hnote

/-- What is sent: the entries that the leader holds from the next index of the peer on, or the
snapshot behind which that index lies. -/
lemma replicateTo_cases (n : Node σ) (peer : NodeId) :
    (n.replicateTo peer).2 = none ∨
    (n.role = .kLeader ∧ (n.replicateTo peer).2 = some (.snapshot n.state.currentTerm)) ∨
    (n.role = .kLeader ∧ ∃ next, n.nextIndex.find peer = some next ∧
      n.log.snapshotIndex < next ∧
      (n.replicateTo peer).2 = some (.append ⟨n.state.currentTerm, n.id, next - 1,
        n.log.termAt (next - 1),
        (List.range' next (n.log.lastIndex + 1 - next)).filterMap n.log.get,
        n.commitIndex⟩)) := by
  unfold replicateTo
  by_cases hstale : n.role ≠ .kLeader ∨ peer ∈ n.replicationInFlight
  · rw [if_pos hstale]
    exact .inl rfl
  rw [if_neg hstale]
  push Not at hstale
  dsimp only
  rw [OrdMap.find_emplace, if_pos rfl]
  cases hnext : n.nextIndex.find peer with
  | none => exact .inr (.inl ⟨hstale.1, by simp⟩)
  | some next =>
    split
    · exact .inr (.inl ⟨hstale.1, rfl⟩)
    · rename_i hahead
      exact .inr (.inr ⟨hstale.1, next, rfl, Nat.not_le.mp hahead, rfl⟩)

lemma sendInstallSnapshot_settles (n : Node σ) (peer : NodeId) (term : ℕ) :
    Settles cb (fun _ _ => False) n (n.sendInstallSnapshot cb peer term).1 := by
  unfold sendInstallSnapshot
  split
  · exact .single (.note n _ _ fun p i hi => by rw [hi]; exact le_rfl)
  · exact .refl

lemma sendInstallSnapshot_cases (n : Node σ) (peer : NodeId) (term : ℕ) :
    (n.sendInstallSnapshot cb peer term).2 = none ∨
    (n.role = .kLeader ∧ term = n.state.currentTerm ∧
      (n.sendInstallSnapshot cb peer term).2 = some ⟨term, n.id, n.lastApplied,
        n.log.termAt n.lastApplied, cb.snapshot n.machine,
          n.peers.insert n.id n.ownAddress⟩) := by
  unfold sendInstallSnapshot
  by_cases hstale : n.role ≠ .kLeader ∨ term ≠ n.state.currentTerm
  · rw [if_pos hstale]
    exact .inl rfl
  · rw [if_neg hstale]
    push Not at hstale
    exact .inr ⟨hstale.1, hstale.2, rfl⟩

lemma snapshotReply_cases (n : Node σ) (peer : NodeId) (term snapshotIndex : ℕ)
    (resp : InstallSnapshotResponse) :
    n.snapshotReply peer term snapshotIndex resp = n.replicationLost peer ∨
    (n.state.currentTerm < resp.term ∧ n.snapshotReply peer term snapshotIndex resp =
      (n.replicationLost peer).becomeFollower resp.term) ∨
    (resp.term ≤ n.state.currentTerm ∧ n.role = .kLeader ∧ term = n.state.currentTerm ∧
      (n.peers.find peer).isSome ∧ n.snapshotReply peer term snapshotIndex resp =
        (n.replicationLost peer).acknowledged peer snapshotIndex) := by
  unfold snapshotReply
  dsimp only
  by_cases hpeer : ((n.replicationLost peer).peers.find peer).isNone
  · rw [if_pos hpeer]
    exact .inl rfl
  rw [if_neg hpeer]
  by_cases hterm : resp.term > (n.replicationLost peer).state.currentTerm
  · rw [if_pos hterm]
    exact .inr (.inl ⟨hterm, rfl⟩)
  rw [if_neg hterm]
  by_cases hstale : (n.replicationLost peer).role ≠ .kLeader ∨
      term ≠ (n.replicationLost peer).state.currentTerm
  · rw [if_pos hstale]
    exact .inl rfl
  · rw [if_neg hstale]
    push Not at hstale
    exact .inr (.inr ⟨Nat.not_lt.mp hterm, hstale.1, hstale.2,
      by simpa [replicationLost, Option.isSome_iff_ne_none] using hpeer, rfl⟩)

lemma installCheck_cases (now : ℕ) (n : Node σ) (req : InstallSnapshotRequest) :
    (req.term < n.state.currentTerm ∧
      n.installCheck now req = (n, some ⟨n.state.currentTerm⟩)) ∨
    (n.state.currentTerm ≤ req.term ∧
      (n.installCheck now req).1 = n.heardFrom now req.term req.leaderId ∧
      (n.installCheck now req).2 = if req.lastIncludedIndex ≤ n.log.snapshotIndex then
        some ⟨(n.heardFrom now req.term req.leaderId).state.currentTerm⟩ else none) := by
  unfold installCheck
  rcases Nat.lt_or_ge req.term n.state.currentTerm with hlt | hge
  · rw [if_pos hlt]
    exact .inl ⟨hlt, rfl⟩
  rw [if_neg (by omega)]
  dsimp only
  rw [heardFrom_log]
  split <;> exact .inr ⟨hge, rfl, rfl⟩

lemma installAdopt_cases (n : Node σ) (req : InstallSnapshotRequest) :
    (req.lastIncludedIndex ≤ n.log.snapshotIndex ∧ (n.installAdopt req).1 = n) ∨
    (n.log.snapshotIndex < req.lastIncludedIndex ∧
      (n.installAdopt req).1 = (n.adopted req).refreshMembership.1) := by
  unfold installAdopt
  rcases Nat.lt_or_ge n.log.snapshotIndex req.lastIncludedIndex with hlt | hge
  · rw [if_pos hlt]
    exact .inr ⟨hlt, Outcome.andThen_fst fun _ _ => rfl⟩
  · rw [if_neg (by omega)]
    exact .inl ⟨hge, Outcome.andThen_fst fun _ _ => rfl⟩

lemma installAdopt_response {n : Node σ} {req : InstallSnapshotRequest}
    {resp : InstallSnapshotResponse} (h : (n.installAdopt req).2 = .ok resp) :
    resp = ⟨(n.installAdopt req).1.state.currentTerm⟩ := by
  unfold installAdopt at h ⊢
  generalize (if req.lastIncludedIndex > n.log.snapshotIndex then
    (n.adopted req).refreshMembership else (n, .ok ())) = x at h ⊢
  obtain ⟨m, e | u⟩ := x
  · cases h
  · cases h
    rfl

/-- A proposal is refused, or its entry goes to the end of the log and the members are derived
again. -/
lemma propose_cases (n : Node σ) (command : Bytes) :
    (n.refusal command ≠ .ok none ∧ (n.propose cb command).1 = n ∧
      ∀ i, (n.propose cb command).2 ≠ .ok (.appended i)) ∨
    (n.role = .kLeader ∧ n.refusal command = .ok none ∧
      ∃ m, m = (n.withLog (n.log.append n.state.currentTerm command).1).refreshMembership.1 ∧
        Settles cb m.Advances m (n.propose cb command).1 ∧
        ∀ a, (n.propose cb command).2 = .ok a →
          a = .appended (n.log.append n.state.currentTerm command).2) := by
  unfold propose
  cases hrefusal : n.refusal command with
  | error e => exact .inl ⟨(fun h => by cases h), rfl, fun i h => by cases h⟩
  | ok refused =>
    cases refused with
    | some error => exact .inl ⟨(fun h => by cases h), rfl, fun i h => by cases h⟩
    | none =>
      have hleader : n.role = .kLeader := by
        by_contra hne
        unfold refusal at hrefusal
        rw [if_pos hne] at hrefusal
        cases hrefusal
      refine .inr ⟨hleader, rfl, _, rfl, ?_, ?_⟩
      · refine Settles.andThen .refl fun _ => ?_
        exact Settles.andThen (maybeAdvanceCommitIndex_settles _) fun _ => .refl
      · intro a ha
        dsimp only at ha ⊢
        generalize (n.withLog (n.log.append n.state.currentTerm command).1).refreshMembership = x
          at ha
        obtain ⟨m, e | u⟩ := x
        · cases ha
        · unfold Outcome.andThen at ha
          dsimp only at ha
          generalize m.maybeAdvanceCommitIndex cb = y at ha
          obtain ⟨m', e | u'⟩ := y
          · cases ha
          · cases ha
            rfl

/-! ### Elections -/

/-- The node as it enters the role of the leader. -/
@[simps]
def leading (n : Node σ) : Node σ :=
  { n with
    role := .kLeader
    leaderHint := n.id
    replicationInFlight := ∅
    nextIndex := n.peers.entries.foldl (fun m p => m.insert p.1 (n.log.lastIndex + 1)) n.nextIndex
    matchIndex := n.peers.entries.foldl (fun m p => m.insert p.1 0) n.matchIndex }

lemma becomeLeader_cases (n : Node σ) :
    n.becomeLeader.1 = n.refreshMembership.1 ∨
      (n.refreshMembership.2 = .ok () ∧ n.becomeLeader.1 = n.refreshMembership.1.leading) := by
  unfold becomeLeader Outcome.andThen
  cases h : n.refreshMembership.2 with
  | error e => exact .inl rfl
  | ok u => exact .inr ⟨rfl, rfl⟩

/-- The node as it enters the next term as a candidate, with its own vote. -/
@[simps]
def standing (n : Node σ) : Node σ :=
  { n with
    state := ⟨n.state.currentTerm + 1, some n.id⟩
    role := .kCandidate
    votesReceived := 1 }

lemma startElection_eq (n : Node σ) : n.startElection =
    n.refreshMembership.andThen fun m _ =>
      if ¬ m.selfIsMember then (m, .ok none)
      else if m.standing.hasMajority then
        m.standing.becomeLeader.andThen fun m _ => (m, .ok none)
      else (m.standing, .ok (some ⟨m.standing.state.currentTerm, m.id, m.log.lastIndex,
        m.log.lastTerm⟩)) := rfl

lemma startElection_cases (n : Node σ) :
    (n.startElection.1 = n.refreshMembership.1 ∧
      ∀ req, n.startElection.2 ≠ .ok (some req)) ∨
    (n.refreshMembership.1.selfIsMember ∧
      n.startElection = (n.refreshMembership.1.standing,
        .ok (some ⟨n.state.currentTerm + 1, n.id, n.log.lastIndex, n.log.lastTerm⟩))) ∨
    (n.refreshMembership.1.selfIsMember ∧ n.refreshMembership.1.standing.hasMajority ∧
      n.startElection.1 = n.refreshMembership.1.standing.becomeLeader.1 ∧
      ∀ req, n.startElection.2 ≠ .ok (some req)) := by
  have hid := n.refreshMembership_id
  have hstate := n.refreshMembership_state
  have hlog := n.refreshMembership_log
  rw [startElection_eq]
  generalize n.refreshMembership = x at hid hstate hlog ⊢
  obtain ⟨m, e | u⟩ := x
  · exact .inl ⟨rfl, fun req h => by cases h⟩
  · dsimp only at hid hstate hlog
    rw [Outcome.andThen]
    dsimp only
    by_cases hmember : m.selfIsMember
    · rw [if_neg (by simpa using hmember)]
      by_cases hmajority : m.standing.hasMajority
      · rw [if_pos hmajority]
        refine .inr (.inr ⟨hmember, hmajority, Outcome.andThen_fst fun _ _ =>
          rfl, fun req => ?_⟩)
        generalize m.standing.becomeLeader = y
        obtain ⟨m', e | u'⟩ := y
        · exact fun h => by cases h
        · exact fun h => by cases h
      · have hterm : m.standing.state.currentTerm = n.state.currentTerm + 1 := by
          rw [← hstate]
          rfl
        rw [if_neg hmajority, hterm, hid, hlog]
        exact .inr (.inl ⟨hmember, rfl⟩)
    · rw [if_pos (by simpa using hmember)]
      exact .inl ⟨rfl, fun req h => by cases h⟩

/-- The node with one more vote. -/
@[simps]
def counting (n : Node σ) : Node σ := { n with votesReceived := n.votesReceived + 1 }

lemma voteReply_cases (n : Node σ) (electionTerm : ℕ) (resp : RequestVoteResponse) :
    (n.voteReply electionTerm resp).1 = n ∨
    (n.state.currentTerm < resp.term ∧
      (n.voteReply electionTerm resp).1 = n.becomeFollower resp.term) ∨
    (resp.voteGranted ∧ n.role = .kCandidate ∧ electionTerm = n.state.currentTerm ∧
      ((¬ n.counting.hasMajority ∧ (n.voteReply electionTerm resp).1 = n.counting) ∨
        (n.counting.hasMajority ∧
          (n.voteReply electionTerm resp).1 = n.counting.becomeLeader.1))) := by
  unfold voteReply
  by_cases hterm : resp.term > n.state.currentTerm
  · rw [if_pos hterm]
    exact .inr (.inl ⟨hterm, rfl⟩)
  rw [if_neg hterm]
  by_cases hstale : n.role ≠ .kCandidate ∨ electionTerm ≠ n.state.currentTerm
  · rw [if_pos hstale]
    exact .inl rfl
  rw [if_neg hstale]
  push Not at hstale
  cases hgrant : resp.voteGranted with
  | false => exact .inl rfl
  | true =>
    refine .inr (.inr ⟨rfl, hstale.1, hstale.2, ?_⟩)
    by_cases hmajority : n.counting.hasMajority
    · exact .inr ⟨hmajority, congrArg Prod.fst (if_pos hmajority)⟩
    · exact .inl ⟨hmajority, congrArg Prod.fst (if_neg hmajority)⟩

/-- The node in a term that is not behind its own. -/
def atTerm (n : Node σ) (term : ℕ) : Node σ :=
  if term > n.state.currentTerm then n.becomeFollower term else n

/-- The node that has voted for a candidate. -/
@[simps]
def votingFor (n : Node σ) (candidate : NodeId) : Node σ :=
  { n with state := ⟨n.state.currentTerm, some candidate⟩ }

lemma handleRequestVote_eq (now : ℕ) (n : Node σ) (req : RequestVoteRequest) :
    n.handleRequestVote now req =
      if n.lastLeaderContact.any fun t => now - t < kElectionTimeoutMinMs then
        (n, ⟨n.state.currentTerm, false⟩)
      else if req.term < n.state.currentTerm then (n, ⟨n.state.currentTerm, false⟩)
      else if ¬ (n.atTerm req.term).state.votedFor.any (· ≠ req.candidateId) ∧
          (n.atTerm req.term).candidateLogOk req then
        ((n.atTerm req.term).votingFor req.candidateId,
          ⟨(n.atTerm req.term).state.currentTerm, true⟩)
      else (n.atTerm req.term, ⟨(n.atTerm req.term).state.currentTerm, false⟩) := rfl

lemma handleRequestVote_cases (now : ℕ) (n : Node σ) (req : RequestVoteRequest) :
    ((n.handleRequestVote now req).2.voteGranted = false ∧
      ((n.handleRequestVote now req).1 = n ∨
        (n.state.currentTerm ≤ req.term ∧
          (n.handleRequestVote now req).1 = n.atTerm req.term))) ∨
    (n.state.currentTerm ≤ req.term ∧ (∀ c, (n.atTerm req.term).state.votedFor = some c →
        c = req.candidateId) ∧ n.candidateLogOk req ∧
      n.handleRequestVote now req = ((n.atTerm req.term).votingFor req.candidateId,
        ⟨(n.atTerm req.term).state.currentTerm, true⟩)) := by
  have hlog : (n.atTerm req.term).log = n.log := by unfold atTerm; split <;> rfl
  rw [handleRequestVote_eq]
  split_ifs with hcontact hlt hgrant
  · exact .inl ⟨rfl, .inl rfl⟩
  · exact .inl ⟨rfl, .inl rfl⟩
  · refine .inr ⟨Nat.not_lt.mp hlt, fun c hc => ?_, ?_, rfl⟩
    · have := hgrant.1
      rw [hc] at this
      simpa using this
    · have := hgrant.2
      unfold candidateLogOk at this ⊢
      rwa [hlog] at this
  · exact .inl ⟨rfl, .inr ⟨Nat.not_lt.mp hlt, rfl⟩⟩

end DistDB.NodeModel.Node
