import DistDB.NodeApply
import DistDB.NodeSane
import DistDB.OwnChanges

/-!
A Raft leader that removes itself.

The leader goes on until the removal is committed, and steps down in the call of
`MaybeAdvanceCommitIndex` that commits it. What it waits for is derived again whenever its log
changes; it stays right because a node does not come to lead with a removal of its own in its
log, and a leader takes no conf change while it waits (`Watched`).
-/

namespace DistDB.SelfRemoval

open NodeModel NodeModel.Node NodeCrash CommitRule NodeHandlers FullLog MembershipFold OwnChanges
open Checks
open NodeInstall (Sys)

variable {σ : Type} {cb : Callbacks σ} {commits : ℕ → ℕ → Prop} {a b n n' m : Node σ}

/-! ### Roles -/

/-- What a handler that leaves the log alone does to the role: a leader goes on, or is in a later
term; and only a member stands for election. -/
inductive Turns (a b : Node σ) : Prop
  | stays (hrole : b.role = a.role) (hterm : b.state.currentTerm = a.state.currentTerm)
      (hpending : b.pendingSelfRemovalIndex = a.pendingSelfRemovalIndex)
  | follows (hrole : b.role = .kFollower)
      (hlater : a.role = .kLeader → a.state.currentTerm < b.state.currentTerm)
  | stands (hnot : a.role ≠ .kLeader)
      (hfrom : a.role = .kCandidate ∨ a.refreshMembership.1.selfIsMember = true)
      (hrole : b.role ≠ .kFollower) (hpending : b.pendingSelfRemovalIndex = 0)

/-- A term has one leader; and a node that leads does not start an election. -/
def Elected (s : Sys σ) : Event → Prop
  | .elect => s.node.role ≠ .kLeader
  | .append _ req => s.node.role = .kLeader → req.term ≠ s.node.state.currentTerm
  | .check _ req => s.node.role = .kLeader → req.term ≠ s.node.state.currentTerm
  | _ => True

namespace Turns

lemma refl (a : Node σ) : Turns a a := .stays rfl rfl rfl

lemma higher {term : ℕ} (h : a.state.currentTerm < term) (hb : b = a.becomeFollower term ∨
    ∃ peer, b = (a.replicationLost peer).becomeFollower term) : Turns a b := by
  rcases hb with rfl | ⟨peer, rfl⟩
  · refine .follows rfl fun _ => ?_
    simp [becomeFollower, h]
  · refine .follows rfl fun _ => ?_
    simp [becomeFollower, replicationLost, h]

lemma heardFrom (now : ℕ) {term : ℕ} (leaderId : NodeId) (hle : a.state.currentTerm ≤ term)
    (hone : a.role = .kLeader → term ≠ a.state.currentTerm) :
    Turns a (a.heardFrom now term leaderId) := by
  refine .follows (heardFrom_role a now term leaderId) fun hrole => ?_
  rw [heardFrom_currentTerm a now term leaderId hle]
  have hne := hone hrole
  omega

lemma handleRequestVote (a : Node σ) (now : ℕ) (req : RequestVoteRequest) :
    Turns a (a.handleRequestVote now req).1 := by
  have hterm : Turns a (a.atTerm req.term) := by
    unfold atTerm
    split
    · rename_i hlt
      exact higher hlt (.inl rfl)
    · exact refl a
  rcases a.handleRequestVote_cases now req with ⟨-, heq | ⟨-, heq⟩⟩ | ⟨-, -, -, heq⟩
  · rw [heq]
    exact refl a
  · rw [heq]
    exact hterm
  · rw [heq]
    cases hterm with
    | stays hrole hsame hpending => exact .stays hrole hsame hpending
    | follows hrole hlater => exact .follows hrole hlater
    | stands hnot hfrom hrole hpending => exact .stands hnot hfrom hrole hpending

lemma becomeLeader (hnot : a.role ≠ .kLeader)
    (hfrom : a.role = .kCandidate ∨ a.refreshMembership.1.selfIsMember = true)
    (hrole : n.role = .kCandidate) : Turns a n.becomeLeader.1 := by
  have hpending := refreshMembership_pending (n := n) (by rw [hrole]; decide)
  rcases n.becomeLeader_cases with heq | ⟨-, heq⟩
  · rw [heq]
    refine .stands hnot hfrom ?_ hpending
    rw [refreshMembership_role, hrole]
    decide
  · rw [heq]
    exact .stands hnot hfrom (by rw [leading_role]; decide) hpending

lemma startElection (hnot : a.role ≠ .kLeader) : Turns a a.startElection.1 := by
  have hpending := refreshMembership_pending hnot
  rcases a.startElection_cases with ⟨heq, -⟩ | ⟨hmember, heq⟩ | ⟨hmember, -, heq, -⟩
  · rw [heq]
    cases hrole : a.role with
    | kFollower => exact .follows (by simp [hrole]) fun hlead => by rw [hrole] at hlead; cases hlead
    | kCandidate => exact .stands hnot (.inl hrole) (by simp [hrole]) hpending
    | kLeader => exact absurd hrole hnot
  · rw [heq]
    exact .stands hnot (.inr hmember) (by rw [standing_role]; decide) hpending
  · rw [heq]
    exact becomeLeader hnot (.inr hmember) rfl

lemma voteReply (a : Node σ) (electionTerm : ℕ) (resp : RequestVoteResponse) :
    Turns a (a.voteReply electionTerm resp).1 := by
  rcases a.voteReply_cases electionTerm resp with heq | ⟨hlt, heq⟩ |
    ⟨-, hrole, -, ⟨-, heq⟩ | ⟨-, heq⟩⟩
  · rw [heq]
    exact refl a
  · exact higher hlt (.inl heq)
  · rw [heq]
    exact .stays rfl rfl rfl
  · rw [heq]
    exact becomeLeader (by rw [hrole]; decide) (.inl hrole) hrole

lemma replicateTo (a : Node σ) (peer : NodeId) : Turns a (a.replicateTo peer).1 := by
  unfold Node.replicateTo
  split
  · exact refl a
  · dsimp only
    split
    · exact .stays rfl rfl rfl
    · exact .stays rfl rfl rfl

lemma sendInstallSnapshot (a : Node σ) (peer : NodeId) (term : ℕ) :
    Turns a (a.sendInstallSnapshot cb peer term).1 := by
  unfold Node.sendInstallSnapshot
  split
  · exact .stays rfl rfl rfl
  · exact refl a

lemma snapshotReply (a : Node σ) (peer : NodeId) (term snapshotIndex : ℕ)
    (resp : InstallSnapshotResponse) : Turns a (a.snapshotReply peer term snapshotIndex resp) := by
  rcases a.snapshotReply_cases peer term snapshotIndex resp with heq | ⟨hlt, heq⟩ |
    ⟨-, -, -, -, heq⟩
  · rw [heq]
    exact .stays rfl rfl rfl
  · exact higher hlt (.inr ⟨peer, heq⟩)
  · rw [heq]
    exact .stays rfl rfl rfl

lemma appendReply {s : Sys σ} {peer : NodeId} {term prevLogIndex sentCount : ℕ}
    {resp : AppendEntriesResponse}
    (h : advances s (.appendReply peer term prevLogIndex sentCount resp) = none) :
    Turns s.node (s.node.appendReply cb peer term prevLogIndex sentCount resp).1 := by
  simp only [advances, replyAdvances] at h
  unfold Node.appendReply
  dsimp only
  by_cases hpeer : ((s.node.replicationLost peer).peers.find peer).isNone
  · rw [if_pos hpeer]
    exact .stays rfl rfl rfl
  rw [if_neg hpeer]
  by_cases hterm : resp.term > (s.node.replicationLost peer).state.currentTerm
  · rw [if_pos hterm]
    exact higher hterm (.inr ⟨peer, rfl⟩)
  rw [if_neg hterm]
  by_cases hstale : (s.node.replicationLost peer).role ≠ .kLeader ∨
      term ≠ (s.node.replicationLost peer).state.currentTerm
  · rw [if_pos hstale]
    exact .stays rfl rfl rfl
  rw [if_neg hstale]
  by_cases hsuccess : resp.success
  · -- such an answer makes a call
    rw [if_neg (by tauto)] at h
    cases h
  · rw [if_neg hsuccess]
    exact .stays rfl rfl rfl

lemma installCheck (a : Node σ) (now : ℕ) (req : InstallSnapshotRequest)
    (hone : a.role = .kLeader → req.term ≠ a.state.currentTerm) :
    Turns a (a.installCheck now req).1 := by
  rcases a.installCheck_cases now req with ⟨-, heq⟩ | ⟨hle, heq, -⟩
  · rw [heq]
    exact refl a
  · rw [heq]
    exact heardFrom now req.leaderId hle hone

end Turns

/-- What the handler of an event can make of the node, and of its role. -/
inductive Turned (cb : Callbacks σ) (s : Sys σ) : Event → Node σ → Prop
  | quiet {e : Event} {n : Node σ} (h : Quiet s.node n) (hturns : Turns s.node n) : Turned cb s e n
  | append {now : ℕ} {req : AppendEntriesRequest} {log : RaftLog} {n : Node σ}
      (hterm : s.node.state.currentTerm ≤ req.term)
      (hlog : s.node.log.appendEntriesFrom req.prevLogIndex req.prevLogTerm req.entries = some log)
      (h : Settles cb (Follows req.leaderCommit log.lastIndex)
        ((s.node.heardFrom now req.term req.leaderId).withLog log) n) :
      Turned cb s (.append now req) n
  | advance {e : Event} {m : Node σ} (h : advances s e = some m) :
      Turned cb s e (m.maybeAdvanceCommitIndex cb).1
  | thrown {command : Bytes} (h : s.node.refusal command = .ok none) :
      Turned cb s (.propose command)
        (s.node.withLog (s.node.log.append s.node.state.currentTerm command).1).refreshMembership.1
  | restore (req : InstallSnapshotRequest) : Turned cb s .restore (s.node.installRestore cb req)
  | adopt {req : InstallSnapshotRequest} (hs : s.install = .restored req)
      (hlt : s.node.log.snapshotIndex < req.lastIncludedIndex) :
      Turned cb s .adopt (s.node.adopted req).refreshMembership.1

variable {s s' : Sys σ} {e : Event}

theorem turned (hterm : s.node.role ≠ .kFollower → 0 < s.node.state.currentTerm)
    (helected : Elected s e) (hstep : handle cb s e = some s') : Turned cb s e s'.node := by
  cases e with
  | vote now req =>
    cases hstep
    exact .quiet (.handleRequestVote _ now req) (.handleRequestVote _ now req)
  | elect =>
    cases hstep
    exact .quiet (.startElection _) (.startElection helected)
  | voteReply electionTerm resp =>
    cases hstep
    exact .quiet (.voteReply hterm electionTerm resp) (.voteReply _ electionTerm resp)
  | append now req =>
    cases hstep
    rcases @handleAppendEntries_cases σ cb now s.node req with
      ⟨-, heq⟩ | ⟨hle, -, heq⟩ | ⟨hle, log, hlog, hsettles, -⟩
    · dsimp only
      rw [heq]
      exact .quiet (.refl _) (.refl _)
    · dsimp only
      rw [heq]
      exact .quiet (.heardFrom _ now req.term req.leaderId)
        (.heardFrom now req.leaderId hle helected)
    · exact .append hle hlog hsettles
  | replicate peer =>
    cases hstep
    exact .quiet (.settles (@replicateTo_settles σ cb _ peer)) (.replicateTo _ peer)
  | replicationLost peer =>
    cases hstep
    exact .quiet (.lost _ peer) (.stays rfl rfl rfl)
  | appendReply peer term prevLogIndex sentCount resp =>
    cases hadv : advances s (.appendReply peer term prevLogIndex sentCount resp) with
    | some m =>
      rw [handle_of_advances hadv] at hstep
      cases hstep
      exact .advance hadv
    | none =>
      -- the reply moves no commit index, so the leader stays one or hears of a later term
      have hhandled := handled hterm hstep
      cases hstep
      have hturns := @Turns.appendReply σ cb s _ _ _ _ _ hadv
      dsimp only at hhandled ⊢
      generalize (s.node.appendReply cb peer term prevLogIndex sentCount resp).1 = x
        at hhandled hturns ⊢
      cases hhandled with
      | quiet hquiet => exact .quiet hquiet hturns
      | advance hsome =>
        rw [hadv] at hsome
        cases hsome
  | propose command =>
    cases hadv : advances s (.propose command) with
    | some m =>
      rw [handle_of_advances hadv] at hstep
      cases hstep
      exact .advance hadv
    | none =>
      cases hstep
      rcases @propose_cases σ cb s.node command with ⟨-, heq, -⟩ | ⟨-, hrefusal, -⟩
      · dsimp only
        rw [heq]
        exact .quiet (.refl _) (.refl _)
      · dsimp only
        rw [propose_thrown hadv hrefusal]
        exact .thrown hrefusal
  | send peer term =>
    cases hstep
    exact .quiet (.settles (@sendInstallSnapshot_settles σ cb _ peer term))
      (.sendInstallSnapshot _ peer term)
  | snapshotReply peer term snapshotIndex resp =>
    cases hstep
    exact .quiet (.snapshotReply _ peer term snapshotIndex resp)
      (.snapshotReply _ peer term snapshotIndex resp)
  | check now req =>
    rw [handle_check hstep]
    exact .quiet (.installCheck _ now req) (.installCheck _ now req helected)
  | restore =>
    obtain ⟨req, -, heq⟩ := handle_restore hstep
    rw [heq]
    exact .restore req
  | adopt =>
    obtain ⟨req, hinstall, heq⟩ := handle_adopt hstep
    rw [heq]
    rcases s.node.installAdopt_cases req with ⟨-, heq⟩ | ⟨hlt, heq⟩
    · rw [heq]
      exact .quiet (.refl _) (.refl _)
    · rw [heq]
      exact .adopt hinstall hlt

/-- A candidate has no removal in its log that it has not come back from; a leader has the one
that it waits for, and has not committed it. -/
structure Watched (n : Node σ) : Prop where
  decodable : Decodable n.log
  stands : n.role = .kCandidate → ∀ i, ¬ LastRemoval n.log n.id i
  leads : n.role = .kLeader → ∀ i, LastRemoval n.log n.id i →
    n.pendingSelfRemovalIndex = i ∧ n.commitIndex < i
  waits : n.role = .kLeader → n.pendingSelfRemovalIndex ≠ 0 →
    LastRemoval n.log n.id n.pendingSelfRemovalIndex

variable {log log' : RaftLog} {v : NodeId} {i j : ℕ}

lemma pos_of_removes (h : Removes log v i) : i ≠ 0 := by
  obtain ⟨cc, ⟨e, hget, -⟩, -⟩ := h
  rintro rfl
  rw [Holds.get_of_le (Nat.zero_le _)] at hget
  cases hget

lemma get_of_changeAt {cc : ConfChangeCommand} (h : ChangeAt log i cc) : log.get i ≠ none := by
  obtain ⟨e, hget, -⟩ := h
  rw [hget]
  exact Option.some_ne_none e

lemma changeAt_congr (h : log'.get i = log.get i) {cc : ConfChangeCommand} :
    ChangeAt log' i cc ↔ ChangeAt log i cc := by
  unfold ChangeAt
  rw [h]

lemma lastRemoval_of_behind
    (hcut : ∀ j, log'.get j ≠ none → ∀ k, j ≤ k → log'.get k = log.get k)
    (h : LastRemoval log' v i) : LastRemoval log v i := by
  obtain ⟨⟨cc, hat, hremoval⟩, hadds⟩ := h
  have hsame := hcut i (get_of_changeAt hat)
  refine ⟨⟨cc, (changeAt_congr (hsame i le_rfl)).mp hat, hremoval⟩, ?_⟩
  rintro j hj ⟨cc', hat', hadd⟩
  exact hadds j hj ⟨cc', (changeAt_congr (hsame j hj.le)).mpr hat', hadd⟩

lemma lastRemoval_kept (hkept : ∀ k, i ≤ k → log'.get k = log.get k)
    (h : LastRemoval log v i) :
    LastRemoval log' v i := by
  obtain ⟨⟨cc, hat, hremoval⟩, hadds⟩ := h
  refine ⟨⟨cc, (changeAt_congr (hkept i le_rfl)).mpr hat, hremoval⟩, ?_⟩
  rintro j hj ⟨cc', hat', hadd⟩
  exact hadds j hj ⟨cc', (changeAt_congr (hkept j hj.le)).mp hat', hadd⟩

lemma refresh_eq (hd : Decodable n.log) :
    ∃ cs, confChanges n.log n.log.snapshotIndex n.log.lastIndex = .ok cs ∧
      n.refreshMembership = (n.setMembership (n.effective cs), .ok ()) := by
  obtain ⟨cs, hcs⟩ := confChanges_succeeds hd n.log.snapshotIndex n.log.lastIndex
  refine ⟨cs, hcs, ?_⟩
  unfold refreshMembership
  rw [hcs]

lemma not_member (hd : Decodable n.log) (h : LastRemoval n.log n.id i)
    (hacts : n.role = .kLeader → i ≤ n.commitIndex) :
    n.refreshMembership.1.selfIsMember = false := by
  obtain ⟨cs, hcs, heq⟩ := refresh_eq hd
  rw [heq]
  exact selfMember_removed hcs h hacts

/-- A leader that derives its members waits for its removal, when there is no more than one and
that is not committed. -/
lemma watched_refresh (hd : Decodable n.log) (hrole : n.role = .kLeader)
    (hlt : ∀ i, LastRemoval n.log n.id i → n.commitIndex < i)
    (hone : ∀ i j, LastRemoval n.log n.id i → LastRemoval n.log n.id j → i = j) :
    Watched n.refreshMembership.1 := by
  obtain ⟨cs, hcs, heq⟩ := refresh_eq hd
  rw [heq]
  refine ⟨hd, fun hcandidate => ?_, fun _ i hi => ⟨?_, hlt i hi⟩, fun _ hpos => ?_⟩
  · have hcandidate : n.role = .kCandidate := hcandidate
    rw [hrole] at hcandidate
    cases hcandidate
  · refine pending_removal hcs hrole (hlt i hi) hi fun j hj hremoves => ?_
    have hsame := hone i j hi ⟨hremoves, fun k hk => hi.2 k (hj.trans hk)⟩
    omega
  · exact (removal_of_pending hcs rfl hpos).2

/-! ### Steps -/

/-- The requests, of leaders that hold what this node has committed, hold conf changes that can
be decoded; and a snapshot is one of the log of a node that leads, in front of the removal that
it waits for. -/
def Promised (s : Sys σ) : Event → Prop
  | .append _ req => CutsNothing s.node req ∧
      ∀ entry ∈ req.entries, Succeeds (tryDecodeConfChange entry.command)
  | .adopt => ∀ req, s.install = .restored req →
      s.node.log.snapshotIndex < req.lastIncludedIndex →
      (req.lastIncludedIndex ≤ s.node.commitIndex ∨
        (s.node.role = .kLeader ∧ req.lastIncludedIndex ≤ s.node.log.lastIndex) →
        s.node.log.termAt req.lastIncludedIndex = req.lastIncludedTerm) ∧
      (s.node.role = .kLeader → s.node.pendingSelfRemovalIndex ≠ 0 →
        req.lastIncludedIndex < s.node.pendingSelfRemovalIndex)
  | _ => True

lemma decodable_put (hd : Decodable log) (idx : ℕ) {entry : LogEntry}
    (hentry : Succeeds (tryDecodeConfChange entry.command)) : Decodable (log.put idx entry) := by
  have hlast : ∀ {es : List LogEntry},
      (∀ x ∈ es, Succeeds (tryDecodeConfChange x.command)) →
      ∀ x ∈ es ++ [{ entry with index := idx }], Succeeds (tryDecodeConfChange x.command) := by
    intro es hes x hx
    rcases List.mem_append.mp hx with hx | hx
    · exact hes x hx
    · rw [List.mem_singleton.mp hx]
      exact hentry
  unfold RaftLog.put
  split
  · exact hd
  · dsimp only
    split
    · split
      · exact hd
      · exact hlast fun x hx => hd x (List.mem_of_mem_take hx)
    · exact hlast hd

lemma decodable_putAll (hd : Decodable log) (idx : ℕ) {es : List LogEntry}
    (hes : ∀ entry ∈ es, Succeeds (tryDecodeConfChange entry.command)) :
    Decodable (log.putAll idx es) := by
  induction es generalizing log idx with
  | nil => exact hd
  | cons entry es ih =>
    exact ih (decodable_put hd idx (hes entry (by simp))) (idx + 1)
      fun x hx => hes x (by simp [hx])

lemma decodable_compactTo (hd : Decodable log) (index term : ℕ) :
    Decodable (log.compactTo index term) := by
  unfold RaftLog.compactTo
  split
  · exact hd
  · intro x hx
    dsimp only at hx
    split at hx
    · exact hd x (List.mem_of_mem_drop hx)
    · cases hx

lemma decodable_applyCommitted (hd : Decodable n.log) : Decodable (n.applyCommitted cb).1.log := by
  refine applyCommitted_induct (P := fun m => Decodable m.log) (Q := fun m => Decodable m.log) hd ?_
    (fun m hm => hm) ?_
  · intro m hm _
    obtain ⟨errors, log, heq, rfl | rfl⟩ := @applyNext_eq σ cb m
    · rw [heq]
      exact hm
    · rw [heq]
      exact hm
  · intro m hm
    rcases m.compact_eq with heq | ⟨changes, errors, -, heq⟩
    · rwa [heq]
    · rw [heq]
      exact decodable_compactTo hm _ _

lemma decodable_settles (hd : Decodable n.log) (h : Settles cb commits n n') :
    Decodable n'.log := by
  refine h.keeps (P := fun m => Decodable m.log) hd fun a b ha hmove => ?_
  cases hmove with
  | refresh => simpa using ha
  | commit i hi => exact decodable_applyCommitted (n := a.withCommitIndex i) ha
  | note => exact ha
  | stepDown => exact ha

/-- `ApplyCommitted` cuts the log off at its front, and leaves what is not committed. -/
lemma get_applyCommitted (h : AppliesCommitted n) :
    (∀ j, (n.applyCommitted cb).1.log.get j ≠ none →
      ∀ k, j ≤ k → (n.applyCommitted cb).1.log.get k = n.log.get k) ∧
    ∀ k, n.commitIndex < k → (n.applyCommitted cb).1.log.get k = n.log.get k := by
  have hle : n.lastApplied ≤ n.commitIndex := h
  refine applyCommitted_induct
    (P := fun m => (∀ k, m.log.get k = n.log.get k) ∧ m.lastApplied ≤ n.commitIndex)
    (Q := fun m => (∀ j, m.log.get j ≠ none → ∀ k, j ≤ k →
      m.log.get k = n.log.get k) ∧ ∀ k, n.commitIndex < k → m.log.get k = n.log.get k)
    ⟨fun _ => rfl, hle⟩ ?_ (fun m hm => ⟨fun _ _ k _ => hm.1 k, fun k _ => hm.1 k⟩) ?_
  · rintro m ⟨hsame, -⟩ hlt
    obtain ⟨errors, log, heq, rfl | rfl⟩ := @applyNext_eq σ cb m
    · rw [heq]
      exact ⟨hsame, hlt⟩
    · rw [heq]
      exact ⟨hsame, hlt⟩
  · rintro m ⟨hsame, hlast⟩
    rcases m.compact_eq with heq | ⟨changes, errors, -, heq⟩
    · rw [heq]
      exact ⟨fun _ _ k _ => hsame k, fun k _ => hsame k⟩
    rw [heq]
    dsimp only
    rcases Nat.lt_or_ge m.log.snapshotIndex m.lastApplied with hlt | hge
    · have hbehind : ∀ k, m.lastApplied < k →
          (m.log.compactTo m.lastApplied (m.log.termAt m.lastApplied)).get k = n.log.get k :=
        fun k hk => (get_compactTo hlt hk).trans (hsame k)
      refine ⟨fun j hj k hk => hbehind k ?_, fun k hk => hbehind k (by omega)⟩
      have hin : m.lastApplied < j := by
        by_contra hout
        refine hj (Holds.get_of_le ?_)
        unfold RaftLog.compactTo
        rw [if_neg (by omega)]
        dsimp only
        omega
      omega
    · rw [Holds.compactTo_of_le hge]
      exact ⟨fun _ _ k _ => hsame k, fun k _ => hsame k⟩

lemma get_adopted {req : InstallSnapshotRequest}
    (hlt : n.log.snapshotIndex < req.lastIncludedIndex) :
    ∀ j, (n.adopted req).log.get j ≠ none →
      ∀ k, j ≤ k → (n.adopted req).log.get k = n.log.get k := by
  have hlog : ∀ k, (n.adopted req).log.get k =
      (n.log.compactTo req.lastIncludedIndex req.lastIncludedTerm).get k := by
    intro k
    rw [adopted_log]
    split
    · rfl
    · rfl
  simp only [hlog]
  intro j hj k hk
  by_cases hkept : req.lastIncludedIndex ≤ n.log.lastIndex ∧
      n.log.termAt req.lastIncludedIndex = req.lastIncludedTerm
  · rw [← hkept.2] at hj ⊢
    refine get_compactTo hlt ?_
    have hin : req.lastIncludedIndex < j := by
      by_contra hout
      refine hj (Holds.get_of_le ?_)
      unfold RaftLog.compactTo
      rw [if_neg (by omega)]
      dsimp only
      omega
    omega
  · refine absurd ?_ hj
    unfold RaftLog.compactTo
    rw [if_neg (by omega), if_neg hkept]
    unfold RaftLog.get RaftLog.entryAt
    simp

variable {l : List LogEntry} {command : Bytes}

lemma none_pending (h : n.refusal command = .ok none) {cc : ConfChangeCommand}
    (hcc : tryDecodeConfChange command = .ok (some cc)) :
    confChanges n.log n.commitIndex n.log.lastIndex = .ok [] := by
  have hrole := leads_of_refusal h
  unfold refusal at h
  rw [if_neg (by simpa using hrole), hcc] at h
  obtain ⟨found, hfound, h⟩ := bind_eq_ok.mp h
  cases hfound
  obtain ⟨checked, hchecked, hpure⟩ := bind_eq_ok.mp h
  unfold checkConfChange at hchecked
  obtain ⟨pending, hpending, hrest⟩ := bind_eq_ok.mp hchecked
  rw [hpending]
  by_contra hne
  have hsome : pending ≠ [] := fun hnil => hne (by rw [hnil])
  rw [if_pos hsome] at hrest
  cases hrest
  cases hpure

lemma decodes_of_refusal (h : n.refusal command = .ok none) :
    Succeeds (tryDecodeConfChange command) := by
  have hrole := leads_of_refusal h
  unfold refusal at h
  rw [if_neg (by simpa using hrole)] at h
  obtain ⟨cc, hcc, -⟩ := bind_eq_ok.mp h
  exact ⟨cc, hcc⟩

lemma get_append (hb : Sane l n) (k : ℕ) :
    (n.log.append n.state.currentTerm command).1.get k =
      if k = l.length + 1 then some ⟨l.length + 1, n.state.currentTerm, command⟩
      else n.log.get k := by
  have hholds := hb.holds.append n.state.currentTerm command
  have hsnap := hb.holds.snapshot_le
  have hsame : (n.log.append n.state.currentTerm command).1.snapshotIndex = n.log.snapshotIndex :=
    rfl
  rcases Nat.lt_or_ge n.log.snapshotIndex k with hlt | hge
  · rw [hholds.get (hsame ▸ hlt), hb.holds.get hlt]
    rcases Nat.lt_trichotomy k (l.length + 1) with hin | rfl | hout
    · rw [if_neg (by omega), List.getElem?_append_left (by omega)]
    · simp
    · rw [if_neg (by omega), List.getElem?_eq_none (by simp; omega),
        List.getElem?_eq_none (by omega)]
  · rw [if_neg (by omega), Holds.get_of_le (hsame ▸ hge), Holds.get_of_le hge]

/-- A leader that takes a proposal goes on waiting for what it has waited for, or begins to. -/
lemma watched_propose (hb : Sane l n) (h : Watched n) (hrefusal : n.refusal command = .ok none) :
    Watched (n.withLog (n.log.append n.state.currentTerm command).1).refreshMembership.1 ∧
      ∀ i, LastRemoval n.log n.id i →
        LastRemoval (n.log.append n.state.currentTerm command).1 n.id i := by
  have hrole := leads_of_refusal hrefusal
  have hcommit := hb.commit_le
  have hlast := hb.holds.lastIndex
  have hget := @get_append σ n l command hb
  -- a conf change comes only when the leader does not wait
  have hfree : ∀ cc, tryDecodeConfChange command = .ok (some cc) →
      ∀ i, ¬ LastRemoval n.log n.id i := by
    rintro cc hcc i hi
    obtain ⟨cc', hat, -⟩ := hi.1
    have hin : i ≤ n.log.lastIndex := by
      by_contra hout
      exact get_of_changeAt hat (get_past (by omega))
    have hmem := (mem_confChanges_iff (none_pending hrefusal hcc) (i, cc')).mpr
      ⟨(h.leads hrole i hi).2, hin, hat⟩
    cases hmem
  have hnew : ∀ cc, ChangeAt (n.log.append n.state.currentTerm command).1 (l.length + 1) cc →
      tryDecodeConfChange command = .ok (some cc) := by
    rintro cc ⟨e, he, hcc⟩
    rw [hget, if_pos rfl] at he
    cases he
    exact hcc
  have hold : ∀ k cc, k ≠ l.length + 1 →
      (ChangeAt (n.log.append n.state.currentTerm command).1 k cc ↔ ChangeAt n.log k cc) :=
    fun k cc hk => changeAt_congr (by rw [hget, if_neg hk])
  have hpast : ∀ k cc, ChangeAt n.log k cc → k ≠ l.length + 1 := by
    rintro k cc hat rfl
    exact get_of_changeAt hat (get_past (by omega))
  have hcases : ∀ i, LastRemoval (n.log.append n.state.currentTerm command).1 n.id i →
      LastRemoval n.log n.id i ∨
        (i = l.length + 1 ∧ ∃ cc, tryDecodeConfChange command = .ok (some cc)) := by
    rintro i ⟨⟨cc, hat, hremoval⟩, hadds⟩
    by_cases hi : i = l.length + 1
    · subst hi
      exact .inr ⟨rfl, cc, hnew cc hat⟩
    · refine .inl ⟨⟨cc, (hold i cc hi).mp hat, hremoval⟩, ?_⟩
      rintro j hj ⟨cc', hat', hadd⟩
      exact hadds j hj ⟨cc', (hold j cc' (hpast j cc' hat')).mpr hat', hadd⟩
  constructor
  · refine watched_refresh (n := n.withLog (n.log.append n.state.currentTerm command).1) ?_ hrole
      (fun i hi => ?_) fun i j hi hj => ?_
    · intro x hx
      rcases List.mem_append.mp hx with hx | hx
      · exact h.decodable x hx
      · rw [List.mem_singleton.mp hx]
        exact decodes_of_refusal hrefusal
    · rcases hcases i hi with hi | ⟨rfl, -⟩
      · exact (h.leads hrole i hi).2
      · exact Nat.lt_succ_of_le hcommit
    · rcases hcases i hi with hi | ⟨rfl, cc, hcc⟩
      · rcases hcases j hj with hj | ⟨rfl, cc, hcc⟩
        · exact (h.leads hrole i hi).1.symm.trans (h.leads hrole j hj).1
        · exact absurd hi (hfree cc hcc i)
      · rcases hcases j hj with hj | ⟨rfl, -⟩
        · exact absurd hj (hfree cc hcc j)
        · rfl
  · rintro i hi
    obtain ⟨⟨cc, hat, hremoval⟩, hadds⟩ := hi
    refine ⟨⟨cc, (hold i cc (hpast i cc hat)).mpr hat, hremoval⟩, ?_⟩
    rintro j hj ⟨cc', hat', hadd⟩
    by_cases hj' : j = l.length + 1
    · subst hj'
      exact hfree cc' (hnew cc' hat') i ⟨⟨cc, hat, hremoval⟩, hadds⟩
    · exact hadds j hj ⟨cc', (hold j cc' hj').mp hat', hadd⟩

/-! ### The call that commits the removal -/

lemma applyLoop_ok (hcb : cb.Total) (k : ℕ) (hd : Decodable n.log) :
    (n.applyLoop cb k).2 = .ok () ∧ Decodable (n.applyLoop cb k).1.log := by
  induction k generalizing n with
  | zero => exact ⟨rfl, hd⟩
  | succ k ih =>
    obtain ⟨machine, errors, heq⟩ := applyNext_total hcb hd
    have hrest := ih (n := (n.applyNext cb).1) (by rw [heq]; exact hd)
    unfold applyLoop Outcome.andThen
    rw [heq] at hrest ⊢
    exact hrest

lemma applyCommitted_ok (hcb : cb.Total) (hd : Decodable n.log) :
    (n.applyCommitted cb).2 = .ok () := by
  obtain ⟨hok, hd'⟩ := applyLoop_ok hcb (n.commitIndex - n.lastApplied) hd
  unfold applyCommitted Outcome.andThen
  rw [hok]
  dsimp only
  split
  · obtain ⟨changes, hchanges⟩ := confChanges_succeeds hd'
      (n.applyLoop cb (n.commitIndex - n.lastApplied)).1.log.snapshotIndex
      (n.applyLoop cb (n.commitIndex - n.lastApplied)).1.lastApplied
    unfold compact
    dsimp only
    rw [hchanges]
  · rfl

lemma maybeAdvance_total (hcb : cb.Total) (hd : Decodable m.log) :
    (m.advanceApplies = none ∧ (m.maybeAdvanceCommitIndex cb).1 = m) ∨
    ∃ m', m.advanceApplies = some m' ∧ m' = m.withCommitIndex m.majorityIndex ∧
      m.commitIndex < m.majorityIndex ∧
      (m.maybeAdvanceCommitIndex cb).1 = (m'.applyCommitted cb).1.stepDownIfRemoved.1 := by
  unfold advanceApplies maybeAdvanceCommitIndex
  by_cases hcheck : m.majorityIndex > m.commitIndex ∧
      m.log.termAt m.majorityIndex = m.state.currentTerm
  · rw [if_pos hcheck, if_pos hcheck]
    have hok := applyCommitted_ok (n := m.withCommitIndex m.majorityIndex) hcb hd
    refine .inr ⟨_, rfl, rfl, hcheck.1, ?_⟩
    unfold Outcome.andThen
    rw [hok]
  · rw [if_neg hcheck, if_neg hcheck]
    exact .inl ⟨rfl, rfl⟩

/-- A node leads as long as its removal at the index is not committed, and is out then. -/
structure Decides (i : ℕ) (n : Node σ) : Prop where
  leads : n.commitIndex < i → n.role = .kLeader ∧ LastRemoval n.log n.id i
  leaves : i ≤ n.commitIndex → n.role = .kFollower ∧ n.selfIsMember = false

lemma derived_of_decodable (hd : Decodable n.log) :
    derived n = .ok (n.refreshMembership.1.peers, n.refreshMembership.1.selfIsMember) := by
  obtain ⟨cs, -, heq⟩ := refresh_eq hd
  unfold derived
  rw [heq]
  rfl

/-- **The leader steps down when its removal commits**, and not before. -/
theorem watched_advance (hcb : cb.Total) (hb : Sane l m) (h : Watched m)
    (hrole : m.role = .kLeader) :
    Watched (m.maybeAdvanceCommitIndex cb).1 ∧
      ∀ i, LastRemoval m.log m.id i → Decides i (m.maybeAdvanceCommitIndex cb).1 := by
  rcases @maybeAdvance_total σ cb m hcb h.decodable with ⟨-, heq⟩ | ⟨m', -, rfl, hlt, heq⟩
  · rw [heq]
    refine ⟨h, fun i hi => ⟨fun _ => ⟨hrole, hi⟩, fun hle => ?_⟩⟩
    have hwaits := (h.leads hrole i hi).2
    omega
  have happlied : AppliesCommitted (m.withCommitIndex m.majorityIndex) := hb.last_le.trans hlt.le
  obtain ⟨hcut, hkept⟩ := @get_applyCommitted σ cb _ happlied
  have hmembers := (@applyCommitted_members σ cb _ happlied).1
  have hd : Decodable ((m.withCommitIndex m.majorityIndex).applyCommitted cb).1.log :=
    decodable_applyCommitted (n := m.withCommitIndex m.majorityIndex) h.decodable
  have hid := @applyCommitted_id σ cb (m.withCommitIndex m.majorityIndex)
  have hrole' := @applyCommitted_role σ cb (m.withCommitIndex m.majorityIndex)
  have hcommit := @applyCommitted_commitIndex σ cb (m.withCommitIndex m.majorityIndex)
  have hpending := @applyCommitted_pendingSelfRemovalIndex σ cb (m.withCommitIndex m.majorityIndex)
  rw [heq]
  generalize ((m.withCommitIndex m.majorityIndex).applyCommitted cb).1 = x
    at hcut hkept hmembers hd hid hrole' hcommit hpending
  simp only [withCommitIndex_id, withCommitIndex_role, withCommitIndex_commitIndex,
    withCommitIndex_pendingSelfRemovalIndex,
    withCommitIndex_log] at hcut hkept hid hrole' hcommit hpending
  rw [hrole] at hrole'
  unfold stepDownIfRemoved
  by_cases hreached : x.pendingSelfRemovalIndex ≠ 0 ∧
    x.commitIndex ≥ x.pendingSelfRemovalIndex
  · -- the removal that the leader has waited for is committed, in the log or compacted away
    rw [if_pos hreached]
    rw [hpending] at hreached
    have hremoval := h.waits hrole hreached.1
    have hout : x.refreshMembership.1.selfIsMember = false := by
      have hbefore : (m.withCommitIndex m.majorityIndex).refreshMembership.1.selfIsMember = false :=
        not_member (n := m.withCommitIndex m.majorityIndex) h.decodable hremoval fun _ => by
          rw [← hcommit]
          exact hreached.2
      have hd' : Decodable (m.withCommitIndex m.majorityIndex).log := h.decodable
      rw [derived_of_decodable hd, derived_of_decodable hd'] at hmembers
      exact (congrArg Prod.snd (Except.ok.inj hmembers)).trans hbefore
    obtain ⟨cs, -, hrefresh⟩ := refresh_eq hd
    have hrefresh : x.refreshMembership = (x.refreshMembership.1, .ok ()) := by
      obtain ⟨cs, -, hcs⟩ := refresh_eq hd
      rw [hcs]
    have hlog := x.refreshMembership_log
    have hindex := x.refreshMembership_commitIndex
    generalize x.refreshMembership.1 = y at hrefresh hout hlog hindex
    rw [hrefresh]
    unfold NodeModel.Outcome.andThen
    dsimp only
    rw [if_pos ⟨hrole', by rw [hout]; decide⟩]
    refine ⟨⟨by rw [hlog]; exact hd, nofun, nofun, nofun⟩, fun i hi => ⟨fun hlt' => ?_,
      fun _ => ⟨rfl, hout⟩⟩⟩
    have hsame := (h.leads hrole i hi).1
    have hlt' : y.commitIndex < i := hlt'
    omega
  · rw [if_neg hreached]
    rw [hpending] at hreached
    have hfar : ∀ i, LastRemoval m.log m.id i → x.commitIndex < i := fun i hi => by
      obtain ⟨hsame, -⟩ := h.leads hrole i hi
      have hpos := pos_of_removes hi.1
      by_contra hge
      exact hreached ⟨by omega, by omega⟩
    have hstill : ∀ i, LastRemoval m.log m.id i → LastRemoval x.log x.id i := fun i hi => by
      have hlt' := hfar i hi
      rw [hid]
      exact lastRemoval_kept (fun k hk => hkept k (by omega)) hi
    refine ⟨⟨hd, fun hcandidate => ?_, fun _ i hi => ?_, fun _ hpos => ?_⟩, fun i hi =>
      ⟨fun _ => ⟨hrole', hstill i hi⟩, fun hle => ?_⟩⟩
    · rw [hrole'] at hcandidate
      cases hcandidate
    · rw [hid] at hi
      have hold := lastRemoval_of_behind hcut hi
      exact ⟨hpending.trans (h.leads hrole i hold).1, hfar i hold⟩
    · rw [hpending] at hpos ⊢
      exact hstill _ (h.waits hrole hpos)
    · have hlt' := hfar i hi
      have hle : i ≤ x.commitIndex := hle
      omega

/-! ### One step -/

lemma taken_follower {now : ℕ} {req : AppendEntriesRequest} {log : RaftLog}
    (hd : Decodable s.node.log) (hdecodes : ∀ entry ∈ req.entries,
      Succeeds (tryDecodeConfChange entry.command))
    (hlog : s.node.log.appendEntriesFrom req.prevLogIndex req.prevLogTerm req.entries = some log)
    (h : Settles cb commits ((s.node.heardFrom now req.term req.leaderId).withLog log) n) :
    n.role = .kFollower ∧ Decodable n.log := by
  constructor
  · rcases settles_role h with hrole | hrole
    · exact hrole.trans (heardFrom_role s.node now req.term req.leaderId)
    · exact hrole
  · refine decodable_settles (n := (s.node.heardFrom now req.term req.leaderId).withLog log) ?_ h
    unfold RaftLog.appendEntriesFrom at hlog
    split at hlog
    · cases hlog
    · cases hlog
      exact decodable_putAll hd _ hdecodes

lemma watched_advances (hb : Sane l s.node) (h : Watched s.node) (hadv : advances s e = some m) :
    (∃ l', Sane l' m) ∧ Watched m ∧ m.role = .kLeader ∧ m.id = s.node.id ∧
      m.state = s.node.state ∧ ∀ i, LastRemoval s.node.log s.node.id i →
        LastRemoval m.log m.id i := by
  obtain ⟨⟨hrole, hrole', hstate⟩,
      ⟨hquiet, hpending⟩ | ⟨command, -, hrefusal, rfl⟩⟩ :=
    advances_cases hadv
  · refine ⟨⟨l, hb.quiet hquiet⟩, ⟨?_, ?_, ?_, ?_⟩, hrole', hquiet.id, hstate, ?_⟩
    · rw [hquiet.log]
      exact h.decodable
    · intro hcandidate
      rw [hrole'] at hcandidate
      cases hcandidate
    · intro _
      rw [hquiet.log, hquiet.id, hquiet.commitIndex, hpending]
      exact h.leads hrole
    · intro _
      rw [hquiet.log, hquiet.id, hpending]
      exact h.waits hrole
    · intro i hi
      rwa [hquiet.log, hquiet.id]
  · obtain ⟨hwatched, hstill⟩ := watched_propose hb h hrefusal
    refine ⟨⟨_, hb.appended command⟩, hwatched, hrole', by simp, hstate, fun i hi => ?_⟩
    rw [refreshMembership_log, refreshMembership_id]
    exact hstill i hi

lemma adopted_removal {req : InstallSnapshotRequest} (h : Watched s.node)
    (hinstall : s.install = .restored req)
    (hlt : s.node.log.snapshotIndex < req.lastIncludedIndex) (hpromised : Promised s .adopt)
    (hrole : s.node.role = .kLeader) {i : ℕ} (hi : LastRemoval s.node.log s.node.id i) :
    req.lastIncludedIndex < i ∧ LastRemoval (s.node.adopted req).log
      (s.node.adopted req).id i := by
  obtain ⟨hagree, hfront⟩ := hpromised req hinstall hlt
  have hsame := (h.leads hrole i hi).1
  have hbefore : req.lastIncludedIndex < i := by
    rw [← hsame]
    exact hfront hrole (by rw [hsame]; exact pos_of_removes hi.1)
  obtain ⟨cc, hat, -⟩ := hi.1
  have hin : i ≤ s.node.log.lastIndex := by
    by_contra hout
    exact get_of_changeAt hat (get_past (by omega))
  have hterm := hagree (.inr ⟨hrole, by omega⟩)
  refine ⟨hbefore, lastRemoval_kept (fun k hk => ?_) hi⟩
  have hkept := @get_compactTo s.node.log req.lastIncludedIndex k hlt (by omega)
  rw [hterm] at hkept
  rw [← hkept, adopted_log]
  split
  · rfl
  · rfl

lemma decodable_adopted (hd : Decodable n.log) (req : InstallSnapshotRequest) :
    Decodable (n.adopted req).log := by
  rw [adopted_log]
  split
  · exact decodable_compactTo hd _ _
  · exact decodable_compactTo hd _ _

lemma watched_of_follows (hd : Decodable n.log) (hrole : n.role = .kFollower) : Watched n where
  decodable := hd
  stands hcandidate := by
    rw [hrole] at hcandidate
    cases hcandidate
  leads hleads := by
    rw [hrole] at hleads
    cases hleads
  waits hleads := by
    rw [hrole] at hleads
    cases hleads

lemma Watched.turns (h : Watched a) (hquiet : Quiet a b) (hturns : Turns a b) : Watched b := by
  have hd : Decodable b.log := by
    rw [hquiet.log]
    exact h.decodable
  cases hturns with
  | stays hrole _ hpending =>
    refine ⟨hd, fun hcandidate => ?_, fun hleads => ?_, fun hleads => ?_⟩
    · rw [hquiet.log, hquiet.id]
      exact h.stands (hrole ▸ hcandidate)
    · rw [hquiet.log, hquiet.id, hquiet.commitIndex, hpending]
      exact h.leads (hrole ▸ hleads)
    · rw [hquiet.log, hquiet.id, hpending]
      exact h.waits (hrole ▸ hleads)
  | follows hrole => exact watched_of_follows hd hrole
  | stands hnot hfrom _ hpending =>
    -- a node that stands is a member, so there is nothing that it could wait for
    have hnone : ∀ i, ¬ LastRemoval b.log b.id i := by
      intro i
      rw [hquiet.log, hquiet.id]
      rcases hfrom with hcandidate | hmember
      · exact h.stands hcandidate i
      · intro hi
        rw [not_member h.decodable hi fun hleads => absurd hleads hnot] at hmember
        cases hmember
    exact ⟨hd, fun _ => hnone, fun _ i hi => absurd hi (hnone i),
      fun _ hpos => absurd hpending hpos⟩

lemma Watched.step (hcb : cb.Total) (hb : Sane l s.node) (h : Watched s.node)
    (helected : Elected s e) (hpromised : Promised s e) (hstep : handle cb s e = some s') :
    (∃ l', Sane l' s'.node) ∧ Watched s'.node := by
  have hturned := turned hb.term helected hstep
  generalize s'.node = n at hturned
  cases hturned with
  | quiet hquiet hturns => exact ⟨⟨l, hb.quiet hquiet⟩, h.turns hquiet hturns⟩
  | append hterm hlog hsettles =>
    rename_i now req log
    obtain ⟨hfollows, hd⟩ := taken_follower h.decodable hpromised.2 hlog hsettles
    obtain ⟨l', hholds, hcommit⟩ := hb.taken hpromised.1 hterm hlog
    rw [hholds.lastIndex] at hsettles
    have htaken : Sane l' ((s.node.heardFrom now req.term req.leaderId).withLog log) :=
      (hb.quiet (.heardFrom s.node now req.term req.leaderId)).withLog hholds
        (by simpa using hcommit)
    exact ⟨⟨l', htaken.follows hsettles⟩, watched_of_follows hd hfollows⟩
  | advance hadv =>
    obtain ⟨⟨l', hbm⟩, hwatched, hrole, -⟩ := watched_advances hb h hadv
    exact ⟨⟨l', hbm.maybeAdvance hrole⟩, (watched_advance hcb hbm hwatched hrole).1⟩
  | thrown hrefusal => exact ⟨⟨_, hb.appended _⟩, (watched_propose hb h hrefusal).1⟩
  | restore req =>
    exact ⟨⟨l, hb.holds, hb.last_le, hb.commit_le, hb.term⟩, h.decodable, h.stands, h.leads,
      h.waits⟩
  | adopt hinstall hlt =>
    rename_i req
    obtain ⟨l', hsane⟩ := hb.adopted hlt fun hle => (hpromised req hinstall hlt).1 (.inl hle)
    have hcut := @get_adopted σ s.node req hlt
    have hd := decodable_adopted h.decodable req
    refine ⟨⟨l', hsane.quiet (.refresh _)⟩, ?_⟩
    by_cases hrole : s.node.role = .kLeader
    · refine watched_refresh hd hrole (fun i hi => ?_) fun i j hi hj => ?_
      · have hold := lastRemoval_of_behind hcut hi
        have hwaits := (h.leads hrole i hold).2
        have hbefore := (adopted_removal h hinstall hlt hpromised hrole hold).1
        exact max_lt hbefore hwaits
      · have hi' := lastRemoval_of_behind hcut hi
        have hj' := lastRemoval_of_behind hcut hj
        exact (h.leads hrole i hi').1.symm.trans (h.leads hrole j hj').1
    · refine ⟨by simpa using hd, fun hcandidate i hi => ?_, fun hleads => ?_, fun hleads => ?_⟩
      · rw [refreshMembership_log, refreshMembership_id] at hi
        rw [refreshMembership_role] at hcandidate
        exact h.stands hcandidate i (lastRemoval_of_behind hcut hi)
      · rw [refreshMembership_role] at hleads
        exact absurd hleads hrole
      · rw [refreshMembership_role] at hleads
        exact absurd hleads hrole

/-- One step of a leader that has a removal of its own, unless it comes to a later term. -/
lemma decides_step (hcb : cb.Total) (hb : Sane l s.node) (h : Watched s.node)
    (helected : Elected s e) (hpromised : Promised s e) (hrole : s.node.role = .kLeader) {i : ℕ}
    (hi : LastRemoval s.node.log s.node.id i) (hstep : handle cb s e = some s')
    (hterm : s'.node.state.currentTerm = s.node.state.currentTerm) : Decides i s'.node := by
  obtain ⟨hwaits, hbefore⟩ := h.leads hrole i hi
  have hturned := turned hb.term helected hstep
  generalize s'.node = n at hturned hterm
  cases hturned with
  | quiet hquiet hturns =>
    refine ⟨fun _ => ⟨?_, by rwa [hquiet.log, hquiet.id]⟩, fun hle => ?_⟩
    · cases hturns with
      | stays hsame => exact hsame.trans hrole
      | follows _ hlater =>
        have hlt := hlater hrole
        omega
      | stands hnot => exact absurd hrole hnot
    · rw [hquiet.commitIndex] at hle
      omega
  | append hle hlog hsettles =>
    rename_i now req log
    have hstate := settles_state hsettles
    rw [hstate, withLog_state, heardFrom_currentTerm s.node now req.term req.leaderId hle] at hterm
    exact absurd hterm (helected hrole)
  | advance hadv =>
    obtain ⟨⟨l', hbm⟩, hwatched, hrole', -, -, hstill⟩ := watched_advances hb h hadv
    exact (watched_advance hcb hbm hwatched hrole').2 i (hstill i hi)
  | thrown hrefusal =>
    refine ⟨fun _ => ⟨by simpa using hrole, ?_⟩, fun hle => ?_⟩
    · rw [refreshMembership_log, refreshMembership_id]
      exact (watched_propose hb h hrefusal).2 i hi
    · rw [refreshMembership_commitIndex, withLog_commitIndex] at hle
      omega
  | restore req => exact ⟨fun _ => ⟨hrole, hi⟩, fun hle => absurd hle
      (Nat.not_le.mpr hbefore)⟩
  | adopt hinstall hlt =>
    obtain ⟨hfront, hkept⟩ := adopted_removal h hinstall hlt hpromised hrole hi
    refine ⟨fun _ => ⟨by simpa using hrole, ?_⟩, fun hle => ?_⟩
    · rw [refreshMembership_log, refreshMembership_id]
      exact hkept
    · rw [refreshMembership_commitIndex, adopted_commitIndex] at hle
      omega

/-! ### Afterwards -/

/-- An entry that adds the server back is in the log, or the members that a compaction or a
snapshot has stored are with it again. -/
def AddedBack (i : ℕ) (n : Node σ) : Prop :=
  (∃ j, i < j ∧ Adds n.log n.id j) ∨
    (i ≤ n.log.snapshotIndex ∧ n.membershipState.selfIsMember = true)

/-- The requests hold the removal, which is committed, and conf changes that can be decoded; and
a snapshot in front of it agrees with the log. -/
def KeepsRemoval (i : ℕ) (s : Sys σ) : Event → Prop
  | .append _ req => (∀ entry ∈ req.entries, Succeeds (tryDecodeConfChange entry.command)) ∧
      ∀ log, s.node.log.appendEntriesFrom req.prevLogIndex req.prevLogTerm req.entries =
        some log → log.get i = s.node.log.get i
  | .adopt => ∀ req, s.install = .restored req →
      s.node.log.snapshotIndex < req.lastIncludedIndex → req.lastIncludedIndex < i →
        s.node.log.termAt req.lastIncludedIndex = req.lastIncludedTerm
  | _ => True

/-- The node has left: the removal is in its log or compacted away. -/
structure Left (i : ℕ) (n : Node σ) : Prop where
  role : n.role = .kFollower
  decodable : Decodable n.log
  gone : Removes n.log n.id i ∨ i ≤ n.log.snapshotIndex

lemma Left.not_member (h : Left i n) (hback : ¬ AddedBack i n) :
    n.refreshMembership.1.selfIsMember = false := by
  have hnot : n.role ≠ .kLeader := by rw [h.role]; decide
  rcases h.gone with hremoves | hfront
  · exact SelfRemoval.not_member h.decodable
      ⟨hremoves, fun j hj hadds => hback (.inl ⟨j, hj, hadds⟩)⟩ fun hleads =>
      absurd hleads hnot
  · obtain ⟨cs, hcs, heq⟩ := refresh_eq h.decodable
    rw [heq]
    refine selfMember_outside hcs ?_ ?_
    · cases hself : n.membershipState.selfIsMember with
      | false => rfl
      | true => exact absurd (.inr ⟨hfront, hself⟩) hback
    · rintro j ⟨cc, hat, hadd⟩
      have hj : n.log.snapshotIndex < j := by
        by_contra hout
        exact get_of_changeAt hat (Holds.get_of_le (by omega))
      exact hback (.inl ⟨j, by omega, cc, hat, hadd⟩)

lemma Left.startElection (h : Left i n) (hback : ¬ AddedBack i n) :
    n.startElection = (n.refreshMembership.1, .ok none) := by
  have hmember := h.not_member hback
  obtain ⟨cs, -, heq⟩ := refresh_eq h.decodable
  rw [heq] at hmember
  rw [startElection_eq, heq]
  unfold NodeModel.Outcome.andThen
  dsimp only at hmember ⊢
  rw [if_pos (by rw [hmember]; decide)]

lemma Left.congr (h : Left i n) (hlog : n'.log = n.log) (hid : n'.id = n.id)
    (hrole : n'.role = .kFollower) : Left i n' :=
  ⟨hrole, by rw [hlog]; exact h.decodable, by rw [hlog, hid]; exact h.gone⟩

lemma removes_congr (h : log'.get i = log.get i) : Removes log' v i ↔ Removes log v i := by
  unfold Removes
  simp only [changeAt_congr h]

lemma front_compactTo (log : RaftLog) (index : ℕ) :
    log.snapshotIndex ≤ (log.compactTo index (log.termAt index)).snapshotIndex ∧
      ∀ i, (log.compactTo index (log.termAt index)).get i = log.get i ∨
        i ≤ (log.compactTo index (log.termAt index)).snapshotIndex := by
  rcases Nat.lt_or_ge log.snapshotIndex index with hlt | hge
  · have hsnap : (log.compactTo index (log.termAt index)).snapshotIndex = index := by
      unfold RaftLog.compactTo
      rw [if_neg (by omega)]
    rw [hsnap]
    refine ⟨hlt.le, fun i => ?_⟩
    rcases Nat.lt_or_ge index i with hbehind | hfront
    · exact .inl (get_compactTo hlt hbehind)
    · exact .inr hfront
  · rw [Holds.compactTo_of_le hge]
    exact ⟨le_rfl, fun i => .inl rfl⟩

lemma gone_of_front (hid : n'.id = n.id) (hsnap : n.log.snapshotIndex ≤ n'.log.snapshotIndex)
    (hfront : n'.log.get i = n.log.get i ∨ i ≤ n'.log.snapshotIndex)
    (h : Removes n.log n.id i ∨ i ≤ n.log.snapshotIndex) :
    Removes n'.log n'.id i ∨ i ≤ n'.log.snapshotIndex := by
  rcases hfront with hsame | hout
  · rw [hid]
    rcases h with hremoves | hle
    · exact .inl ((removes_congr hsame).mpr hremoves)
    · exact .inr (hle.trans hsnap)
  · exact .inr hout

lemma gone_applyCommitted (h : Removes n.log n.id i ∨ i ≤ n.log.snapshotIndex) :
    Removes (n.applyCommitted cb).1.log (n.applyCommitted cb).1.id i ∨
      i ≤ (n.applyCommitted cb).1.log.snapshotIndex := by
  refine applyCommitted_induct
    (P := fun m => Removes m.log m.id i ∨ i ≤ m.log.snapshotIndex)
    (Q := fun m => Removes m.log m.id i ∨ i ≤ m.log.snapshotIndex) h ?_ (fun m hm => hm) ?_
  · intro m hm _
    obtain ⟨errors, log, heq, rfl | rfl⟩ := @applyNext_eq σ cb m
    · rw [heq]
      exact hm
    · rw [heq]
      exact hm
  · intro m hm
    rcases m.compact_eq with heq | ⟨changes, errors, -, heq⟩
    · rwa [heq]
    · obtain ⟨hsnap, hfront⟩ := front_compactTo m.log m.lastApplied
      rw [heq]
      exact gone_of_front (n := m) rfl hsnap (hfront i) hm

lemma gone_settles (h : Removes n.log n.id i ∨ i ≤ n.log.snapshotIndex)
    (hsettles : Settles cb commits n n') : Removes n'.log n'.id i ∨
    i ≤ n'.log.snapshotIndex := by
  refine hsettles.keeps (P := fun m => Removes m.log m.id i ∨ i ≤ m.log.snapshotIndex) h
    fun a b ha hmove => ?_
  cases hmove with
  | refresh => simpa using ha
  | commit j hj => exact gone_applyCommitted (n := a.withCommitIndex j) ha
  | note => exact ha
  | stepDown => exact ha

lemma front_adopted {req : InstallSnapshotRequest}
    (hlt : n.log.snapshotIndex < req.lastIncludedIndex)
    (hagree : req.lastIncludedIndex < i →
      req.lastIncludedTerm = n.log.termAt req.lastIncludedIndex) :
    n.log.snapshotIndex ≤ (n.adopted req).log.snapshotIndex ∧
      ((n.adopted req).log.get i = n.log.get i ∨ i ≤ (n.adopted req).log.snapshotIndex) := by
  have hsnap : (n.log.compactTo req.lastIncludedIndex req.lastIncludedTerm).snapshotIndex =
      req.lastIncludedIndex := by
    unfold RaftLog.compactTo
    rw [if_neg (by omega)]
  have hfront : (n.log.compactTo req.lastIncludedIndex req.lastIncludedTerm).get i =
      n.log.get i ∨
        i ≤ (n.log.compactTo req.lastIncludedIndex req.lastIncludedTerm).snapshotIndex := by
    rw [hsnap]
    rcases Nat.lt_or_ge req.lastIncludedIndex i with hbefore | hbehind
    · rw [hagree hbefore]
      exact .inl (get_compactTo hlt hbefore)
    · exact .inr hbehind
  have hle := hlt.le.trans hsnap.ge
  rw [adopted_log]
  split
  · exact ⟨hle, hfront⟩
  · exact ⟨hle, hfront⟩

lemma Left.step (h : Left i s.node) (hback : ¬ AddedBack i s.node) (hkeeps : KeepsRemoval i s e)
    (hstep : handle cb s e = some s') : Left i s'.node := by
  have hrole := h.role
  have hnot : s.node.role ≠ .kLeader := by rw [hrole]; decide
  have helected : Elected s e := by
    cases e with
    | elect => exact hnot
    | append => exact fun hleads => absurd hleads hnot
    | check => exact fun hleads => absurd hleads hnot
    | _ => trivial
  have hturned := turned (fun hne => absurd hrole hne) helected hstep
  generalize s'.node = n at hturned
  cases hturned with
  | quiet hquiet hturns =>
    refine h.congr hquiet.log hquiet.id ?_
    cases hturns with
    | stays hsame => exact hsame.trans hrole
    | follows hfollows => exact hfollows
    | stands _ hfrom =>
      rcases hfrom with hcandidate | hmember
      · rw [hrole] at hcandidate
        cases hcandidate
      · rw [h.not_member hback] at hmember
        cases hmember
  | append hterm hlog hsettles =>
    rename_i now req log
    obtain ⟨hdecodes, hsame⟩ := hkeeps
    obtain ⟨hfollows, hd⟩ := taken_follower h.decodable hdecodes hlog hsettles
    refine ⟨hfollows, hd, gone_settles ?_ hsettles⟩
    have hsnap := (RaftLog.appendEntriesFrom_snapshot hlog).1
    exact gone_of_front (n := s.node) (by simp) hsnap.ge (.inl (hsame log hlog)) h.gone
  | advance hadv => exact absurd (advances_cases hadv).1.1 hnot
  | thrown hrefusal => exact absurd (leads_of_refusal hrefusal) hnot
  | restore req => exact h.congr rfl rfl hrole
  | adopt hinstall hlt =>
    rename_i req
    obtain ⟨hsnap, hfront⟩ :=
      front_adopted hlt fun hbefore => (hkeeps req hinstall hlt hbefore).symm
    have hd := decodable_adopted h.decodable req
    refine ⟨by simpa using hrole, by simpa using hd, ?_⟩
    rw [refreshMembership_log, refreshMembership_id]
    exact gone_of_front (n := s.node) rfl hsnap hfront h.gone

/-- The steps of a node while its process lives. -/
abbrev Step (cb : Callbacks σ) := StepOf? (handle cb)

/-- **A leader that removes itself**: a process starts from its files, and comes to lead with a
removal of its own in its log and no addition behind it. As long as its term lasts, it leads
until the commit index reaches the removal, and the call of `MaybeAdvanceCommitIndex` in which
that happens leaves it a follower that is no member. From there on it does not stand for
election, until it is added back. -/
theorem removal_steps_down (hcb : cb.Total) {id : NodeId} {state : PersistentState}
    {log : RaftLog} {members : MembershipState} {start : σ} (hlog : Holds log l)
    (hdecodes : Decodable log) (happlied : log.appliedIndex ≤ l.length)
    (hrun : Reach (Step cb) (fun s e => Elected s e ∧ Promised s e)
      ⟨construct id state log members start, .none⟩ s)
    (hrole : s.node.role = .kLeader) {i : ℕ} (hremoval : LastRemoval s.node.log s.node.id i)
    (hgoes : Reach (Step cb) (fun u e => (Elected u e ∧ Promised u e) ∧
      u.node.commitIndex < i ∧ u.node.state.currentTerm = s.node.state.currentTerm) s s')
    (hterm : s'.node.state.currentTerm = s.node.state.currentTerm) :
    (s'.node.role = .kLeader ↔ s'.node.commitIndex < i) ∧
    ∀ e m, s'.node.commitIndex < i → advances s' e = some m →
      i ≤ (m.maybeAdvanceCommitIndex cb).1.commitIndex →
        (m.maybeAdvanceCommitIndex cb).1.role = .kFollower ∧
        (m.maybeAdvanceCommitIndex cb).1.selfIsMember = false ∧
        ∀ s'', Reach (Step cb) (fun u e => KeepsRemoval i u e ∧ ¬ AddedBack i u.node)
            ⟨(m.maybeAdvanceCommitIndex cb).1, s'.install⟩ s'' → ¬ AddedBack i s''.node →
          s''.node.startElection = (s''.node.refreshMembership.1, .ok none) := by
  -- three runs: from the start, of the leader while its removal is open, of the follower it becomes
  have hwatch : ∀ u, Reach (Step cb) (fun s e => Elected s e ∧ Promised s e)
      ⟨construct id state log members start, .none⟩ u → (∃ l, Sane l u.node) ∧
      Watched u.node := by
    intro u hu
    refine hu.invariant (I := fun u => (∃ l, Sane l u.node) ∧ Watched u.node)
      ⟨⟨l, ?_⟩, ?_⟩ ?_
    · exact ⟨hlog, le_rfl, happlied, fun hne => absurd rfl hne⟩
    · exact ⟨hdecodes, nofun, nofun, nofun⟩
    · rintro u e u' ⟨⟨l, hl⟩, hw⟩ hok hstep
      exact hw.step hcb hl hok.1 hok.2 hstep
  have hreach : ∀ u, Reach (Step cb) (fun u e => (Elected u e ∧ Promised u e) ∧
      u.node.commitIndex < i ∧ u.node.state.currentTerm = s.node.state.currentTerm) s u →
      (∃ l, Sane l u.node) ∧ Watched u.node :=
    fun u hu => hwatch u (hrun.trans (hu.mono fun _ _ hok => hok.1))
  have hinv : s'.node.state.currentTerm = s.node.state.currentTerm → Decides i s'.node := by
    refine hgoes.invariant_of
      (I := fun u => u.node.state.currentTerm = s.node.state.currentTerm → Decides i u.node)
      (J := fun u => (∃ l, Sane l u.node) ∧ Watched u.node) hreach (fun _ => ?_) ?_
    · refine ⟨fun _ => ⟨hrole, hremoval⟩, fun hle => ?_⟩
      have hlt := ((hwatch s hrun).2.leads hrole i hremoval).2
      omega
    · rintro u e u' ⟨⟨l, hl⟩, hw⟩ - hu
        ⟨⟨helected, hpromised⟩, hlt, hsame⟩ hstep hsame'
      obtain ⟨hleads, hi⟩ := (hu hsame).leads hlt
      exact decides_step hcb hl hw helected hpromised hleads hi hstep (hsame'.trans hsame.symm)
  have hdecides := hinv hterm
  obtain ⟨⟨l', hl'⟩, hw'⟩ := hreach s' hgoes
  refine ⟨⟨fun hleads => ?_, fun hlt => (hdecides.leads hlt).1⟩, fun e m hlt hadv hle => ?_⟩
  · by_contra hge
    rw [(hdecides.leaves (by omega)).1] at hleads
    cases hleads
  obtain ⟨⟨lm, hbm⟩, hwm, hrolem, -, -, hstill⟩ := watched_advances hl' hw' hadv
  have him := hstill i (hdecides.leads hlt).2
  obtain ⟨hwout, hout⟩ := watched_advance hcb hbm hwm hrolem
  obtain ⟨hfollows, hself⟩ := (hout i him).leaves hle
  refine ⟨hfollows, hself, fun s'' hafter hback => ?_⟩
  have hfirst : Left i (m.maybeAdvanceCommitIndex cb).1 :=
    ⟨hfollows, hwout.decodable, gone_settles (.inl him.1) (maybeAdvanceCommitIndex_settles m)⟩
  have hleft : Left i s''.node := by
    refine hafter.invariant (I := fun u => Left i u.node) hfirst ?_
    exact fun u e u' hu hok hstep => hu.step hok.2 hok.1 hstep
  exact hleft.startElection hback

/-- An event that is promised anywhere. -/
def Local : Event → Prop
  | .elect | .append _ _ | .check _ _ | .adopt => False
  | _ => True

instance : DecidablePred Local
  | .elect | .append _ _ | .check _ _ | .adopt => isFalse id
  | .vote _ _ | .voteReply _ _ | .replicate _ | .replicationLost _ => isTrue trivial
  | .appendReply _ _ _ _ _ | .propose _ | .send _ _ | .snapshotReply _ _ _ _ => isTrue trivial
  | .restore => isTrue trivial

lemma promised_of_local {τ : Type} {s : Sys τ} {e : Event} (h : Local e) :
    Elected s e ∧ Promised s e := by
  cases e with
  | elect => exact h.elim
  | append => exact h.elim
  | check => exact h.elim
  | adopt => exact h.elim
  | _ => exact ⟨trivial, trivial⟩

lemma not_adds (hlast : log.lastIndex ≤ i) (hij : i < j) : ¬ Adds log v j := by
  rintro ⟨cc, ⟨e, hget, -⟩, -⟩
  rw [get_past (by omega)] at hget
  cases hget

def removeSelf : Bytes := encodeConfChange ⟨kRemoveServer, 1, [], 0⟩

def addSelf : Bytes := encodeConfChange ⟨kAddServer, 1, [], 0⟩

/-- A node with one peer, from its first run on. -/
def pair : Sys Unit :=
  ⟨construct 1 ⟨0, none⟩ .empty
    ⟨OrdMap.empty.insert 2 ⟨[], 0⟩, true, ⟨[], 0⟩⟩ (), .none⟩

def stands : Sys Unit := ⟨pair.node.startElection.1, .none⟩

lemma reach_stands : Reach (Step idle) (fun s e => Elected s e ∧ Promised s e) pair stands :=
  .tail .refl (e := .elect) (⟨nofun, trivial⟩ : _ ∧ _) rfl

/-- The peer takes the removal, and the node neither leads nor stands any more. -/
theorem removal_steps_down_two : ∃ n : Node Unit, n.commitIndex = 1 ∧ n.role = .kFollower ∧
    n.startElection = (n.refreshMembership.1, .ok none) := by
  obtain ⟨s, hs, hrole, hid, hget, hlast, hcommit, m, hadv, hout, hlast', hsnap⟩ :=
    exists_of_any (P := fun s : Sys Unit => s.node.role = .kLeader ∧ s.node.id = 1 ∧
      s.node.log.get 1 = some ⟨1, 1, removeSelf⟩ ∧ s.node.log.lastIndex = 1 ∧
      s.node.commitIndex = 0 ∧
      ∃ m, advances s (.appendReply 2 1 0 1 ⟨1, true, 1⟩) = some m ∧
        (m.maybeAdvanceCommitIndex idle).1.commitIndex = 1 ∧
        (m.maybeAdvanceCommitIndex idle).1.log.lastIndex = 1 ∧
        (m.maybeAdvanceCommitIndex idle).1.log.snapshotIndex = 0)
    (x := runIf? (handle idle) (fun _ e => Local e) stands
      [.voteReply 1 ⟨1, true⟩, .propose removeSelf]) (by decide +kernel)
  have hrun := reach_stands.trans ((reach_runIf? hs).mono fun s e h => promised_of_local h)
  have hremoval : LastRemoval s.node.log s.node.id 1 := by
    refine ⟨⟨⟨kRemoveServer, 1, [], 0⟩, ⟨_, hget, by decide⟩, by decide,
      hid.symm⟩, ?_⟩
    exact fun j hj => not_adds hlast.le hj
  have hback : ¬ AddedBack 1 (m.maybeAdvanceCommitIndex idle).1 := by
    rintro (⟨j, hj, hadds⟩ | ⟨hle, -⟩)
    · exact not_adds hlast'.le hj hadds
    · omega
  obtain ⟨hfollows, -, hafter⟩ := (removal_steps_down (fun _ _ _ => ⟨[], rfl⟩) Holds.empty
    nofun le_rfl hrun hrole hremoval .refl rfl).2 _ m (by omega) hadv (by omega)
  have hnever := hafter _ .refl hback
  exact ⟨_, hout, hfollows, hnever⟩

/-- A leader of term 1 removes server 1 and adds it back, and no more is heard of it. -/
def goesAndComes : AppendEntriesRequest :=
  ⟨1, 2, 0, 0, [⟨1, 1, removeSelf⟩, ⟨2, 1, addSelf⟩], 0⟩

def returns : Sys Unit := ⟨(pair.node.handleAppendEntries idle 0 goesAndComes).1, .none⟩

def leadsAgain : Sys Unit := ⟨returns.node.startElection.1, .none⟩

lemma reach_leadsAgain :
    Reach (Step idle) (fun s e => Elected s e ∧ Promised s e) pair leadsAgain := by
  have hdecodes : ∀ entry ∈ goesAndComes.entries, Succeeds
      (tryDecodeConfChange entry.command) := by
    intro entry hentry
    simp only [goesAndComes, List.mem_cons, List.not_mem_nil, or_false] at hentry
    rcases hentry with rfl | rfl
    · exact ⟨some ⟨kRemoveServer, 1, [], 0⟩, by decide⟩
    · exact ⟨some ⟨kAddServer, 1, [], 0⟩, by decide⟩
  have happend : Reach (Step idle) (fun s e => Elected s e ∧ Promised s e) pair returns :=
    .tail .refl (e := .append 0 goesAndComes)
      (⟨nofun, ⟨nofun, fun _ _ _ => Nat.zero_le _⟩, hdecodes⟩ : _ ∧ _) rfl
  have hfollows : returns.node.role ≠ .kLeader := by decide +kernel
  exact happend.tail (e := .elect) (⟨hfollows, trivial⟩ : _ ∧ _) rfl

/-- **A removal that is taken back**: the leader of a later term has its own removal in its log
and commits it, and leads on, since the entry behind it adds it back. -/
theorem removal_superseded : ¬ ∀ (s s' : Sys Unit) (i : ℕ),
    Reach (Step idle) (fun s e => Elected s e ∧ Promised s e) pair s →
      s.node.role = .kLeader →
    Removes s.node.log s.node.id i →
    Reach (Step idle) (fun u e => (Elected u e ∧ Promised u e) ∧ u.node.commitIndex < i ∧
      u.node.state.currentTerm = s.node.state.currentTerm) s s' →
    s'.node.state.currentTerm = s.node.state.currentTerm →
      (s'.node.role = .kLeader ↔ s'.node.commitIndex < i) := by
  intro hall
  obtain ⟨s, hs, hrole, hid, hget, s', hs', hterm, hrole', hcommit⟩ := exists_of_any
    (P := fun s : Sys Unit => s.node.role = .kLeader ∧ s.node.id = 1 ∧
      s.node.log.get 1 = some ⟨1, 1, removeSelf⟩ ∧
      ∃ s', runIf? (handle idle) (fun u e => Local e ∧ u.node.commitIndex < 1 ∧
          u.node.state.currentTerm = s.node.state.currentTerm) s
          [.propose [9], .appendReply 2 2 0 3 ⟨2, true, 3⟩] = some s' ∧
        s'.node.state.currentTerm = s.node.state.currentTerm ∧
        s'.node.role = .kLeader ∧ s'.node.commitIndex = 3)
    (x := runIf? (handle idle) (fun _ e => Local e) leadsAgain [.voteReply 2 ⟨2, true⟩])
    (by decide +kernel)
  have hrun := reach_leadsAgain.trans ((reach_runIf? hs).mono fun s e h => promised_of_local h)
  have hgoes := (reach_runIf? hs').mono fun u e h =>
    (⟨promised_of_local h.1, h.2⟩ : (Elected u e ∧ Promised u e) ∧ _)
  have hremoves : Removes s.node.log s.node.id 1 :=
    ⟨⟨kRemoveServer, 1, [], 0⟩, ⟨_, hget, by decide⟩, by decide, hid.symm⟩
  have hlt := (hall s s' 1 hrun hrole hremoves hgoes hterm).mp hrole'
  omega

end DistDB.SelfRemoval
