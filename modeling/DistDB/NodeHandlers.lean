import DistDB.CommitRule

/-!
What a handler of the Raft node can do to its log and its state machine.

Most of the handlers leave both alone (`Quiet`): they deal with terms, roles and notes. A
follower takes entries and settles; a leader appends a proposal, or learns of a success, and
calls `MaybeAdvanceCommitIndex`; an install replaces the state machine, and then adopts the
snapshot (`handled`).
-/

namespace DistDB.NodeHandlers

open NodeModel NodeModel.Node NodeCrash CommitRule
open NodeInstall (Sys)

variable {σ : Type} {cb : Callbacks σ} {commits : ℕ → ℕ → Prop} {a b c n n' : Node σ}

/-- The log, the indices, the state machine and what is stored about the members stay. The
role stays, or the node follows, or it is in a positive term. -/
structure Quiet (a b : Node σ) : Prop where
  id : b.id = a.id
  log : b.log = a.log
  commitIndex : b.commitIndex = a.commitIndex
  lastApplied : b.lastApplied = a.lastApplied
  machine : b.machine = a.machine
  applyErrors : b.applyErrors = a.applyErrors
  membershipState : b.membershipState = a.membershipState
  role : (b.role = a.role ∧ b.state.currentTerm = a.state.currentTerm) ∨ b.role = .kFollower ∨
    0 < b.state.currentTerm

namespace Quiet

lemma refl (a : Node σ) : Quiet a a := ⟨rfl, rfl, rfl, rfl, rfl, rfl, rfl, .inl ⟨rfl, rfl⟩⟩

lemma trans (h : Quiet a b) (h' : Quiet b c) : Quiet a c where
  id := h'.id.trans h.id
  log := h'.log.trans h.log
  commitIndex := h'.commitIndex.trans h.commitIndex
  lastApplied := h'.lastApplied.trans h.lastApplied
  machine := h'.machine.trans h.machine
  applyErrors := h'.applyErrors.trans h.applyErrors
  membershipState := h'.membershipState.trans h.membershipState
  role := by
    rcases h'.role with ⟨hrole, hterm⟩ | hrole
    · rw [hrole, hterm]
      exact h.role
    · exact .inr hrole

lemma refresh (a : Node σ) : Quiet a a.refreshMembership.1 := by
  refine ⟨by simp, by simp, by simp, by simp, by simp, ?_, by simp, .inl ⟨by simp, by simp⟩⟩
  unfold refreshMembership
  split <;> rfl

lemma heardFrom (a : Node σ) (now term : ℕ) (leaderId : NodeId) :
    Quiet a (a.heardFrom now term leaderId) := by
  refine ⟨by simp, by simp, by simp, by simp, by simp, ?_, by simp,
    .inr (.inl (heardFrom_role a now term leaderId))⟩
  unfold Node.heardFrom
  split <;> rfl

lemma becomeFollower (a : Node σ) (term : ℕ) : Quiet a (a.becomeFollower term) :=
  ⟨rfl, rfl, rfl, rfl, rfl, rfl, rfl, .inr (.inl rfl)⟩

lemma lost (a : Node σ) (peer : NodeId) : Quiet a (a.replicationLost peer) :=
  ⟨rfl, rfl, rfl, rfl, rfl, rfl, rfl, .inl ⟨rfl, rfl⟩⟩

lemma acknowledged (a : Node σ) (peer : NodeId) (i : ℕ) : Quiet a (a.acknowledged peer i) :=
  ⟨rfl, rfl, rfl, rfl, rfl, rfl, rfl, .inl ⟨rfl, rfl⟩⟩

lemma atTerm (a : Node σ) (term : ℕ) : Quiet a (a.atTerm term) := by
  unfold Node.atTerm
  split
  · exact becomeFollower a term
  · exact refl a

lemma settles (h : Settles cb (fun _ _ => False) a b) : Quiet a b := by
  refine h.keeps (refl a) fun m m' hm hmove => ?_
  cases hmove with
  | refresh => exact hm.trans (refresh m)
  | commit i hi => exact hi.elim
  | note => exact hm.trans ⟨rfl, rfl, rfl, rfl, rfl, rfl, rfl, .inl ⟨rfl, rfl⟩⟩
  | stepDown => exact hm.trans ⟨rfl, rfl, rfl, rfl, rfl, rfl, rfl, .inr (.inl rfl)⟩

lemma becomeLeader (a : Node σ) (hterm : 0 < a.state.currentTerm) :
    Quiet a a.becomeLeader.1 := by
  rcases a.becomeLeader_cases with heq | ⟨-, heq⟩
  · rw [heq]
    exact refresh a
  · rw [heq]
    refine (refresh a).trans ⟨rfl, rfl, rfl, rfl, rfl, rfl, rfl, .inr (.inr ?_)⟩
    simpa using hterm

lemma standing (a : Node σ) : Quiet a a.standing :=
  ⟨rfl, rfl, rfl, rfl, rfl, rfl, rfl, .inr (.inr (Nat.succ_pos _))⟩

lemma startElection (a : Node σ) : Quiet a a.startElection.1 := by
  have hstanding := (refresh a).trans (standing a.refreshMembership.1)
  rcases a.startElection_cases with ⟨heq, -⟩ | ⟨-, heq⟩ | ⟨-, -, heq, -⟩
  · rw [heq]
    exact refresh a
  · rw [heq]
    exact hstanding
  · rw [heq]
    exact hstanding.trans (becomeLeader _ (Nat.succ_pos _))

lemma voteReply (hterm : a.role ≠ .kFollower → 0 < a.state.currentTerm) (electionTerm : ℕ)
    (resp : RequestVoteResponse) : Quiet a (a.voteReply electionTerm resp).1 := by
  have hcounting : Quiet a a.counting :=
    ⟨rfl, rfl, rfl, rfl, rfl, rfl, rfl, .inl ⟨rfl, rfl⟩⟩
  rcases a.voteReply_cases electionTerm resp with heq | ⟨-, heq⟩ |
    ⟨-, hrole, -, ⟨-, heq⟩ | ⟨-, heq⟩⟩
  · rw [heq]
    exact refl a
  · rw [heq]
    exact becomeFollower a _
  · rw [heq]
    exact hcounting
  · rw [heq]
    exact hcounting.trans (becomeLeader a.counting (hterm (by rw [hrole]; decide)))

lemma handleRequestVote (a : Node σ) (now : ℕ) (req : RequestVoteRequest) :
    Quiet a (a.handleRequestVote now req).1 := by
  rcases a.handleRequestVote_cases now req with ⟨-, heq | ⟨-, heq⟩⟩ | ⟨-, -, -, heq⟩
  · rw [heq]
    exact refl a
  · rw [heq]
    exact atTerm a req.term
  · rw [heq]
    exact (atTerm a req.term).trans ⟨rfl, rfl, rfl, rfl, rfl, rfl, rfl, .inl ⟨rfl, rfl⟩⟩

lemma snapshotReply (a : Node σ) (peer : NodeId) (term snapshotIndex : ℕ)
    (resp : InstallSnapshotResponse) : Quiet a (a.snapshotReply peer term snapshotIndex resp) := by
  rcases a.snapshotReply_cases peer term snapshotIndex resp with heq | ⟨-, heq⟩ |
    ⟨-, -, -, -, heq⟩
  · rw [heq]
    exact lost a peer
  · rw [heq]
    exact (lost a peer).trans (becomeFollower _ _)
  · rw [heq]
    exact (lost a peer).trans (acknowledged _ peer _)

lemma installCheck (a : Node σ) (now : ℕ) (req : InstallSnapshotRequest) :
    Quiet a (a.installCheck now req).1 := by
  rcases a.installCheck_cases now req with ⟨-, heq⟩ | ⟨-, heq, -⟩
  · rw [heq]
    exact refl a
  · rw [heq]
    exact heardFrom a now req.term req.leaderId

end Quiet

/-! ### Handlers -/

/-- What the handler of an event can make of the node. -/
inductive Handled (cb : Callbacks σ) (s : Sys σ) : Event → Node σ → Prop
  | quiet {e : Event} {n : Node σ} (h : Quiet s.node n) : Handled cb s e n
  | append {now : ℕ} {req : AppendEntriesRequest} {log : RaftLog} {n : Node σ}
      (hterm : s.node.state.currentTerm ≤ req.term)
      (hlog : s.node.log.appendEntriesFrom req.prevLogIndex req.prevLogTerm req.entries = some log)
      (h : Settles cb (Follows req.leaderCommit log.lastIndex)
        ((s.node.heardFrom now req.term req.leaderId).withLog log) n) :
      Handled cb s (.append now req) n
  | advance {e : Event} {m : Node σ} (h : advances s e = some m) :
      Handled cb s e (m.maybeAdvanceCommitIndex cb).1
  /-- The members cannot be derived from the log with the new entry. -/
  | thrown {command : Bytes} (h : s.node.refusal command = .ok none) :
      Handled cb s (.propose command)
        (s.node.withLog (s.node.log.append s.node.state.currentTerm command).1).refreshMembership.1
  | restore (req : InstallSnapshotRequest) : Handled cb s .restore (s.node.installRestore cb req)
  | adopt {req : InstallSnapshotRequest} (hs : s.install = .restored req)
      (hlt : s.node.log.snapshotIndex < req.lastIncludedIndex) :
      Handled cb s .adopt (s.node.adopted req).refreshMembership.1

variable {s s' : Sys σ}

lemma appendReply_handled (s : Sys σ) (peer : NodeId) (term prevLogIndex sentCount : ℕ)
    (resp : AppendEntriesResponse) :
    Handled cb s (.appendReply peer term prevLogIndex sentCount resp)
      (s.node.appendReply cb peer term prevLogIndex sentCount resp).1 := by
  cases hadv : advances s (.appendReply peer term prevLogIndex sentCount resp) with
  | some m =>
    have hnode := congrArg (Option.map Sys.node) (@handle_of_advances σ cb s _ m hadv)
    have hnode : (s.node.appendReply cb peer term prevLogIndex sentCount resp).1 =
      (m.maybeAdvanceCommitIndex cb).1 := Option.some.inj hnode
    rw [hnode]
    exact .advance hadv
  | none =>
    refine .quiet ?_
    rcases @appendReply_cases σ cb s.node peer term prevLogIndex sentCount resp with
      hsettles | ⟨-, heq⟩ | ⟨hsuccess, hrole, hterm, hpeer, -⟩
    · exact .settles hsettles
    · rw [heq]
      exact (Quiet.lost _ peer).trans (Quiet.becomeFollower _ _)
    · -- such an answer is a success, unless it is from a later term
      have hknown : ¬ ((s.node.replicationLost peer).peers.find peer).isNone := by
        show ¬ (s.node.peers.find peer).isNone
        simpa [Option.isSome_iff_ne_none] using hpeer
      simp only [advances, replyAdvances] at hadv
      split_ifs at hadv with hstale
      have hlater : resp.term > (s.node.replicationLost peer).state.currentTerm := by
        rcases hstale with hgone | hlater | hfollows | hother | hrefused
        · exact absurd hgone hknown
        · exact hlater
        · exact absurd hrole hfollows
        · exact absurd hterm hother
        · exact absurd hsuccess hrefused
      have heq : (s.node.appendReply cb peer term prevLogIndex sentCount resp).1 =
          (s.node.replicationLost peer).becomeFollower resp.term := by
        unfold Node.appendReply
        dsimp only
        rw [if_neg hknown, if_pos hlater]
      rw [heq]
      exact (Quiet.lost _ peer).trans (Quiet.becomeFollower _ _)

lemma propose_thrown {command : Bytes} (hadv : advances s (.propose command) = none)
    (hrefusal : s.node.refusal command = .ok none) :
    (s.node.propose cb command).1 = (s.node.withLog
      (s.node.log.append s.node.state.currentTerm command).1).refreshMembership.1 := by
  simp only [advances, proposeAdvances, hrefusal, Option.map_eq_none_iff] at hadv
  unfold Node.propose
  rw [hrefusal]
  dsimp only
  generalize (s.node.withLog
    (s.node.log.append s.node.state.currentTerm command).1).refreshMembership = x at hadv ⊢
  obtain ⟨m, e | u⟩ := x
  · rfl
  · cases hadv

lemma propose_handled (s : Sys σ) (command : Bytes) :
    Handled cb s (.propose command) (s.node.propose cb command).1 := by
  cases hadv : advances s (.propose command) with
  | some m =>
    have hnode := congrArg (Option.map Sys.node) (@handle_of_advances σ cb s _ m hadv)
    have hnode : (s.node.propose cb command).1 = (m.maybeAdvanceCommitIndex cb).1 :=
      Option.some.inj hnode
    rw [hnode]
    exact .advance hadv
  | none =>
    rcases @propose_cases σ cb s.node command with ⟨-, heq, -⟩ | ⟨-, hrefusal, -⟩
    · rw [heq]
      exact .quiet (.refl _)
    · rw [propose_thrown hadv hrefusal]
      exact .thrown hrefusal

lemma handle_check {now : ℕ} {req : InstallSnapshotRequest}
    (hstep : handle cb s (.check now req) = some s') :
    s'.node = (s.node.installCheck now req).1 := by
  unfold handle at hstep
  cases hinstall : s.install with
  | none =>
    rcases hresult : s.node.installCheck now req with ⟨m, _ | resp⟩
    · simp only [hinstall, hresult] at hstep
      cases hstep
      rfl
    · simp only [hinstall, hresult] at hstep
      cases hstep
      rfl
  | checked req =>
    rw [hinstall] at hstep
    cases hstep
  | restored req =>
    rw [hinstall] at hstep
    cases hstep

lemma handle_restore (hstep : handle cb s .restore = some s') :
    ∃ req, s.install = .checked req ∧ s'.node = s.node.installRestore cb req := by
  unfold handle at hstep
  cases hinstall : s.install with
  | checked req =>
    rw [hinstall] at hstep
    cases hstep
    exact ⟨req, rfl, rfl⟩
  | none =>
    rw [hinstall] at hstep
    cases hstep
  | restored req =>
    rw [hinstall] at hstep
    cases hstep

lemma handle_adopt (hstep : handle cb s .adopt = some s') :
    ∃ req, s.install = .restored req ∧ s'.node = (s.node.installAdopt req).1 := by
  unfold handle at hstep
  cases hinstall : s.install with
  | restored req =>
    rw [hinstall] at hstep
    cases hstep
    exact ⟨req, rfl, rfl⟩
  | none =>
    rw [hinstall] at hstep
    cases hstep
  | checked req =>
    rw [hinstall] at hstep
    cases hstep

/-- **What a handler can do**. -/
theorem handled (hterm : s.node.role ≠ .kFollower → 0 < s.node.state.currentTerm) {e : Event}
    (hstep : handle cb s e = some s') : Handled cb s e s'.node := by
  cases e with
  | vote now req => cases hstep; exact .quiet (.handleRequestVote _ now req)
  | elect => cases hstep; exact .quiet (.startElection _)
  | voteReply electionTerm resp => cases hstep; exact .quiet (.voteReply hterm electionTerm resp)
  | append now req =>
    cases hstep
    rcases @handleAppendEntries_cases σ cb now s.node req with
      ⟨-, heq⟩ | ⟨-, -, heq⟩ | ⟨hle, log, hlog, hsettles, -⟩
    · dsimp only
      rw [heq]
      exact .quiet (.refl _)
    · dsimp only
      rw [heq]
      exact .quiet (.heardFrom _ now req.term req.leaderId)
    · exact .append hle hlog hsettles
  | replicate peer => cases hstep; exact .quiet (.settles (@replicateTo_settles σ cb _ peer))
  | replicationLost peer => cases hstep; exact .quiet (.lost _ peer)
  | appendReply peer term prevLogIndex sentCount resp =>
    cases hstep
    exact appendReply_handled s peer term prevLogIndex sentCount resp
  | propose command => cases hstep; exact propose_handled s command
  | send peer term =>
    cases hstep
    exact .quiet (.settles (@sendInstallSnapshot_settles σ cb _ peer term))
  | snapshotReply peer term snapshotIndex resp =>
    cases hstep
    exact .quiet (.snapshotReply _ peer term snapshotIndex resp)
  | check now req =>
    rw [handle_check hstep]
    exact .quiet (.installCheck _ now req)
  | restore =>
    obtain ⟨req, -, heq⟩ := handle_restore hstep
    rw [heq]
    exact .restore req
  | adopt =>
    obtain ⟨req, hinstall, heq⟩ := handle_adopt hstep
    rw [heq]
    rcases s.node.installAdopt_cases req with ⟨-, heq⟩ | ⟨hlt, heq⟩
    · rw [heq]
      exact .quiet (.refl _)
    · rw [heq]
      exact .adopt hinstall hlt

/-- The node of a call of `MaybeAdvanceCommitIndex`: a leader that has noted a success, or
appended a proposal. -/
lemma advances_cases {e : Event} {m : Node σ} (h : advances s e = some m) :
    (s.node.role = .kLeader ∧ m.role = .kLeader ∧ m.state = s.node.state) ∧
      ((Quiet s.node m ∧ m.pendingSelfRemovalIndex = s.node.pendingSelfRemovalIndex) ∨
        ∃ command, e = .propose command ∧ s.node.refusal command = .ok none ∧
          m = (s.node.withLog
          (s.node.log.append s.node.state.currentTerm command).1).refreshMembership.1) := by
  cases e with
  | appendReply peer term prevLogIndex sentCount resp =>
    simp only [advances, replyAdvances] at h
    split_ifs at h with hstale
    cases h
    push Not at hstale
    have hrole : s.node.role = .kLeader := hstale.2.2.1
    exact ⟨⟨hrole, hrole, rfl⟩,
      .inl ⟨(Quiet.lost _ peer).trans (Quiet.acknowledged _ peer _), rfl⟩⟩
  | propose command =>
    simp only [advances, proposeAdvances] at h
    split at h
    · rename_i hrefusal
      obtain ⟨-, -, rfl⟩ := Option.map_eq_some_iff.mp h
      have hrole := leads_of_refusal hrefusal
      exact ⟨⟨hrole, by simpa using hrole, by simp⟩, .inr ⟨command, rfl, hrefusal, rfl⟩⟩
    · cases h
  | _ => cases h

lemma applies_of_advances {e : Event} {m : Node σ} (h : advances s e = some m) :
    applies s e = m.advanceApplies := by
  cases e with
  | appendReply peer term prevLogIndex sentCount resp =>
    simp only [advances, replyAdvances] at h
    split_ifs at h with hstale
    cases h
    simp only [applies, replyApplies]
    rw [if_neg hstale]
  | propose command =>
    simp only [advances, proposeAdvances] at h
    cases hrefusal : s.node.refusal command with
    | error e => simp [hrefusal] at h
    | ok refused =>
      cases refused with
      | some error => simp [hrefusal] at h
      | none =>
        simp only [hrefusal] at h
        obtain ⟨u, hu, rfl⟩ := Option.map_eq_some_iff.mp h
        simp only [applies, proposeApplies, hrefusal, hu, Option.bind_some]
  | _ => cases h

/-- `MaybeAdvanceCommitIndex` commits nothing, or applies what it commits and may step down. -/
lemma maybeAdvance_cases (m : Node σ) :
    (m.advanceApplies = none ∧ (m.maybeAdvanceCommitIndex cb).1 = m) ∨
    ∃ m', m.advanceApplies = some m' ∧ m' = m.withCommitIndex m.majorityIndex ∧
      m.commitIndex < m.majorityIndex ∧ m.log.termAt m.majorityIndex = m.state.currentTerm ∧
      ((m.maybeAdvanceCommitIndex cb).1 = (m'.applyCommitted cb).1 ∨
        (m.maybeAdvanceCommitIndex cb).1 = (m'.applyCommitted cb).1.stepDownIfRemoved.1) := by
  unfold advanceApplies maybeAdvanceCommitIndex
  by_cases hcheck : m.majorityIndex > m.commitIndex ∧
      m.log.termAt m.majorityIndex = m.state.currentTerm
  · rw [if_pos hcheck, if_pos hcheck]
    refine .inr ⟨_, rfl, rfl, hcheck.1, hcheck.2, ?_⟩
    generalize (m.withCommitIndex m.majorityIndex).applyCommitted cb = x
    obtain ⟨m', e | u⟩ := x
    · exact .inl rfl
    · exact .inr rfl
  · rw [if_neg hcheck, if_neg hcheck]
    exact .inl ⟨rfl, rfl⟩

lemma Quiet.stepDownIfRemoved (a : Node σ) : Quiet a a.stepDownIfRemoved.1 :=
  .settles (@stepDownIfRemoved_settles σ ⟨fun s _ _ => (s, .ok []), fun _ => [], fun s _ => s⟩
    (fun _ _ => False) a)

lemma settles_role (h : Settles cb commits n n') : n'.role = n.role ∨ n'.role = .kFollower := by
  refine h.keeps (P := fun m => m.role = n.role ∨ m.role = .kFollower) (.inl rfl)
    fun a b ha hmove => ?_
  cases hmove with
  | refresh => simpa using ha
  | commit i hi => simpa using ha
  | note => exact ha
  | stepDown => exact .inr rfl

lemma settles_state (h : Settles cb commits n n') : n'.state = n.state := by
  refine h.keeps (P := fun m => m.state = n.state) rfl fun a b ha hmove => ?_
  cases hmove with
  | refresh => simpa using ha
  | commit i hi => simpa using ha
  | note => exact ha
  | stepDown => exact ha

lemma Handled.term {e : Event} (h : Handled cb s e n)
    (hterm : s.node.role ≠ .kFollower → 0 < s.node.state.currentTerm)
    (hrole : n.role ≠ .kFollower) : 0 < n.state.currentTerm := by
  cases h with
  | quiet hquiet =>
    rcases hquiet.role with ⟨hsame, hstate⟩ | hfollower | hpos
    · rw [hstate]
      exact hterm (hsame ▸ hrole)
    · exact absurd hfollower hrole
    · exact hpos
  | @append now req log _ hle hlog hsettles =>
    rcases settles_role hsettles with hsame | hfollower
    · exact absurd (hsame.trans (heardFrom_role s.node now req.term req.leaderId)) hrole
    · exact absurd hfollower hrole
  | @advance _ m hadv =>
    obtain ⟨⟨hleads, -, hstate⟩, -⟩ := advances_cases hadv
    rw [settles_state (maybeAdvanceCommitIndex_settles m), hstate]
    exact hterm (by rw [hleads]; decide)
  | thrown hrefusal =>
    rw [refreshMembership_state]
    rw [refreshMembership_role] at hrole
    exact hterm hrole
  | restore req => exact hterm hrole
  | adopt hs hlt =>
    rw [refreshMembership_state]
    rw [refreshMembership_role] at hrole
    exact hterm hrole

end DistDB.NodeHandlers
