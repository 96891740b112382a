import DistDB.NodeCrash
import DistDB.NodeFrame
import DistDB.NodeMembers

/-!
Whom a leader counts when it commits.

The notes about the peers are made, seeded and dropped in many places, and the peers change on
their own. Still a leader has a note about each of its peers and about nobody else, in every
state that a node can get into (`commit_rule_exact`): a node has notes about its peers only,
each function that changes the peers drops those of the others, and a new leader makes all of
them. So the middle of the noted indices is one that more than half of the configuration has.
-/

namespace DistDB.CommitRule

open NodeModel NodeModel.Node NodeCrash
open NodeInstall (Sys begin)

variable {σ : Type} {cb : Callbacks σ}

/-- The node as the answer to an `AppendEntries` makes it call `MaybeAdvanceCommitIndex`. -/
def replyAdvances (n : Node σ) (peer : NodeId) (term prevLogIndex sentCount : ℕ)
    (resp : AppendEntriesResponse) : Option (Node σ) :=
  let n := n.replicationLost peer
  if (n.peers.find peer).isNone ∨ resp.term > n.state.currentTerm ∨ n.role ≠ .kLeader ∨
      term ≠ n.state.currentTerm ∨ ¬ resp.success then none
  else
    some (n.acknowledged peer (max (prevLogIndex + sentCount) ((n.matchIndex.find peer).getD 0)))

/-- The node as `Propose` calls `MaybeAdvanceCommitIndex`. -/
def proposeAdvances (n : Node σ) (command : Bytes) : Option (Node σ) :=
  match n.refusal command with
  | .ok none =>
    let x := (n.withLog (n.log.append n.state.currentTerm command).1).refreshMembership
    x.2.toOption.map fun _ => x.1
  | _ => none

def advances (s : Sys σ) : Event → Option (Node σ)
  | .appendReply peer term prevLogIndex sentCount resp =>
    replyAdvances s.node peer term prevLogIndex sentCount resp
  | .propose command => proposeAdvances s.node command
  | _ => none

lemma handle_of_advances {s : Sys σ} {e : Event} {m : Node σ} (h : advances s e = some m) :
    handle cb s e = some ⟨(m.maybeAdvanceCommitIndex cb).1, s.install⟩ := by
  cases e with
  | appendReply peer term prevLogIndex sentCount resp =>
    simp only [advances, replyAdvances] at h
    split_ifs at h with hstale
    cases h
    push Not at hstale
    obtain ⟨hpeer, hterm, hrole, heq, hsuccess⟩ := hstale
    simp only [handle, Option.some.injEq, Sys.mk.injEq, and_true]
    unfold appendReply
    dsimp only
    rw [if_neg (by simpa using hpeer), if_neg (by omega), if_neg (by tauto), if_pos hsuccess]
    rfl
  | propose command =>
    simp only [advances, proposeAdvances] at h
    cases hrefusal : s.node.refusal command with
    | error e => simp [hrefusal] at h
    | ok refused =>
      cases refused with
      | some error => simp [hrefusal] at h
      | none =>
        simp only [hrefusal] at h
        simp only [handle, Option.some.injEq, Sys.mk.injEq, and_true]
        unfold propose
        rw [hrefusal]
        dsimp only
        generalize (s.node.withLog
          (s.node.log.append s.node.state.currentTerm command).1).refreshMembership = x at h ⊢
        obtain ⟨m', e | u⟩ := x
        · cases h
        · cases h
          have hrest := @Outcome.andThen_fst σ Unit Proposal (m'.maybeAdvanceCommitIndex cb)
            (fun n _ => (n, .ok (.appended
              (s.node.log.append s.node.state.currentTerm command).2))) fun _ _ => rfl
          exact hrest
  | _ => cases h

variable {n n' : Node σ} {commits : ℕ → ℕ → Prop}

lemma noted_congr (h : Noted n) (hpeers : n'.peers = n.peers) (hnext : n'.nextIndex = n.nextIndex)
    (hmatch : n'.matchIndex = n.matchIndex) (hrole : n'.role = .kLeader → n.role = .kLeader) :
    Noted n' :=
  ⟨by rw [hpeers, hnext]; exact h.next, by rw [hpeers, hmatch]; exact h.matched,
    fun hr => by rw [hpeers, hmatch]; exact h.all (hrole hr)⟩

lemma noted_move (h : Noted n) (hmove : Move cb commits n n') : Noted n' := by
  cases hmove with
  | refresh => exact h.refreshMembership
  | commit i hi => exact noted_congr h (by simp) (by simp) (by simp) (by simp)
  | note next inFlight hnext =>
    refine ⟨fun p i hi hpos => ?_, h.matched, h.all⟩
    have hle := hnext p i hi
    cases hold : n.nextIndex.find p with
    | none =>
      rw [hold] at hle
      exact absurd hle (by simp; omega)
    | some j =>
      rw [hold] at hle
      exact h.next p j hold (hpos.trans_le hle)
  | stepDown => exact ⟨h.next, h.matched, fun hr => by cases hr⟩

lemma noted_settles (h : Noted n) (hsettles : Settles cb commits n n') : Noted n' :=
  hsettles.keeps h fun _ _ ha hmove => noted_move ha hmove

lemma noted_acknowledged (h : Noted n) {peer : NodeId} {i : ℕ}
    (hpeer : (n.peers.find peer).isSome) :
    Noted (n.acknowledged peer i) := by
  have hin : peer ∈ n.peers.keys := n.peers.mem_keys.mpr hpeer
  refine ⟨fun p j hj hpos => ?_, ?_, fun hrole => ?_⟩
  · rw [acknowledged_nextIndex, OrdMap.find_insert] at hj
    split_ifs at hj with heq
    · rw [heq]
      exact hin
    · exact h.next p j hj hpos
  · rw [acknowledged_matchIndex, OrdMap.keys_insert]
    exact Finset.insert_subset hin h.matched
  · rw [acknowledged_matchIndex, OrdMap.keys_insert, h.all hrole]
    exact Finset.insert_eq_of_mem hin

lemma noted_leading (h : Noted n) : Noted n.leading := by
  have hpeers : ∀ p, p ∈ n.peers.entries.map Prod.fst ↔ p ∈ n.peers.keys := by
    intro p
    rw [OrdMap.keys, List.mem_toFinset]
  refine ⟨fun p i hi hpos => ?_, fun p hp => ?_, fun _ => ?_⟩
  · rw [leading_nextIndex, find_foldl_insert] at hi
    split_ifs at hi with hin
    · exact (hpeers p).mp hin
    · exact h.next p i hi hpos
  · rw [OrdMap.mem_keys, leading_matchIndex, find_foldl_insert] at hp
    split_ifs at hp with hin
    · exact (hpeers p).mp hin
    · exact h.matched (n.matchIndex.mem_keys.mpr hp)
  · ext p
    rw [OrdMap.mem_keys, leading_matchIndex, find_foldl_insert, leading_peers, ← hpeers]
    split_ifs with hin
    · simp [hin]
    · refine iff_of_false (fun hsome => hin ?_) hin
      exact (hpeers p).mpr (h.matched (n.matchIndex.mem_keys.mpr hsome))

lemma noted_becomeLeader (h : Noted n) : Noted n.becomeLeader.1 := by
  rcases n.becomeLeader_cases with heq | ⟨-, heq⟩
  · rw [heq]
    exact h.refreshMembership
  · rw [heq]
    exact noted_leading h.refreshMembership

/-! ### Handlers -/

/-- The notes are in order, and a node that leads or stands for election is in a positive term. -/
structure Counted (n : Node σ) : Prop where
  noted : Noted n
  term : n.role ≠ .kFollower → 0 < n.state.currentTerm

lemma counted_congr (h : Counted n) (hpeers : n'.peers = n.peers)
    (hnext : n'.nextIndex = n.nextIndex) (hmatch : n'.matchIndex = n.matchIndex)
    (hrole : n'.role = n.role) (hstate : n'.state = n.state) : Counted n' :=
  ⟨noted_congr h.noted hpeers hnext hmatch (by rw [hrole]; exact id),
    by rw [hrole, hstate]; exact h.term⟩

lemma counted_follower (h : Counted n) (hpeers : n'.peers = n.peers)
    (hnext : n'.nextIndex = n.nextIndex) (hmatch : n'.matchIndex = n.matchIndex)
    (hrole : n'.role = .kFollower) : Counted n' :=
  ⟨noted_congr h.noted hpeers hnext hmatch (by rw [hrole]; exact fun h => by cases h),
    fun hne => absurd hrole hne⟩

lemma counted_settles (h : Counted n) (hsettles : Settles cb commits n n') : Counted n' := by
  refine hsettles.keeps h fun a b ha hmove => ⟨noted_move ha.noted hmove, ?_⟩
  have hterm := ha.term
  cases hmove with
  | refresh => simpa using hterm
  | commit i hi => simpa using hterm
  | note => exact hterm
  | stepDown => exact fun hne => absurd rfl hne

lemma counted_refresh (h : Counted n) : Counted n.refreshMembership.1 :=
  ⟨h.noted.refreshMembership, by simpa using h.term⟩

lemma counted_lost (h : Counted n) (peer : NodeId) : Counted (n.replicationLost peer) :=
  counted_congr h rfl rfl rfl rfl rfl

lemma counted_acknowledged (h : Counted n) {peer : NodeId} {i : ℕ}
    (hpeer : (n.peers.find peer).isSome) : Counted (n.acknowledged peer i) :=
  ⟨noted_acknowledged h.noted hpeer, h.term⟩

lemma counted_becomeLeader (h : Counted n) (hterm : 0 < n.state.currentTerm) :
    Counted n.becomeLeader.1 := by
  refine ⟨noted_becomeLeader h.noted, fun _ => ?_⟩
  rcases n.becomeLeader_cases with heq | ⟨-, heq⟩
  · simpa [heq] using hterm
  · simpa [heq] using hterm

lemma counted_standing (h : Counted n) : Counted n.standing :=
  ⟨noted_congr h.noted rfl rfl rfl (fun hrole => by cases hrole), fun _ => Nat.succ_pos _⟩

lemma counted_startElection (h : Counted n) : Counted n.startElection.1 := by
  have hrefresh := counted_refresh h
  rcases n.startElection_cases with ⟨heq, -⟩ | ⟨-, heq⟩ | ⟨-, -, heq, -⟩
  · rw [heq]
    exact hrefresh
  · rw [heq]
    exact counted_standing hrefresh
  · rw [heq]
    exact counted_becomeLeader (counted_standing hrefresh) (Nat.succ_pos _)

lemma counted_voteReply (h : Counted n) (electionTerm : ℕ) (resp : RequestVoteResponse) :
    Counted (n.voteReply electionTerm resp).1 := by
  have hcounting : Counted n.counting := counted_congr h rfl rfl rfl rfl rfl
  rcases n.voteReply_cases electionTerm resp with heq | ⟨-, heq⟩ |
    ⟨-, hrole, -, ⟨-, heq⟩ | ⟨-, heq⟩⟩
  · rw [heq]
    exact h
  · rw [heq]
    exact counted_follower h rfl rfl rfl rfl
  · rw [heq]
    exact hcounting
  · rw [heq]
    exact counted_becomeLeader hcounting (h.term (by rw [hrole]; decide))

lemma counted_atTerm (h : Counted n) (term : ℕ) : Counted (n.atTerm term) := by
  unfold atTerm
  split
  · exact counted_follower h rfl rfl rfl rfl
  · exact h

lemma counted_vote (h : Counted n) (now : ℕ) (req : RequestVoteRequest) :
    Counted (n.handleRequestVote now req).1 := by
  have hterm := counted_atTerm h req.term
  rcases n.handleRequestVote_cases now req with ⟨-, heq | ⟨-, heq⟩⟩ | ⟨-, -, -, heq⟩
  · rw [heq]
    exact h
  · rw [heq]
    exact hterm
  · rw [heq]
    exact ⟨noted_congr hterm.noted rfl rfl rfl id, hterm.term⟩

lemma counted_heardFrom (h : Counted n) (now term : ℕ) (leaderId : NodeId) :
    Counted (n.heardFrom now term leaderId) := by
  have hrole := n.heardFrom_role now term leaderId
  refine counted_follower h ?_ ?_ ?_ hrole <;> unfold heardFrom <;> split <;> rfl

lemma counted_append (h : Counted n) (now : ℕ) (req : AppendEntriesRequest) :
    Counted (n.handleAppendEntries cb now req).1 := by
  have hheard := counted_heardFrom h now req.term req.leaderId
  rcases n.handleAppendEntries_cases now req with
    ⟨-, heq⟩ | ⟨-, -, heq⟩ | ⟨-, log, -, hsettles, -⟩
  · rw [heq]
    exact h
  · rw [heq]
    exact hheard
  · have htaken : Counted ((n.heardFrom now req.term req.leaderId).withLog log) :=
      counted_congr hheard rfl rfl rfl rfl rfl
    exact counted_settles htaken hsettles

lemma counted_appendReply (h : Counted n) (peer : NodeId) (term prevLogIndex sentCount : ℕ)
    (resp : AppendEntriesResponse) :
    Counted (n.appendReply cb peer term prevLogIndex sentCount resp).1 := by
  rcases n.appendReply_cases peer term prevLogIndex sentCount resp with hsettles | ⟨-, heq⟩ |
    ⟨-, -, -, hpeer, matched, -, hsettles⟩
  · exact counted_settles h hsettles
  · rw [heq]
    exact counted_follower h rfl rfl rfl rfl
  · exact counted_settles (counted_acknowledged (counted_lost h peer) hpeer) hsettles

lemma counted_propose (h : Counted n) (command : Bytes) :
    Counted (n.propose cb command).1 := by
  rcases n.propose_cases command with ⟨-, heq, -⟩ | ⟨-, -, m, rfl, hsettles, -⟩
  · rw [heq]
    exact h
  · have hlogged : Counted (n.withLog (n.log.append n.state.currentTerm command).1) :=
      counted_congr h rfl rfl rfl rfl rfl
    exact counted_settles (counted_refresh hlogged) hsettles

lemma counted_snapshotReply (h : Counted n) (peer : NodeId) (term snapshotIndex : ℕ)
    (resp : InstallSnapshotResponse) :
    Counted (n.snapshotReply peer term snapshotIndex resp) := by
  rcases n.snapshotReply_cases peer term snapshotIndex resp with heq | ⟨-, heq⟩ |
    ⟨-, -, -, hpeer, heq⟩
  · rw [heq]
    exact counted_lost h peer
  · rw [heq]
    exact counted_follower h rfl rfl rfl rfl
  · rw [heq]
    exact counted_acknowledged (counted_lost h peer) hpeer

lemma counted_check (h : Counted n) (now : ℕ) (req : InstallSnapshotRequest) :
    Counted (n.installCheck now req).1 := by
  rcases n.installCheck_cases now req with ⟨-, heq⟩ | ⟨-, heq, -⟩
  · rw [heq]
    exact h
  · rw [heq]
    exact counted_heardFrom h now req.term req.leaderId

lemma counted_adopt (h : Counted n) (req : InstallSnapshotRequest) :
    Counted (n.installAdopt req).1 := by
  rcases n.installAdopt_cases req with ⟨-, heq⟩ | ⟨-, heq⟩
  · rw [heq]
    exact h
  · rw [heq]
    exact counted_refresh (counted_congr h rfl rfl rfl rfl rfl)

lemma counted_construct (id : NodeId) (state : PersistentState) (log : RaftLog)
    (members : MembershipState) (machine : σ) :
    Counted (construct id state log members machine) := by
  refine ⟨⟨fun p i hi => ?_, fun p hp => ?_, fun hrole => ?_⟩, fun hne => absurd rfl hne⟩
  · cases hi
  · simp [construct, OrdMap.mem_keys] at hp
  · cases hrole

variable {s s' : Sys σ}

lemma counted_handle (h : Counted s.node) {e : Event} (hstep : handle cb s e = some s') :
    Counted s'.node := by
  cases e with
  | vote now req => cases hstep; exact counted_vote h now req
  | elect => cases hstep; exact counted_startElection h
  | voteReply electionTerm resp => cases hstep; exact counted_voteReply h electionTerm resp
  | append now req => cases hstep; exact counted_append h now req
  | replicate peer => cases hstep; exact counted_settles h (@replicateTo_settles σ cb _ peer)
  | replicationLost peer => cases hstep; exact counted_lost h peer
  | appendReply peer term prevLogIndex sentCount resp =>
    cases hstep
    exact counted_appendReply h peer term prevLogIndex sentCount resp
  | propose command => cases hstep; exact counted_propose h command
  | send peer term => cases hstep; exact counted_settles h (sendInstallSnapshot_settles _ peer term)
  | snapshotReply peer term snapshotIndex resp =>
    cases hstep
    exact counted_snapshotReply h peer term snapshotIndex resp
  | check now req =>
    obtain ⟨n, install⟩ := s
    have hcheck := counted_check h now req
    unfold handle at hstep
    cases install with
    | none =>
      rcases hresult : n.installCheck now req with ⟨m, _ | resp⟩
      · simp only [hresult] at hstep hcheck
        cases hstep
        exact hcheck
      · simp only [hresult] at hstep hcheck
        cases hstep
        exact hcheck
    | checked req => cases hstep
    | restored req => cases hstep
  | restore =>
    obtain ⟨n, install⟩ := s
    cases install with
    | checked req =>
      cases hstep
      exact counted_congr h rfl rfl rfl rfl rfl
    | none => cases hstep
    | restored req => cases hstep
  | adopt =>
    obtain ⟨n, install⟩ := s
    cases install with
    | restored req =>
      cases hstep
      exact counted_adopt h req
    | none => cases hstep
    | checked req => cases hstep

lemma leads_of_refusal {command : Bytes} (h : n.refusal command = .ok none) :
    n.role = .kLeader := by
  by_contra hne
  unfold refusal at h
  rw [if_pos hne] at h
  cases h

lemma counted_advances (h : Counted s.node) {e : Event} {m : Node σ}
    (hm : advances s e = some m) : Counted m ∧ m.role = .kLeader := by
  cases e with
  | appendReply peer term prevLogIndex sentCount resp =>
    simp only [advances, replyAdvances] at hm
    split_ifs at hm with hstale
    cases hm
    push Not at hstale
    refine ⟨counted_acknowledged (counted_lost h peer) ?_, hstale.2.2.1⟩
    simpa [Option.isSome_iff_ne_none] using hstale.1
  | propose command =>
    simp only [advances, proposeAdvances] at hm
    split at hm
    · rename_i hrefusal
      obtain ⟨-, -, rfl⟩ := Option.map_eq_some_iff.mp hm
      have hlogged : Counted
          (s.node.withLog (s.node.log.append s.node.state.currentTerm command).1) :=
        counted_congr h rfl rfl rfl rfl rfl
      exact ⟨counted_refresh hlogged, by simpa using leads_of_refusal hrefusal⟩
    · cases hm
  | _ => cases hm

lemma counted_step (h : Counted s.node) {a : Action} (hstep : NodeCrash.step cb s a = some s') :
    Counted s'.node := by
  cases a with
  | handle e => exact counted_handle h hstep
  | crash =>
    cases hstep
    exact counted_construct _ _ _ _ _
  | crashIn e k =>
    obtain ⟨n, -, rfl⟩ := Option.map_eq_some_iff.mp hstep
    exact counted_construct _ _ _ _ _

/-! ### What a leader commits -/

/-- How many of the peers and the leader have this index: the leader when its log reaches it,
and the peers with a note of at least that. -/
def having (m : Node σ) (i : ℕ) : ℕ :=
  (if i ≤ m.log.lastIndex then 1 else 0) +
    (m.peers.keys.filter fun p => i ≤ (m.matchIndex.find p).getD 0).card

/-- They are more than half of the peers and the leader. -/
def MajorityHas (m : Node σ) (i : ℕ) : Prop := m.peers.size + 1 < 2 * having m i

/-- The log has this term at the index, as an entry or as its boundary. -/
def HasTermAt (log : RaftLog) (i term : ℕ) : Prop :=
  (∃ e, log.get i = some e ∧ e.term = term) ∨
  (i = log.snapshotIndex ∧ log.snapshotTerm = term)

lemma hasTermAt_of_termAt {log : RaftLog} {i term : ℕ} (hpos : 0 < term)
    (h : log.termAt i = term) : HasTermAt log i term := by
  unfold RaftLog.termAt at h
  split_ifs at h with hboundary hout
  · exact .inr ⟨hboundary, h⟩
  · omega
  · refine .inl ?_
    unfold RaftLog.get
    rw [if_neg (by omega)]
    cases hentry : log.entryAt (i - log.snapshotIndex - 1) with
    | none =>
      rw [hentry] at h
      change 0 = term at h
      omega
    | some e =>
      rw [hentry] at h
      exact ⟨e, rfl, h⟩

lemma maybeAdvance_commitIndex (m : Node σ) : (m.maybeAdvanceCommitIndex cb).1.commitIndex =
    if m.majorityIndex > m.commitIndex ∧ m.log.termAt m.majorityIndex = m.state.currentTerm then
      m.majorityIndex
    else m.commitIndex := by
  unfold maybeAdvanceCommitIndex
  split
  · refine Outcome.andThen_rule (P := fun n => n.commitIndex = m.majorityIndex) (by simp) ?_
    intro _ _
    have hcommit : ((m.withCommitIndex m.majorityIndex).applyCommitted cb).1.commitIndex =
        m.majorityIndex := by simp
    unfold stepDownIfRemoved
    split
    · refine Outcome.andThen_rule (P := fun n => n.commitIndex = m.majorityIndex) (by simp) ?_
      intro _ _
      dsimp only
      split <;> simp
    · exact hcommit
  · rfl

lemma majorityHas {m : Node σ} (hkeys : m.matchIndex.keys = m.peers.keys) :
    MajorityHas m m.majorityIndex := by
  have hcount := m.majorityIndex_count
  have hcard := m.card_acked m.majorityIndex
  unfold MajorityHas having
  rw [List.countP_cons, ← hcard, ← OrdMap.card_keys, hkeys, OrdMap.card_keys] at hcount
  unfold acked at hcount
  rw [hkeys] at hcount
  simp only [decide_eq_true_eq] at hcount
  omega

/-- **The commit rule counts exactly the current configuration**: in every state that a node
gets into, whatever requests and replies arrive in which order, and with crashes anywhere, a
leader has notes about exactly its peers; and when a call of `MaybeAdvanceCommitIndex` raises
the commit index, the entry there has the current term, and more than half of the peers and the
leader together have it. -/
theorem commit_rule_exact {id : NodeId} {ownAddress : PeerAddress}
    {peers : OrdMap NodeId PeerAddress} {joining : Bool} {start : σ}
    (hrun : Reach (NodeCrash.Step cb) (fun _ _ => True)
      (begin id ownAddress peers joining start) s) :
    (s.node.role = .kLeader → s.node.matchIndex.keys = s.node.peers.keys) ∧
    ∀ e m, advances s e = some m →
      handle cb s e = some ⟨(m.maybeAdvanceCommitIndex cb).1, s.install⟩ ∧
      m.role = .kLeader ∧ m.matchIndex.keys = m.peers.keys ∧
      ∀ i, (m.maybeAdvanceCommitIndex cb).1.commitIndex = i → m.commitIndex < i →
        HasTermAt m.log i m.state.currentTerm ∧ MajorityHas m i := by
  have hcounted : Counted s.node := by
    refine hrun.invariant (I := fun s => Counted s.node) (counted_construct _ _ _ _ _) ?_
    exact fun s a s' h _ hstep => counted_step h hstep
  refine ⟨hcounted.noted.all, fun e m hm => ⟨handle_of_advances hm, ?_⟩⟩
  obtain ⟨hm', hrole⟩ := counted_advances hcounted hm
  refine ⟨hrole, hm'.noted.all hrole, fun i hi hlt => ?_⟩
  have hpos := hm'.term (by rw [hrole]; decide)
  rw [maybeAdvance_commitIndex] at hi
  split_ifs at hi with hcheck
  · subst hi
    exact ⟨hasTermAt_of_termAt hpos hcheck.2, majorityHas (hm'.noted.all hrole)⟩
  · omega

/-- A state machine that does nothing. -/
def idle : Callbacks Unit := ⟨fun s _ _ => (s, .ok []), fun _ => [], fun s _ => s⟩

/-- A node with two peers is elected, takes a proposal, and one of them has it. -/
def proposed : List Action :=
  [.handle .elect, .handle (.voteReply 1 ⟨1, true⟩), .handle (.propose [5]),
    .handle (.appendReply 2 1 0 1 ⟨1, true, 1⟩)]

/-- The leader has committed the entry, and has notes about both of its peers. -/
theorem commit_rule_exact_three : ∃ s : Sys Unit, s.node.commitIndex = 1 ∧
    s.node.matchIndex.keys = s.node.peers.keys := by
  obtain ⟨s, hs, hrole, hcommit⟩ := exists_of_any (P := fun s : Sys Unit =>
      s.node.role = .kLeader ∧ s.node.commitIndex = 1)
    (x := runOf? (NodeCrash.step idle) (begin 1 ⟨[], 0⟩
      ((OrdMap.empty.insert 2 ⟨[], 0⟩).insert 3 ⟨[], 0⟩) false ()) proposed)
      (by decide +kernel)
  exact ⟨s, hcommit, (commit_rule_exact (reach_runOf? hs)).1 hrole⟩

end DistDB.CommitRule
