import DistDB.NodeInstall
import DistDB.NodeOrder

/-!
The indices of a Raft node across crashes and restarts.

A node handles requests, and may crash between two of its critical sections or between two
of the durable writes of one; it then starts again from what is on disk. The adoption of a
snapshot saves the compacted log before the applied index, and a crash between the two leaves
a node whose log begins behind what it thinks it has applied (`adoption_torn`). Without that,
the indices are in order in every state (`ordered_across_crashes`).
-/

namespace DistDB.NodeCrash

open NodeModel NodeModel.Node NodeInstall

variable {σ : Type}

inductive Event
  | vote (now : ℕ) (req : RequestVoteRequest)
  | elect
  | voteReply (electionTerm : ℕ) (resp : RequestVoteResponse)
  | append (now : ℕ) (req : AppendEntriesRequest)
  | replicate (peer : NodeId)
  | replicationLost (peer : NodeId)
  | appendReply (peer : NodeId) (term prevLogIndex sentCount : ℕ) (resp : AppendEntriesResponse)
  | propose (command : Bytes)
  | send (peer : NodeId) (term : ℕ)
  | snapshotReply (peer : NodeId) (term snapshotIndex : ℕ) (resp : InstallSnapshotResponse)
  | check (now : ℕ) (req : InstallSnapshotRequest)
  | restore
  | adopt

def handle (cb : Callbacks σ) (s : Sys σ) : Event → Option (Sys σ)
  | .vote now req => some ⟨(s.node.handleRequestVote now req).1, s.install⟩
  | .elect => some ⟨s.node.startElection.1, s.install⟩
  | .voteReply electionTerm resp => some ⟨(s.node.voteReply electionTerm resp).1, s.install⟩
  | .append now req => some ⟨(s.node.handleAppendEntries cb now req).1, s.install⟩
  | .replicate peer => some ⟨(s.node.replicateTo peer).1, s.install⟩
  | .replicationLost peer => some ⟨s.node.replicationLost peer, s.install⟩
  | .appendReply peer term prevLogIndex sentCount resp =>
    some ⟨(s.node.appendReply cb peer term prevLogIndex sentCount resp).1, s.install⟩
  | .propose command => some ⟨(s.node.propose cb command).1, s.install⟩
  | .send peer term => some ⟨(s.node.sendInstallSnapshot cb peer term).1, s.install⟩
  | .snapshotReply peer term snapshotIndex resp =>
    some ⟨s.node.snapshotReply peer term snapshotIndex resp, s.install⟩
  | .check now req =>
    match s.install, s.node.installCheck now req with
    | .none, (n, none) => some ⟨n, .checked req⟩
    | .none, (n, some _) => some ⟨n, .none⟩
    | _, _ => none
  | .restore =>
    match s.install with
    | .checked req => some ⟨s.node.installRestore cb req, .restored req⟩
    | _ => none
  | .adopt =>
    match s.install with
    | .restored req => some ⟨(s.node.installAdopt req).1, .none⟩
    | _ => none

/-- The node at the durable writes of a handler that makes more than one, up to the last but
one: behind the last one it is as it will be when the handler returns. -/
def writes (cb : Callbacks σ) (s : Sys σ) : Event → List (Node σ)
  | .vote now req =>
    if (s.node.lastLeaderContact.any fun t => now - t < kElectionTimeoutMinMs) ∨
        req.term < s.node.state.currentTerm then []
    else [s.node.atTerm req.term]
  | .append now req => s.node.appendWrites cb now req
  | .appendReply peer term prevLogIndex sentCount resp =>
    (s.node.replyApplies peer term prevLogIndex sentCount resp).toList.flatMap
      (applyCommittedWrites cb)
  | .propose command => s.node.proposeWrites cb command
  | .adopt =>
    match s.install with
    | .restored req => s.node.adoptWrites req
    | _ => []
  | _ => []

inductive Action
  | handle (e : Event)
  /-- A crash between two critical sections. -/
  | crash
  /-- A crash right after the write of a handler with this number. -/
  | crashIn (e : Event) (k : ℕ)

/-- The node and its state machine start again from their files. -/
def restarted (n : Node σ) : Sys σ := ⟨n.restart n.machine, .none⟩

def step (cb : Callbacks σ) (s : Sys σ) : Action → Option (Sys σ)
  | .handle e => handle cb s e
  | .crash => some (restarted s.node)
  | .crashIn e k => (writes cb s e)[k]?.map restarted

/-- The requests come from leaders that hold what this node knows to be committed. -/
def Promised (s : Sys σ) : Event → Prop
  | .append _ req => (0 < req.prevLogIndex → 0 < req.prevLogTerm) ∧
      (s.node.state.currentTerm ≤ req.term → AgreesBelowCommit s.node req)
  | .adopt => ∀ req, s.install = .restored req →
      s.node.log.snapshotIndex < req.lastIncludedIndex →
        req.lastIncludedIndex ≤ s.node.commitIndex →
          s.node.log.termAt req.lastIncludedIndex = req.lastIncludedTerm
  | _ => True

def Allowed (s : Sys σ) : Action → Prop
  | .handle e | .crashIn e _ => Promised s e
  | .crash => True

/-- The dump of an install contains no more than it says. -/
def Labelled (cb : Callbacks σ) (contents : σ → ℕ) : Action → Prop
  | .handle (.check _ req) => ∀ m, contents (cb.restore m req.data) ≤ req.lastIncludedIndex
  | _ => True

/-- The node as the handler calls `ApplyCommitted`, if it does. -/
def applies (s : Sys σ) : Event → Option (Node σ)
  | .append now req => s.node.appendApplies now req
  | .appendReply peer term prevLogIndex sentCount resp =>
    s.node.replyApplies peer term prevLogIndex sentCount resp
  | .propose command => s.node.proposeApplies command
  | _ => none

/-- No compaction goes past the applied index on disk. It is behind only when the last entry
has thrown. -/
def Recorded (s : Sys σ) : Event → Prop
  | .adopt => ∀ req, s.install = .restored req →
      s.node.log.snapshotIndex < req.lastIncludedIndex →
        req.lastIncludedIndex ≤ s.node.lastApplied →
          req.lastIncludedIndex ≤ s.node.log.appliedIndex
  | e => ∀ m, applies s e = some m → m.commitIndex ≤ m.lastApplied →
      m.log.appliedIndex = m.lastApplied

/-- No crash between the two saves of the log in the adoption of a snapshot that is ahead. -/
def Fits (s : Sys σ) : Action → Prop
  | .handle e => Recorded s e
  | .crash => True
  | .crashIn e k => Recorded s e ∧
      (e = .adopt → k = 0 → ∀ req, s.install = .restored req →
      req.lastIncludedIndex ≤ s.node.lastApplied)

/-- Every effect on the state machine is recorded. -/
def Settled (install : Install) (n : Node σ) : Prop :=
  n.log.appliedIndex = n.lastApplied ∧
    ∀ req, install = .restored req → req.lastIncludedIndex ≤ n.lastApplied

/-- No crash between an effect on the state machine and the write that records it. -/
def CrashSettled (cb : Callbacks σ) (s : Sys σ) : Action → Prop
  | .handle _ => True
  | .crash => Settled s.install s.node
  | .crashIn e k => ∀ n, (writes cb s e)[k]? = some n → Settled s.install n

/-! ### Steps -/

variable {cb : Callbacks σ} {contents : σ → ℕ} {s s' : Sys σ}

/-- The node is in order, and an install under way is labelled right. -/
structure Inv (cb : Callbacks σ) (contents : σ → ℕ) (s : Sys σ) : Prop where
  node : Ordered contents (target s.install) s.node
  labelled : ∀ req, s.install = .checked req →
    ∀ m, contents (cb.restore m req.data) ≤ req.lastIncludedIndex

lemma Inv.of_node (h : Inv cb contents s) {n : Node σ}
    (hn : Ordered contents (target s.install) n) : Inv cb contents ⟨n, s.install⟩ :=
  ⟨hn, h.labelled⟩

lemma Inv.applies (h : Inv cb contents s) {e : Event} (hpromised : Promised s e) {m : Node σ}
    (hm : applies s e = some m) : Ordered contents (target s.install) m := by
  cases e with
  | append now req => exact h.node.appendApplies hpromised.1 hpromised.2 hm
  | appendReply peer term prevLogIndex sentCount resp => exact h.node.replyApplies hm
  | propose command => exact h.node.proposeApplies hm
  | _ => cases hm

lemma Inv.handle (hcb : Measures cb contents) (h : Inv cb contents s) {e : Event}
    (hpromised : Promised s e) (hlabelled : Labelled cb contents (.handle e))
    (hrecorded : Recorded s e) (hstep : NodeCrash.handle cb s e = some s') :
    Inv cb contents s' := by
  have hnode := h.node
  cases e with
  | vote now req =>
    cases hstep
    exact h.of_node (hnode.handleRequestVote now req)
  | elect =>
    cases hstep
    exact h.of_node hnode.startElection
  | voteReply electionTerm resp =>
    cases hstep
    exact h.of_node (hnode.voteReply electionTerm resp)
  | append now req =>
    cases hstep
    exact h.of_node (hnode.handleAppendEntries hcb hpromised.1 hpromised.2 hrecorded).1
  | replicate peer =>
    cases hstep
    exact h.of_node (hnode.replicateTo peer)
  | replicationLost peer =>
    cases hstep
    exact h.of_node (hnode.replicationLost peer)
  | appendReply peer term prevLogIndex sentCount resp =>
    cases hstep
    exact h.of_node (hnode.appendReply hcb hrecorded).1
  | propose command =>
    cases hstep
    exact h.of_node (hnode.propose hcb hrecorded).1
  | send peer term =>
    cases hstep
    exact h.of_node (hnode.sendInstallSnapshot peer term)
  | snapshotReply peer term snapshotIndex resp =>
    cases hstep
    exact h.of_node (hnode.snapshotReply peer term snapshotIndex resp)
  | check now req =>
    obtain ⟨n, install⟩ := s
    cases install with
    | none =>
      have hcheck : Ordered contents 0 (n.installCheck now req).1 := hnode.installCheck now req
      unfold NodeCrash.handle at hstep
      rcases hresult : n.installCheck now req with ⟨n', _ | resp⟩
      · simp only [hresult] at hstep hcheck
        cases hstep
        exact ⟨hcheck, fun r hr => by cases hr; exact hlabelled⟩
      · simp only [hresult] at hstep hcheck
        cases hstep
        exact ⟨hcheck, fun r hr => by cases hr⟩
    | checked req => cases hstep
    | restored req => cases hstep
  | restore =>
    obtain ⟨n, install⟩ := s
    cases install with
    | checked req =>
      cases hstep
      -- the dump has no more than its label says
      refine ⟨⟨hnode.holds, hnode.snapshot_le, hnode.applied_le, hnode.last_le, hnode.commit_le,
        hnode.term, ?_⟩, fun r hr => by cases hr⟩
      exact (h.labelled req rfl n.machine).trans (le_max_left _ _)
    | none => cases hstep
    | restored req => cases hstep
  | adopt =>
    obtain ⟨n, install⟩ := s
    cases install with
    | restored req =>
      cases hstep
      exact ⟨(hnode.installAdopt (hpromised req rfl) (hrecorded req rfl)).1,
        fun r hr => by cases hr⟩
    | none => cases hstep
    | checked req => cases hstep

lemma Inv.writes (hcb : Measures cb contents) (h : Inv cb contents s) {e : Event} {k : ℕ}
    {n : Node σ} (hpromised : Promised s e) (hfits : Fits s (.crashIn e k))
    (hn : (writes cb s e)[k]? = some n) :
    ∃ ahead ≤ target s.install, Ordered contents ahead n := by
  have hmem := List.mem_of_getElem? hn
  have hnode := h.node
  cases e with
  | vote now req =>
    simp only [NodeCrash.writes] at hmem
    split at hmem
    · cases hmem
    · obtain rfl := List.mem_singleton.mp hmem
      exact ⟨_, le_rfl, hnode.atTerm req.term⟩
  | append now req =>
    exact ⟨_, le_rfl, (hnode.handleAppendEntries hcb hpromised.1 hpromised.2 hfits.1).2 n hmem⟩
  | appendReply peer term prevLogIndex sentCount resp =>
    exact ⟨_, le_rfl, (hnode.appendReply hcb hfits.1).2 n hmem⟩
  | propose command => exact ⟨_, le_rfl, (hnode.propose hcb hfits.1).2 n hmem⟩
  | adopt =>
    obtain ⟨n', install⟩ := s
    cases install with
    | restored req =>
      refine ⟨0, Nat.zero_le _,
        (hnode.installAdopt (hpromised req rfl) (hfits.1 req rfl)).2 k n hn fun hk =>
        hfits.2 rfl hk req rfl⟩
    | none => cases hmem
    | checked req => cases hmem
  | _ => cases hmem

lemma restarted_inv {ahead : ℕ} {n : Node σ} (h : Ordered contents ahead n)
    (hsettled : contents n.machine ≤ n.log.appliedIndex) : Inv cb contents (restarted n) :=
  ⟨h.restart hsettled, fun r hr => by cases hr⟩

lemma Settled.contents_le {install : Install} {n : Node σ} {ahead : ℕ}
    (hsettled : Settled install n) (h : Ordered contents ahead n) (hle : ahead ≤ target install) :
    contents n.machine ≤ n.log.appliedIndex := by
  have hcontents := h.contents_le
  have htarget : target install ≤ n.lastApplied := by
    cases install with
    | none => exact Nat.zero_le _
    | checked req => exact Nat.zero_le _
    | restored req => exact hsettled.2 req rfl
  rw [hsettled.1]
  omega

/-- One step keeps the invariant; at a crash, what the state machine contains must be
recorded. -/
lemma Inv.step (hcb : Measures cb contents) (h : Inv cb contents s) {a : Action}
    (hallowed : Allowed s a) (hlabelled : Labelled cb contents a) (hfits : Fits s a)
    (hcrash : CrashSettled cb s a ∨ ∀ m, contents m = 0)
    (hstep : NodeCrash.step cb s a = some s') : Inv cb contents s' := by
  cases a with
  | handle e => exact h.handle hcb hallowed hlabelled hfits hstep
  | crash =>
    cases hstep
    refine restarted_inv h.node ?_
    rcases hcrash with hsettled | hzero
    · exact hsettled.contents_le h.node le_rfl
    · rw [hzero]
      exact Nat.zero_le _
  | crashIn e k =>
    obtain ⟨n, hn, rfl⟩ := Option.map_eq_some_iff.mp hstep
    obtain ⟨ahead, hle, hordered⟩ := h.writes hcb hallowed hfits hn
    refine restarted_inv hordered ?_
    rcases hcrash with hsettled | hzero
    · exact (hsettled n hn).contents_le hordered hle
    · rw [hzero]
      exact Nat.zero_le _

/-! ### Runs -/

abbrev Step (cb : Callbacks σ) := StepOf? (NodeCrash.step cb)

structure InOrder (n : Node σ) : Prop where
  snapshot_le : n.log.snapshotIndex ≤ n.lastApplied
  last_le : n.lastApplied ≤ n.commitIndex
  commit_le : n.commitIndex ≤ n.log.lastIndex
  gap : n.appliedGap = n.lastApplied - n.log.snapshotIndex

/-- A call of `ApplyCommitted` finds every entry it loops over, and the difference it then
takes does not wrap. -/
structure AppliesInOrder (cb : Callbacks σ) (m : Node σ) : Prop where
  finds : ∀ i, m.lastApplied < i → i ≤ m.commitIndex → (m.log.get i).isSome
  gap : InOrder (m.applyLoop cb (m.commitIndex - m.lastApplied)).1

/-- A dump is not labelled with an index below what it contains. -/
def SendsCovered (cb : Callbacks σ) (contents : σ → ℕ) (n : Node σ) : Prop :=
  ∀ peer term req, (n.sendInstallSnapshot cb peer term).2 = some req →
    contents n.machine ≤ req.lastIncludedIndex

lemma inOrder {ahead : ℕ} {n : Node σ} (h : Ordered contents ahead n) : InOrder n where
  snapshot_le := h.snapshot_le.trans h.applied_le
  last_le := h.last_le
  commit_le := h.commit_le
  gap := if_pos (h.snapshot_le.trans h.applied_le)

lemma appliesInOrder (hcb : Measures cb contents) {ahead : ℕ} {m : Node σ}
    (h : Ordered contents ahead m) : AppliesInOrder cb m where
  finds := fun i hlo hhi => by
    obtain ⟨entry, hentry, -⟩ := h.get_isSome hlo hhi
    rw [hentry]
    rfl
  gap := by
    have hlast := h.last_le
    exact inOrder (h.applyLoop hcb (by omega)).1

lemma begin_inv {id : NodeId} {ownAddress : PeerAddress} {peers : OrdMap NodeId PeerAddress}
    {joining : Bool} {start : σ} (hstart : contents start = 0) :
    Inv cb contents (begin id ownAddress peers joining start) :=
  ⟨⟨⟨[], FullLog.Holds.empty⟩, le_rfl, le_rfl, le_rfl, le_rfl, fun hrole =>
    absurd rfl hrole, hstart.trans_le (Nat.zero_le _)⟩, fun r hr => by cases hr⟩

/-- **The indices stay in order across crashes**: in every run in which no crash falls between
the two saves of the log in an adoption, and no compaction goes past the applied index on
disk, the indices are in order in every state, and `ApplyCommitted` finds its entries. If in
addition no crash falls between an effect on the state machine and the write that records it,
no snapshot is labelled with an index below what it contains, unless an install is between
its restore and its adoption. -/
theorem ordered_across_crashes {id : NodeId} {ownAddress : PeerAddress}
    {peers : OrdMap NodeId PeerAddress} {joining : Bool} {start : σ}
    (hcb : Measures cb contents) (hstart : contents start = 0) :
    (∀ s, Reach (Step cb) (fun s a => Allowed s a ∧ Fits s a)
        (begin id ownAddress peers joining start) s →
      InOrder s.node ∧
        ∀ e m, Promised s e → applies s e = some m → AppliesInOrder cb m) ∧
    (∀ s, Reach (Step cb)
        (fun s a => (Allowed s a ∧ Labelled cb contents a) ∧ Fits s a ∧ CrashSettled cb s a)
        (begin id ownAddress peers joining start) s →
      (∀ req, s.install = .restored req → req.lastIncludedIndex ≤ s.node.lastApplied) →
        SendsCovered cb contents s.node) := by
  constructor
  · intro s hrun
    -- with nothing to measure, no crash loses anything
    have hzero : Measures cb fun _ => 0 := fun _ _ _ => Nat.zero_le _
    have hinv : Inv cb (fun _ => 0) s := by
      refine hrun.invariant (begin_inv rfl) fun s a s' hinv hok hstep => ?_
      refine hinv.step hzero hok.1 ?_ hok.2 (.inr fun _ => rfl) hstep
      unfold Labelled
      split
      · exact fun _ => Nat.zero_le _
      · trivial
    exact ⟨inOrder hinv.node, fun e m hpromised hm =>
      appliesInOrder hzero (hinv.applies hpromised hm)⟩
  · intro s hrun hinstall
    have hinv : Inv cb contents s := by
      refine hrun.invariant (begin_inv hstart) fun s a s' hinv hok hstep => ?_
      exact hinv.step hcb hok.1.1 hok.1.2 hok.2.1 (.inl hok.2.2) hstep
    intro peer term req hreq
    have hcontents := hinv.node.contents_le
    have htarget : target s.install ≤ s.node.lastApplied := by
      cases hs : s.install with
      | none => exact Nat.zero_le _
      | checked inst => exact Nat.zero_le _
      | restored inst => exact hinstall inst hs
    rcases s.node.sendInstallSnapshot_cases peer term with hnone | ⟨-, -, hsome⟩
    · rw [hnone] at hreq
      cases hreq
    · rw [hsome] at hreq
      cases hreq
      dsimp only
      omega

/-- A crash after the first save of an adoption that is ahead of the applied index breaks the
order. -/
theorem torn_of_ahead {req : InstallSnapshotRequest} (hs : s.install = .restored req)
    (hlt : s.node.log.snapshotIndex < req.lastIncludedIndex)
    (hahead : s.node.log.appliedIndex < req.lastIncludedIndex) :
    ∃ s', NodeCrash.step cb s (.crashIn .adopt 0) = some s' ∧ ¬ InOrder s'.node := by
  have hwrites : (NodeCrash.writes cb s .adopt)[0]? =
      some (s.node.withLog (s.node.log.compactTo req.lastIncludedIndex req.lastIncludedTerm)) := by
    simp only [NodeCrash.writes, hs]
    unfold adoptWrites
    rw [if_pos hlt]
    rfl
  have hstep : NodeCrash.step cb s (.crashIn .adopt 0) = some (restarted
      (s.node.withLog (s.node.log.compactTo req.lastIncludedIndex req.lastIncludedTerm))) := by
    unfold NodeCrash.step
    dsimp only
    rw [hwrites]
    rfl
  refine ⟨_, hstep, fun h => ?_⟩
  have hsnap := h.snapshot_le
  simp only [restarted, restart, construct, withLog_log] at hsnap
  unfold RaftLog.compactTo at hsnap
  rw [if_neg (by omega)] at hsnap
  dsimp only at hsnap
  omega

/-- A state machine that knows the last entry it contains. -/
def keepsIndex : Callbacks ℕ where
  apply := fun s i _ => (max s i, .ok [])
  snapshot := fun s => List.replicate s 0
  restore := fun _ data => data.length

def lone : Sys ℕ := begin 1 ⟨[], 0⟩ .empty false 0

lemma next {ok : Sys ℕ → Action → Prop} {s₀ s s' : Sys ℕ}
    (h : Reach (Step keepsIndex) ok s₀ s) (a : Action)
    (hstep : NodeCrash.step keepsIndex s a = some s') (hok : ok s a) :
    Reach (Step keepsIndex) ok s₀ s' := h.tail hok hstep

/-- Two entries are applied, and a crash after the first effect loses its record. -/
theorem ordered_across_crashes_two : ∃ s : Sys ℕ, s.node.machine = 1 ∧
    s.node.lastApplied = 0 ∧ InOrder s.node := by
  have h := @ordered_across_crashes ℕ keepsIndex id 1 ⟨[], 0⟩ .empty false 0
    (fun s i command => le_rfl) rfl
  have h₀ : Reach (Step keepsIndex) (fun s a => Allowed s a ∧ Fits s a) lone lone := .refl
  have h₁ := next h₀ (.crashIn (.append 0 firstTwo) 2) rfl
    ⟨⟨by decide, fun _ i e he hhi => by
      change 0 + 1 + i ≤ 0 at hhi
      omega⟩, fun m hm hle => by
      cases hm
      exact absurd hle (by decide), fun h => by cases h⟩
  exact ⟨_, rfl, rfl, (h.1 _ h₁).1⟩

/-- **A torn adoption**: a snapshot of two entries is installed on a new node, which crashes
between the two saves of its log. The log then begins behind index 2, and the node takes
itself to have applied nothing; it leads, and offers a dump of two entries as one of none. -/
theorem adoption_torn : ¬ ∀ s : Sys ℕ,
    Reach (Step keepsIndex) (fun s a => Allowed s a ∧ Labelled keepsIndex id a) lone s →
      InOrder s.node ∧
        ((∀ req, s.install ≠ .restored req) → SendsCovered keepsIndex id s.node) := by
  intro hall
  have h₀ : Reach (Step keepsIndex)
      (fun s a => Allowed s a ∧ Labelled keepsIndex id a) lone lone :=
    .refl
  have h₁ := next h₀ (.handle (.check 0 (snapshotOf 2 [65, 66]))) rfl
    ⟨trivial, fun m => le_rfl⟩
  have h₂ := next h₁ (.handle .restore) rfl ⟨trivial, trivial⟩
  have h₃ := next h₂ (.crashIn .adopt 0) rfl
    ⟨fun req hreq _ hle => by cases hreq; exact absurd hle (by decide), trivial⟩
  exact absurd (hall _ h₃).1.snapshot_le (by decide)

end DistDB.NodeCrash
