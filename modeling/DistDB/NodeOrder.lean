import DistDB.NodeMoves

/-!
The indices of a Raft node at each of its durable writes.

A node saves its log whole whenever the log changes, and its applied index after each entry;
its members and its state machine are saved on their own. A function that saves more than
once can be cut short between two of its writes. Here are the nodes at the writes of
`ApplyCommitted`, of the handlers that call it, and of the adoption of a snapshot, and what
keeps the four indices in order at each of them (`Ordered`).

The state machine is measured by the last entry whose effect it contains.
-/

namespace DistDB.NodeModel

open FullLog

variable {σ : Type}

namespace Node

/-- The node when the effect of the next entry is there, and not yet recorded. -/
def applyEffect (cb : Callbacks σ) (n : Node σ) : Node σ :=
  let n := { n with lastApplied := n.lastApplied + 1 }
  match n.log.get n.lastApplied with
  | none => n
  | some entry => (n.applyEntry cb entry).1

/-- The node at the writes of the loop of `ApplyCommitted`. -/
def applyLoopWrites (cb : Callbacks σ) : ℕ → Node σ → List (Node σ)
  | 0, _ => []
  | k + 1, n => n.applyEffect cb :: (n.applyNext cb).1 ::
      match (n.applyNext cb).2 with
      | .error _ => []
      | .ok _ => (n.applyNext cb).1.applyLoopWrites cb k

/-- The node at the writes of a compaction: the members, and the log. -/
def compactWrites (n : Node σ) : List (Node σ) :=
  [{ n with membershipState := n.compact.1.membershipState }, n.compact.1]

def applyCommittedWrites (cb : Callbacks σ) (n : Node σ) : List (Node σ) :=
  let x := n.applyLoop cb (n.commitIndex - n.lastApplied)
  n.applyLoopWrites cb (n.commitIndex - n.lastApplied) ++
    match x.2 with
    | .error _ => []
    | .ok _ => if x.1.appliedGap ≥ kCompactionThreshold then x.1.compactWrites else []

section

variable {cb : Callbacks σ}

lemma applyLoopWrites_last (k : ℕ) (n : Node σ) :
    (n :: n.applyLoopWrites cb k).getLast? = some (n.applyLoop cb k).1 := by
  induction k generalizing n with
  | zero => rfl
  | succ k ih =>
    unfold applyLoopWrites applyLoop Outcome.andThen
    rw [List.getLast?_cons_cons, List.getLast?_cons_cons]
    cases (n.applyNext cb).2 with
    | error e => rfl
    | ok u => exact ih _

/-- **The writes are complete**: behind the last one the node is as `ApplyCommitted` leaves it. -/
theorem applyCommittedWrites_last (n : Node σ) :
    (n :: n.applyCommittedWrites cb).getLast? = some (n.applyCommitted cb).1 := by
  have hloop := @applyLoopWrites_last σ cb (n.commitIndex - n.lastApplied) n
  unfold applyCommittedWrites applyCommitted Outcome.andThen
  rw [← List.cons_append]
  cases (n.applyLoop cb (n.commitIndex - n.lastApplied)).2 with
  | error e => rwa [List.append_nil]
  | ok u =>
    dsimp only
    split
    · rw [List.getLast?_append]
      rfl
    · rwa [List.append_nil]

end

/-- The node as `followCommit` calls `ApplyCommitted`. -/
def followApplies (n : Node σ) (leaderCommit : ℕ) : Option (Node σ) :=
  if leaderCommit > n.commitIndex then
    some (n.withCommitIndex (min leaderCommit n.log.lastIndex))
  else none

/-- The node as `MaybeAdvanceCommitIndex` calls `ApplyCommitted`. -/
def advanceApplies (n : Node σ) : Option (Node σ) :=
  if n.majorityIndex > n.commitIndex ∧ n.log.termAt n.majorityIndex = n.state.currentTerm then
    some (n.withCommitIndex n.majorityIndex)
  else none

/-- The node as `HandleAppendEntries` calls `ApplyCommitted`. -/
def appendApplies (now : ℕ) (n : Node σ) (req : AppendEntriesRequest) : Option (Node σ) :=
  if req.term < n.state.currentTerm then none
  else
    (n.log.appendEntriesFrom req.prevLogIndex req.prevLogTerm req.entries).bind fun log =>
      let x := ((n.heardFrom now req.term req.leaderId).withLog log).refreshMembership
      x.2.toOption.bind fun _ => x.1.followApplies req.leaderCommit

/-- The node as `Propose` calls `ApplyCommitted`. -/
def proposeApplies (n : Node σ) (command : Bytes) : Option (Node σ) :=
  match n.refusal command with
  | .ok none =>
    let x := (n.withLog (n.log.append n.state.currentTerm command).1).refreshMembership
    x.2.toOption.bind fun _ => x.1.advanceApplies
  | _ => none

/-- The node as the answer to an `AppendEntries` makes it call `ApplyCommitted`. -/
def replyApplies (n : Node σ) (peer : NodeId) (term prevLogIndex sentCount : ℕ)
    (resp : AppendEntriesResponse) : Option (Node σ) :=
  let n := n.replicationLost peer
  if (n.peers.find peer).isNone ∨ resp.term > n.state.currentTerm ∨ n.role ≠ .kLeader ∨
      term ≠ n.state.currentTerm ∨ ¬ resp.success then none
  else
    (n.acknowledged peer (max (prevLogIndex + sentCount) ((n.matchIndex.find peer).getD 0)))
      |>.advanceApplies

/-- The node at the writes of `HandleAppendEntries`: the term, the log, and what is applied. -/
def appendWrites (cb : Callbacks σ) (now : ℕ) (n : Node σ) (req : AppendEntriesRequest) :
    List (Node σ) :=
  if req.term < n.state.currentTerm then []
  else
    n.heardFrom now req.term req.leaderId ::
      ((n.log.appendEntriesFrom req.prevLogIndex req.prevLogTerm req.entries).toList.map
        (n.heardFrom now req.term req.leaderId).withLog ++
      (n.appendApplies now req).toList.flatMap (applyCommittedWrites cb))

def proposeWrites (cb : Callbacks σ) (n : Node σ) (command : Bytes) : List (Node σ) :=
  match n.refusal command with
  | .ok none => n.withLog (n.log.append n.state.currentTerm command).1 ::
      (n.proposeApplies command).toList.flatMap (applyCommittedWrites cb)
  | _ => []

/-- The node at the writes of an adoption, before the members: `CompactTo`, and then
`SetAppliedIndex` if the snapshot is ahead. -/
def adoptWrites (n : Node σ) (req : InstallSnapshotRequest) : List (Node σ) :=
  if req.lastIncludedIndex > n.log.snapshotIndex then
    n.withLog (n.log.compactTo req.lastIncludedIndex req.lastIncludedTerm) ::
      if req.lastIncludedIndex > n.lastApplied then
        [{ n with
          log := (n.log.compactTo req.lastIncludedIndex req.lastIncludedTerm).setAppliedIndex
            req.lastIncludedIndex
          commitIndex := max req.lastIncludedIndex n.commitIndex
          lastApplied := max req.lastIncludedIndex n.lastApplied }]
      else []
  else []

end Node

open Node

/-- A measure of the state machine that an entry raises to its own index at most. -/
def Measures (cb : Callbacks σ) (contents : σ → ℕ) : Prop :=
  ∀ s i command, contents (cb.apply s i command).1 ≤ max (contents s) i

/-- The indices are in order, those on disk too, and the state machine contains no entry
behind the last applied one, unless an install has taken it `ahead`. -/
structure Ordered (contents : σ → ℕ) (ahead : ℕ) (n : Node σ) : Prop where
  holds : ∃ l, Holds n.log l
  snapshot_le : n.log.snapshotIndex ≤ n.log.appliedIndex
  applied_le : n.log.appliedIndex ≤ n.lastApplied
  last_le : n.lastApplied ≤ n.commitIndex
  commit_le : n.commitIndex ≤ n.log.lastIndex
  term : n.role ≠ .kFollower → 0 < n.state.currentTerm
  contents_le : contents n.machine ≤ max ahead n.lastApplied

variable {cb : Callbacks σ} {contents : σ → ℕ} {ahead : ℕ} {n n' : Node σ}

namespace Ordered

lemma congr (h : Ordered contents ahead n) (hlog : n'.log = n.log)
    (hlast : n'.lastApplied = n.lastApplied) (hcommit : n'.commitIndex = n.commitIndex)
    (hmachine : n'.machine = n.machine)
    (hterm : n'.role ≠ .kFollower → 0 < n'.state.currentTerm) :
    Ordered contents ahead n' where
  holds := hlog ▸ h.holds
  snapshot_le := by rw [hlog]; exact h.snapshot_le
  applied_le := by rw [hlog, hlast]; exact h.applied_le
  last_le := by rw [hlast, hcommit]; exact h.last_le
  commit_le := by rw [hcommit, hlog]; exact h.commit_le
  term := hterm
  contents_le := by rw [hmachine, hlast]; exact h.contents_le

lemma refresh (h : Ordered contents ahead n) : Ordered contents ahead n.refreshMembership.1 :=
  h.congr (by simp) (by simp) (by simp) (by simp) (by simpa using h.term)

lemma heardFrom (h : Ordered contents ahead n) (now term : ℕ) (leaderId : NodeId) :
    Ordered contents ahead (n.heardFrom now term leaderId) :=
  h.congr (by simp) (by simp) (by simp) (by simp) fun hrole =>
    absurd (heardFrom_role n now term leaderId) hrole

lemma becomeFollower (h : Ordered contents ahead n) (term : ℕ) :
    Ordered contents ahead (n.becomeFollower term) :=
  h.congr rfl rfl rfl rfl fun hrole => absurd rfl hrole

lemma replicationLost (h : Ordered contents ahead n) (peer : NodeId) :
    Ordered contents ahead (n.replicationLost peer) :=
  h.congr rfl rfl rfl rfl h.term

lemma acknowledged (h : Ordered contents ahead n) (peer : NodeId) (i : ℕ) :
    Ordered contents ahead (n.acknowledged peer i) :=
  h.congr rfl rfl rfl rfl h.term

lemma withLog (h : Ordered contents ahead n) {log : RaftLog} (hholds : ∃ l, Holds log l)
    (hsnap : log.snapshotIndex = n.log.snapshotIndex)
    (happlied : log.appliedIndex = n.log.appliedIndex) (hcommit : n.commitIndex ≤ log.lastIndex) :
    Ordered contents ahead (n.withLog log) where
  holds := hholds
  snapshot_le := by
    show log.snapshotIndex ≤ log.appliedIndex
    rw [hsnap, happlied]
    exact h.snapshot_le
  applied_le := by
    show log.appliedIndex ≤ n.lastApplied
    rw [happlied]
    exact h.applied_le
  last_le := h.last_le
  commit_le := hcommit
  term := h.term
  contents_le := h.contents_le

lemma withCommitIndex (h : Ordered contents ahead n) {i : ℕ} (hlo : n.commitIndex ≤ i)
    (hhi : i ≤ n.log.lastIndex) : Ordered contents ahead (n.withCommitIndex i) where
  holds := h.holds
  snapshot_le := h.snapshot_le
  applied_le := h.applied_le
  last_le := h.last_le.trans hlo
  commit_le := hhi
  term := h.term
  contents_le := h.contents_le

lemma get_isSome (h : Ordered contents ahead n) {i : ℕ} (hlo : n.lastApplied < i)
    (hhi : i ≤ n.commitIndex) : ∃ entry, n.log.get i = some entry ∧ entry.index = i := by
  obtain ⟨l, hl⟩ := h.holds
  have hsnap := h.snapshot_le
  have happlied := h.applied_le
  have hcommit := h.commit_le
  rw [hl.lastIndex] at hcommit
  have hget := hl.get (i := i) (by omega)
  obtain ⟨entry, hentry⟩ : ∃ entry, l[i - 1]? = some entry :=
    ⟨_, List.getElem?_eq_getElem (by omega)⟩
  have hindex := hl.indexed _ _ hentry
  exact ⟨entry, hget.trans hentry, by omega⟩

/-! ### Applying -/

lemma applied (h : Ordered contents ahead n) (hlt : n.lastApplied < n.commitIndex) {machine : σ}
    {errors : OrdMap ℕ Bytes} {log : RaftLog}
    (hlog : log = n.log ∨ log = n.log.setAppliedIndex (n.lastApplied + 1))
    (hmachine : contents machine ≤ max (contents n.machine) (n.lastApplied + 1)) :
    Ordered contents ahead { n with
      lastApplied := n.lastApplied + 1
      machine := machine
      applyErrors := errors
      log := log } := by
  obtain ⟨l, hl⟩ := h.holds
  have hsnap := h.snapshot_le
  have happlied := h.applied_le
  have hcontents := h.contents_le
  have hmax : contents machine ≤ max ahead (n.lastApplied + 1) := by omega
  rcases hlog with rfl | rfl
  · exact ⟨⟨l, hl⟩, hsnap, happlied.trans (Nat.le_succ _), hlt, h.commit_le, h.term, hmax⟩
  · refine ⟨⟨l, hl.setAppliedIndex _⟩, ?_, le_rfl, hlt, h.commit_le, h.term, hmax⟩
    show n.log.snapshotIndex ≤ n.lastApplied + 1
    omega

lemma execute_contents (hcb : Measures cb contents) (s : σ) (i : ℕ) (command : Bytes) :
    contents (execute cb s i command) ≤ max (contents s) i := by
  unfold execute
  split
  · exact hcb s i command
  · exact le_max_left _ _

lemma elim_contents (hcb : Measures cb contents) (h : Ordered contents ahead n)
    (hlt : n.lastApplied < n.commitIndex) :
    contents ((n.log.get (n.lastApplied + 1)).elim n.machine fun entry =>
      execute cb n.machine entry.index entry.command) ≤
        max (contents n.machine) (n.lastApplied + 1) := by
  obtain ⟨entry, hentry, hindex⟩ := h.get_isSome (Nat.lt_add_one _) hlt
  rw [hentry, Option.elim_some, ← hindex]
  exact execute_contents hcb _ _ _

lemma applyNext (hcb : Measures cb contents) (h : Ordered contents ahead n)
    (hlt : n.lastApplied < n.commitIndex) : Ordered contents ahead (n.applyNext cb).1 := by
  obtain ⟨errors, log, heq, hlog⟩ := @applyNext_eq σ cb n
  rw [heq]
  exact h.applied hlt hlog (elim_contents hcb h hlt)

lemma applyEffect (hcb : Measures cb contents) (h : Ordered contents ahead n)
    (hlt : n.lastApplied < n.commitIndex) : Ordered contents ahead (n.applyEffect cb) := by
  have hmachine := elim_contents hcb h hlt
  unfold Node.applyEffect
  dsimp only
  cases hget : n.log.get (n.lastApplied + 1) with
  | none =>
    rw [hget] at hmachine
    exact h.applied hlt (.inl rfl) hmachine
  | some entry =>
    rw [hget] at hmachine
    obtain ⟨errors, heq⟩ :=
      @applyEntry_eq σ cb { n with lastApplied := n.lastApplied + 1 } entry
    dsimp only
    rw [heq]
    exact h.applied hlt (.inl rfl) hmachine

lemma applyLoop (hcb : Measures cb contents) {k : ℕ} (h : Ordered contents ahead n)
    (hk : n.lastApplied + k ≤ n.commitIndex) :
    Ordered contents ahead (n.applyLoop cb k).1 ∧
      ∀ m ∈ n.applyLoopWrites cb k, Ordered contents ahead m := by
  induction k generalizing n with
  | zero => exact ⟨h, fun m hm => by cases hm⟩
  | succ k ih =>
    have hlt : n.lastApplied < n.commitIndex := by omega
    have hnext := h.applyNext hcb hlt
    have hrest : (n.applyNext cb).1.lastApplied + k ≤ (n.applyNext cb).1.commitIndex := by
      obtain ⟨errors, log, heq, -⟩ := @applyNext_eq σ cb n
      rw [heq]
      dsimp only
      omega
    unfold Node.applyLoop applyLoopWrites Outcome.andThen
    simp only [List.forall_mem_cons]
    cases (n.applyNext cb).2 with
    | error e => exact ⟨hnext, h.applyEffect hcb hlt, hnext, fun m hm => by cases hm⟩
    | ok u => exact ⟨(ih hnext hrest).1, h.applyEffect hcb hlt, hnext, (ih hnext hrest).2⟩

lemma applyLoop_recorded {k : ℕ} {u : Unit} (hok : (n.applyLoop cb (k + 1)).2 = .ok u) :
    (n.applyLoop cb (k + 1)).1.log.appliedIndex = (n.applyLoop cb (k + 1)).1.lastApplied := by
  induction k generalizing n with
  | zero =>
    unfold Node.applyLoop Node.applyLoop Outcome.andThen at hok ⊢
    cases hnext : (n.applyNext cb).2 with
    | error e =>
      rw [hnext] at hok
      cases hok
    | ok u =>
      dsimp only
      unfold Node.applyNext Outcome.andThen at hnext ⊢
      dsimp only at hnext ⊢
      split
      · rename_i e he
        rw [he] at hnext
        cases hnext
      · rfl
  | succ k ih =>
    unfold Node.applyLoop Outcome.andThen at hok ⊢
    cases hnext : (n.applyNext cb).2 with
    | error e =>
      rw [hnext] at hok
      cases hok
    | ok u =>
      rw [hnext] at hok
      exact ih hok

lemma compact (h : Ordered contents ahead n) (hrecorded : n.log.appliedIndex = n.lastApplied) :
    Ordered contents ahead n.compact.1 ∧ ∀ m ∈ n.compactWrites, Ordered contents ahead m := by
  obtain ⟨l, hl⟩ := h.holds
  have hcommit := h.commit_le
  have hlast := h.last_le
  have hcompact : Ordered contents ahead n.compact.1 := by
    rcases n.compact_eq with heq | ⟨changes, errors, -, heq⟩
    · rwa [heq]
    · rw [hl.lastIndex] at hcommit
      obtain ⟨hholds, hsnap, happlied⟩ :=
        hl.compactTo_termAt (h.snapshot_le.trans h.applied_le) (hlast.trans hcommit)
      rw [heq]
      exact {
        holds := ⟨l, hholds⟩
        snapshot_le := by
          dsimp only
          rw [hsnap, happlied, hrecorded]
        applied_le := happlied.trans_le h.applied_le
        last_le := hlast
        commit_le := by
          dsimp only
          rwa [hholds.lastIndex]
        term := h.term
        contents_le := h.contents_le }
  refine ⟨hcompact, ?_⟩
  unfold compactWrites
  simp only [List.forall_mem_cons, List.not_mem_nil, false_imp_iff, implies_true, and_true]
  exact ⟨h.congr rfl rfl rfl rfl h.term, hcompact⟩

/-- **Applying** keeps the order, at each write and in the end, unless there is nothing to
apply and the last entry is not recorded. -/
theorem applyCommitted (hcb : Measures cb contents) (h : Ordered contents ahead n)
    (hrecorded : n.commitIndex ≤ n.lastApplied → n.log.appliedIndex = n.lastApplied) :
    Ordered contents ahead (n.applyCommitted cb).1 ∧
      ∀ m ∈ n.applyCommittedWrites cb, Ordered contents ahead m := by
  have hlast := h.last_le
  obtain ⟨hloop, hwrites⟩ :=
    h.applyLoop hcb (k := n.commitIndex - n.lastApplied) (by omega)
  have hend : ∀ u, (n.applyLoop cb (n.commitIndex - n.lastApplied)).2 = .ok u →
      (n.applyLoop cb (n.commitIndex - n.lastApplied)).1.log.appliedIndex =
        (n.applyLoop cb (n.commitIndex - n.lastApplied)).1.lastApplied := by
    intro u hok
    rcases hk : n.commitIndex - n.lastApplied with _ | k
    · exact hrecorded (by omega)
    · rw [hk] at hok
      exact applyLoop_recorded hok
  have hwhole : ∀ m ∈ n :: n.applyCommittedWrites cb, Ordered contents ahead m := by
    unfold applyCommittedWrites
    refine List.forall_mem_cons.mpr ⟨h, List.forall_mem_append.mpr ⟨hwrites, ?_⟩⟩
    cases hok : (n.applyLoop cb (n.commitIndex - n.lastApplied)).2 with
    | error e => exact List.forall_mem_nil _
    | ok u =>
      dsimp only
      split
      · exact (hloop.compact (hend u hok)).2
      · exact List.forall_mem_nil _
  exact ⟨hwhole _ (List.mem_of_getLast? (applyCommittedWrites_last n)),
    (List.forall_mem_cons.mp hwhole).2⟩

/-! ### Handlers -/

/-- What a handler that calls `ApplyCommitted` keeps, if all it does before leaves the node in
order. -/
lemma applies (hcb : Measures cb contents) {x : Option (Node σ)}
    (h : ∀ m, x = some m → Ordered contents ahead m)
    (hrecorded : ∀ m, x = some m → m.commitIndex ≤ m.lastApplied →
      m.log.appliedIndex = m.lastApplied) :
    (∀ m, x = some m → Ordered contents ahead (m.applyCommitted cb).1) ∧
      ∀ m ∈ x.toList.flatMap (applyCommittedWrites cb), Ordered contents ahead m := by
  cases x with
  | none => exact ⟨(fun m hm => by cases hm), fun m hm => by cases hm⟩
  | some m =>
    obtain ⟨hend, hwrites⟩ := (h m rfl).applyCommitted hcb (hrecorded m rfl)
    refine ⟨fun m' hm => by cases hm; exact hend, ?_⟩
    simpa using hwrites

lemma followApplies (h : Ordered contents ahead n) {leaderCommit : ℕ} {m : Node σ}
    (hm : n.followApplies leaderCommit = some m) : Ordered contents ahead m := by
  unfold Node.followApplies at hm
  split at hm
  · cases hm
    have hcommit := h.commit_le
    exact h.withCommitIndex (by omega) (Nat.min_le_right _ _)
  · cases hm

lemma followCommit_eq (leaderCommit : ℕ) : n.followCommit cb leaderCommit =
    (n.followApplies leaderCommit).elim (n, .ok ()) (Node.applyCommitted cb) := by
  unfold followCommit Node.followApplies
  split <;> rfl

/-- A leader that advances has an entry there: the term at an index without one is zero. -/
lemma advanceApplies (h : Ordered contents ahead n) (hrole : n.role = .kLeader) {m : Node σ}
    (hm : n.advanceApplies = some m) : Ordered contents ahead m := by
  unfold Node.advanceApplies at hm
  split at hm
  · rename_i hcheck
    cases hm
    obtain ⟨l, hl⟩ := h.holds
    have hterm := h.term (by rw [hrole]; decide)
    refine h.withCommitIndex hcheck.1.le ?_
    by_contra hout
    have hcommit := h.commit_le
    have hsnap : n.log.snapshotIndex ≤ n.log.lastIndex :=
      calc n.log.snapshotIndex ≤ n.log.appliedIndex := h.snapshot_le
        _ ≤ n.lastApplied := h.applied_le
        _ ≤ n.commitIndex := h.last_le
        _ ≤ n.log.lastIndex := hcommit
    have hzero : n.log.termAt n.majorityIndex = 0 := by
      have hindex := hl.lastIndex
      rw [hl.termAt (by omega), TermLog.termOf_of_length_lt (by omega)]
    omega
  · cases hm

lemma stepDownIfRemoved (h : Ordered contents ahead n) :
    Ordered contents ahead n.stepDownIfRemoved.1 := by
  unfold Node.stepDownIfRemoved
  split
  · refine Outcome.andThen_rule h.refresh fun _ _ => ?_
    dsimp only
    split
    · exact h.refresh.congr rfl rfl rfl rfl fun hrole => absurd rfl hrole
    · exact h.refresh
  · exact h

lemma maybeAdvanceCommitIndex (h : Ordered contents ahead n)
    (happly : ∀ m, n.advanceApplies = some m → Ordered contents ahead (m.applyCommitted cb).1) :
    Ordered contents ahead (n.maybeAdvanceCommitIndex cb).1 := by
  unfold Node.advanceApplies at happly
  unfold Node.maybeAdvanceCommitIndex
  split
  · rename_i hcheck
    rw [if_pos hcheck] at happly
    have hend := happly _ rfl
    exact Outcome.andThen_rule hend fun _ _ => hend.stepDownIfRemoved
  · exact h

lemma putAll_commit {log : RaftLog} {l : List LogEntry} (hl : Holds log l) {c idx : ℕ}
    (hc : c ≤ l.length) (hpos : 0 < idx) (hidx : idx ≤ l.length + 1) (es : List LogEntry)
    (hagree : ∀ i e, es[i]? = some e → log.snapshotIndex < idx + i → idx + i ≤ c →
      TermLog.termOf l (idx + i) = e.term) :
    (log.putAll idx es).snapshotIndex = log.snapshotIndex ∧
      ∃ l', Holds (log.putAll idx es) l' ∧ c ≤ l'.length := by
  induction es generalizing log l idx with
  | nil => exact ⟨rfl, l, hl, hc⟩
  | cons e es ih =>
    obtain ⟨hsnap, hput⟩ := hl.put hpos hidx e
    have hlen := hl.snapshot_le
    rw [RaftLog.putAll]
    by_cases hkeep : idx ≤ log.snapshotIndex ∨
      (idx ≤ l.length ∧ TermLog.termOf l idx = e.term)
    · rw [if_pos hkeep] at hput
      obtain ⟨hsnap', hall⟩ := ih hput hc (Nat.succ_pos idx)
          (by omega) fun i e' he' hlo hhi => by
        have := hagree (i + 1) e' he' (by omega) (by omega)
        rwa [show idx + 1 + i = idx + (i + 1) by omega]
      exact ⟨hsnap'.trans hsnap, hall⟩
    · -- the entry is new here, so it is behind what is committed
      have hlt : c < idx := by
        by_contra hle
        exact hkeep (.inr ⟨by omega, hagree 0 e rfl (by omega) (by omega)⟩)
      rw [if_neg hkeep] at hput
      have hlen' : (l.take (idx - 1) ++ [{ e with index := idx }]).length = idx := by
        simp
        omega
      obtain ⟨hsnap', hall⟩ := ih hput (by omega) (Nat.succ_pos idx) (by omega)
        fun i e' he' hlo hhi => by omega
      exact ⟨hsnap'.trans hsnap, hall⟩

end Ordered

/-- The entries of a request contradict none that this node knows to be committed. -/
def AgreesBelowCommit (n : Node σ) (req : AppendEntriesRequest) : Prop :=
  ∀ i e, req.entries[i]? = some e → req.prevLogIndex + 1 + i ≤ n.commitIndex →
    ∀ old, n.log.get (req.prevLogIndex + 1 + i) = some old → old.term = e.term

namespace Ordered

lemma appended (h : Ordered contents ahead n) {req : AppendEntriesRequest}
    (hprev : 0 < req.prevLogIndex → 0 < req.prevLogTerm) (hagree : AgreesBelowCommit n req)
    {log : RaftLog} (hlog : n.log.appendEntriesFrom req.prevLogIndex req.prevLogTerm req.entries =
      some log) : Ordered contents ahead (n.withLog log) := by
  obtain ⟨l, hl⟩ := h.holds
  have hcommit := h.commit_le
  rw [hl.lastIndex] at hcommit
  obtain ⟨rfl, hwhere⟩ := hl.appendEntriesFrom_some hprev hlog
  obtain ⟨hsnap, l', hholds, hlen⟩ := putAll_commit hl hcommit (Nat.succ_pos req.prevLogIndex)
    (by omega) req.entries fun i e he hlo hhi => by
      obtain ⟨old, hold⟩ : ∃ old, l[req.prevLogIndex + 1 + i - 1]? = some old :=
        ⟨_, List.getElem?_eq_getElem (by omega)⟩
      have hget := hl.get hlo
      rw [hold] at hget
      rw [← hagree i e he hhi old hget,
        show req.prevLogIndex + 1 + i = req.prevLogIndex + 1 + i - 1 + 1 by omega]
      exact TermLog.termOf_eq_of_getElem? hold
  exact h.withLog ⟨l', hholds⟩ hsnap (RaftLog.appliedIndex_putAll ..)
    (by rwa [hholds.lastIndex])

lemma appendedTo (h : Ordered contents ahead n) (now : ℕ) {req : AppendEntriesRequest}
    (hprev : 0 < req.prevLogIndex → 0 < req.prevLogTerm) (hagree : AgreesBelowCommit n req)
    {log : RaftLog} (hlog : n.log.appendEntriesFrom req.prevLogIndex req.prevLogTerm req.entries =
      some log) :
    Ordered contents ahead ((n.heardFrom now req.term req.leaderId).withLog log) :=
  (h.appended hprev hagree hlog).congr rfl (by simp) (by simp) (by simp) fun hrole =>
    absurd (heardFrom_role n now req.term req.leaderId) hrole

lemma appendApplies (h : Ordered contents ahead n) {now : ℕ} {req : AppendEntriesRequest}
    (hprev : 0 < req.prevLogIndex → 0 < req.prevLogTerm)
    (hagree : n.state.currentTerm ≤ req.term → AgreesBelowCommit n req) {m : Node σ}
    (hm : n.appendApplies now req = some m) : Ordered contents ahead m := by
  unfold Node.appendApplies at hm
  split at hm
  · cases hm
  · rename_i hbehind
    obtain ⟨log, hlog, hm⟩ := Option.bind_eq_some_iff.mp hm
    obtain ⟨u, -, hm⟩ := Option.bind_eq_some_iff.mp hm
    have happended := h.appendedTo now hprev (hagree (Nat.not_lt.mp hbehind)) hlog
    exact happended.refresh.followApplies hm

/-- **A follower's side of the replication** keeps the order. -/
theorem handleAppendEntries (hcb : Measures cb contents) (h : Ordered contents ahead n) {now : ℕ}
    {req : AppendEntriesRequest} (hprev : 0 < req.prevLogIndex → 0 < req.prevLogTerm)
    (hagree : n.state.currentTerm ≤ req.term → AgreesBelowCommit n req)
    (hrecorded : ∀ m, n.appendApplies now req = some m → m.commitIndex ≤ m.lastApplied →
      m.log.appliedIndex = m.lastApplied) :
    Ordered contents ahead (n.handleAppendEntries cb now req).1 ∧
      ∀ m ∈ n.appendWrites cb now req, Ordered contents ahead m := by
  obtain ⟨hend, hwrites⟩ :=
    applies hcb (fun m => h.appendApplies (m := m) hprev hagree) hrecorded
  unfold Node.appendApplies at hend
  unfold Node.handleAppendEntries appendWrites
  by_cases hbehind : req.term < n.state.currentTerm
  · rw [if_pos hbehind, if_pos hbehind]
    exact ⟨h, fun m hm => by cases hm⟩
  rw [if_neg hbehind] at hend
  rw [if_neg hbehind, if_neg hbehind]
  have hheard := h.heardFrom now req.term req.leaderId
  simp only [heardFrom_log, List.forall_mem_cons, List.forall_mem_append]
  cases hlog : n.log.appendEntriesFrom req.prevLogIndex req.prevLogTerm req.entries with
  | none => exact ⟨hheard, hheard, (fun m hm => by cases hm), hwrites⟩
  | some log =>
    have happended := h.appendedTo now hprev (hagree (Nat.not_lt.mp hbehind)) hlog
    refine ⟨?_, hheard, by simpa using happended, hwrites⟩
    refine Outcome.andThen_rule happended.refresh fun u hu => ?_
    rw [Outcome.andThen_fst fun _ _ => rfl, followCommit_eq]
    rw [hlog, Option.bind_some] at hend
    dsimp only at hend
    rw [hu] at hend
    cases hfollow : ((n.heardFrom now req.term req.leaderId).withLog log).refreshMembership.1
        |>.followApplies req.leaderCommit with
    | none => exact happended.refresh
    | some m => exact hend m hfollow

lemma replyApplies (h : Ordered contents ahead n) {peer : NodeId}
    {term prevLogIndex sentCount : ℕ} {resp : AppendEntriesResponse} {m : Node σ}
    (hm : n.replyApplies peer term prevLogIndex sentCount resp = some m) :
    Ordered contents ahead m := by
  unfold Node.replyApplies at hm
  dsimp only at hm
  split at hm
  · cases hm
  · rename_i hcheck
    push Not at hcheck
    exact ((h.replicationLost peer).acknowledged peer _).advanceApplies hcheck.2.2.1 hm

/-- **A leader's side of the replication** keeps the order, whatever the answer says. -/
theorem appendReply (hcb : Measures cb contents) (h : Ordered contents ahead n) {peer : NodeId}
    {term prevLogIndex sentCount : ℕ} {resp : AppendEntriesResponse}
    (hrecorded : ∀ m, n.replyApplies peer term prevLogIndex sentCount resp = some m →
      m.commitIndex ≤ m.lastApplied → m.log.appliedIndex = m.lastApplied) :
    Ordered contents ahead (n.appendReply cb peer term prevLogIndex sentCount resp).1 ∧
      ∀ m ∈ (n.replyApplies peer term prevLogIndex sentCount resp).toList.flatMap
        (applyCommittedWrites cb), Ordered contents ahead m := by
  have hlost := h.replicationLost peer
  obtain ⟨hend, hwrites⟩ := applies hcb (fun m => h.replyApplies (m := m)) hrecorded
  refine ⟨?_, hwrites⟩
  unfold Node.replyApplies at hend
  unfold Node.appendReply
  dsimp only at hend ⊢
  split_ifs with hpeer hterm hstale hsuccess
  · exact hlost
  · exact hlost.becomeFollower _
  · exact hlost
  · push Not at hstale
    rw [if_neg (by
      simp only [not_or]
      exact ⟨hpeer, hterm, not_not.mpr hstale.1, not_not.mpr hstale.2, not_not.mpr hsuccess⟩)]
      at hend
    exact maybeAdvanceCommitIndex (hlost.acknowledged peer _) hend
  · exact hlost.congr rfl rfl rfl rfl h.term
  · exact hlost.congr rfl rfl rfl rfl h.term

lemma proposed (h : Ordered contents ahead n) (command : Bytes) :
    Ordered contents ahead (n.withLog (n.log.append n.state.currentTerm command).1) := by
  obtain ⟨l, hl⟩ := h.holds
  have hcommit := h.commit_le
  have happend := hl.append n.state.currentTerm command
  refine h.withLog ⟨_, happend⟩ rfl rfl ?_
  rw [hl.lastIndex] at hcommit
  rw [happend.lastIndex, List.length_append]
  omega

lemma proposeApplies (h : Ordered contents ahead n) {command : Bytes} {m : Node σ}
    (hm : n.proposeApplies command = some m) : Ordered contents ahead m := by
  unfold Node.proposeApplies at hm
  split at hm
  · rename_i hrefusal
    obtain ⟨u, -, hm⟩ := Option.bind_eq_some_iff.mp hm
    refine (h.proposed command).refresh.advanceApplies ?_ hm
    rw [refreshMembership_role, withLog_role]
    by_contra hne
    unfold refusal at hrefusal
    rw [if_pos hne] at hrefusal
    cases hrefusal
  · cases hm

/-- **A proposal** keeps the order. -/
theorem propose (hcb : Measures cb contents) (h : Ordered contents ahead n) {command : Bytes}
    (hrecorded : ∀ m, n.proposeApplies command = some m → m.commitIndex ≤ m.lastApplied →
      m.log.appliedIndex = m.lastApplied) :
    Ordered contents ahead (n.propose cb command).1 ∧
      ∀ m ∈ n.proposeWrites cb command, Ordered contents ahead m := by
  have hproposed := h.proposed command
  obtain ⟨hend, hwrites⟩ := applies hcb (fun m => h.proposeApplies (m := m)) hrecorded
  unfold Node.propose proposeWrites
  cases hrefusal : n.refusal command with
  | error e => exact ⟨h, fun m hm => by cases hm⟩
  | ok refused =>
    cases refused with
    | some error => exact ⟨h, fun m hm => by cases hm⟩
    | none =>
      simp only [List.forall_mem_cons]
      refine ⟨?_, hproposed, hwrites⟩
      refine Outcome.andThen_rule hproposed.refresh fun u hu => ?_
      rw [Outcome.andThen_fst fun _ _ => rfl]
      unfold Node.proposeApplies at hend
      rw [hrefusal] at hend
      dsimp only at hend
      rw [hu] at hend
      exact maybeAdvanceCommitIndex hproposed.refresh hend

lemma becomeLeader (h : Ordered contents ahead n) (hterm : 0 < n.state.currentTerm) :
    Ordered contents ahead n.becomeLeader.1 := by
  rcases n.becomeLeader_cases with heq | ⟨-, heq⟩
  · rw [heq]
    exact h.refresh
  · rw [heq]
    exact h.refresh.congr rfl rfl rfl rfl fun _ => by simpa using hterm

lemma startElection (h : Ordered contents ahead n) : Ordered contents ahead n.startElection.1 := by
  have hstanding : Ordered contents ahead n.refreshMembership.1.standing :=
    h.refresh.congr rfl rfl rfl rfl fun _ => Nat.succ_pos _
  rcases n.startElection_cases with ⟨heq, -⟩ | ⟨-, heq⟩ | ⟨-, -, heq, -⟩
  · rw [heq]
    exact h.refresh
  · rw [heq]
    exact hstanding
  · rw [heq]
    exact hstanding.becomeLeader (Nat.succ_pos _)

lemma voteReply (h : Ordered contents ahead n) (electionTerm : ℕ) (resp : RequestVoteResponse) :
    Ordered contents ahead (n.voteReply electionTerm resp).1 := by
  have hcounting : Ordered contents ahead n.counting := h.congr rfl rfl rfl rfl h.term
  rcases n.voteReply_cases electionTerm resp with
    heq | ⟨-, heq⟩ | ⟨-, hrole, -, ⟨-, heq⟩ | ⟨-, heq⟩⟩
  · rwa [heq]
  · rw [heq]
    exact h.becomeFollower _
  · rwa [heq]
  · rw [heq]
    exact hcounting.becomeLeader (h.term (by rw [hrole]; decide))

lemma atTerm (h : Ordered contents ahead n) (term : ℕ) :
    Ordered contents ahead (n.atTerm term) := by
  unfold Node.atTerm
  split
  · exact h.becomeFollower term
  · exact h

lemma handleRequestVote (h : Ordered contents ahead n) (now : ℕ) (req : RequestVoteRequest) :
    Ordered contents ahead (n.handleRequestVote now req).1 := by
  rcases n.handleRequestVote_cases now req with ⟨-, heq | ⟨-, heq⟩⟩ | ⟨-, -, -, heq⟩
  · rwa [heq]
  · rw [heq]
    exact h.atTerm _
  · rw [heq]
    exact (h.atTerm req.term).congr rfl rfl rfl rfl (h.atTerm req.term).term

lemma replicateTo (h : Ordered contents ahead n) (peer : NodeId) :
    Ordered contents ahead (n.replicateTo peer).1 := by
  unfold Node.replicateTo
  split
  · exact h
  · dsimp only
    split <;> exact h.congr rfl rfl rfl rfl h.term

lemma sendInstallSnapshot (h : Ordered contents ahead n) (peer : NodeId) (term : ℕ) :
    Ordered contents ahead (n.sendInstallSnapshot cb peer term).1 := by
  unfold Node.sendInstallSnapshot
  split
  · exact h.replicationLost peer
  · exact h

lemma snapshotReply (h : Ordered contents ahead n) (peer : NodeId) (term snapshotIndex : ℕ)
    (resp : InstallSnapshotResponse) :
    Ordered contents ahead (n.snapshotReply peer term snapshotIndex resp) := by
  rcases n.snapshotReply_cases peer term snapshotIndex resp with
    heq | ⟨-, heq⟩ | ⟨-, -, -, -, heq⟩ <;> rw [heq]
  · exact h.replicationLost peer
  · exact (h.replicationLost peer).becomeFollower _
  · exact (h.replicationLost peer).acknowledged peer _

lemma installCheck (h : Ordered contents ahead n) (now : ℕ) (req : InstallSnapshotRequest) :
    Ordered contents ahead (n.installCheck now req).1 := by
  rcases n.installCheck_cases now req with ⟨-, heq⟩ | ⟨-, heq, -⟩ <;> rw [heq]
  · exact h
  · exact h.heardFrom _ _ _

/-! ### Snapshots -/

/-- The log after a compaction to the index of a snapshot, which keeps what is committed
behind it. -/
lemma compactTo (h : Ordered contents ahead n) {i term : ℕ} (hlt : n.log.snapshotIndex < i)
    (hterm : i ≤ n.commitIndex → n.log.termAt i = term) :
    (∃ l, Holds (n.log.compactTo i term) l) ∧ (n.log.compactTo i term).snapshotIndex = i ∧
      (n.log.compactTo i term).appliedIndex = n.log.appliedIndex ∧
      max i n.commitIndex ≤ (n.log.compactTo i term).lastIndex := by
  obtain ⟨l, hl⟩ := h.holds
  have hcommit := h.commit_le
  have hindex : (n.log.compactTo i term).snapshotIndex = i ∧
      (n.log.compactTo i term).appliedIndex = n.log.appliedIndex := by
    unfold RaftLog.compactTo
    rw [if_neg (by omega)]
    exact ⟨rfl, rfl⟩
  rcases Nat.lt_or_ge n.commitIndex i with hahead | hbehind
  · obtain ⟨l', hl'⟩ := hl.compactTo_any i term
    have hlen := hl'.snapshot_le
    refine ⟨⟨l', hl'⟩, hindex.1, hindex.2, ?_⟩
    rw [hl'.lastIndex]
    omega
  · have hlast := hl.lastIndex
    obtain ⟨hl', -, -⟩ := hl.compactTo_termAt hlt.le (i := i) (by omega)
    rw [hterm hbehind] at hl'
    refine ⟨⟨l, hl'⟩, hindex.1, hindex.2, ?_⟩
    rw [hl'.lastIndex]
    omega

lemma adoptAhead {req : InstallSnapshotRequest} (h : Ordered contents req.lastIncludedIndex n)
    (hlt : n.log.snapshotIndex < req.lastIncludedIndex)
    (hterm : req.lastIncludedIndex ≤ n.commitIndex →
      n.log.termAt req.lastIncludedIndex = req.lastIncludedTerm)
    (hahead : n.lastApplied < req.lastIncludedIndex) :
    Ordered contents 0 { n with
      log := (n.log.compactTo req.lastIncludedIndex req.lastIncludedTerm).setAppliedIndex
        req.lastIncludedIndex
      commitIndex := max req.lastIncludedIndex n.commitIndex
      lastApplied := max req.lastIncludedIndex n.lastApplied } := by
  obtain ⟨⟨l, hl⟩, hsnap, -, hreach⟩ := h.compactTo hlt hterm
  have hlast := h.last_le
  exact {
    holds := ⟨l, hl.setAppliedIndex _⟩
    snapshot_le := hsnap.le
    applied_le := le_max_left _ _
    last_le := by
      dsimp only
      omega
    commit_le := hreach
    term := h.term
    contents_le := h.contents_le.trans (le_max_right _ _) }

/-- The first write of an adoption, when the snapshot is not ahead of what is recorded. -/
lemma adoptBehind {req : InstallSnapshotRequest} (h : Ordered contents req.lastIncludedIndex n)
    (hlt : n.log.snapshotIndex < req.lastIncludedIndex)
    (hterm : req.lastIncludedIndex ≤ n.commitIndex →
      n.log.termAt req.lastIncludedIndex = req.lastIncludedTerm)
    (hrecorded : req.lastIncludedIndex ≤ n.log.appliedIndex) :
    Ordered contents 0
      (n.withLog (n.log.compactTo req.lastIncludedIndex req.lastIncludedTerm)) := by
  obtain ⟨hholds, hsnap, happlied, hreach⟩ := h.compactTo hlt hterm
  have hcontents := h.contents_le
  have happlied_le := h.applied_le
  exact {
    holds := hholds
    snapshot_le := by
      show (n.log.compactTo req.lastIncludedIndex req.lastIncludedTerm).snapshotIndex ≤ _
      rw [withLog_log, hsnap, happlied]
      exact hrecorded
    applied_le := by
      show (n.log.compactTo req.lastIncludedIndex req.lastIncludedTerm).appliedIndex ≤ _
      rw [happlied]
      exact h.applied_le
    last_le := h.last_le
    commit_le := (le_max_right _ _).trans hreach
    term := h.term
    contents_le := by
      show contents n.machine ≤ max 0 n.lastApplied
      omega }

/-- **Adopting a snapshot** keeps the order in the end, and at its writes but the first. -/
theorem installAdopt {req : InstallSnapshotRequest} (h : Ordered contents req.lastIncludedIndex n)
    (hterm : n.log.snapshotIndex < req.lastIncludedIndex →
      req.lastIncludedIndex ≤ n.commitIndex →
        n.log.termAt req.lastIncludedIndex = req.lastIncludedTerm)
    (hrecorded : n.log.snapshotIndex < req.lastIncludedIndex →
      req.lastIncludedIndex ≤ n.lastApplied → req.lastIncludedIndex ≤ n.log.appliedIndex) :
    Ordered contents 0 (n.installAdopt req).1 ∧
      ∀ k m, (n.adoptWrites req)[k]? = some m →
        (k = 0 → req.lastIncludedIndex ≤ n.lastApplied) → Ordered contents 0 m := by
  unfold adoptWrites
  rcases n.installAdopt_cases req with ⟨hle, heq⟩ | ⟨hlt, heq⟩
  · rw [if_neg (by omega), heq]
    refine ⟨⟨h.holds, h.snapshot_le, h.applied_le, h.last_le, h.commit_le, h.term, ?_⟩,
      fun k m hm => by cases hm⟩
    have hcontents := h.contents_le
    have hsnap := h.snapshot_le
    have happlied := h.applied_le
    omega
  · rw [if_pos hlt, heq]
    rcases Nat.lt_or_ge n.lastApplied req.lastIncludedIndex with hahead | hbehind
    · have hsecond := h.adoptAhead hlt (hterm hlt) hahead
      refine ⟨refresh (hsecond.congr ?_ rfl rfl rfl hsecond.term), fun k m hm hfirst => ?_⟩
      · rw [adopted_log, if_pos hahead]
      · rw [if_pos hahead] at hm
        rcases k with _ | _ | k
        · exact absurd (hfirst rfl) (by omega)
        · cases hm
          exact hsecond
        · cases hm
    · have hfirst := h.adoptBehind hlt (hterm hlt) (hrecorded hlt hbehind)
      have hmax : max req.lastIncludedIndex n.lastApplied = n.lastApplied := max_eq_right hbehind
      have hcommit : max req.lastIncludedIndex n.commitIndex = n.commitIndex :=
        max_eq_right (hbehind.trans h.last_le)
      refine ⟨refresh (hfirst.congr ?_ hmax hcommit rfl hfirst.term), fun k m hm _ => ?_⟩
      · rw [adopted_log, if_neg (by omega)]
        rfl
      · rw [if_neg (by omega)] at hm
        rcases k with _ | k
        · cases hm
          exact hfirst
        · cases hm

/-- A restart that loses no effect keeps the order: it takes both counters from the disk. -/
theorem restart (h : Ordered contents ahead n)
    (hrecorded : contents n.machine ≤ n.log.appliedIndex) :
    Ordered contents 0 (n.restart n.machine) where
  holds := h.holds
  snapshot_le := h.snapshot_le
  applied_le := le_rfl
  last_le := le_rfl
  commit_le :=
    calc n.log.appliedIndex ≤ n.lastApplied := h.applied_le
      _ ≤ n.commitIndex := h.last_le
      _ ≤ n.log.lastIndex := h.commit_le
  term := fun hrole => absurd rfl hrole
  contents_le := hrecorded.trans (le_max_right _ _)

end Ordered

end DistDB.NodeModel
