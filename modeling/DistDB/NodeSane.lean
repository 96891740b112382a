import DistDB.NodeHandlers

/-!
A Raft node whose log is aligned and whose indices are in order, whatever it reads back from
its disk (`Sane`), and what its handlers need in order to leave it so: that the requests of
leaders cut off nothing it has committed, and that a snapshot of what it has committed agrees
with its log.
-/

namespace DistDB.NodeModel.Node

open FullLog NodeHandlers

variable {σ : Type} {cb : Callbacks σ} {l : List LogEntry} {n n' m : Node σ}

/-- The node's log is what is left of `l`, and it has applied no more than it has committed, and
committed no more than there is. -/
structure Sane (l : List LogEntry) (n : Node σ) : Prop where
  holds : Holds n.log l
  last_le : n.lastApplied ≤ n.commitIndex
  commit_le : n.commitIndex ≤ l.length
  term : n.role ≠ .kFollower → 0 < n.state.currentTerm

/-- A request cuts off nothing that this node has committed. -/
def CutsNothing (n : Node σ) (req : AppendEntriesRequest) : Prop :=
  (0 < req.prevLogIndex → 0 < req.prevLogTerm) ∧
    (n.state.currentTerm ≤ req.term → ∀ log,
      n.log.appendEntriesFrom req.prevLogIndex req.prevLogTerm req.entries = some log →
        n.commitIndex ≤ log.lastIndex)

namespace Sane

lemma quiet (h : Sane l n) (hquiet : Quiet n n') : Sane l n' where
  holds := hquiet.log ▸ h.holds
  last_le := by rw [hquiet.lastApplied, hquiet.commitIndex]; exact h.last_le
  commit_le := by rw [hquiet.commitIndex]; exact h.commit_le
  term := fun hrole => by
    rcases hquiet.role with ⟨hsame, hterm⟩ | hfollower | hpos
    · rw [hterm]
      exact h.term (hsame ▸ hrole)
    · exact absurd hfollower hrole
    · exact hpos

lemma applyNext (h : Sane l n) (hlt : n.lastApplied < n.commitIndex) :
    Sane l (n.applyNext cb).1 := by
  obtain ⟨errors, log, heq, hlog⟩ := @applyNext_eq σ cb n
  have hholds : Holds log l := by
    rcases hlog with rfl | rfl
    · exact h.holds
    · exact h.holds.setAppliedIndex _
  rw [heq]
  exact ⟨hholds, hlt, h.commit_le, h.term⟩

lemma compact (h : Sane l n) : Sane l n.compact.1 := by
  rcases n.compact_eq with heq | ⟨changes, errors, -, heq⟩
  · rwa [heq]
  · rw [heq]
    refine ⟨?_, h.last_le, h.commit_le, h.term⟩
    dsimp only
    rcases Nat.lt_or_ge n.lastApplied n.log.snapshotIndex with hlt | hge
    · rw [Holds.compactTo_of_le hlt.le]
      exact h.holds
    · exact (h.holds.compactTo_termAt hge (h.last_le.trans h.commit_le)).1

lemma applyCommitted (h : Sane l n) : Sane l (n.applyCommitted cb).1 := by
  refine applyCommitted_induct (P := fun m => Sane l m ∧ m.commitIndex = n.commitIndex)
    (Q := Sane l) ⟨h, rfl⟩ ?_ (fun m hm => hm.1) fun m hm => hm.1.compact
  rintro m ⟨hm, hcommit⟩ hlt
  refine ⟨hm.applyNext (by omega), ?_⟩
  obtain ⟨errors, log, heq, -⟩ := @applyNext_eq σ cb m
  rw [heq]
  exact hcommit

lemma withCommitIndex (h : Sane l n) {i : ℕ} (hlo : n.commitIndex ≤ i) (hhi : i ≤ l.length) :
    Sane l (n.withCommitIndex i) :=
  ⟨h.holds, h.last_le.trans hlo, hhi, h.term⟩

lemma withLog (h : Sane l n) {log : RaftLog} {l' : List LogEntry} (hholds : Holds log l')
    (hcommit : n.commitIndex ≤ l'.length) : Sane l' (n.withLog log) :=
  ⟨hholds, h.last_le, hcommit, h.term⟩

lemma logged (h : Sane l n) (command : Bytes) :
    Sane (l ++ [⟨l.length + 1, n.state.currentTerm, command⟩])
      (n.withLog (n.log.append n.state.currentTerm command).1) :=
  h.withLog (h.holds.append _ _) (h.commit_le.trans (by simp))

lemma appended (h : Sane l n) (command : Bytes) :
    Sane (l ++ [⟨l.length + 1, n.state.currentTerm, command⟩])
      (n.withLog (n.log.append n.state.currentTerm command).1).refreshMembership.1 :=
  (h.logged command).quiet (.refresh _)

lemma majorityIndex_le (h : Sane l n) (hrole : n.role = .kLeader)
    (hterm : n.log.termAt n.majorityIndex = n.state.currentTerm) :
    n.majorityIndex ≤ l.length := by
  have hpos := h.term (by rw [hrole]; decide)
  have hlast := h.holds.lastIndex
  have hsnap := h.holds.snapshot_le
  unfold RaftLog.termAt at hterm
  split_ifs at hterm with heq hout
  · omega
  · omega
  · omega

lemma advanceApplies (h : Sane l n) (hrole : n.role = .kLeader)
    (hm : n.advanceApplies = some m) : Sane l m := by
  unfold Node.advanceApplies at hm
  split_ifs at hm with hcheck
  cases hm
  exact h.withCommitIndex hcheck.1.le (h.majorityIndex_le hrole hcheck.2)

lemma maybeAdvance (h : Sane l n) (hrole : n.role = .kLeader) :
    Sane l (n.maybeAdvanceCommitIndex cb).1 := by
  rcases @maybeAdvance_cases σ cb n with ⟨-, heq⟩ | ⟨m, hm, -, -, -, heq | heq⟩
  · rwa [heq]
  · rw [heq]
    exact (h.advanceApplies hrole hm).applyCommitted
  · rw [heq]
    exact (h.advanceApplies hrole hm).applyCommitted.quiet (.stepDownIfRemoved _)

lemma taken (h : Sane l n) {req : AppendEntriesRequest} {log : RaftLog} (hcut : CutsNothing n req)
    (hterm : n.state.currentTerm ≤ req.term)
    (hlog : n.log.appendEntriesFrom req.prevLogIndex req.prevLogTerm req.entries = some log) :
    ∃ l', Holds log l' ∧ n.commitIndex ≤ l'.length := by
  obtain ⟨hprev, hcommit⟩ := hcut
  have hle := hcommit hterm log hlog
  obtain ⟨rfl, hwhere⟩ := h.holds.appendEntriesFrom_some hprev hlog
  obtain ⟨-, l', hholds⟩ := h.holds.putAll (Nat.succ_pos req.prevLogIndex)
    (by omega) req.entries
  exact ⟨l', hholds, hholds.lastIndex ▸ hle⟩

lemma follows (h : Sane l n) {leaderCommit : ℕ}
    (hsettles : Settles cb (Follows leaderCommit l.length) n n') : Sane l n' := by
  refine hsettles.keeps h fun a b ha hmove => ?_
  cases hmove with
  | refresh => exact ha.quiet (.refresh a)
  | commit i hi =>
    obtain ⟨hlt, rfl⟩ := hi
    have hle := ha.commit_le
    exact (ha.withCommitIndex (le_min hlt.le hle) (min_le_right _ _)).applyCommitted
  | note => exact ⟨ha.holds, ha.last_le, ha.commit_le, ha.term⟩
  | stepDown => exact ⟨ha.holds, ha.last_le, ha.commit_le, fun hne => absurd rfl hne⟩

lemma adopted (h : Sane l n) {req : InstallSnapshotRequest}
    (hlt : n.log.snapshotIndex < req.lastIncludedIndex)
    (hagree : req.lastIncludedIndex ≤ n.commitIndex →
      n.log.termAt req.lastIncludedIndex = req.lastIncludedTerm) :
        ∃ l', Sane l' (n.adopted req) := by
  obtain ⟨l', hholds, hle⟩ : ∃ l', Holds (n.log.compactTo req.lastIncludedIndex
      req.lastIncludedTerm) l' ∧ max req.lastIncludedIndex n.commitIndex ≤ l'.length := by
    have hcommit := h.commit_le
    rcases Nat.lt_or_ge n.commitIndex req.lastIncludedIndex with hahead | hbehind
    · obtain ⟨l', hl'⟩ := h.holds.compactTo_any req.lastIncludedIndex req.lastIncludedTerm
      have hsnap := hl'.snapshot_le
      unfold RaftLog.compactTo at hsnap
      rw [if_neg (by omega)] at hsnap
      dsimp only at hsnap
      exact ⟨l', hl', by omega⟩
    · rw [← hagree hbehind]
      exact ⟨l, (h.holds.compactTo_termAt hlt.le (hbehind.trans hcommit)).1, by omega⟩
  refine ⟨l', ?_, max_le_max le_rfl h.last_le, hle, h.term⟩
  rw [adopted_log]
  split
  · exact hholds.setAppliedIndex _
  · exact hholds

end Sane

end DistDB.NodeModel.Node
