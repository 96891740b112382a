import DistDB.NodeMoves

/-!
What the functions of the Raft node leave alone.

`ApplyCommitted` moves the applied index, the state machine, the errors, the log and the
stored members, and nothing else (`applyCommitted_eq`). The whole log of the node stays the
same, and the boundary and the applied index move up to the commit index at most
(`Keeps.applyCommitted`).
-/

namespace DistDB.NodeModel.Node

open FullLog

variable {σ : Type} {cb : Callbacks σ}

/-- The node with what `ApplyCommitted` writes. -/
@[simps]
def applied (n : Node σ) (lastApplied : ℕ) (machine : σ) (errors : OrdMap ℕ Bytes)
    (log : RaftLog) (members : MembershipState) : Node σ :=
  { n with
    lastApplied := lastApplied
    machine := machine
    applyErrors := errors
    log := log
    membershipState := members }

lemma applyCommitted_eq (n : Node σ) : ∃ lastApplied machine errors log members,
    (n.applyCommitted cb).1 = n.applied lastApplied machine errors log members := by
  refine applyCommitted_induct
    (P := fun m => ∃ last machine errors log members,
      m = n.applied last machine errors log members)
    (Q := fun m => ∃ last machine errors log members,
      m = n.applied last machine errors log members)
    ⟨n.lastApplied, n.machine, n.applyErrors, n.log, n.membershipState, rfl⟩ ?_
      (fun m hm => hm) ?_
  · rintro m ⟨last, machine, errors, log, members, rfl⟩ -
    obtain ⟨errors', log', heq, -⟩ :=
      @applyNext_eq σ cb (n.applied last machine errors log members)
    rw [heq]
    exact ⟨_, _, _, _, _, rfl⟩
  · rintro m ⟨last, machine, errors, log, members, rfl⟩
    rcases (n.applied last machine errors log members).compact_eq with heq | ⟨_, _, -, heq⟩
    · rw [heq]
      exact ⟨_, _, _, _, _, rfl⟩
    · rw [heq]
      exact ⟨_, _, _, _, _, rfl⟩

section Frame

variable (n : Node σ)

@[simp] lemma applyCommitted_id : (n.applyCommitted cb).1.id = n.id := by
  obtain ⟨_, _, _, _, _, heq⟩ := @applyCommitted_eq σ cb n
  rw [heq, applied_id]

@[simp] lemma applyCommitted_state : (n.applyCommitted cb).1.state = n.state := by
  obtain ⟨_, _, _, _, _, heq⟩ := @applyCommitted_eq σ cb n
  rw [heq, applied_state]

@[simp] lemma applyCommitted_role : (n.applyCommitted cb).1.role = n.role := by
  obtain ⟨_, _, _, _, _, heq⟩ := @applyCommitted_eq σ cb n
  rw [heq, applied_role]

@[simp] lemma applyCommitted_commitIndex : (n.applyCommitted cb).1.commitIndex = n.commitIndex := by
  obtain ⟨_, _, _, _, _, heq⟩ := @applyCommitted_eq σ cb n
  rw [heq, applied_commitIndex]

@[simp] lemma applyCommitted_peers : (n.applyCommitted cb).1.peers = n.peers := by
  obtain ⟨_, _, _, _, _, heq⟩ := @applyCommitted_eq σ cb n
  rw [heq, applied_peers]

@[simp] lemma applyCommitted_selfIsMember :
    (n.applyCommitted cb).1.selfIsMember = n.selfIsMember := by
  obtain ⟨_, _, _, _, _, heq⟩ := @applyCommitted_eq σ cb n
  rw [heq, applied_selfIsMember]

@[simp] lemma applyCommitted_pendingSelfRemovalIndex :
    (n.applyCommitted cb).1.pendingSelfRemovalIndex = n.pendingSelfRemovalIndex := by
  obtain ⟨_, _, _, _, _, heq⟩ := @applyCommitted_eq σ cb n
  rw [heq, applied_pendingSelfRemovalIndex]

@[simp] lemma applyCommitted_nextIndex : (n.applyCommitted cb).1.nextIndex = n.nextIndex := by
  obtain ⟨_, _, _, _, _, heq⟩ := @applyCommitted_eq σ cb n
  rw [heq, applied_nextIndex]

@[simp] lemma applyCommitted_matchIndex : (n.applyCommitted cb).1.matchIndex = n.matchIndex := by
  obtain ⟨_, _, _, _, _, heq⟩ := @applyCommitted_eq σ cb n
  rw [heq, applied_matchIndex]

@[simp] lemma applyCommitted_replicationInFlight :
    (n.applyCommitted cb).1.replicationInFlight = n.replicationInFlight := by
  obtain ⟨_, _, _, _, _, heq⟩ := @applyCommitted_eq σ cb n
  rw [heq, applied_replicationInFlight]

end Frame

/-! ### The log of a node -/

/-- The node's log is what is left of `l`, and its indices are in order. -/
structure Keeps (l : List LogEntry) (n : Node σ) : Prop where
  holds : Holds n.log l
  snapshot_le : n.log.snapshotIndex ≤ n.lastApplied
  applied_le : n.lastApplied ≤ n.commitIndex
  commit_le : n.commitIndex ≤ l.length

variable {l : List LogEntry} {n n' : Node σ}

lemma Keeps.congr (h : Keeps l n) (hlog : n'.log = n.log) (hlast : n'.lastApplied = n.lastApplied)
    (hcommit : n'.commitIndex = n.commitIndex) : Keeps l n' :=
  ⟨hlog ▸ h.holds, by rw [hlog, hlast]; exact h.snapshot_le,
    by rw [hlast, hcommit]; exact h.applied_le, hcommit ▸ h.commit_le⟩

lemma Keeps.applyNext (h : Keeps l n) (hlt : n.lastApplied < n.commitIndex) :
    Keeps l (n.applyNext cb).1 ∧ (n.applyNext cb).1.log.snapshotIndex = n.log.snapshotIndex ∧
      (n.applyNext cb).1.log.entries = n.log.entries := by
  obtain ⟨errors, log, heq, hlog⟩ := @applyNext_eq σ cb n
  have hlog' : log.snapshotIndex = n.log.snapshotIndex ∧ log.entries = n.log.entries ∧
      Holds log l := by
    rcases hlog with rfl | rfl
    · exact ⟨rfl, rfl, h.holds⟩
    · exact ⟨rfl, rfl, h.holds.setAppliedIndex _⟩
  have hsnap := h.snapshot_le
  rw [heq]
  refine ⟨⟨hlog'.2.2, ?_, hlt, h.commit_le⟩, hlog'.1, hlog'.2.1⟩
  show log.snapshotIndex ≤ n.lastApplied + 1
  omega

lemma Keeps.compact (h : Keeps l n) : Keeps l n.compact.1 ∧
    n.log.snapshotIndex ≤ n.compact.1.log.snapshotIndex ∧
    n.compact.1.lastApplied = n.lastApplied := by
  rcases n.compact_eq with heq | ⟨changes, errors, -, heq⟩
  · rw [heq]
    exact ⟨h, le_rfl, rfl⟩
  · obtain ⟨hholds, hsnap, -⟩ := h.holds.compactTo_termAt h.snapshot_le
      (h.applied_le.trans h.commit_le)
    rw [heq]
    refine ⟨⟨hholds, ?_, h.applied_le, h.commit_le⟩, ?_, rfl⟩
    · show (n.log.compactTo n.lastApplied (n.log.termAt n.lastApplied)).snapshotIndex ≤ _
      rw [hsnap]
    · show _ ≤ (n.log.compactTo n.lastApplied (n.log.termAt n.lastApplied)).snapshotIndex
      rw [hsnap]
      exact h.snapshot_le

/-- **What ApplyCommitted keeps**: the whole log; the boundary and the applied index only move
up. -/
theorem Keeps.applyCommitted (h : Keeps l n) : Keeps l (n.applyCommitted cb).1 ∧
    n.log.snapshotIndex ≤ (n.applyCommitted cb).1.log.snapshotIndex ∧
    n.lastApplied ≤ (n.applyCommitted cb).1.lastApplied := by
  refine applyCommitted_induct
    (P := fun m => Keeps l m ∧ m.commitIndex = n.commitIndex ∧
      n.log.snapshotIndex ≤ m.log.snapshotIndex ∧ n.lastApplied ≤ m.lastApplied)
    (Q := fun m => Keeps l m ∧ n.log.snapshotIndex ≤ m.log.snapshotIndex ∧
      n.lastApplied ≤ m.lastApplied)
    ⟨h, rfl, le_rfl, le_rfl⟩ ?_ (fun m hm => ⟨hm.1, hm.2.2⟩) ?_
  · rintro m ⟨hm, hcommit, hsnap, hlast⟩ hlt
    obtain ⟨hkeeps, hsame, -⟩ := @Keeps.applyNext σ cb l m hm (by omega)
    obtain ⟨errors, log, heq, -⟩ := @applyNext_eq σ cb m
    refine ⟨hkeeps, ?_, ?_, ?_⟩
    · rw [heq]
      exact hcommit
    · rw [hsame]
      exact hsnap
    · rw [heq]
      exact hlast.trans (Nat.le_succ _)
  · rintro m ⟨hm, hcommit, hsnap, hlast⟩
    obtain ⟨hkeeps, hmoved, hsame⟩ := hm.compact
    exact ⟨hkeeps, hsnap.trans hmoved, hsame ▸ hlast⟩

end DistDB.NodeModel.Node
