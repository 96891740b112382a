import DistDB.NodeMembers
import DistDB.NodeMoves

/-!
A node whose log, members and counters fit together (`Sound`), and what applying, compacting
and restarting do to it, for an apply callback that keeps to its contract: it does not throw.
-/

namespace DistDB.NodeModel

open Config FullLog Checks TermLog

variable {σ : Type}

/-- The contract of the apply callback: it must not throw. -/
def Callbacks.Total (cb : Callbacks σ) : Prop := ∀ s i c, Succeeds (cb.apply s i c).2

namespace Node

variable {cb : Callbacks σ}

lemma applyEntry_total (hcb : cb.Total) {n : Node σ} {entry : LogEntry}
    (hd : Succeeds (tryDecodeConfChange entry.command)) : (n.applyEntry cb entry).2 = .ok () := by
  obtain ⟨cc, hcc⟩ := hd
  unfold applyEntry
  rw [hcc]
  cases cc with
  | some cc => rfl
  | none =>
    obtain ⟨error, herror⟩ := hcb n.machine entry.index entry.command
    dsimp only
    generalize cb.apply n.machine entry.index entry.command = out at herror
    obtain ⟨machine, result⟩ := out
    cases herror
    rfl

lemma applyNext_total (hcb : cb.Total) {n : Node σ} (hd : Decodable n.log) :
    ∃ machine errors, n.applyNext cb = ({ n with
      lastApplied := n.lastApplied + 1
      machine := machine
      applyErrors := errors
      log := n.log.setAppliedIndex (n.lastApplied + 1) }, .ok ()) := by
  unfold applyNext
  dsimp only
  cases hget : n.log.get (n.lastApplied + 1) with
  | none => exact ⟨_, _, rfl⟩
  | some entry =>
    obtain ⟨errors, heq⟩ :=
      @applyEntry_eq σ cb { n with lastApplied := n.lastApplied + 1 } entry
    have hok := applyEntry_total hcb (n := { n with lastApplied := n.lastApplied + 1 })
      (hd entry (RaftLog.get_mem hget))
    unfold Outcome.andThen
    dsimp only
    rw [hok, heq]
    exact ⟨_, _, rfl⟩

lemma applyLoop_total (hcb : cb.Total) (k : ℕ) {n : Node σ} (hd : Decodable n.log)
    (hsaved : n.log.appliedIndex = n.lastApplied) :
    ∃ machine errors, n.applyLoop cb k = ({ n with
      lastApplied := n.lastApplied + k
      machine := machine
      applyErrors := errors
      log := n.log.setAppliedIndex (n.lastApplied + k) }, .ok ()) := by
  induction k generalizing n with
  | zero =>
    have hlog : n.log.setAppliedIndex n.lastApplied = n.log := by
      rw [← hsaved]
      rfl
    exact ⟨n.machine, n.applyErrors, by rw [Nat.add_zero, hlog]; rfl⟩
  | succ k ih =>
    obtain ⟨machine, errors, heq⟩ := applyNext_total hcb hd
    obtain ⟨machine', errors', heq'⟩ := ih (n := (n.applyNext cb).1) (by rw [heq]; exact hd)
      (by rw [heq]; rfl)
    unfold applyLoop Outcome.andThen
    rw [heq] at heq' ⊢
    dsimp only at heq' ⊢
    rw [heq', Nat.add_assoc, Nat.add_comm 1 k]
    exact ⟨machine', errors', rfl⟩

/-! ### Sound nodes -/

/-- The node is server `v` with the whole log `l`, of a cluster whose first members are
`base`: it has applied what it knows to be committed, and saved that. -/
structure Sound (base : Finset NodeId) (v : NodeId) (l : List LogEntry) (n : Node σ) : Prop where
  id : n.id = v
  holds : Holds n.log l
  decodable : ∀ e ∈ l, Succeeds (tryDecodeConfChange e.command)
  stored : Stored v n (config base (l.take n.log.snapshotIndex))
  compacted : n.log.snapshotIndex ≤ n.lastApplied
  saved : n.log.appliedIndex = n.lastApplied
  applied : n.lastApplied = n.commitIndex
  committed : n.commitIndex ≤ l.length

namespace Sound

variable {base : Finset NodeId} {v : NodeId} {l : List LogEntry} {n : Node σ}

lemma decodable_log (h : Sound base v l n) : Decodable n.log := fun e he => by
  rw [h.holds.entries] at he
  exact h.decodable e (List.mem_of_mem_drop he)

lemma congr {n' : Node σ} (h : Sound base v l n) (hid : n'.id = n.id) (hlog : n'.log = n.log)
    (hmembership : n'.membershipState = n.membershipState)
    (happlied : n'.lastApplied = n.lastApplied)
    (hcommit : n'.commitIndex = n.commitIndex) : Sound base v l n' where
  id := hid.trans h.id
  holds := hlog ▸ h.holds
  decodable := h.decodable
  stored := by
    unfold Stored
    rw [hlog, hmembership]
    exact h.stored
  compacted := by rw [hlog, happlied]; exact h.compacted
  saved := by rw [hlog, happlied]; exact h.saved
  applied := by rw [happlied, hcommit]; exact h.applied
  committed := hcommit ▸ h.committed

lemma refreshMembership (h : Sound base v l n) : Sound base v l n.refreshMembership.1 :=
  h.congr n.refreshMembership_id n.refreshMembership_log n.refreshMembership_membershipState
    n.refreshMembership_lastApplied n.refreshMembership_commitIndex

lemma knows (h : Sound base v l n) : Knows v n.refreshMembership.1 (config base l) :=
  refresh_knows h.holds h.decodable_log h.id h.stored

lemma restart (h : Sound base v l n) (machine : σ) : Sound base v l (n.restart machine) where
  id := h.id
  holds := h.holds
  decodable := h.decodable
  stored := h.stored
  compacted := h.compacted.trans h.saved.ge
  saved := rfl
  applied := rfl
  committed := by
    have := h.committed
    rw [← h.applied, ← h.saved] at this
    exact this

lemma holds_compact (h : Sound base v l n) :
    Holds (n.log.compactTo n.lastApplied (n.log.termAt n.lastApplied)) l ∧
    (n.log.compactTo n.lastApplied (n.log.termAt n.lastApplied)).snapshotIndex = n.lastApplied ∧
    (n.log.compactTo n.lastApplied (n.log.termAt n.lastApplied)).appliedIndex =
      n.log.appliedIndex :=
  h.holds.compactTo_termAt h.compacted (h.applied.le.trans h.committed)

/-- **Compacting** keeps a node sound. -/
theorem compact (h : Sound base v l n) : Sound base v l n.compact.1 := by
  have hstored := compact_stored h.holds h.decodable_log h.id h.stored h.compacted
  obtain ⟨hholds, hindex, happlied⟩ := h.holds_compact
  rcases n.compact_eq with heq | ⟨changes, errors, -, heq⟩
  · rwa [heq]
  rw [heq] at hstored ⊢
  exact {
    id := h.id
    holds := hholds
    decodable := h.decodable
    stored := by
      unfold Stored at hstored ⊢
      dsimp only at hstored ⊢
      rwa [hindex]
    compacted := hindex.le
    saved := happlied.trans h.saved
    applied := h.applied
    committed := h.committed }

/-- **Committing**: a node that commits more of its log stays sound. -/
theorem commit (h : Sound base v l n) (hcb : cb.Total) {i : ℕ} (hlt : n.commitIndex ≤ i)
    (hle : i ≤ l.length) : Sound base v l ((n.withCommitIndex i).applyCommitted cb).1 := by
  obtain ⟨machine, errors, heq⟩ := applyLoop_total (n := n.withCommitIndex i) hcb
    (i - n.lastApplied) h.decodable_log h.saved
  have happlied := h.applied
  have hcompacted := h.compacted
  have hlast : n.lastApplied + (i - n.lastApplied) = i := by omega
  simp only [withCommitIndex_lastApplied, withCommitIndex_log, hlast] at heq
  unfold Node.applyCommitted Outcome.andThen
  rw [withCommitIndex_commitIndex, withCommitIndex_lastApplied, heq]
  have hsound : Sound base v l { n.withCommitIndex i with
      lastApplied := i
      machine := machine
      applyErrors := errors
      log := n.log.setAppliedIndex i } :=
    { id := h.id
      holds := h.holds.setAppliedIndex i
      decodable := h.decodable
      stored := h.stored
      compacted := by
        show n.log.snapshotIndex ≤ i
        omega
      saved := rfl
      applied := rfl
      committed := hle }
  dsimp only
  split
  · exact hsound.compact
  · exact hsound

end Sound

lemma compact_frame (n : Node σ) : ∃ errors log membership, n.compact.1 = { n with
      applyErrors := errors
      log := log
      membershipState := membership } := by
  rcases n.compact_eq with heq | ⟨changes, errors, -, heq⟩ <;> rw [heq]
  · exact ⟨n.applyErrors, n.log, n.membershipState, rfl⟩
  · exact ⟨_, _, _, rfl⟩

lemma applyCommitted_frame (n : Node σ) : ∃ last machine errors log membership,
    (n.applyCommitted cb).1 = { n with
      lastApplied := last
      machine := machine
      applyErrors := errors
      log := log
      membershipState := membership } := by
  refine applyCommitted_induct
    (P := fun n' => ∃ last machine errors log membership, n' = { n with
      lastApplied := last
      machine := machine
      applyErrors := errors
      log := log
      membershipState := membership }) (Q := fun n' => ∃ last machine errors log membership,
        n' = { n with
      lastApplied := last
      machine := machine
      applyErrors := errors
      log := log
      membershipState := membership }) ⟨_, _, _, _, _, rfl⟩ ?_ (fun n' h => h) ?_
  · rintro n' ⟨last, machine, errors, log, membership, rfl⟩ -
    obtain ⟨errors', log', heq, -⟩ := @applyNext_eq σ cb { n with
      lastApplied := last
      machine := machine
      applyErrors := errors
      log := log
      membershipState := membership }
    exact ⟨_, _, _, _, _, heq⟩
  · rintro n' ⟨last, machine, errors, log, membership, rfl⟩
    obtain ⟨errors', log', membership', heq⟩ := compact_frame { n with
      lastApplied := last
      machine := machine
      applyErrors := errors
      log := log
      membershipState := membership }
    exact ⟨_, _, _, _, _, heq⟩

/-- **The rule for the machine**: it sees the committed entries that were not applied yet. -/
theorem applyCommitted_machine {P : σ → Prop} {n : Node σ} {l : List LogEntry}
    (h : Holds n.log l) (hP : P n.machine)
    (hnext : ∀ i e m, n.lastApplied ≤ i → i < n.commitIndex → l[i]? = some e → P m →
      P (execute cb m e.index e.command)) : P (n.applyCommitted cb).1.machine := by
  refine applyCommitted_induct
    (P := fun n' => Holds n'.log l ∧ n.lastApplied ≤ n'.lastApplied ∧ P n'.machine)
    (Q := fun n' => P n'.machine) ⟨h, le_rfl, hP⟩ ?_ (fun n' h => h.2.2) ?_
  · rintro n' ⟨hholds, hle, hmachine⟩ hlt
    obtain ⟨errors, log, heq, hlog⟩ := @applyNext_eq σ cb n'
    rw [heq]
    refine ⟨?_, by dsimp only; omega, ?_⟩
    · rcases hlog with rfl | rfl
      · exact hholds
      · exact hholds.setAppliedIndex _
    · dsimp only
      cases hget : n'.log.get (n'.lastApplied + 1) with
      | none => exact hmachine
      | some e =>
        have hin : n'.log.snapshotIndex < n'.lastApplied + 1 := by
          by_contra hout
          rw [Holds.get_of_le (by omega)] at hget
          cases hget
        rw [hholds.get hin] at hget
        exact hnext _ e _ hle hlt hget hmachine
  · rintro n' ⟨-, -, hmachine⟩
    obtain ⟨errors, log, membership, heq⟩ := n'.compact_frame
    rwa [heq]

end Node

end DistDB.NodeModel
