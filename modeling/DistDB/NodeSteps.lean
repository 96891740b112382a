import DistDB.FullLog
import DistDB.NodeModel

/-!
What the functions of the Raft node do, one statement for each, so that what follows need
not look into them.
-/

namespace DistDB.NodeModel

open Checks

variable {σ α β : Type}

/-- What holds of the node that a function leaves, and is kept by the rest, holds after
both. -/
lemma Outcome.andThen_rule {P : Node σ → Prop} {x : Outcome σ α}
    {f : Node σ → α → Outcome σ β} (hx : P x.1)
    (hf : ∀ a, x.2 = .ok a → P (f x.1 a).1) : P (x.andThen f).1 := by
  unfold Outcome.andThen
  split
  · exact hx
  · rename_i a ha
    exact hf a ha

lemma Outcome.andThen_fst {x : Outcome σ α} {f : Node σ → α → Outcome σ β}
    (hf : ∀ n a, (f n a).1 = n) : (x.andThen f).1 = x.1 :=
  Outcome.andThen_rule (P := fun n => n = x.1) rfl fun a _ => hf x.1 a

/-- No command of the log makes the decoder of the conf changes throw. -/
def Decodable (log : RaftLog) : Prop := ∀ e ∈ log.entries, Succeeds
    (tryDecodeConfChange e.command)

namespace Node

lemma confChanges_succeeds {log : RaftLog} (h : Decodable log) (lo hi : ℕ) :
    Succeeds (confChanges log lo hi) := by
  unfold confChanges
  rw [succeeds_filterMapM]
  intro i _
  cases hget : log.get i with
  | none => exact succeeds_pure _
  | some entry =>
    obtain ⟨cc, hcc⟩ := h entry (RaftLog.get_mem hget)
    exact ⟨_, by simp only [hcc]; rfl⟩

lemma refreshMembership_succeeds {n : Node σ} (h : Decodable n.log) :
    Succeeds n.refreshMembership.2 := by
  obtain ⟨changes, hchanges⟩ := confChanges_succeeds h n.log.snapshotIndex n.log.lastIndex
  unfold refreshMembership
  rw [hchanges]
  exact succeeds_ok _

section Frame

variable (n : Node σ)

@[simp] lemma refreshMembership_id : n.refreshMembership.1.id = n.id := by
  unfold refreshMembership; split <;> rfl

@[simp] lemma refreshMembership_state : n.refreshMembership.1.state = n.state := by
  unfold refreshMembership; split <;> rfl

@[simp] lemma refreshMembership_log : n.refreshMembership.1.log = n.log := by
  unfold refreshMembership; split <;> rfl

@[simp] lemma refreshMembership_role : n.refreshMembership.1.role = n.role := by
  unfold refreshMembership; split <;> rfl

@[simp] lemma refreshMembership_commitIndex :
    n.refreshMembership.1.commitIndex = n.commitIndex := by
  unfold refreshMembership; split <;> rfl

@[simp] lemma refreshMembership_lastApplied :
    n.refreshMembership.1.lastApplied = n.lastApplied := by
  unfold refreshMembership; split <;> rfl

@[simp] lemma refreshMembership_machine : n.refreshMembership.1.machine = n.machine := by
  unfold refreshMembership; split <;> rfl

@[simp] lemma refreshMembership_membershipState :
    n.refreshMembership.1.membershipState = n.membershipState := by
  unfold refreshMembership; split <;> rfl

variable (now term : ℕ) (leaderId : NodeId)

@[simp] lemma heardFrom_log : (n.heardFrom now term leaderId).log = n.log := by
  unfold heardFrom; split <;> rfl

@[simp] lemma heardFrom_commitIndex :
    (n.heardFrom now term leaderId).commitIndex = n.commitIndex := by
  unfold heardFrom; split <;> rfl

@[simp] lemma heardFrom_lastApplied :
    (n.heardFrom now term leaderId).lastApplied = n.lastApplied := by
  unfold heardFrom; split <;> rfl

@[simp] lemma heardFrom_machine : (n.heardFrom now term leaderId).machine = n.machine := by
  unfold heardFrom; split <;> rfl

@[simp] lemma heardFrom_id : (n.heardFrom now term leaderId).id = n.id := by
  unfold heardFrom; split <;> rfl

@[simp] lemma heardFrom_membershipState :
    (n.heardFrom now term leaderId).membershipState = n.membershipState := by
  unfold heardFrom; split <;> rfl

lemma heardFrom_role : (n.heardFrom now term leaderId).role = .kFollower := by
  unfold heardFrom
  dsimp only
  split
  · rfl
  · rename_i hcheck
    by_contra hne
    exact hcheck (.inr hne)

lemma heardFrom_currentTerm (hle : n.state.currentTerm ≤ term) :
    (n.heardFrom now term leaderId).state.currentTerm = term := by
  unfold heardFrom becomeFollower
  rcases Nat.lt_or_eq_of_le hle with hlt | heq
  · simp [hlt]
  · split <;> simp [heq]

variable (req : InstallSnapshotRequest)

@[simp] lemma installCheck_log : (n.installCheck now req).1.log = n.log := by
  unfold installCheck; split
  · rfl
  · dsimp only
    split_ifs <;> simp

@[simp] lemma installCheck_lastApplied :
    (n.installCheck now req).1.lastApplied = n.lastApplied := by
  unfold installCheck; split
  · rfl
  · dsimp only
    split_ifs <;> simp

@[simp] lemma installCheck_machine : (n.installCheck now req).1.machine = n.machine := by
  unfold installCheck; split
  · rfl
  · dsimp only
    split_ifs <;> simp

end Frame

/-! ### Applying -/

/-- What processing a command does to the state machine, also when it throws. -/
def execute (cb : Callbacks σ) (s : σ) (index : ℕ) (command : Bytes) : σ :=
  match tryDecodeConfChange command with
  | .ok none => (cb.apply s index command).1
  | _ => s

variable {cb : Callbacks σ} {n : Node σ}

lemma applyEntry_eq (entry : LogEntry) : ∃ errors, (n.applyEntry cb entry).1 =
    { n with
      machine := execute cb n.machine entry.index entry.command
      applyErrors := errors } := by
  unfold applyEntry execute
  cases tryDecodeConfChange entry.command with
  | error e => exact ⟨n.applyErrors, rfl⟩
  | ok cc =>
    cases cc with
    | some cc => exact ⟨n.applyErrors, rfl⟩
    | none =>
      rcases cb.apply n.machine entry.index entry.command with ⟨machine, e | error⟩
      · exact ⟨n.applyErrors, rfl⟩
      · exact ⟨_, rfl⟩

lemma applyNext_eq : ∃ errors log, (n.applyNext cb).1 = { n with
      lastApplied := n.lastApplied + 1
      machine := (n.log.get (n.lastApplied + 1)).elim n.machine fun entry =>
        execute cb n.machine entry.index entry.command
      applyErrors := errors
      log := log } ∧
    (log = n.log ∨ log = n.log.setAppliedIndex (n.lastApplied + 1)) := by
  unfold applyNext
  dsimp only
  cases hget : n.log.get (n.lastApplied + 1) with
  | none => exact ⟨_, _, rfl, .inr rfl⟩
  | some entry =>
    obtain ⟨errors, heq⟩ :=
      @applyEntry_eq σ cb { n with lastApplied := n.lastApplied + 1 } entry
    unfold Outcome.andThen
    dsimp only
    cases hthrows : (applyEntry cb { n with lastApplied := n.lastApplied + 1 } entry).2 with
    | error e =>
      dsimp only
      rw [heq]
      exact ⟨_, _, rfl, .inl rfl⟩
    | ok u =>
      dsimp only
      rw [heq]
      exact ⟨_, _, rfl, .inr rfl⟩

lemma applyLoop_induct {P : Node σ → Prop} {k : ℕ} (hP : P n)
    (hnext : ∀ n', P n' → n.lastApplied ≤ n'.lastApplied →
      n'.lastApplied < n.lastApplied + k → P (n'.applyNext cb).1) : P (n.applyLoop cb k).1 := by
  induction k generalizing n with
  | zero => exact hP
  | succ k ih =>
    obtain ⟨errors, log, heq, -⟩ := @applyNext_eq σ cb n
    have hlast : (n.applyNext cb).1.lastApplied = n.lastApplied + 1 := by rw [heq]
    have hP' := hnext n hP le_rfl (by omega)
    unfold applyLoop Outcome.andThen
    cases (n.applyNext cb).2 with
    | error e => exact hP'
    | ok u => exact ih hP' fun n' hn' hle hlt => hnext n' hn' (by omega) (by omega)

/-- The rule for `ApplyCommitted`: `P` is kept by each pass of its loop, and `Q` follows from
it with and without the compaction. -/
lemma applyCommitted_induct {P Q : Node σ → Prop} (hP : P n)
    (hnext : ∀ n', P n' → n'.lastApplied < n.commitIndex → P (n'.applyNext cb).1)
    (hQ : ∀ n', P n' → Q n') (hcompact : ∀ n', P n' → Q n'.compact.1) :
    Q (n.applyCommitted cb).1 := by
  have hloop : P (n.applyLoop cb (n.commitIndex - n.lastApplied)).1 :=
    applyLoop_induct hP fun n' hn' hle hlt => hnext n' hn' (by omega)
  unfold applyCommitted Outcome.andThen
  cases (n.applyLoop cb (n.commitIndex - n.lastApplied)).2 with
  | error e => exact hQ _ hloop
  | ok u =>
    dsimp only
    split
    · exact hcompact _ hloop
    · exact hQ _ hloop

lemma compact_eq : n.compact.1 = n ∨ ∃ changes errors,
    confChanges n.log n.log.snapshotIndex n.lastApplied = .ok changes ∧
    n.compact.1 = { n with
      membershipState :=
        if changes = [] then n.membershipState else
          ⟨((changes.map Prod.snd).foldl (baseStep n.id)
            (n.membershipState.basePeers, n.membershipState.selfIsMember)).1,
          ((changes.map Prod.snd).foldl (baseStep n.id)
            (n.membershipState.basePeers, n.membershipState.selfIsMember)).2, n.ownAddress⟩
      log := n.log.compactTo n.lastApplied (n.log.termAt n.lastApplied)
      applyErrors := errors } := by
  unfold compact
  dsimp only
  cases hchanges : confChanges n.log n.log.snapshotIndex n.lastApplied with
  | error e => exact .inl rfl
  | ok changes => exact .inr ⟨changes, _, rfl, rfl⟩

end Node

end DistDB.NodeModel
