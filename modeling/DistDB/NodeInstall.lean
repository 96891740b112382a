import DistDB.NodeSteps
import DistDB.Runs

/-!
Installing a snapshot on a node that applies committed commands at the same time.

An install checks the request, then replaces the state machine without holding the mutex,
then adopts the snapshot; between these steps the node handles other requests. The check
compares the request with how far the log is compacted, and not with how far the state
machine is. So an install may replace a state machine that is ahead of it, and the adoption
then leaves `lastApplied` where it was (`install_rolls_back`). Without that, and without
applying commands to a state machine that is already ahead of `lastApplied`, no command is
lost or repeated (`machine_exact`).
-/

namespace DistDB.NodeInstall

open NodeModel NodeModel.Node FullLog Checks

variable {σ : Type}

/-- Where the install in progress is; `installMutex` admits one at a time. -/
inductive Install
  | none
  | checked (req : InstallSnapshotRequest)
  | restored (req : InstallSnapshotRequest)

structure Sys (σ : Type) where
  node : Node σ
  install : Install

inductive Event
  | append (now : ℕ) (req : AppendEntriesRequest)
  /-- `commit_index_` is set and `ApplyCommitted` called, as a leader does. -/
  | commit (index : ℕ)
  | check (now : ℕ) (req : InstallSnapshotRequest)
  | restore
  | adopt

def step (cb : Callbacks σ) (s : Sys σ) : Event → Option (Sys σ)
  | .append now req => some ⟨(s.node.handleAppendEntries cb now req).1, s.install⟩
  | .commit index => some ⟨((s.node.withCommitIndex index).applyCommitted cb).1, s.install⟩
  | .check now req =>
    match s.install, s.node.installCheck now req with
    | .none, (n, none) => some ⟨n, .checked req⟩
    | .none, (n, some _) => some ⟨n, .none⟩
    | _, _ => none
  | .restore =>
    match s.install with
    | .checked req => some ⟨s.node.installRestore cb req, .restored req⟩
    | _ => none
  | .adopt =>
    match s.install with
    | .restored req => some ⟨(s.node.installAdopt req).1, .none⟩
    | _ => none

/-- The state machine after the committed commands up to an index. -/
def executed (cb : Callbacks σ) (committed : ℕ → Bytes) (start : σ) : ℕ → σ
  | 0 => start
  | i + 1 => execute cb (executed cb committed start i) (i + 1) (committed (i + 1))

/-- The log holds the committed commands at the indices above `lo` up to `hi`. -/
def Agrees (committed : ℕ → Bytes) (log : RaftLog) (lo hi : ℕ) : Prop :=
  hi ≤ log.lastIndex ∧
    ∀ i, lo < i → i ≤ hi → ∀ entry, log.get i = some entry → entry.command = committed i

/-- The data of the request is the state after the commands it includes. -/
def Carries (cb : Callbacks σ) (committed : ℕ → Bytes) (start : σ)
    (req : InstallSnapshotRequest) :
    Prop :=
  ∀ s, cb.restore s req.data = executed cb committed start req.lastIncludedIndex

/-- The requests a node gets: entries come from a log, what becomes committed is the
committed commands, and a snapshot carries the state it says. -/
def Allowed (cb : Callbacks σ) (committed : ℕ → Bytes) (start : σ)
    (s : Sys σ) : Event → Prop
  | .append _ req => (0 < req.prevLogIndex → 0 < req.prevLogTerm) ∧
      ∀ log, s.node.log.appendEntriesFrom req.prevLogIndex req.prevLogTerm req.entries =
        some log → Agrees committed log s.node.lastApplied (min req.leaderCommit log.lastIndex)
  | .commit index => Agrees committed s.node.log s.node.lastApplied index
  | .check _ req => Carries cb committed start req
  | .restore => True
  | .adopt => True

/-- The request makes the node apply a command. -/
def Commits (n : Node σ) (req : AppendEntriesRequest) : Prop :=
  n.state.currentTerm ≤ req.term ∧ n.commitIndex < req.leaderCommit ∧
    ∃ log, n.log.appendEntriesFrom req.prevLogIndex req.prevLogTerm req.entries = some log ∧
      n.lastApplied < min req.leaderCommit log.lastIndex

/-- A state machine is not replaced by one that is behind it, and no command is applied to
one that is ahead of `lastApplied`. -/
def Fits (s : Sys σ) : Event → Prop
  | .append _ req => ∀ inst, s.install = .restored inst →
      s.node.lastApplied < inst.lastIncludedIndex → ¬ Commits s.node req
  | .commit index => ∀ inst, s.install = .restored inst →
      s.node.lastApplied < inst.lastIncludedIndex → index ≤ s.node.lastApplied
  | .check _ _ => True
  | .restore => ∀ inst, s.install = .checked inst →
      s.node.lastApplied ≤ inst.lastIncludedIndex
  | .adopt => True

/-- The index the state machine is at, when an install is in progress. -/
def target : Install → ℕ
  | .restored req => req.lastIncludedIndex
  | _ => 0

/-- The state machine has executed the committed commands up to `lastApplied`, or up to
`ahead` if that is more. -/
structure NodeInv (cb : Callbacks σ) (committed : ℕ → Bytes) (start : σ) (ahead : ℕ)
    (n : Node σ) :
    Prop where
  holds : ∃ l, Holds n.log l
  snapshot_le : n.log.snapshotIndex ≤ n.lastApplied
  machine : n.machine = executed cb committed start (max ahead n.lastApplied)

structure Inv (cb : Callbacks σ) (committed : ℕ → Bytes) (start : σ) (s : Sys σ) : Prop where
  node : NodeInv cb committed start (target s.install) s.node
  carries : ∀ req, s.install = .checked req ∨ s.install = .restored req →
    Carries cb committed start req

variable {cb : Callbacks σ} {committed : ℕ → Bytes} {start : σ} {ahead : ℕ} {n : Node σ}

/-! ### Steps -/

lemma NodeInv.compact (h : NodeInv cb committed start ahead n) :
    NodeInv cb committed start ahead n.compact.1 := by
  obtain ⟨l, hl⟩ := h.holds
  rcases n.compact_eq with heq | ⟨changes, errors, -, heq⟩
  · rw [heq]; exact h
  · rw [heq]
    exact {
      holds := hl.compactTo_any n.lastApplied _
      snapshot_le := RaftLog.snapshotIndex_compactTo_le h.snapshot_le le_rfl
      machine := h.machine }

lemma NodeInv.applyNext {hi : ℕ} (h : NodeInv cb committed start ahead n)
    (hahead : ahead ≤ n.lastApplied) (hagrees : Agrees committed n.log n.lastApplied hi)
    (hlt : n.lastApplied < hi) :
    NodeInv cb committed start ahead (n.applyNext cb).1 := by
  obtain ⟨l, hl⟩ := h.holds
  obtain ⟨errors, log, heq, hlog⟩ := @applyNext_eq σ cb n
  have hsnap := h.snapshot_le
  obtain ⟨entry, hentry⟩ : ∃ entry, n.log.get (n.lastApplied + 1) = some entry := by
    have hle := hagrees.1
    rw [hl.lastIndex] at hle
    rw [hl.get (by omega), Nat.add_sub_cancel]
    exact ⟨_, List.getElem?_eq_getElem (by omega)⟩
  have hindex : entry.index = n.lastApplied + 1 := by
    have hget := hentry
    rw [hl.get (by omega), Nat.add_sub_cancel] at hget
    exact hl.indexed _ _ hget
  have hcommand := hagrees.2 (n.lastApplied + 1) (by omega) (by omega) entry hentry
  have hlog' : log.snapshotIndex = n.log.snapshotIndex ∧ ∃ l, Holds log l := by
    rcases hlog with rfl | rfl
    · exact ⟨rfl, l, hl⟩
    · exact ⟨rfl, l, hl.setAppliedIndex _⟩
  rw [heq]
  exact {
    holds := hlog'.2
    snapshot_le := by simp only [hlog'.1]; omega
    machine := by
      simp only [hentry, Option.elim_some, hindex, hcommand, h.machine]
      rw [Nat.max_eq_right hahead, Nat.max_eq_right (by omega)]
      rfl }

lemma Agrees.applyNext {hi : ℕ} (hagrees : Agrees committed n.log n.lastApplied hi) :
    Agrees committed (n.applyNext cb).1.log (n.applyNext cb).1.lastApplied hi := by
  obtain ⟨errors, log, heq, hlog⟩ := @applyNext_eq σ cb n
  have hsame : log.lastIndex = n.log.lastIndex ∧ ∀ i, log.get i = n.log.get i := by
    rcases hlog with rfl | rfl
    · exact ⟨rfl, fun _ => rfl⟩
    · exact ⟨rfl, fun _ => rfl⟩
  rw [heq]
  refine ⟨hsame.1 ▸ hagrees.1, fun i hlo hhi entry hentry => ?_⟩
  exact hagrees.2 i (by simp only at hlo; omega) hhi entry (hsame.2 i ▸ hentry)

lemma NodeInv.applyCommitted (h : NodeInv cb committed start ahead n)
    (hahead : n.lastApplied < n.commitIndex → ahead ≤ n.lastApplied)
    (hagrees : n.lastApplied < n.commitIndex →
      Agrees committed n.log n.lastApplied n.commitIndex) :
    NodeInv cb committed start ahead (n.applyCommitted cb).1 := by
  refine applyCommitted_induct
    (P := fun n' => NodeInv cb committed start ahead n' ∧ (n'.lastApplied < n.commitIndex →
      ahead ≤ n'.lastApplied ∧ Agrees committed n'.log n'.lastApplied n.commitIndex))
    ⟨h, fun hlt => ⟨hahead hlt, hagrees hlt⟩⟩ ?_ (fun n' h => h.1) (fun n' h => h.1.compact)
  rintro n' ⟨hinv, hrest⟩ hlt
  obtain ⟨hle, hagr⟩ := hrest hlt
  refine ⟨hinv.applyNext hle hagr hlt, fun _ => ⟨?_, hagr.applyNext⟩⟩
  obtain ⟨errors, log, heq, -⟩ := @applyNext_eq σ cb n'
  rw [heq]
  exact hle.trans (Nat.le_succ _)

lemma NodeInv.congr {n' : Node σ} (h : NodeInv cb committed start ahead n) (hlog : n'.log = n.log)
    (hlast : n'.lastApplied = n.lastApplied) (hmachine : n'.machine = n.machine) :
    NodeInv cb committed start ahead n' :=
  ⟨hlog ▸ h.holds, by rw [hlog, hlast]; exact h.snapshot_le, by
    rw [hmachine, hlast]; exact h.machine⟩

lemma NodeInv.append {now : ℕ} {req : AppendEntriesRequest}
    (h : NodeInv cb committed start ahead n)
    (hterm : 0 < req.prevLogIndex → 0 < req.prevLogTerm)
    (hagrees : ∀ log, n.log.appendEntriesFrom req.prevLogIndex req.prevLogTerm req.entries =
      some log → Agrees committed log n.lastApplied (min req.leaderCommit log.lastIndex))
    (hahead : n.lastApplied < ahead → ¬ Commits n req) :
    NodeInv cb committed start ahead (n.handleAppendEntries cb now req).1 := by
  obtain ⟨l, hl⟩ := h.holds
  unfold handleAppendEntries
  split
  · exact h
  · rename_i hbehind
    dsimp only
    rw [heardFrom_log]
    cases hlog : n.log.appendEntriesFrom req.prevLogIndex req.prevLogTerm req.entries with
    | none => exact h.congr (by simp) (by simp) (by simp)
    | some log =>
      obtain ⟨rfl, hprev⟩ := hl.appendEntriesFrom_some hterm hlog
      obtain ⟨hsnap, hholds⟩ := hl.putAll (Nat.succ_pos req.prevLogIndex) (by omega) req.entries
      have hrefreshed : NodeInv cb committed start ahead
          ((n.heardFrom now req.term req.leaderId).withLog
            (n.log.putAll (req.prevLogIndex + 1) req.entries)).refreshMembership.1 :=
        ⟨by simpa using hholds, by simpa [hsnap] using h.snapshot_le, by simpa using h.machine⟩
      refine Outcome.andThen_rule hrefreshed fun _ _ => ?_
      rw [Outcome.andThen_fst fun _ _ => rfl]
      unfold followCommit
      split
      case isFalse => exact hrefreshed
      case isTrue hcommit =>
        simp only [refreshMembership_commitIndex, withLog_commitIndex, heardFrom_commitIndex]
          at hcommit
        have hagr := hagrees _ hlog
        refine NodeInv.applyCommitted (hrefreshed.congr rfl rfl rfl) (fun hlt => ?_) (fun hlt => ?_)
        · simp only [withCommitIndex_lastApplied, withCommitIndex_commitIndex,
            refreshMembership_lastApplied, withLog_lastApplied, heardFrom_lastApplied,
            refreshMembership_log, withLog_log] at hlt ⊢
          by_contra hlo
          exact hahead (by omega) ⟨by omega, hcommit, _, hlog, hlt⟩
        · simpa using hagr

lemma NodeInv.adopt {req : InstallSnapshotRequest}
    (h : NodeInv cb committed start req.lastIncludedIndex n) :
    NodeInv cb committed start 0 (n.installAdopt req).1 := by
  obtain ⟨l, hl⟩ := h.holds
  have hsnap := h.snapshot_le
  unfold installAdopt
  rw [Outcome.andThen_fst fun _ _ => rfl]
  split
  case isFalse hle =>
    refine ⟨h.holds, hsnap, ?_⟩
    rw [h.machine, Nat.zero_max, Nat.max_eq_right (by omega)]
  case isTrue hlt =>
    obtain ⟨l', hl'⟩ := hl.compactTo_any req.lastIncludedIndex req.lastIncludedTerm
    have hlog : (n.adopted req).log.snapshotIndex ≤ max req.lastIncludedIndex n.lastApplied ∧
        Holds (n.adopted req).log l' := by
      have hle := @RaftLog.snapshotIndex_compactTo_le n.log _ req.lastIncludedTerm _
        (hsnap.trans (le_max_right req.lastIncludedIndex _)) (le_max_left _ _)
      rw [adopted_log]
      split
      · exact ⟨hle, hl'.setAppliedIndex _⟩
      · exact ⟨hle, hl'⟩
    exact ⟨⟨l', by simpa using hlog.2⟩, by simpa using hlog.1, by simp [h.machine]⟩

lemma Inv.step {s s' : Sys σ} {e : Event} (h : Inv cb committed start s)
    (hallowed : Allowed cb committed start s e) (hfits : Fits s e)
    (hstep : NodeInstall.step cb s e = some s') : Inv cb committed start s' := by
  obtain ⟨n, install⟩ := s
  have hnode := h.node
  cases e with
  | append now req =>
    cases hstep
    refine ⟨hnode.append hallowed.1 hallowed.2 fun hlt => ?_, h.carries⟩
    cases install with
    | none => exact absurd hlt (Nat.not_lt_zero _)
    | checked inst => exact absurd hlt (Nat.not_lt_zero _)
    | restored inst => exact hfits inst rfl hlt
  | commit index =>
    cases hstep
    have hcommit : NodeInv cb committed start (target install) (n.withCommitIndex index) :=
      hnode.congr rfl rfl rfl
    -- nothing is applied between the restore of a snapshot that is ahead and its adoption
    refine ⟨hcommit.applyCommitted (fun hlt => ?_) fun _ => hallowed, h.carries⟩
    cases install with
    | none => exact Nat.zero_le _
    | checked inst => exact Nat.zero_le _
    | restored inst =>
      by_contra hlo
      exact absurd (hfits inst rfl (by simpa [target] using hlo)) (by simpa using hlt)
  | check now req =>
    have hcheck : NodeInv cb committed start 0 (n.installCheck now req).1 → ∀ inst : Install,
        inst = .none ∨ inst = .checked req →
        Inv cb committed start ⟨(n.installCheck now req).1, inst⟩ := by
      rintro hinv inst (rfl | rfl)
      · exact ⟨hinv, fun r hr => by rcases hr with hr | hr <;> cases hr⟩
      · exact ⟨hinv, fun r hr => by rcases hr with hr | hr <;> cases hr; exact hallowed⟩
    unfold NodeInstall.step at hstep
    cases install with
    | none =>
      have hinv : NodeInv cb committed start 0 (n.installCheck now req).1 :=
        hnode.congr (by simp) (by simp) (by simp)
      rcases hresult : n.installCheck now req with ⟨n', _ | resp⟩
      · simp only [hresult] at hstep hcheck hinv
        cases hstep
        exact hcheck hinv _ (.inr rfl)
      · simp only [hresult] at hstep hcheck hinv
        cases hstep
        exact hcheck hinv _ (.inl rfl)
    | checked inst => cases hstep
    | restored inst => cases hstep
  | restore =>
    cases install with
    | checked req =>
      cases hstep
      refine ⟨⟨hnode.holds, hnode.snapshot_le, ?_⟩, fun r hr => ?_⟩
      · have hcarries := h.carries req (.inl rfl) n.machine
        have hle : n.lastApplied ≤ req.lastIncludedIndex := hfits req rfl
        simp only [installRestore, target, Nat.max_eq_left hle]
        exact hcarries
      · rcases hr with hr | hr
        · cases hr
        · cases hr; exact h.carries req (.inl rfl)
    | none => cases hstep
    | restored req => cases hstep
  | adopt =>
    cases install with
    | restored req =>
      cases hstep
      exact ⟨hnode.adopt, fun r hr => by rcases hr with hr | hr <;> cases hr⟩
    | none => cases hstep
    | checked req => cases hstep

/-- The steps of a node. -/
abbrev Step (cb : Callbacks σ) := StepOf? (NodeInstall.step cb)

/-- A node on its first run. -/
def begin (id : NodeId) (ownAddress : PeerAddress) (peers : OrdMap NodeId PeerAddress)
    (joining : Bool) (start : σ) : Sys σ :=
  ⟨bootstrap id ownAddress peers joining start, .none⟩

/-- **Installing a snapshot loses and repeats nothing**: in a run in which no install replaces
a state machine that is ahead of it, and no command is applied to one that is ahead of
`lastApplied`, the state machine has executed exactly the committed commands up to
`lastApplied` whenever no install is between its restore and its adoption. -/
theorem machine_exact {id : NodeId} {ownAddress : PeerAddress} {peers : OrdMap NodeId PeerAddress}
    {joining : Bool} {s : Sys σ}
    (hrun : Reach (Step cb) (fun s e => Allowed cb committed start s e ∧ Fits s e)
      (begin id ownAddress peers joining start) s)
    (hinstall : ∀ req, s.install ≠ .restored req) :
    s.node.machine = executed cb committed start s.node.lastApplied := by
  have hinv : Inv cb committed start s := by
    refine hrun.invariant ?_ fun s e s' hinv hok hstep => hinv.step hok.1 hok.2 hstep
    exact ⟨⟨⟨[], Holds.empty⟩, le_rfl, rfl⟩, fun r hr => by rcases hr with
      hr | hr <;> cases hr⟩
  have hmachine := hinv.node.machine
  cases hs : s.install with
  | none => simpa [hs, target] using hmachine
  | checked req => simpa [hs, target] using hmachine
  | restored req => exact absurd hs (hinstall req)

/-- A state machine that keeps the commands it has executed, each of one byte. -/
def keepsCommands : Callbacks (List Bytes) where
  apply := fun s _ command => (s ++ [command], .ok [])
  snapshot := List.flatten
  restore := fun _ data => data.map fun b => [b]

def letters (i : ℕ) : Bytes := [UInt8.ofNat (64 + i)]

/-- A snapshot of the first commands. -/
def snapshotOf (index : ℕ) (data : Bytes) : InstallSnapshotRequest :=
  ⟨1, 2, index, 1, data, .empty⟩

def firstTwo : AppendEntriesRequest :=
  ⟨1, 2, 0, 0, [⟨1, 1, letters 1⟩, ⟨2, 1, letters 2⟩], 2⟩

def third : AppendEntriesRequest := ⟨1, 2, 2, 1, [⟨3, 1, letters 3⟩], 3⟩

def one : Sys (List Bytes) := begin 1 ⟨[], 0⟩ .empty false []

lemma next {ok : Sys (List Bytes) → Event → Prop} {s₀ s s' : Sys (List Bytes)}
    (h : Reach (Step keepsCommands) ok s₀ s) (e : Event)
    (hstep : NodeInstall.step keepsCommands s e = some s') (hok : ok s e) :
    Reach (Step keepsCommands) ok s₀ s' := h.tail hok hstep

/-- A snapshot of two commands, and then a third one. -/
theorem machine_exact_three : ∃ s : Sys (List Bytes), s.node.lastApplied = 3 ∧
    s.node.machine = executed keepsCommands letters [] 3 := by
  have h₀ : Reach (Step keepsCommands)
    (fun s e => Allowed keepsCommands letters [] s e ∧ Fits s e) one one := .refl
  have h₁ := next h₀ (.check 0 (snapshotOf 2 [65, 66])) rfl ⟨fun _ => rfl, trivial⟩
  have h₂ := next h₁ .restore rfl ⟨trivial, fun inst h => by cases h; decide⟩
  have h₃ := next h₂ .adopt rfl ⟨trivial, trivial⟩
  have h₄ := next h₃ (.append 0 third) rfl ⟨⟨by decide, fun log hlog => by
    cases hlog
    refine ⟨by decide, fun i (hlo : 2 < i) (hhi : i ≤ 3) entry hentry => ?_⟩
    obtain rfl : i = 3 := by omega
    cases hentry
    rfl⟩, fun inst h => by cases h⟩
  exact ⟨_, by decide, machine_exact h₄ fun req h => by cases h⟩

/-- **An install rolls the state machine back**: two commands are committed and applied, and
then a snapshot of the first one is installed. -/
theorem install_rolls_back : ¬ ∀ s : Sys (List Bytes),
    Reach (Step keepsCommands) (Allowed keepsCommands letters []) one s →
    (∀ req, s.install ≠ .restored req) →
      s.node.machine = executed keepsCommands letters [] s.node.lastApplied := by
  intro hall
  have h₀ : Reach (Step keepsCommands) (Allowed keepsCommands letters []) one one := .refl
  have h₁ := next h₀ (.append 0 firstTwo) rfl ⟨by decide, fun log hlog => by
    cases hlog
    refine ⟨by decide, fun i (hlo : 0 < i) (hhi : i ≤ 2) entry hentry => ?_⟩
    obtain rfl | rfl : i = 1 ∨ i = 2 := by omega
    · cases hentry; rfl
    · cases hentry; rfl⟩
  have h₂ := next h₁ (.check 0 (snapshotOf 1 [65])) rfl fun _ => rfl
  have h₃ := next h₂ .restore rfl trivial
  have h₄ := next h₃ .adopt rfl trivial
  exact absurd (hall _ h₄ fun req h => by cases h) (by decide)

end DistDB.NodeInstall
