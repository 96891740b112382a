import DistDB.ClusterTears

/-!
The state machines of a cluster. A node executes the committed commands in their order, or is given
a state in which another node has executed them, so of two nodes the one that is ahead is in the
state of the other one with the further commands executed (`states_replicated`).

That an install does not replace a state by an older one, and that nothing is applied while a state
is replaced, are conditions (`Orderly`): the code checks neither.
-/

namespace DistDB.ClusterModel

open NodeModel NodeModel.Node Elections Agreement Config FullLog TermLog
open Consensus (Goes Committed)

variable {σ : Type} {base : Finset NodeId} {Q : History → σ → Prop} {cb : Callbacks σ}
  {a a' : History} {s s' : Cluster σ} {v w : NodeId} {n n' : Node σ}
  {l : List LogEntry} {start : σ}
  {e : Event σ}

/-- The state after the commands of some entries. -/
def runFrom (cb : Callbacks σ) (m : σ) (l : List LogEntry) : σ :=
  l.foldl (fun m e => execute cb m e.index e.command) m

lemma runFrom_take_succ (cb : Callbacks σ) (m : σ) (l : List LogEntry) (i : ℕ) :
    runFrom cb m (l.take (i + 1)) = l[i]?.elim (runFrom cb m (l.take i)) fun e =>
      execute cb (runFrom cb m (l.take i)) e.index e.command := by
  unfold runFrom
  rw [List.take_add_one, List.foldl_append]
  cases l[i]? <;> rfl

lemma runFrom_take_drop (cb : Callbacks σ) (m : σ) (l : List LogEntry) (i : ℕ) :
    runFrom cb (runFrom cb m (l.take i)) (l.drop i) = runFrom cb m l := by
  unfold runFrom
  rw [← List.foldl_append, List.take_append_drop]

/-! ### One node -/

lemma lastApplied_compact (n : Node σ) : n.compact.1.lastApplied = n.lastApplied := by
  obtain ⟨errors, log, membership, heq⟩ := n.compact_frame
  rw [heq]

lemma le_applyCommitted (n : Node σ) : n.lastApplied ≤ (n.applyCommitted cb).1.lastApplied := by
  refine applyCommitted_induct (P := fun m => n.lastApplied ≤ m.lastApplied)
    (Q := fun m => n.lastApplied ≤ m.lastApplied) le_rfl (fun m hm _ => ?_) (fun m hm => hm)
    fun m hm => by rwa [lastApplied_compact]
  obtain ⟨errors, log, heq, -⟩ := @applyNext_eq σ cb m
  rw [heq]
  exact hm.trans (Nat.le_succ _)

/-- The node has executed what it has applied of its whole log. -/
structure Ran (cb : Callbacks σ) (start : σ) (l : List LogEntry) (n : Node σ) : Prop where
  holds : Holds n.log l
  compacted : n.log.snapshotIndex ≤ n.lastApplied
  machine : n.machine = runFrom cb start (l.take n.lastApplied)

namespace Ran

lemma applyNext (h : Ran cb start l n) : Ran cb start l (n.applyNext cb).1 := by
  have hsnap := h.compacted
  obtain ⟨errors, log, heq, hlog⟩ := @applyNext_eq σ cb n
  have hlog' : Holds log l ∧ log.snapshotIndex = n.log.snapshotIndex := by
    rcases hlog with rfl | rfl
    · exact ⟨h.holds, rfl⟩
    · exact ⟨h.holds.setAppliedIndex _, rfl⟩
  rw [heq]
  refine ⟨hlog'.1, ?_, ?_⟩
  · show log.snapshotIndex ≤ n.lastApplied + 1
    omega
  · dsimp only
    rw [runFrom_take_succ, h.holds.get (by omega), Nat.add_sub_cancel, h.machine]

lemma compact (h : Ran cb start l n) (hle : n.lastApplied ≤ l.length) :
    Ran cb start l n.compact.1 := by
  rcases n.compact_eq with heq | ⟨changes, errors, -, heq⟩
  · rw [heq]
    exact h
  · obtain ⟨hholds, hsnap, -⟩ := h.holds.compactTo_termAt h.compacted hle
    rw [heq]
    exact ⟨hholds, hsnap.le, h.machine⟩

lemma applyCommitted (h : Ran cb start l n)
    (hle : (n.applyCommitted cb).1.lastApplied ≤ l.length) :
    Ran cb start l (n.applyCommitted cb).1 := by
  refine applyCommitted_induct (P := Ran cb start l)
    (Q := fun m => m.lastApplied ≤ l.length → Ran cb start l m) h (fun m hm _ => hm.applyNext)
    (fun m hm _ => hm) (fun m hm hle => hm.compact ?_) hle
  rwa [lastApplied_compact] at hle

lemma settles {commits : ℕ → ℕ → Prop} (h : Ran cb start l n) (hs : Settles cb commits n n')
    (hle : n'.lastApplied ≤ l.length) : Ran cb start l n' := by
  refine Settles.keeps (P := fun m => m.lastApplied ≤ l.length → Ran cb start l m) hs
    (fun _ => h) (fun b c hb hmove hc => ?_) hle
  cases hmove with
  | refresh =>
    rw [refreshMembership_lastApplied] at hc
    obtain ⟨hholds, hsnap, hmachine⟩ := hb hc
    exact ⟨by rwa [refreshMembership_log], by simpa using hsnap, by simpa using hmachine⟩
  | commit i hi =>
    have hold := hb ((@le_applyCommitted σ cb (b.withCommitIndex i)).trans hc)
    have hcommit : Ran cb start l (b.withCommitIndex i) :=
      ⟨hold.holds, hold.compacted, hold.machine⟩
    exact hcommit.applyCommitted hc
  | note next inFlight hnext => exact ⟨(hb hc).holds, (hb hc).compacted, (hb hc).machine⟩
  | stepDown => exact ⟨(hb hc).holds, (hb hc).compacted, (hb hc).machine⟩

end Ran

/-- The machine and what it has executed stay. -/
structure Idle (n n' : Node σ) : Prop where
  machine : n'.machine = n.machine
  applied : n'.lastApplied = n.lastApplied

namespace Idle

lemma refl (n : Node σ) : Idle n n := ⟨rfl, rfl⟩

lemma trans {n'' : Node σ} (h : Idle n n') (h' : Idle n' n'') : Idle n n'' :=
  ⟨h'.machine.trans h.machine, h'.applied.trans h.applied⟩

lemma refreshMembership (n : Node σ) : Idle n n.refreshMembership.1 :=
  ⟨refreshMembership_machine n, refreshMembership_lastApplied n⟩

lemma becomeFollower (n : Node σ) (term : ℕ) : Idle n (n.becomeFollower term) := ⟨rfl, rfl⟩

lemma becomeLeader (n : Node σ) : Idle n n.becomeLeader.1 := by
  rcases n.becomeLeader_cases with heq | ⟨-, heq⟩ <;> rw [heq]
  · exact refreshMembership n
  · exact (refreshMembership n).trans ⟨rfl, rfl⟩

lemma startElection (n : Node σ) : Idle n n.startElection.1 := by
  have hstanding : Idle n n.refreshMembership.1.standing :=
    (refreshMembership n).trans ⟨rfl, rfl⟩
  rcases n.startElection_cases with ⟨heq, -⟩ | ⟨-, heq⟩ | ⟨-, -, heq, -⟩ <;> rw [heq]
  · exact refreshMembership n
  · exact hstanding
  · exact hstanding.trans (becomeLeader _)

lemma atTerm (n : Node σ) (term : ℕ) : Idle n (n.atTerm term) := by
  unfold Node.atTerm
  split
  · exact becomeFollower n term
  · exact refl n

lemma handleRequestVote (now : ℕ) (n : Node σ) (req : RequestVoteRequest) :
    Idle n (n.handleRequestVote now req).1 := by
  rcases handleRequestVote_cases now n req with
    ⟨-, heq | ⟨-, heq⟩⟩ | ⟨-, -, -, heq⟩ <;> rw [heq]
  · exact refl n
  · exact atTerm n _
  · exact (atTerm n _).trans ⟨rfl, rfl⟩

lemma voteReply (n : Node σ) (term : ℕ) (resp : RequestVoteResponse) :
    Idle n (n.voteReply term resp).1 := by
  rcases n.voteReply_cases term resp with
    heq | ⟨-, heq⟩ | ⟨-, -, -, ⟨-, heq⟩ | ⟨-, heq⟩⟩ <;>
    rw [heq]
  · exact refl n
  · exact becomeFollower n _
  · exact ⟨rfl, rfl⟩
  · exact (⟨rfl, rfl⟩ : Idle n n.counting).trans (becomeLeader _)

lemma settles (hs : Settles cb (fun _ _ => False) n n') : Idle n n' := by
  refine Settles.keeps (P := Idle n) hs (refl n) fun b c hb hmove => ?_
  cases hmove with
  | refresh => exact hb.trans (refreshMembership b)
  | commit i hi => exact hi.elim
  | note | stepDown => exact hb.trans ⟨rfl, rfl⟩

lemma heardFrom (n : Node σ) (now term : ℕ) (leaderId : NodeId) :
    Idle n (n.heardFrom now term leaderId) :=
  ⟨heardFrom_machine n now term leaderId, heardFrom_lastApplied n now term leaderId⟩

lemma snapshotReply (n : Node σ) (peer : NodeId) (term index : ℕ)
    (resp : InstallSnapshotResponse) :
    Idle n (n.snapshotReply peer term index resp) := by
  rcases n.snapshotReply_cases peer term index resp with
    heq | ⟨-, heq⟩ | ⟨-, -, -, -, heq⟩ <;>
    rw [heq] <;> exact ⟨rfl, rfl⟩

lemma installCheck (now : ℕ) (n : Node σ) (req : InstallSnapshotRequest) :
    Idle n (n.installCheck now req).1 :=
  ⟨installCheck_machine n now req, installCheck_lastApplied n now req⟩

lemma compact (n : Node σ) : Idle n n.compact.1 := by
  obtain ⟨errors, log, membership, heq⟩ := n.compact_frame
  rw [heq]
  exact ⟨rfl, rfl⟩

lemma setNode (h : Idle (s.node v) n) (l : List LogEntry) (w : NodeId) :
    Idle (s.node w) ((s.setNode v n l).node w) := by
  by_cases hw : w = v
  · subst hw
    rwa [show (s.setNode w n l).node w = n from Function.update_self ..]
  · rw [show (s.setNode v n l).node w = s.node w from Function.update_of_ne hw ..]
    exact refl _

end Idle

/-- No snapshot has been restored that is still to be adopted. -/
def AtRest (s : Cluster σ) (v : NodeId) : Prop := ∀ i, s.installs v = some i →
    i.restored = false

/-- Every machine is in the state that the committed commands lead to. -/
structure Replicated (cb : Callbacks σ) (start : σ) (s : Cluster σ) : Prop where
  machine : ∀ v, AtRest s v →
    (s.node v).machine = runFrom cb start ((s.whole v).take (s.node v).lastApplied)
  /-- A state that is restored is not behind the one that it has replaced. -/
  restored : ∀ v i, s.installs v = some i → i.restored = true →
    (s.node v).machine = runFrom cb start i.covered ∧
      (s.node v).lastApplied ≤ i.request.lastIncludedIndex
  carries : ∀ c ∈ s.calls, ∀ req covered, c.rpc = .snapshot req covered →
    ∀ m, cb.restore m req.data = runFrom cb start covered

lemma taken (h : Tracks base Q a s) (h' : Tracks base Q a' s') (hgrows : Grows base a a') {k : ℕ}
    (hv : k ≤ (s.node v).lastApplied) (hw : k ≤ (s'.node w).lastApplied) :
    (s.whole v).take k = (s'.whole w).take k := by
  rw [(h.server v).agrees.applied] at hv
  rw [(h'.server w).agrees.applied] at hw
  have hold := hgrows.committed ((h.server v).agrees.committed.le hv)
  have hnew := (h'.server w).agrees.committed.le hw
  have hlen : ((s.whole v).take k).length = k := by simpa using hold.1
  have hlen' : ((s'.whole w).take k).length = k := by simpa using hnew.1
  rcases hold.total h'.inv hnew with hpre | hpre
  · exact hpre.eq_of_length_le (by omega)
  · exact (hpre.eq_of_length_le (by omega)).symm

lemma ran_of_rest (h : Replicated cb start s) (ht : Tracks base Q a s) (hrest : AtRest s v) :
    Ran cb start (s.whole v) (s.node v) :=
  ⟨(ht.server v).agrees.holds, by
    rw [(ht.server v).agrees.applied]
    exact (ht.server v).agrees.compacted, h.machine v hrest⟩

lemma Replicated.keep (h : Replicated cb start s) (ht : Tracks base Q a s)
    (ht' : Tracks base Q a' s') (hgrows : Grows base a a')
    (hnode : ∀ v, Idle (s.node v) (s'.node v) ∨
      (AtRest s v ∧ Ran cb start (s'.whole v) (s'.node v)))
    (hrest : ∀ v, AtRest s' v → AtRest s v)
    (hinstalls : ∀ v i, s'.installs v = some i → i.restored = true → s.installs v = some i)
    (hcalls : ∀ c ∈ s'.calls, (∃ c₀ ∈ s.calls, c₀.rpc = c.rpc) ∨ ∀ req covered,
      c.rpc = .snapshot req covered → ∀ m, cb.restore m req.data = runFrom cb start covered) :
    Replicated cb start s' where
  machine v hv := by
    rcases hnode v with hidle | ⟨-, hran⟩
    · rw [hidle.machine, h.machine v (hrest v hv), hidle.applied,
        taken ht ht' hgrows le_rfl hidle.applied.ge]
    · exact hran.machine
  restored v i hi hrestored := by
    have hold := hinstalls v i hi hrestored
    rcases hnode v with hidle | ⟨hatrest, -⟩
    · rw [hidle.machine, hidle.applied]
      exact h.restored v i hold hrestored
    · rw [hatrest i hold] at hrestored
      cases hrestored
  carries c hc req covered hrpc := by
    rcases hcalls c hc with ⟨c₀, hc₀, hsame⟩ | hnew
    · exact h.carries c₀ hc₀ req covered (hsame.trans hrpc)
    · exact hnew req covered hrpc

/-! ### Steps -/

/-- What uses the machine of a node. -/
inductive Uses (s : Cluster σ) (v : NodeId) : Event σ → Prop
  | appendEntries {call now : ℕ} {c : Call} : s.calls[call]? = some c → c.target = v →
      Uses s v (.appendEntries call now)
  | appendReply {call answer : ℕ} {c : Call} : s.calls[call]? = some c → c.caller = v →
      Uses s v (.appendReply call answer)
  | propose {command : Bytes} : Uses s v (.propose v command)
  | sendInstallSnapshot {peer term : ℕ} : Uses s v (.sendInstallSnapshot v peer term)
  | restart {machine : σ} : Uses s v (.restart v machine)

/-- What neither the locks nor the checks of the code see to. -/
structure Orderly (cb : Callbacks σ) (s : Cluster σ) (e : Event σ) : Prop where
  /-- Between the restore and the adoption of a snapshot, nothing uses the machine. -/
  apart : ∀ v i, s.installs v = some i → i.restored = true → ¬ Uses s v e
  /-- A machine is not replaced by one that is behind it. -/
  forward : ∀ v i, e = .installRestore v → s.installs v = some i →
    (s.node v).lastApplied ≤ i.request.lastIncludedIndex
  /-- The dump that is sent gives the machine back. -/
  dump : ∀ v peer term, e = .sendInstallSnapshot v peer term →
    ∀ m, cb.restore m (cb.snapshot (s.node v).machine) = (s.node v).machine
  /-- The machine is on the disk. -/
  disk : ∀ v machine, e = .restart v machine → machine = (s.node v).machine

lemma Orderly.rest (h : Orderly cb s e) (huses : Uses s v e) : AtRest s v := fun i hi => by
  cases hrestored : i.restored with
  | false => rfl
  | true => exact absurd huses (h.apart v i hi hrestored)

lemma holds_extended {log : RaftLog} (h : Holds (s.node v).log (s.whole v))
    (hindexed : Indexed (s.extended v log))
    (hindex : log.snapshotIndex = (s.node v).log.snapshotIndex)
    (hterm : log.snapshotTerm = (s.node v).log.snapshotTerm) : Holds log (s.extended v log) := by
  have hlen : ((s.whole v).take (s.node v).log.snapshotIndex).length =
      (s.node v).log.snapshotIndex := by simpa using h.snapshot_le
  unfold Cluster.extended at hindexed ⊢
  refine ⟨hindexed, ?_, ?_, ?_⟩
  · rw [hindex, List.length_append, hlen]
    exact Nat.le_add_right _ _
  · rw [hterm, hindex, h.snapshotTerm, termOf_append_left hlen.ge, termOf_take le_rfl]
  · rw [hindex, List.drop_append_of_le_length hlen.ge, List.drop_of_length_le hlen.le,
      List.nil_append]

lemma rpc_stopCall {call : ℕ} {c : Call} (h : c ∈ (s.stopCall call).calls) :
    ∃ c₀ ∈ s.calls, c₀.rpc = c.rpc := by
  obtain ⟨k, hk⟩ := List.mem_iff_getElem?.mp h
  unfold Cluster.stopCall at hk
  rw [List.getElem?_modify] at hk
  obtain ⟨c₀, hc₀, heq⟩ := Option.map_eq_some_iff.mp hk
  refine ⟨c₀, List.mem_of_getElem? hc₀, ?_⟩
  split at heq <;> cases heq <;> rfl

lemma idle_election {e : Elections.Event σ} {group : RaftGroup σ} (hof : OfElection e)
    (hs : s.group.step? cb e = some group) (v : NodeId) : Idle (s.node v) (group.nodes v) := by
  have hnode : ∀ {w n}, Idle (s.node w) n → Idle (s.node v) ((s.group.setNode w n).nodes v) :=
    fun hidle => hidle.setNode [] v
  cases e with
  | startElection w =>
    cases hs
    exact hnode (.startElection _)
  | callVote w peer =>
    simp only [RaftGroup.step?] at hs
    split at hs
    · cases hs
    · split_ifs at hs
      cases hs
      exact .refl _
  | requestVote call now =>
    simp only [RaftGroup.step?] at hs
    split at hs
    · cases hs
    · cases hs
      exact hnode (.handleRequestVote now _ _)
  | voteReply call answer =>
    simp only [RaftGroup.step?] at hs
    split at hs
    · split_ifs at hs
      cases hs
      exact hnode (.voteReply _ _ _)
    · cases hs
  | voteLost call =>
    cases hs
    exact .refl _
  | handle w handler => cases hof
  | crash w disk machine => cases hof

lemma le_settles {commits : ℕ → ℕ → Prop} (hs : Settles cb commits n n') :
    n.lastApplied ≤ n'.lastApplied := by
  refine Settles.keeps (P := fun m => n.lastApplied ≤ m.lastApplied) hs le_rfl
    fun b c hb hmove => ?_
  cases hmove with
  | refresh => rwa [refreshMembership_lastApplied]
  | commit i hi => exact hb.trans (@le_applyCommitted σ cb (b.withCommitIndex i))
  | note | stepDown => exact hb

lemma applied_le_length (h : Tracks base Q a s) (v : NodeId) :
    (s.node v).lastApplied ≤ (s.whole v).length := by
  rw [(h.server v).agrees.applied]
  exact (h.server v).agrees.committed.1

lemma covered_take (ht : Tracks base Q a s) {c : Call} {req : InstallSnapshotRequest}
    {covered : List LogEntry}
    (hc : c ∈ s.calls) (hrpc : c.rpc = .snapshot req covered)
    (hle : req.lastIncludedIndex ≤ (s.node v).lastApplied) :
    (s.whole v).take req.lastIncludedIndex = covered := by
  obtain ⟨hindex, -, hcommitted, -⟩ := (ht.call hc).covers req covered hrpc
  rw [(ht.server v).agrees.applied] at hle
  have hold := (ht.server v).agrees.committed.le hle
  have hlen : ((s.whole v).take req.lastIncludedIndex).length = req.lastIncludedIndex := by
    simpa using hold.1
  have htotal := hold.total ht.inv hcommitted
  rw [List.take_length] at htotal
  rcases htotal with hpre | hpre
  · exact hpre.eq_of_length_le (by omega)
  · exact (hpre.eq_of_length_le (by omega)).symm

namespace Replicated

section

variable (h : Replicated cb start s) (ht : Tracks base Q a s) (ht' : Tracks base Q a' s')
  (hgrows : Grows base a a')

include h ht ht' hgrows

lemma ran_settles {commits : ℕ → ℕ → Prop} (hrest : AtRest s v) (hidle : Idle (s.node v) n)
    (hholds : Holds n.log (s'.whole v)) (hsnap : n.log.snapshotIndex ≤ n.lastApplied)
    (hs : Settles cb commits n (s'.node v)) : Ran cb start (s'.whole v) (s'.node v) := by
  refine Ran.settles ⟨hholds, hsnap, ?_⟩ hs (applied_le_length ht' v)
  have hle := le_settles hs
  rw [hidle.applied] at hle
  rw [hidle.machine, hidle.applied, h.machine v hrest, taken ht ht' hgrows le_rfl hle]

lemma keep_idle (hidle : ∀ v, Idle (s.node v) (s'.node v)) (hinstalls : s'.installs = s.installs)
    (hcalls : ∀ c ∈ s'.calls, ∃ c₀ ∈ s.calls, c₀.rpc = c.rpc) :
    Replicated cb start s' := by
  refine h.keep ht ht' hgrows (fun v => .inl (hidle v)) (fun v hv => ?_) (fun v i hi _ => ?_)
    fun c hc => .inl (hcalls c hc)
  · unfold AtRest at hv
    rwa [hinstalls] at hv
  · rwa [hinstalls] at hi

lemma keep_ran (hrest : AtRest s v) (hnode : Idle (s.node v) (s'.node v) ∨
      Ran cb start (s'.whole v) (s'.node v)) (hother : ∀ w, w ≠ v → s'.node w = s.node w)
    (hinstalls : s'.installs = s.installs)
    (hcalls : ∀ c ∈ s'.calls, ∃ c₀ ∈ s.calls, c₀.rpc = c.rpc) :
    Replicated cb start s' := by
  refine h.keep ht ht' hgrows (fun w => ?_) (fun w hw => ?_) (fun w i hi _ => ?_)
    fun c hc => .inl (hcalls c hc)
  · by_cases hwv : w = v
    · subst hwv
      exact hnode.imp_right fun hran => ⟨hrest, hran⟩
    · rw [hother w hwv]
      exact .inl (.refl _)
  · unfold AtRest at hw
    rwa [hinstalls] at hw
  · rwa [hinstalls] at hi

lemma ran_appendEntries {now : ℕ} {req : AppendEntriesRequest} (hrest : AtRest s v)
    (hnode : s'.node v = ((s.node v).handleAppendEntries cb now req).1)
    (hwhole : s'.whole v = s.extended v (logAfter (s.node v) req)) :
    Idle (s.node v) (s'.node v) ∨ Ran cb start (s'.whole v) (s'.node v) := by
  rcases @handleAppendEntries_cases σ cb now (s.node v) req with
    ⟨-, heq⟩ | ⟨-, -, heq⟩ | ⟨hle, log, hlog, hsettles, -⟩
  · rw [hnode, heq]
    exact .inl (.refl _)
  · rw [hnode, heq]
    exact .inl (.heardFrom _ _ _ _)
  · have hran := ran_of_rest h ht hrest
    have hafter : logAfter (s.node v) req = log := by
      unfold logAfter
      rw [if_neg (by omega), hlog]
      rfl
    obtain ⟨hindex, hterm⟩ := RaftLog.appendEntriesFrom_snapshot hlog
    have hindexed := (ht'.server v).agrees.holds.indexed
    rw [hwhole, hafter] at hindexed
    rw [← hnode] at hsettles
    have hidle : Idle (s.node v) ((s.node v).heardFrom now req.term req.leaderId |>.withLog log) :=
      (Idle.heardFrom _ now req.term req.leaderId).trans ⟨rfl, rfl⟩
    refine .inr (h.ran_settles ht ht' hgrows hrest hidle ?_ ?_ hsettles)
    · rw [hwhole, hafter]
      exact holds_extended hran.holds hindexed hindex hterm
    · rw [withLog_log, withLog_lastApplied, hindex, heardFrom_lastApplied]
      exact hran.compacted

lemma ran_appendReply {peer term prev sent : ℕ} {resp : AppendEntriesResponse}
    (hrest : AtRest s v) (hnode :
      s'.node v = ((s.node v).appendReply cb peer term prev sent resp).1)
    (hwhole : s'.whole v = s.whole v) :
    Idle (s.node v) (s'.node v) ∨ Ran cb start (s'.whole v) (s'.node v) := by
  rcases @appendReply_cases σ cb (s.node v) peer term prev sent resp with
    hsettles | ⟨-, heq⟩ | ⟨-, -, -, -, matched, -, hsettles⟩
  · rw [hnode]
    exact .inl (.settles hsettles)
  · rw [hnode, heq]
    exact .inl ⟨rfl, rfl⟩
  · have hran := ran_of_rest h ht hrest
    rw [← hnode] at hsettles
    have hidle : Idle (s.node v) (((s.node v).replicationLost peer).acknowledged peer matched) :=
      ⟨rfl, rfl⟩
    exact .inr (h.ran_settles ht ht' hgrows hrest hidle (hwhole ▸ hran.holds) hran.compacted
      hsettles)

lemma ran_propose {command : Bytes} (hrest : AtRest s v)
    (hnode : s'.node v = ((s.node v).propose cb command).1)
    (hwhole : (s.node v).refusal command = .ok none → s'.whole v =
      s.extended v ((s.node v).log.append (s.node v).state.currentTerm command).1) :
    Idle (s.node v) (s'.node v) ∨ Ran cb start (s'.whole v) (s'.node v) := by
  rcases @propose_cases σ cb (s.node v) command with
    ⟨-, heq, -⟩ | ⟨-, hrefusal, m, hm, hsettles, -⟩
  · rw [hnode, heq]
    exact .inl (.refl _)
  · have hran := ran_of_rest h ht hrest
    have hindexed := (ht'.server v).agrees.holds.indexed
    rw [hwhole hrefusal] at hindexed
    rw [← hnode] at hsettles
    have hidle : Idle (s.node v) m := by
      rw [hm]
      exact ⟨refreshMembership_machine _, refreshMembership_lastApplied _⟩
    have hlog : m.log = ((s.node v).log.append (s.node v).state.currentTerm command).1 := by
      rw [hm, refreshMembership_log, withLog_log]
    refine .inr (h.ran_settles ht ht' hgrows hrest hidle ?_ ?_ hsettles)
    · rw [hwhole hrefusal, hlog]
      exact holds_extended hran.holds hindexed rfl rfl
    · rw [hlog, hidle.applied]
      exact hran.compacted

lemma replicateTo {peer : NodeId} (hs : s.step? cb (.replicateTo v peer) = some s') :
    Replicated cb start s' := by
  simp only [Cluster.step?] at hs
  split_ifs at hs
  have hidle : Idle (s.node v) ((s.node v).replicateTo peer).1 :=
    .settles (@replicateTo_settles σ cb (s.node v) peer)
  rcases hsend : ((s.node v).replicateTo peer).2 with _ | req | term <;> rw [hsend] at hs <;>
    cases hs <;>
    refine h.keep ht ht' hgrows (fun w => .inl (hidle.setNode [] w)) (fun w hw => hw)
      (fun w i hi _ => hi) fun c hc => ?_
  · exact .inl ⟨c, hc, rfl⟩
  · rcases List.mem_append.mp hc with hold | hnew
    · exact .inl ⟨c, hold, rfl⟩
    · rw [List.mem_singleton.mp hnew]
      exact .inr fun req covered hrpc => by cases hrpc
  · exact .inl ⟨c, hc, rfl⟩

lemma sendInstallSnapshot {peer : NodeId} {term : ℕ}
    (hok : Orderly cb s (.sendInstallSnapshot v peer term))
    (hs : s.step? cb (.sendInstallSnapshot v peer term) = some s') : Replicated cb start s' := by
  simp only [Cluster.step?] at hs
  split_ifs at hs
  have hidle : Idle (s.node v) ((s.node v).sendInstallSnapshot cb peer term).1 :=
    .settles (@sendInstallSnapshot_settles σ cb (s.node v) peer term)
  have hmachine := h.machine v (hok.rest .sendInstallSnapshot)
  have hdump := hok.dump v peer term rfl
  rcases @sendInstallSnapshot_cases σ cb (s.node v) peer term with hsend | ⟨-, -, hsend⟩ <;>
    rw [hsend] at hs <;> cases hs <;>
    refine h.keep ht ht' hgrows (fun w => .inl (hidle.setNode [] w)) (fun w hw => hw)
      (fun w i hi _ => hi) fun c hc => ?_
  · exact .inl ⟨c, hc, rfl⟩
  · rcases List.mem_append.mp hc with hold | hnew
    · exact .inl ⟨c, hold, rfl⟩
    · rw [List.mem_singleton.mp hnew]
      refine .inr fun req covered hrpc m => ?_
      cases hrpc
      rw [← hmachine]
      exact hdump m

lemma installCheck {call now : ℕ} (hs : s.step? cb (.installCheck call now) = some s') :
    Replicated cb start s' := by
  simp only [Cluster.step?] at hs
  split at hs
  case h_2 => cases hs
  rename_i caller v req covered waiting hc
  split_ifs at hs with hfree
  have hidle := Idle.installCheck now (s.node v) req
  rcases hout : ((s.node v).installCheck now req).2 with _ | resp <;> rw [hout] at hs <;>
    cases hs <;>
    refine h.keep ht ht' hgrows (fun w => .inl (hidle.setNode [] w)) (fun w hw => ?_)
      (fun w i hi hrestored => ?_) fun c hc => .inl ⟨c, hc, rfl⟩
  · intro i hi
    by_cases hwv : w = v
    · rw [hwv, hfree] at hi
      cases hi
    · exact hw i ((Function.update_of_ne hwv ..).trans hi)
  · rcases Elections.Inv.of_update hi with ⟨-, hnew⟩ | ⟨-, hold⟩
    · cases hnew
      cases hrestored
    · exact hold
  · exact hw
  · exact hi

end

lemma installRestore (h : Replicated cb start s) (ht : Tracks base Q a s)
    (hok : Orderly cb s (.installRestore v))
    (hs : s.step? cb (.installRestore v) = some s') : Replicated cb start s' := by
  simp only [Cluster.step?] at hs
  split at hs
  case h_2 => cases hs
  rename_i call req covered hi
  cases hs
  obtain ⟨⟨c, hc, -, hrpc⟩, -⟩ := ht.install hi
  have hcarries := h.carries c (List.mem_of_getElem? hc) req covered hrpc (s.node v).machine
  have hforward := hok.forward v _ rfl hi
  have hself : (s.setNode v ((s.node v).installRestore cb req) (s.whole v)).node v =
      (s.node v).installRestore cb req := Function.update_self ..
  have hother : ∀ w, w ≠ v →
      (s.setNode v ((s.node v).installRestore cb req) (s.whole v)).node w = s.node w ∧
      (s.setNode v ((s.node v).installRestore cb req) (s.whole v)).whole w = s.whole w :=
    fun w hw => ⟨Function.update_of_ne hw .., Function.update_of_ne hw ..⟩
  refine ⟨fun w hw => ?_, fun w i hi' hrestored => ?_, h.carries⟩
  · have hwv : w ≠ v := fun heq => by
      subst heq
      have hnot := hw ⟨call, req, covered, true⟩ (Function.update_self ..)
      cases hnot
    obtain ⟨hnode, hwhole⟩ := hother w hwv
    rw [hnode, hwhole]
    exact h.machine w fun i hi' => hw i ((Function.update_of_ne hwv ..).trans hi')
  · rcases Elections.Inv.of_update hi' with ⟨rfl, hnew⟩ | ⟨hwv, hold⟩
    · cases hnew
      rw [hself]
      exact ⟨hcarries, hforward⟩
    · rw [(hother w hwv).1]
      exact h.restored w i hold hrestored

lemma settled (h : Replicated cb start s) (hnode : s'.node v = n) (hwhole : s'.whole v = l)
    (hmachine : n.machine = runFrom cb start (l.take n.lastApplied))
    (hother : ∀ w, w ≠ v → s'.node w = s.node w ∧ s'.whole w = s.whole w)
    (hinstalls : s'.installs = Function.update s.installs v none) (hcalls : s'.calls = s.calls) :
    Replicated cb start s' := by
  refine ⟨fun w hw => ?_, fun w i hi hrestored => ?_, hcalls ▸ h.carries⟩
  · by_cases hwv : w = v
    · rw [hwv, hnode, hwhole]
      exact hmachine
    · rw [(hother w hwv).1, (hother w hwv).2]
      refine h.machine w fun i hi => hw i ?_
      rw [hinstalls, Function.update_of_ne hwv]
      exact hi
  · rw [hinstalls] at hi
    rcases Elections.Inv.of_update hi with ⟨-, hnone⟩ | ⟨hwv, hold⟩
    · cases hnone
    · rw [(hother w hwv).1]
      exact h.restored w i hold hrestored

lemma installAdopt (h : Replicated cb start s) (ht : Tracks base Q a s)
    (hs : s.step? cb (.installAdopt v) = some s') : Replicated cb start s' := by
  simp only [Cluster.step?] at hs
  split at hs
  case h_2 => cases hs
  rename_i call req covered hi
  cases hs
  obtain ⟨⟨c, hc, -, hrpc⟩, -⟩ := ht.install hi
  have hmem := List.mem_of_getElem? hc
  have hindex := ((ht.call hmem).covers req covered hrpc).index
  obtain ⟨hmachine, hle⟩ := h.restored v _ hi rfl
  dsimp only at hmachine hle
  have hadopted : ((s.node v).installAdopt req).1.machine = runFrom cb start
      ((if req.lastIncludedIndex > (s.node v).log.snapshotIndex then
        covered ++ ((s.node v).adopted req).log.entries else s.whole v).take
          ((s.node v).installAdopt req).1.lastApplied) := by
    have hsnap := (ht.server v).agrees.compacted
    rw [← (ht.server v).agrees.applied] at hsnap
    rcases (s.node v).installAdopt_cases req with ⟨hcovered, heq⟩ | ⟨hlt, heq⟩ <;> rw [heq]
    · have hsame : (s.node v).lastApplied = req.lastIncludedIndex := by omega
      rw [if_neg (by omega), hmachine, hsame, covered_take ht hmem hrpc hsame.ge]
    · rw [if_pos hlt, refreshMembership_machine, refreshMembership_lastApplied, adopted_machine,
        adopted_lastApplied, Nat.max_eq_left hle, hmachine, ← hindex, List.take_left]
  exact h.settled (Function.update_self ..) (Function.update_self ..) hadopted
    (fun w hw => ⟨Function.update_of_ne hw .., Function.update_of_ne hw ..⟩) rfl rfl

lemma restart (h : Replicated cb start s) (ht : Tracks base Q a s) (ht' : Tracks base Q a' s')
    (hgrows : Grows base a a') {machine : σ} (hok : Orderly cb s (.restart v machine))
    (hs : s.step? cb (.restart v machine) = some s') : Replicated cb start s' := by
  have hrest := hok.rest .restart
  have hdisk := hok.disk v machine rfl
  simp only [Cluster.step?] at hs
  obtain ⟨group, hgroup, rfl⟩ := Option.map_eq_some_iff.mp hs
  simp only [RaftGroup.step?] at hgroup
  split_ifs at hgroup
  cases hgroup
  obtain ⟨b, -, hsound⟩ := (ht.server v).agrees.sound
  have hidle : Idle (s.node v) (construct v (s.node v).state (s.node v).log
      (s.node v).membershipState machine) := ⟨hdisk, hsound.saved⟩
  refine h.keep ht ht' hgrows (fun w => .inl (hidle.setNode [] w)) (fun w hw => ?_)
    (fun w i hi _ => ?_) fun c hc => ?_
  · by_cases hwv : w = v
    · exact hwv ▸ hrest
    · exact fun i hi => hw i ((Function.update_of_ne hwv ..).trans hi)
  · rcases Elections.Inv.of_update hi with ⟨-, hnone⟩ | ⟨-, hold⟩
    · cases hnone
    · exact hold
  · obtain ⟨c₀, hc₀, heq⟩ := List.mem_map.mp hc
    refine .inl ⟨c₀, hc₀, ?_⟩
    split at heq <;> cases heq <;> rfl

/-- **Every step** of a cluster keeps the machines in the states that the log leads to. -/
theorem step (h : Replicated cb start s) (ht : Tracks base Q a s) (ht' : Tracks base Q a' s')
    (hgrows : Grows base a a') (hok : Orderly cb s e) (hs : s.step? cb e = some s') :
    Replicated cb start s' := by
  have hsame : ∀ c ∈ s.calls, ∃ c₀ ∈ s.calls, c₀.rpc = c.rpc :=
    fun c hc => ⟨c, hc, rfl⟩
  cases e with
  | election e =>
    simp only [Cluster.step?] at hs
    split_ifs at hs with hof
    obtain ⟨group, hgroup, rfl⟩ := Option.map_eq_some_iff.mp hs
    exact h.keep_idle ht ht' hgrows (idle_election hof hgroup) rfl hsame
  | replicateToAll v =>
    simp only [Cluster.step?] at hs
    split_ifs at hs
    cases hs
    exact h.keep_idle ht ht' hgrows (fun w => .refl _) rfl hsame
  | replicateTo v peer => exact h.replicateTo ht ht' hgrows hs
  | sendInstallSnapshot v peer term => exact h.sendInstallSnapshot ht ht' hgrows hok hs
  | appendEntries call now =>
    simp only [Cluster.step?] at hs
    split at hs
    case h_2 => cases hs
    rename_i caller v req waiting hc
    cases hs
    have hrest := hok.rest (.appendEntries hc rfl)
    have hran := h.ran_appendEntries ht ht' hgrows hrest (Function.update_self ..)
      (Function.update_self ..)
    exact h.keep_ran ht ht' hgrows hrest hran (fun w hw => Function.update_of_ne hw ..) rfl hsame
  | appendReply call answer =>
    simp only [Cluster.step?] at hs
    split at hs
    case h_2 => cases hs
    rename_i v peer req call' resp hc hans
    split_ifs at hs
    cases hs
    have hrest := hok.rest (.appendReply hc rfl)
    have hran := h.ran_appendReply ht ht' hgrows hrest (Function.update_self ..)
      (Function.update_self ..)
    exact h.keep_ran ht ht' hgrows hrest hran (fun w hw => Function.update_of_ne hw ..) rfl
      fun c hc => rpc_stopCall hc
  | installCheck call now => exact h.installCheck ht ht' hgrows hs
  | installRestore v => exact h.installRestore ht hok hs
  | installAdopt v => exact h.installAdopt ht hs
  | snapshotReply call answer =>
    simp only [Cluster.step?] at hs
    split at hs
    case h_2 => cases hs
    split_ifs at hs
    cases hs
    exact h.keep_idle ht ht' hgrows (fun w => (Idle.snapshotReply _ _ _ _ _).setNode [] w) rfl
      fun c hc => rpc_stopCall hc
  | lost call =>
    simp only [Cluster.step?] at hs
    split at hs
    case h_2 => cases hs
    rename_i v peer rpc hc
    cases hs
    have hidle : Idle (s.node v) ((s.node v).replicationLost peer) := ⟨rfl, rfl⟩
    exact h.keep_idle ht ht' hgrows (fun w => hidle.setNode [] w) rfl fun c hc => rpc_stopCall hc
  | propose v command =>
    have hrest := hok.rest .propose
    simp only [Cluster.step?] at hs
    split_ifs at hs with hrefusal
    · cases hs
      have hran := h.ran_propose ht ht' hgrows hrest (Function.update_self ..)
        fun _ => Function.update_self ..
      exact h.keep_ran ht ht' hgrows hrest hran (fun w hw => Function.update_of_ne hw ..) rfl hsame
    · cases hs
      have hran := h.ran_propose ht ht' hgrows hrest (Function.update_self ..)
        fun hnone => absurd hnone hrefusal
      exact h.keep_ran ht ht' hgrows hrest hran (fun w hw => Function.update_of_ne hw ..) rfl hsame
  | finish proposal =>
    simp only [Cluster.step?] at hs
    split at hs
    case h_2 => cases hs
    split_ifs at hs
    cases hs
    exact h.keep_idle ht ht' hgrows (fun w => .refl _) rfl hsame
  | compact v =>
    cases hs
    exact h.keep_idle ht ht' hgrows (fun w => (Idle.compact _).setNode [] w) rfl hsame
  | restart v machine => exact h.restart ht ht' hgrows hok hs

end Replicated

/-! ### Runs -/

variable {own : NodeId → PeerAddress} {peers : NodeId → OrdMap NodeId PeerAddress}

theorem replicated_run (hcb : cb.Total) (hpeers : ∀ v ∈ base, (peers v).keys = base.erase v)
    (hrun : WholeRun cb (fun s e => Careful s e ∧ Orderly cb s e)
      (Cluster.boot base own peers fun _ => start) s) :
    ∃ a, Tracks base (fun _ _ => True) a s ∧ Elections.Inv s.group ∧
      Replicated cb start s := by
  refine hrun.plain.invariant (I := fun s => ∃ a, Tracks base (fun _ _ => True) a s ∧
    Elections.Inv s.group ∧ Replicated cb start s) ?_ ?_
  · refine ⟨_, tracks_boot hpeers fun _ => trivial, votes_boot hpeers, fun v _ => ?_,
      (fun v i hi => by cases hi), (fun c hc => by cases hc)⟩
    unfold Cluster.boot Cluster.init RaftGroup.init Cluster.node
    dsimp only
    split_ifs <;> rfl
  · rintro s e s' ⟨a, ht, hvotes, h⟩ ⟨hcareful, horderly⟩ hs
    obtain ⟨v, a', hgoes, ht'⟩ := ht.step hvotes hcb (watches_nothing base cb) hcareful
      (fun _ _ _ => trivial) hs
    exact ⟨a', ht', votes_step hvotes hs, h.step ht ht' (.of_goes ht.inv hgoes) horderly hs⟩

/-- **State machine replication**: a node is in the state that the commands it has applied lead
to, and of two nodes the one that is ahead is in the state of the other one with the further
commands executed. -/
theorem states_replicated (hcb : cb.Total) (hpeers : ∀ v ∈ base, (peers v).keys = base.erase v)
    (hrun : WholeRun cb (fun s e => Careful s e ∧ Orderly cb s e)
      (Cluster.boot base own peers fun _ => start) s)
    (hv : AtRest s v) (hw : AtRest s w) (hle : (s.node v).lastApplied ≤ (s.node w).lastApplied) :
    (s.node v).machine = runFrom cb start ((s.whole v).take (s.node v).lastApplied) ∧
    (s.node w).machine = runFrom cb (s.node v).machine
      (((s.whole w).take (s.node w).lastApplied).drop (s.node v).lastApplied) := by
  obtain ⟨a, ht, -, h⟩ := replicated_run hcb hpeers hrun
  refine ⟨h.machine v hv, ?_⟩
  have htake : ((s.whole w).take (s.node w).lastApplied).take (s.node v).lastApplied =
      (s.whole v).take (s.node v).lastApplied := by
    rw [List.take_take, Nat.min_eq_left hle]
    exact (taken ht ht (.refl base a) le_rfl hle).symm
  rw [h.machine v hv, h.machine w hw, ← htake, runFrom_take_drop]

/-- Whether a step keeps what the code does not see to; that dumps give the machine back is left
out. -/
def orderly? [DecidableEq σ] (s : Cluster σ) (e : Event σ) : Bool :=
  let rest (v : NodeId) : Bool := (s.installs v).all fun i => !i.restored
  match e with
  | .appendEntries call _ => (s.calls[call]?).all fun c => rest c.target
  | .appendReply call _ => (s.calls[call]?).all fun c => rest c.caller
  | .propose v _ | .sendInstallSnapshot v _ _ => rest v
  | .restart v machine => rest v && decide (machine = (s.node v).machine)
  | .installRestore v => (s.installs v).all fun i =>
    decide ((s.node v).lastApplied ≤ i.request.lastIncludedIndex)
  | _ => true

lemma orderly_of_check [DecidableEq σ] (hcheck : orderly? s e = true)
    (hdump : ∀ v peer term, e = .sendInstallSnapshot v peer term →
      ∀ m, cb.restore m (cb.snapshot (s.node v).machine) = (s.node v).machine) :
    Orderly cb s e := by
  have hrest : ∀ {v i}, ((s.installs v).all fun i => !i.restored) = true →
      s.installs v = some i → i.restored = false := by
    intro v i hall hi
    simpa [hi] using hall
  refine ⟨fun v i hi hrestored huses => ?_, fun v i he hi => ?_, hdump, fun v m he => ?_⟩
  · have hfalse : i.restored = false := by
      cases huses with
      | appendEntries hc htarget | appendReply hc htarget =>
        simp only [orderly?, hc, Option.all_some, htarget] at hcheck
        exact hrest hcheck hi
      | propose | sendInstallSnapshot => exact hrest hcheck hi
      | restart => exact hrest (Bool.and_eq_true_iff.mp hcheck).1 hi
    rw [hrestored] at hfalse
    cases hfalse
  · subst he
    simpa [orderly?, hi] using hcheck
  · subst he
    exact of_decide_eq_true (Bool.and_eq_true_iff.mp hcheck).2

/-- A machine that is the bytes it was handed, and its own dump. -/
def journal : Callbacks Bytes where
  apply := fun m _ command => (m ++ command, .ok [])
  snapshot := fun m => m
  restore := fun _ data => data

/-- Server 1 commits [7] and [8] with server 2 and gives server 3 a snapshot of both, which starts
again on it. Then it commits [9]. -/
def threeCommands : List (Event Bytes) :=
  [.election (.startElection 1), .election (.callVote 1 2), .election (.requestVote 0 1000),
    .election (.voteReply 0 0), .propose 1 [7], .propose 1 [8], .replicateToAll 1,
    .replicateTo 1 2, .appendEntries 0 1000, .appendReply 0 0, .compact 1, .replicateTo 1 3,
    .sendInstallSnapshot 1 3 1, .installCheck 1 1000, .installRestore 3, .installAdopt 3,
    .snapshotReply 1 1, .restart 3 [7, 8], .propose 1 [9], .replicateToAll 1, .replicateTo 1 2,
    .appendEntries 2 2000, .appendReply 2 2]

/-- Server 1 has applied one command more than server 3. -/
theorem states_replicated_journal : ∃ s : Cluster Bytes,
    (s.node 3).log.snapshotIndex = 2 ∧ (s.node 3).machine = [7, 8] ∧
    (s.node 3).machine = runFrom journal [] [⟨1, 1, [7]⟩, ⟨2, 1, [8]⟩] ∧
    (s.node 1).machine = runFrom journal (s.node 3).machine [⟨3, 1, [9]⟩] := by
  obtain ⟨s, hs, hsnap, hmachine, hone, hthree, hw, hv, hrest⟩ := exists_of_any
    (P := fun s : Cluster Bytes => (s.node 3).log.snapshotIndex = 2 ∧
      (s.node 3).machine = [7, 8] ∧ (s.node 1).lastApplied = 3 ∧ (s.node 3).lastApplied = 2 ∧
      s.whole 1 = [⟨1, 1, [7]⟩, ⟨2, 1, [8]⟩, ⟨3, 1, [9]⟩] ∧
      s.whole 3 = [⟨1, 1, [7]⟩, ⟨2, 1, [8]⟩] ∧ s.installs 1 = none ∧
        s.installs 3 = none)
    (x := runIf? (Cluster.tornStep? journal)
      (fun s e => whole? (fun s e => careful? s e && orderly? s e) s e = true) (trioCluster [])
      (threeCommands.map .whole)) (by decide +kernel)
  have hrun : WholeRun journal (fun s e => Careful s e ∧ Orderly journal s e)
      (trioCluster []) s :=
    whole_of_run (fun s e hcheck => by
      obtain ⟨hcareful, horderly⟩ := Bool.and_eq_true_iff.mp hcheck
      exact ⟨careful_of_check hcareful, orderly_of_check horderly fun _ _ _ _ _ => rfl⟩) hs
  have hstates := @states_replicated Bytes _ journal s 3 1 _ _ _ (fun _ _ _ => ⟨[], rfl⟩)
    (fun v _ => keys_others v) hrun (fun i hi => by rw [hrest.2] at hi; cases hi)
    (fun i hi => by rw [hrest.1] at hi; cases hi) (by omega)
  rw [hone, hthree, hw, hv] at hstates
  exact ⟨s, hsnap, hmachine, hstates⟩

end DistDB.ClusterModel
