import DistDB.LogDelivery
import DistDB.NodeFrame

/-!
A follower that gets a request of its leader again.

The first answer leaves the follower in agreement with the leader as far as the request
reaches, and later requests keep it so. Redelivered, the request finds every entry and the
commit index in place. But the check looks for the preceding entry in what the log still
holds: once that is compacted away the same request is refused (`redelivery_refused`), though
the loop behind the check would skip what is compacted. Otherwise the answer is the same and
nothing changes (`redelivered_iff`).
-/

namespace DistDB.Redelivery

open NodeModel NodeModel.Node FullLog TermLog LogCalls LogDelivery Checks

variable {σ : Type} {cb : Callbacks σ}

/-- A leader in a term, with its whole log, and the node that follows it. -/
structure Sys (σ : Type) where
  leader : List LogEntry
  node : Node σ

inductive Event
  /-- The leader appends a command. -/
  | grow (command : Bytes)
  | append (now : ℕ) (req : AppendEntriesRequest)

def step (cb : Callbacks σ) (term : ℕ) (s : Sys σ) : Event → Sys σ
  | .grow command => { s with leader := s.leader ++ [⟨s.leader.length + 1, term, command⟩] }
  | .append now req => { s with node := (s.node.handleAppendEntries cb now req).1 }

/-- A request as the leader of this term has sent it when its log had `n` entries: all its
entries from some index on, and a commit index that is not past its end. -/
structure Sent (term : ℕ) (leader : List LogEntry) (req : AppendEntriesRequest)
    (n : ℕ) : Prop where
  term_eq : req.term = term
  prev_le : req.prevLogIndex ≤ n
  le_length : n ≤ leader.length
  batch : (⟨req.prevLogIndex, req.prevLogTerm, req.entries⟩ : Batch) =
    cut leader req.prevLogIndex n
  commit_le : req.leaderCommit ≤ n

/-- A node whose log matches that of the leader, which holds what the node knows to be
committed. -/
structure Following (term : ℕ) (initial leader : List LogEntry) (n : Node σ)
    (l : List LogEntry) :
    Prop where
  inv : Inv initial ⟨leader, n.log⟩ l
  keeps : Keeps l n
  committed : l.take n.commitIndex <+: leader
  decodable : Decodable n.log
  leaderDecodable : ∀ e ∈ leader, Succeeds (tryDecodeConfChange e.command)
  term_le : n.state.currentTerm ≤ term

/-- The leader appends what it can decode, and what it appends matches what the follower had
at first; and the requests are its own. -/
def Allowed (term : ℕ) (initial : List LogEntry) (s : Sys σ) : Event → Prop
  | .grow command => 0 < term ∧ Succeeds (tryDecodeConfChange command) ∧
      Matches initial (s.leader ++ [⟨s.leader.length + 1, term, command⟩])
  | .append _ req => ∃ n, Sent term s.leader req n

variable {term now : ℕ} {initial leader l p : List LogEntry} {n : Node σ}
  {req : AppendEntriesRequest} {k : ℕ}

/-- **What a leader sends** is cut from its log. -/
theorem replicateTo_sent {m : Node σ} {peer : NodeId} (hholds : Holds m.log leader)
    (hnext : ∀ i, m.nextIndex.find peer = some i → i ≤ m.log.lastIndex + 1)
    (hcommit : m.commitIndex ≤ m.log.lastIndex)
    (hsent : (m.replicateTo peer).2 = some (.append req)) :
    Sent m.state.currentTerm leader req leader.length := by
  rcases m.replicateTo_cases peer with hnone | ⟨-, hsnap⟩ | ⟨-, next, hfind, hlo, happend⟩
  · rw [hnone] at hsent
    cases hsent
  · rw [hsnap] at hsent
    cases hsent
  · rw [happend] at hsent
    have hle := hnext next hfind
    rw [hholds.lastIndex] at hle hcommit
    cases hsent
    refine ⟨rfl, by show next - 1 ≤ _; omega, le_rfl, ?_, hcommit⟩
    unfold cut
    have hentries := hholds.filterMap_get (k := next - 1) (by omega)
    rw [Nat.sub_add_cancel (by omega), hholds.lastIndex] at hentries
    simp only [List.take_length, Batch.mk.injEq, true_and]
    refine ⟨hholds.termAt (by omega), ?_⟩
    rw [hholds.lastIndex, ← hentries]
    congr 2
    omega

/-! ### What the follower keeps -/

lemma Following.congr {n' : Node σ} (h : Following term initial leader n l) (hlog : n'.log = n.log)
    (hlast : n'.lastApplied = n.lastApplied) (hcommit : n'.commitIndex = n.commitIndex)
    (hterm : n'.state.currentTerm ≤ term) : Following term initial leader n' l :=
  ⟨hlog ▸ h.inv, h.keeps.congr hlog hlast hcommit, hcommit ▸ h.committed,
    hlog ▸ h.decodable, h.leaderDecodable, hterm⟩

lemma decodable_of_snapshot_le {log log' : RaftLog} (h : Holds log l) (h' : Holds log' l)
    (hle : log.snapshotIndex ≤ log'.snapshotIndex) (hd : Decodable log) : Decodable log' := by
  intro e he
  refine hd e ?_
  rw [h'.entries] at he
  rw [h.entries]
  rw [show log'.snapshotIndex = log.snapshotIndex + (log'.snapshotIndex - log.snapshotIndex) by
    omega, ← List.drop_drop] at he
  exact List.mem_of_mem_drop he

/-- The follower commits, applies and compacts what it has in common with the leader. -/
lemma Following.commit (h : Following term initial leader n l) (hp : leader.take k <+: l)
    (hk : k ≤ leader.length) {i : ℕ} (hlo : n.commitIndex ≤ i) (hhi : i ≤ k) :
    Following term initial leader ((n.withCommitIndex i).applyCommitted cb).1 l := by
  have htake := take_eq_of_common hp hk
  have hlen : k ≤ l.length := by simpa [hk] using hp.length_le
  have hkeeps : Keeps l (n.withCommitIndex i) :=
    ⟨h.keeps.holds, h.keeps.snapshot_le, h.keeps.applied_le.trans hlo, hhi.trans hlen⟩
  obtain ⟨hafter, hsnap, -⟩ := @Keeps.applyCommitted σ cb l _ hkeeps
  have hcommitted : l.take i <+: leader := by
    rw [← take_take_of_le hhi, htake, take_take_of_le hhi]
    exact List.take_prefix _ _
  have hboundary := (hafter.snapshot_le.trans hafter.applied_le)
  rw [applyCommitted_commitIndex, withCommitIndex_commitIndex] at hboundary
  exact {
    inv := ⟨⟨hafter.holds, h.inv.follows.indexed, h.inv.follows.positive, h.inv.follows.matched,
      (take_prefix_of_le hboundary).trans hcommitted⟩, h.inv.origin⟩
    keeps := hafter
    committed := by rwa [applyCommitted_commitIndex]
    decodable := decodable_of_snapshot_le h.keeps.holds hafter.holds hsnap h.decodable
    leaderDecodable := h.leaderDecodable
    term_le := by simpa using h.term_le }

lemma Following.taken (h : Following term initial leader n l) (hsent : Sent term leader req k)
    {log : RaftLog}
    (hlog : n.log.appendEntriesFrom req.prevLogIndex req.prevLogTerm req.entries = some log) :
    Following term initial leader ((n.heardFrom now req.term req.leaderId).withLog log)
      (merge l (leader.take k)) := by
  have hbatch := hsent.batch
  have hdeliver : deliver n.log (cut leader req.prevLogIndex k) = some log := by
    rw [← hbatch]
    exact hlog
  have harrive := h.inv.arrive hsent.prev_le hsent.le_length hdeliver
  have hsnap := (deliver_merges h.inv.follows hsent.prev_le hsent.le_length hdeliver).1
  have hkept : l.take n.commitIndex <+: merge l (leader.take k) :=
    prefix_kept (List.take_prefix _ _) h.committed
  have hlen : (l.take n.commitIndex).length = n.commitIndex := by simpa using h.keeps.commit_le
  refine ⟨harrive, ⟨harrive.follows.holds, ?_, ?_, ?_⟩, ?_, ?_, h.leaderDecodable, ?_⟩
  · simpa [hsnap] using h.keeps.snapshot_le
  · simpa using h.keeps.applied_le
  · simpa [hlen] using hkept.length_le
  · have htake := take_eq_of_isPrefix hkept hlen.ge
    rw [take_take_of_le le_rfl] at htake
    simpa [htake] using h.committed
  · intro e he
    have hentries := harrive.follows.holds.entries
    change e ∈ log.entries at he
    rw [hentries] at he
    unfold merge at he
    split_ifs at he
    · refine h.decodable e ?_
      rw [h.keeps.holds.entries, ← hsnap]
      exact he
    · exact h.leaderDecodable e (List.mem_of_mem_take (List.mem_of_mem_drop he))
  · have hterm := h.term_le
    rw [← hsent.term_eq] at hterm
    show (n.heardFrom now req.term req.leaderId).state.currentTerm ≤ term
    rw [heardFrom_currentTerm n now req.term req.leaderId hterm, hsent.term_eq]

lemma followCommit_commitIndex (n : Node σ) (leaderCommit : ℕ) :
    (n.followCommit cb leaderCommit).1.commitIndex =
      if leaderCommit > n.commitIndex then min leaderCommit n.log.lastIndex else n.commitIndex := by
  unfold followCommit
  split <;> simp

lemma handleAppendEntries_success {resp : AppendEntriesResponse}
    (hanswer : (n.handleAppendEntries cb now req).2 = .ok resp) (hsuccess : resp.success = true) :
    n.state.currentTerm ≤ req.term ∧ ∃ log,
      n.log.appendEntriesFrom req.prevLogIndex req.prevLogTerm req.entries = some log ∧
      (n.handleAppendEntries cb now req).1 =
        (((n.heardFrom now req.term req.leaderId).withLog log).refreshMembership.1.followCommit cb
          req.leaderCommit).1 := by
  rcases n.handleAppendEntries_cases now req with
    ⟨-, heq⟩ | ⟨-, -, heq⟩ | ⟨hterm, log, hlog, -⟩
  · rw [heq] at hanswer
    cases hanswer
    cases hsuccess
  · rw [heq] at hanswer
    cases hanswer
    cases hsuccess
  · refine ⟨hterm, log, hlog, ?_⟩
    unfold handleAppendEntries at hanswer ⊢
    rw [if_neg (by omega)] at hanswer ⊢
    dsimp only at hanswer ⊢
    rw [heardFrom_log, hlog] at hanswer ⊢
    dsimp only at hanswer ⊢
    generalize ((n.heardFrom now req.term req.leaderId).withLog log).refreshMembership = x
      at hanswer ⊢
    obtain ⟨m, e | u⟩ := x
    · cases hanswer
    · have hrest := @Outcome.andThen_fst σ Unit AppendEntriesResponse
        (m.followCommit cb req.leaderCommit) (fun n _ => (n, .ok ⟨n.state.currentTerm, true,
          req.prevLogIndex + req.entries.length⟩)) fun _ _ => rfl
      exact hrest

/-- **What a request keeps**: what the follower has in common with the leader, and its commit
index. -/
theorem Following.append (h : Following term initial leader n l) (hsent : Sent term leader req k) :
    ∃ l', Following term initial leader (n.handleAppendEntries cb now req).1 l' ∧
      (∀ p, p <+: l → p <+: leader → p <+: l') ∧
      n.commitIndex ≤ (n.handleAppendEntries cb now req).1.commitIndex ∧
      n.state.currentTerm ≤ (n.handleAppendEntries cb now req).1.state.currentTerm ∧
      ∀ resp, (n.handleAppendEntries cb now req).2 = .ok resp → resp.success = true →
        leader.take k <+: l' ∧ (n.handleAppendEntries cb now req).1.state.currentTerm = term := by
  have hle : n.state.currentTerm ≤ req.term := hsent.term_eq ▸ h.term_le
  have hheard := heardFrom_currentTerm n now req.term req.leaderId hle
  rcases n.handleAppendEntries_cases now req with ⟨hlt, -⟩ | ⟨-, -, heq⟩ |
    ⟨-, log, hlog, hsettles, -⟩
  · omega
  · rw [heq]
    refine ⟨l, h.congr (by simp) (by simp) (by simp) (by rw [hheard, hsent.term_eq]),
      fun p hp _ => hp, by simp, by rw [hheard]; exact hle, fun resp hresp hsuccess => ?_⟩
    cases hresp
    cases hsuccess
  · have htaken : Following term initial leader
        ((n.heardFrom now req.term req.leaderId).withLog log) (merge l (leader.take k)) :=
      h.taken hsent hlog
    have hp : leader.take k <+: merge l (leader.take k) := prefix_merge l _
    have hlen : k ≤ (merge l (leader.take k)).length := by
      simpa [hsent.le_length] using hp.length_le
    have hbase : ((n.heardFrom now req.term req.leaderId).withLog log).state.currentTerm =
        req.term := hheard
    -- behind the entries come a refresh and a commit at most, and each keeps the matching
    have hafter := hsettles.keeps (P := fun m => Following term initial leader m
        (merge l (leader.take k)) ∧ n.commitIndex ≤ m.commitIndex ∧
        m.state.currentTerm = req.term) ⟨htaken, by simp, hbase⟩ ?_
    · obtain ⟨hfollowing, hcommit, hterm⟩ := hafter
      refine ⟨_, hfollowing, fun p hp' hin => prefix_kept hp' hin, hcommit, by rwa [hterm], ?_⟩
      exact fun _ _ _ => ⟨hp, hterm.trans hsent.term_eq⟩
    · rintro a b ⟨ha, hcommit, hterm⟩ hmove
      cases hmove with
      | refresh =>
        exact ⟨ha.congr (by simp) (by simp) (by simp) (by simpa using ha.term_le),
          by simpa using hcommit, by simpa using hterm⟩
      | commit i hi =>
        have hlast : log.lastIndex = (merge l (leader.take k)).length :=
          htaken.keeps.holds.lastIndex
        have hrest := ha.keeps.commit_le
        have hlow := hsent.commit_le
        obtain ⟨hold, rfl⟩ := hi
        refine ⟨ha.commit hp hsent.le_length (by omega) (by omega), ?_, by simpa using hterm⟩
        rw [applyCommitted_commitIndex, withCommitIndex_commitIndex]
        omega
      | note => exact ⟨ha.congr rfl rfl rfl ha.term_le, hcommit, hterm⟩
      | stepDown => exact ⟨ha.congr rfl rfl rfl ha.term_le, hcommit, hterm⟩

lemma Following.answered (h : Following term initial leader n l) (hsent : Sent term leader req k)
    {resp : AppendEntriesResponse}
    (hanswer : (n.handleAppendEntries cb now req).2 = .ok resp) (hsuccess : resp.success = true) :
    req.leaderCommit ≤ (n.handleAppendEntries cb now req).1.commitIndex := by
  obtain ⟨-, log, hlog, heq⟩ := handleAppendEntries_success hanswer hsuccess
  have htaken : Following term initial leader
      ((n.heardFrom now req.term req.leaderId).withLog log) (merge l (leader.take k)) :=
    h.taken hsent hlog
  have hlen : k ≤ (merge l (leader.take k)).length := by
    simpa [hsent.le_length] using (prefix_merge l (leader.take k)).length_le
  have hlast : log.lastIndex = (merge l (leader.take k)).length := htaken.keeps.holds.lastIndex
  have hlow := hsent.commit_le
  rw [heq, followCommit_commitIndex]
  simp only [refreshMembership_commitIndex, withLog_commitIndex, heardFrom_commitIndex,
    refreshMembership_log, withLog_log]
  split <;> omega

/-! ### The same request again -/

lemma putAll_of_present {log : RaftLog} {idx : ℕ} (h : Holds log l) (hpos : 0 < idx)
    {es : List LogEntry} (hes : ∀ i e, es[i]? = some e → l[idx + i - 1]? = some e) :
    log.putAll idx es = log := by
  induction es generalizing idx with
  | nil => rfl
  | cons e es ih =>
    have hput : log.put idx e = log := by
      unfold RaftLog.put RaftLog.entryAt
      split_ifs with hsnap
      · rfl
      · have hget : log.entries[idx - log.snapshotIndex - 1]? = some e := by
          rw [h.entries, List.getElem?_drop, ← hes 0 e rfl]
          congr 1
          omega
        simp only [hget, if_true]
    rw [RaftLog.putAll, hput]
    refine ih (Nat.succ_pos idx) fun i a ha => ?_
    rw [show idx + 1 + i - 1 = idx + (i + 1) - 1 by omega]
    exact hes (i + 1) a (by simpa using ha)

lemma Following.redelivered (h : Following term initial leader n l)
    (hsent : Sent term leader req k) (hp : leader.take k <+: l)
    (hcommit : req.leaderCommit ≤ n.commitIndex) (hterm : n.state.currentTerm = term)
    (hprev : req.prevLogIndex = 0 ∨ n.log.snapshotIndex ≤ req.prevLogIndex) :
    n.handleAppendEntries cb now req =
      ((n.heardFrom now req.term req.leaderId).refreshMembership.1,
        .ok ⟨term, true, req.prevLogIndex + req.entries.length⟩) := by
  have hle : n.state.currentTerm ≤ req.term := (hterm.trans hsent.term_eq.symm).le
  have hlen : k ≤ l.length := by simpa [hsent.le_length] using hp.length_le
  have hprevLe := hsent.prev_le
  have hbatch := hsent.batch
  have htake : l.take req.prevLogIndex = leader.take req.prevLogIndex := by
    rw [← take_take_of_le hprevLe, take_eq_of_common hp hsent.le_length, take_take_of_le hprevLe]
  have hsome := (deliver_isSome (n := k) h.inv.follows (hprevLe.trans hsent.le_length)).mpr
    (hprev.imp_right fun hlo => ⟨hlo, by omega, htake⟩)
  have hlog : n.log.appendEntriesFrom req.prevLogIndex req.prevLogTerm req.entries =
      some n.log := by
    rw [← hbatch] at hsome
    unfold deliver at hsome
    dsimp only at hsome
    rw [appendEntriesFrom_eq] at hsome ⊢
    by_cases hcheck : 0 < req.prevLogIndex ∧ n.log.termAt req.prevLogIndex ≠ req.prevLogTerm
    · rw [if_pos hcheck] at hsome
      cases hsome
    rw [if_neg hcheck, putAll_of_present h.keeps.holds (Nat.succ_pos _) fun i e he => ?_]
    have hentries : req.entries = (leader.take k).drop req.prevLogIndex :=
      congrArg Batch.entries hbatch
    rw [hentries, List.getElem?_drop] at he
    have hin := (List.getElem?_eq_some_iff.mp he).1
    rw [List.length_take, Nat.min_eq_left hsent.le_length] at hin
    have hat := congrArg (·[req.prevLogIndex + i]?) (take_eq_of_common hp hsent.le_length)
    simp only [List.getElem?_take, hin, if_true] at hat he
    rw [show req.prevLogIndex + 1 + i - 1 = req.prevLogIndex + i by omega, hat, he]
  have hsame : (n.heardFrom now req.term req.leaderId).withLog n.log =
      n.heardFrom now req.term req.leaderId := by
    conv_lhs => rw [← heardFrom_log n now req.term req.leaderId]
    rfl
  have hrefresh : (n.heardFrom now req.term req.leaderId).refreshMembership.2 = .ok () := by
    obtain ⟨u, hu⟩ := @refreshMembership_succeeds σ (n.heardFrom now req.term req.leaderId)
      (by rw [heardFrom_log]; exact h.decodable)
    exact hu
  have hstate := heardFrom_currentTerm n now req.term req.leaderId hle
  unfold handleAppendEntries
  rw [if_neg (by omega)]
  dsimp only
  rw [heardFrom_log, hlog]
  dsimp only
  rw [hsame, Outcome.andThen, hrefresh]
  dsimp only
  have hno : (n.heardFrom now req.term req.leaderId).refreshMembership.1.followCommit cb
      req.leaderCommit = ((n.heardFrom now req.term req.leaderId).refreshMembership.1, .ok ()) := by
    unfold followCommit
    rw [if_neg (by simpa using hcommit)]
  rw [hno, Outcome.andThen]
  simp only [refreshMembership_state, hstate]
  rw [hsent.term_eq]

/-- The request is answered as before, and changes nothing. -/
def AnsweredAgain (cb : Callbacks σ) (now : ℕ) (n : Node σ) (req : AppendEntriesRequest)
    (resp : AppendEntriesResponse) : Prop :=
  (∃ resp', (n.handleAppendEntries cb now req).2 = .ok resp' ∧ resp'.success = true ∧
    resp'.matchIndex = resp.matchIndex) ∧
  (n.handleAppendEntries cb now req).1.log.entries = n.log.entries ∧
  (n.handleAppendEntries cb now req).1.commitIndex = n.commitIndex ∧
  (n.handleAppendEntries cb now req).1.lastApplied = n.lastApplied

/-- What a run keeps of an accepted request. -/
structure Accepted (term : ℕ) (initial : List LogEntry) (req : AppendEntriesRequest) (k : ℕ)
    (s : Sys σ) (l : List LogEntry) : Prop where
  following : Following term initial s.leader s.node l
  sent : Sent term s.leader req k
  held : s.leader.take k <+: l
  commit_le : req.leaderCommit ≤ s.node.commitIndex
  term_eq : s.node.state.currentTerm = term

lemma Sent.grow (h : Sent term leader req k) {leader' : List LogEntry} (hle : leader <+: leader') :
    Sent term leader' req k := by
  refine ⟨h.term_eq, h.prev_le, h.le_length.trans hle.length_le, h.batch.trans ?_, h.commit_le⟩
  unfold cut
  rw [take_eq_of_isPrefix hle h.le_length, termOf_of_isPrefix hle (h.prev_le.trans h.le_length)]

lemma Accepted.step {s : Sys σ} (h : Accepted term initial req k s l) {e : Event}
    (hok : Allowed term initial s e) :
    ∃ l', Accepted term initial req k (Redelivery.step cb term s e) l' := by
  cases e with
  | grow command =>
    obtain ⟨hpos, hdecodes, hmatch⟩ := hok
    have hgrows : s.leader <+: s.leader ++ [⟨s.leader.length + 1, term, command⟩] :=
      List.prefix_append _ _
    have hf := h.following
    obtain ⟨-, l', hinv, hkept⟩ := hf.inv.step (e := .grow term command) ⟨hpos, hmatch⟩
    refine ⟨l, ⟨⟨⟨⟨hf.keeps.holds, ?_, ?_, ?_, ?_⟩, ?_⟩, hf.keeps,
      hf.committed.trans hgrows, hf.decodable, ?_, hf.term_le⟩, h.sent.grow hgrows, ?_,
        h.commit_le, h.term_eq⟩⟩
    · exact hinv.follows.indexed
    · exact hinv.follows.positive
    · rcases hf.inv.origin with rfl | hpart
      · exact hmatch
      · exact matches_of_isPrefix (hpart.trans hgrows)
    · exact hf.inv.follows.boundary.trans hgrows
    · exact hf.inv.origin.imp_right (·.trans hgrows)
    · intro e he
      rcases List.mem_append.mp he with hold | hnew
      · exact hf.leaderDecodable e hold
      · rw [List.mem_singleton.mp hnew]
        exact hdecodes
    · show (s.leader ++ [_]).take k <+: l
      rw [take_eq_of_isPrefix hgrows h.sent.le_length]
      exact h.held
  | append now' req' =>
    obtain ⟨k', hsent'⟩ := hok
    obtain ⟨l', hfollowing, hkept, hcommit, hterm, -⟩ :=
      @Following.append σ cb term now' initial s.leader l s.node req' k' h.following hsent'
    exact ⟨l', hfollowing, h.sent, hkept _ h.held (List.take_prefix _ _),
      h.commit_le.trans hcommit, le_antisymm hfollowing.term_le (h.term_eq ▸ hterm)⟩

/-- **A request that has been accepted once**: delivered again in the same term, after any
further requests of the leader and all they make the follower commit, apply and compact, it is
answered as before and changes nothing if and only if it begins at the start of the log or the
follower has not compacted past the entry in front of it. -/
theorem redelivered_iff {s₀ s : Sys σ} {resp : AppendEntriesResponse} {now' : ℕ}
    (h₀ : Following term initial s₀.leader s₀.node l) (hsent : Sent term s₀.leader req k)
    (hanswer : (s₀.node.handleAppendEntries cb now req).2 = .ok resp)
    (hsuccess : resp.success = true)
    (hrun : Reach (StepOf (step cb term)) (Allowed term initial)
      (step cb term s₀ (.append now req)) s) :
    AnsweredAgain cb now' s.node req resp ↔
      (req.prevLogIndex = 0 ∨ s.node.log.snapshotIndex ≤ req.prevLogIndex) := by
  obtain ⟨l₁, hfollowing, -, -, -, htaken⟩ :=
    @Following.append σ cb term now initial s₀.leader l s₀.node req k h₀ hsent
  obtain ⟨hheld, hterm⟩ := htaken resp hanswer hsuccess
  have hfirst : Accepted term initial req k (step cb term s₀ (.append now req)) l₁ :=
    ⟨hfollowing, hsent, hheld, h₀.answered hsent hanswer hsuccess, hterm⟩
  obtain ⟨l', h⟩ : ∃ l', Accepted term initial req k s l' := by
    refine hrun.invariant (I := fun s => ∃ l', Accepted term initial req k s l')
      ⟨l₁, hfirst⟩ ?_
    rintro s e _ ⟨l', hl'⟩ hok rfl
    exact hl'.step hok
  have hresp : resp.matchIndex = req.prevLogIndex + req.entries.length := by
    rcases s₀.node.handleAppendEntries_cases now req with ⟨-, heq⟩ | ⟨-, -, heq⟩ |
      ⟨-, log, -, -, hall⟩
    · rw [heq] at hanswer
      cases hanswer
      cases hsuccess
    · rw [heq] at hanswer
      cases hanswer
      cases hsuccess
    · rw [hall resp hanswer]
  constructor
  · rintro ⟨⟨resp', hanswer', hsuccess', -⟩, -⟩
    obtain ⟨-, log, hlog, -⟩ := handleAppendEntries_success hanswer' hsuccess'
    have hsome : (deliver s.node.log (cut s.leader req.prevLogIndex k)).isSome := by
      rw [← h.sent.batch]
      unfold deliver
      dsimp only
      rw [hlog]
      rfl
    exact ((deliver_isSome h.following.inv.follows
      (h.sent.prev_le.trans h.sent.le_length)).mp hsome).imp_right fun hlo => hlo.1
  · intro hprev
    have hagain := @Following.redelivered σ cb term now' initial s.leader l' s.node req k
      h.following h.sent h.held h.commit_le h.term_eq hprev
    unfold AnsweredAgain
    rw [hagain]
    exact ⟨⟨_, rfl, rfl, hresp.symm⟩, by simp, by simp, by simp⟩

/-- A state machine that does nothing. -/
def silent : Callbacks Unit := ⟨fun s _ _ => (s, .ok []), fun _ => [], fun s _ => s⟩

/-- Six entries of one term, without a command. -/
def six : List LogEntry := (List.range 6).map fun i => ⟨i + 1, 1, []⟩

def firstOne : AppendEntriesRequest := ⟨1, 2, 0, 0, six.take 1, 0⟩

/-- The other five, all committed. -/
def otherFive : AppendEntriesRequest := ⟨1, 2, 1, 1, six.drop 1, 6⟩

def beginning : Sys Unit := ⟨six, bootstrap 1 ⟨[], 0⟩ .empty false ()⟩

lemma following_beginning : Following 1 [] beginning.leader beginning.node [] := by
  refine ⟨⟨⟨Holds.empty, ?_, by decide, by unfold Matches; decide, List.nil_prefix⟩,
    .inl rfl⟩, ⟨Holds.empty, le_rfl, le_rfl, le_rfl⟩, List.nil_prefix, nofun,
      ?_, Nat.zero_le _⟩
  · intro i e he
    obtain ⟨hi, rfl⟩ := List.getElem?_eq_some_iff.mp he
    simp [beginning, six]
  · intro e he
    have hcommand : e.command = [] := by
      simp only [beginning, six, List.mem_map] at he
      obtain ⟨i, -, rfl⟩ := he
      rfl
    rw [hcommand]
    exact ⟨none, rfl⟩

lemma sent_firstOne : Sent 1 beginning.leader firstOne 1 :=
  ⟨rfl, Nat.zero_le 1, by decide, by decide, Nat.zero_le 1⟩

lemma sent_otherFive : Sent 1 beginning.leader otherFive 6 :=
  ⟨rfl, by decide, by decide, by decide, le_rfl⟩

/-- The follower with the first entry. -/
def withFirst : Sys Unit := step silent 1 beginning (.append 0 firstOne)

lemma following_withFirst : ∃ l, Following 1 [] withFirst.leader withFirst.node l := by
  obtain ⟨l, h, -⟩ := @Following.append Unit silent 1 0 [] beginning.leader [] beginning.node
    firstOne 1 following_beginning sent_firstOne
  exact ⟨l, h⟩

/-- The first request, which begins at the start of the log, may come again behind the others. -/
theorem redelivered_iff_first :
    AnsweredAgain silent 0 (step silent 1 withFirst (.append 0 otherFive)).node firstOne
      ⟨1, true, 1⟩ := by
  have hrun : Reach (StepOf (step silent 1)) (Allowed 1 []) withFirst withFirst := .refl
  exact (redelivered_iff following_beginning sent_firstOne rfl rfl
    (next hrun (.append 0 otherFive) ⟨6, sent_otherFive⟩)).mpr (.inl rfl)

/-- **A request that was accepted is refused**: the first delivery makes the follower commit,
apply and compact its entries, and the second one finds the entry in front of them gone. -/
theorem redelivery_refused : ¬ ∀ (s₀ s : Sys Unit) (l : List LogEntry)
    (req : AppendEntriesRequest) (k : ℕ) (resp : AppendEntriesResponse),
    Following 1 [] s₀.leader s₀.node l → Sent 1 s₀.leader req k →
    (s₀.node.handleAppendEntries silent 0 req).2 = .ok resp → resp.success = true →
    Reach (StepOf (step silent 1)) (Allowed 1 []) (step silent 1 s₀ (.append 0 req)) s →
      AnsweredAgain silent 0 s.node req resp := by
  intro hall
  obtain ⟨l, hfollowing⟩ := following_withFirst
  obtain ⟨⟨resp, hresp, hsuccess, -⟩, -⟩ :=
    hall withFirst _ l otherFive 6 ⟨1, true, 6⟩ hfollowing sent_otherFive rfl rfl .refl
  cases hresp
  cases hsuccess

end DistDB.Redelivery
