import DistDB.NodeFrame
import DistDB.NodeSane

/-!
The exchanges between a leader and a follower: what `ReplicateTo` sends, what the follower makes
of it, and what the leader makes of the answer. The request or the answer may be lost, and in
between the leader deals with its other peers.

An exchange says what it does to the terms of the follower's log (`taken`, `adopts`), whatever
the log held; it needs no more than that the follower's own indices are in order.
-/

namespace DistDB.Exchange

open NodeModel NodeModel.Node NodeCrash NodeHandlers FullLog TermLog Checks
open NodeInstall (Sys)

variable {σ α : Type} {cb : Callbacks σ} {l m : List LogEntry} {log : RaftLog} {n f : Node σ}
  {peer : NodeId} {now next : ℕ}

/-- What becomes of a call over the network. -/
inductive Fate
  | requestLost
  | replyLost
  | answered

/-- A call of the follower, and the answer if one comes back: there is none when the call is
lost, and none when the handler throws. -/
def call (fate : Fate) (f : Node σ) (handler : Node σ → Outcome σ α) : Node σ × Option α :=
  match fate with
  | .requestLost => (f, none)
  | .replyLost => ((handler f).1, none)
  | .answered => ((handler f).1, (handler f).2.toOption)

/-- `HandleInstallSnapshot`, with nothing between its parts. -/
def handleInstallSnapshot (cb : Callbacks σ) (now : ℕ) (n : Node σ)
    (req : InstallSnapshotRequest) : Outcome σ InstallSnapshotResponse :=
  match n.installCheck now req with
  | (n, some resp) => (n, .ok resp)
  | (n, none) => (n.installRestore cb req).installAdopt req

structure Pair (σ : Type) where
  leader : Node σ
  follower : Node σ

/-- One round of `ReplicateTo` for a follower, and whether the leader has been answered. -/
def round (cb : Callbacks σ) (peer : NodeId) (s : Pair σ) (now : ℕ) (fate : Fate) :
    Pair σ × Bool :=
  match s.leader.replicateTo peer with
  | (n, none) => (⟨n, s.follower⟩, false)
  | (n, some (.append req)) =>
    match call fate s.follower (·.handleAppendEntries cb now req) with
    | (f, none) => (⟨n.replicationLost peer, f⟩, false)
    | (f, some resp) =>
      (⟨(n.appendReply cb peer req.term req.prevLogIndex req.entries.length resp).1, f⟩, true)
  | (n, some (.snapshot term)) =>
    match n.sendInstallSnapshot cb peer term with
    | (n, none) => (⟨n, s.follower⟩, false)
    | (n, some req) =>
      match call fate s.follower (handleInstallSnapshot cb now · req) with
      | (f, none) => (⟨n.replicationLost peer, f⟩, false)
      | (f, some resp) => (⟨n.snapshotReply peer term req.lastIncludedIndex resp, f⟩, true)

/-- The request of a round. -/
def sent (cb : Callbacks σ) (peer : NodeId) (n : Node σ) :
    Option (AppendEntriesRequest ⊕ InstallSnapshotRequest) :=
  match n.replicateTo peer with
  | (_, none) => none
  | (_, some (.append req)) => some (.inl req)
  | (n, some (.snapshot term)) => (n.sendInstallSnapshot cb peer term).2.map .inr

/-- The handler of the request does not throw. -/
def Answers (cb : Callbacks σ) (now : ℕ) (f : Node σ) :
    AppendEntriesRequest ⊕ InstallSnapshotRequest → Prop
  | .inl req => Succeeds (f.handleAppendEntries cb now req).2
  | .inr req => Succeeds (handleInstallSnapshot cb now f req).2

/-- What happens while a leader replicates to a follower. -/
inductive Act
  | round (now : ℕ) (fate : Fate)
  /-- The leader deals with another of its peers. -/
  | other (e : Event)

/-- What the leader does for the other peers, of which none is in a later term. -/
def Elsewhere (peer : NodeId) (term : ℕ) : Event → Prop
  | .replicate p | .replicationLost p | .send p _ => p ≠ peer
  | .appendReply p _ _ _ resp => p ≠ peer ∧ resp.term ≤ term
  | .snapshotReply p _ _ resp => p ≠ peer ∧ resp.term ≤ term
  | _ => False

def act (cb : Callbacks σ) (peer : NodeId) (s : Pair σ) : Act → Pair σ × Bool
  | .round now fate => round cb peer s now fate
  | .other e =>
    (⟨((handle cb ⟨s.leader, .none⟩ e).map Sys.node).getD s.leader, s.follower⟩, false)

/-- One after the other, and how many rounds have been answered. -/
def rounds (cb : Callbacks σ) (peer : NodeId) (s : Pair σ) : List Act → Pair σ × ℕ
  | [] => (s, 0)
  | a :: rest =>
    let (s, answered) := act cb peer s a
    let (s, k) := rounds cb peer s rest
    (s, if answered then k + 1 else k)

lemma call_cases (fate : Fate) (f : Node σ) (handler : Node σ → Outcome σ α) :
    call fate f handler = (f, none) ∨ call fate f handler = ((handler f).1, none) ∨
      ∃ a, (handler f).2 = .ok a ∧ call fate f handler = ((handler f).1, some a) := by
  cases fate with
  | requestLost => exact .inl rfl
  | replyLost => exact .inr (.inl rfl)
  | answered =>
    unfold call
    cases h : (handler f).2 with
    | error e => exact .inr (.inl rfl)
    | ok a => exact .inr (.inr ⟨a, rfl, rfl⟩)

/-! ### The leader -/

/-- A leader that has just been elected, with the log that is left of `m`: it has applied what it
has committed, and has no entry of its own term. -/
structure Leads (m : List LogEntry) (peer : NodeId) (n : Node σ) : Prop where
  role : n.role = .kLeader
  holds : Holds n.log m
  snapshot_le : n.log.snapshotIndex ≤ n.lastApplied
  applied : n.commitIndex ≤ n.lastApplied
  applied_le : n.lastApplied ≤ m.length
  positive : ∀ i, 0 < i → i ≤ m.length → 0 < termOf m i
  earlier : ∀ i, termOf m i < n.state.currentTerm
  known : (n.peers.find peer).isSome
  free : peer ∉ n.replicationInFlight

/-- The request for the entries from an index on. -/
def request (n : Node σ) (m : List LogEntry) (next : ℕ) : AppendEntriesRequest :=
  ⟨n.state.currentTerm, n.id, next - 1, termOf m (next - 1), m.drop (next - 1), n.commitIndex⟩

/-- The request with the leader's snapshot. -/
def snapshotRequest (cb : Callbacks σ) (n : Node σ) (m : List LogEntry) :
    InstallSnapshotRequest :=
  ⟨n.state.currentTerm, n.id, n.lastApplied, termOf m n.lastApplied, cb.snapshot n.machine,
    n.peers.insert n.id n.ownAddress⟩

/-- The node with a call to the peer in flight. -/
def sending (n : Node σ) (peer : NodeId) : Node σ :=
  { n with replicationInFlight := insert peer n.replicationInFlight }

lemma lost_sending (h : peer ∉ n.replicationInFlight) :
    (sending n peer).replicationLost peer = n := by
  unfold sending replicationLost
  dsimp only
  rw [Finset.erase_insert h]

lemma lost_free (h : peer ∉ n.replicationInFlight) : n.replicationLost peer = n := by
  unfold replicationLost
  rw [Finset.erase_eq_of_notMem h]

lemma Leads.not_stale (h : Leads m peer n) :
    ¬ (n.role ≠ .kLeader ∨ n.state.currentTerm ≠ n.state.currentTerm) := by
  rw [not_or, not_not, not_not]
  exact ⟨h.role, rfl⟩

lemma Leads.not_isNone (h : Leads m peer n) : ¬ (n.peers.find peer).isNone := by
  simpa [Option.isSome_iff_ne_none] using h.known

namespace Leads

variable (h : Leads m peer n) (hnext : n.nextIndex.find peer = some next)
include h hnext

lemma replicateTo_eq : n.replicateTo peer = (sending n peer,
    some (if next ≤ n.log.snapshotIndex then .snapshot n.state.currentTerm
      else .append (request n m next))) := by
  have hemplace : n.nextIndex.emplace peer 0 = n.nextIndex := by
    unfold OrdMap.emplace
    rw [if_pos (by rw [hnext]; rfl)]
  unfold replicateTo
  rw [if_neg (by rw [not_or, not_not]; exact ⟨h.role, h.free⟩)]
  dsimp only
  rw [hemplace, hnext]
  simp only [Option.getD_some]
  split_ifs with hle
  · rfl
  · have hentries : (List.range' next (n.log.lastIndex + 1 - next)).filterMap n.log.get =
        m.drop (next - 1) := by
      rw [← h.holds.filterMap_get (k := next - 1) (by omega), show next - 1 + 1 = next by omega,
        show n.log.lastIndex - (next - 1) = n.log.lastIndex + 1 - next by omega]
    rw [hentries, h.holds.termAt (by omega)]
    rfl

lemma round_append (hlt : n.log.snapshotIndex < next) (fate : Fate) :
    round cb peer ⟨n, f⟩ now fate =
      match call fate f (·.handleAppendEntries cb now (request n m next)) with
      | (f, none) => (⟨n, f⟩, false)
      | (f, some resp) => (⟨(n.appendReply cb peer n.state.currentTerm (next - 1)
          (m.length - (next - 1)) resp).1, f⟩, true) := by
  unfold round
  simp only [h.replicateTo_eq hnext, if_neg (Nat.not_le.mpr hlt), lost_sending h.free]
  rcases call fate f (·.handleAppendEntries cb now (request n m next)) with ⟨f', _ | resp⟩
  · rfl
  · simp only [request, List.length_drop, appendReply, lost_sending h.free, lost_free h.free]

omit hnext in
lemma sendInstallSnapshot_eq : (sending n peer).sendInstallSnapshot cb peer n.state.currentTerm =
    (sending n peer, some (snapshotRequest cb n m)) := by
  have hstale : ¬ ((sending n peer).role ≠ .kLeader ∨
    n.state.currentTerm ≠ (sending n peer).state.currentTerm) := h.not_stale
  unfold sendInstallSnapshot snapshotRequest
  rw [if_neg hstale, ← h.holds.termAt h.snapshot_le]
  rfl

lemma round_snapshot (hle : next ≤ n.log.snapshotIndex) (fate : Fate) :
    round cb peer ⟨n, f⟩ now fate =
      match call fate f (handleInstallSnapshot cb now · (snapshotRequest cb n m)) with
      | (f, none) => (⟨n, f⟩, false)
      | (f, some resp) =>
        (⟨n.snapshotReply peer n.state.currentTerm n.lastApplied resp, f⟩, true) := by
  unfold round
  simp only [h.replicateTo_eq hnext, if_pos hle, h.sendInstallSnapshot_eq, lost_sending h.free]
  rcases call fate f (handleInstallSnapshot cb now · (snapshotRequest cb n m)) with
    ⟨f', _ | resp⟩
  · rfl
  · simp only [snapshotRequest, snapshotReply, lost_sending h.free, lost_free h.free]

lemma sent_append (hlt : n.log.snapshotIndex < next) :
    sent cb peer n = some (.inl (request n m next)) := by
  unfold sent
  simp only [h.replicateTo_eq hnext, if_neg (Nat.not_le.mpr hlt)]

lemma sent_snapshot (hle : next ≤ n.log.snapshotIndex) :
    sent cb peer n = some (.inr (snapshotRequest cb n m)) := by
  unfold sent
  simp only [h.replicateTo_eq hnext, if_pos hle, h.sendInstallSnapshot_eq, Option.map_some]

end Leads

lemma Leads.noted (h : Leads m peer n) (nextIndex matchIndex : OrdMap NodeId ℕ) :
    Leads m peer { n with nextIndex := nextIndex, matchIndex := matchIndex } :=
  ⟨h.role, h.holds, h.snapshot_le, h.applied, h.applied_le, h.positive,
    h.earlier, h.known, h.free⟩

lemma Leads.maybeAdvance (h : Leads m peer n) : n.maybeAdvanceCommitIndex cb = (n, .ok ()) := by
  have hnot : n.log.termAt n.majorityIndex ≠ n.state.currentTerm := by
    have hearlier := h.earlier n.majorityIndex
    rcases Nat.lt_or_ge n.majorityIndex n.log.snapshotIndex with hlt | hge
    · rw [Holds.termAt_of_lt hlt]
      omega
    · rw [h.holds.termAt hge]
      omega
  unfold maybeAdvanceCommitIndex
  rw [if_neg (by tauto)]

section

variable (h : Leads m peer n) {resp : AppendEntriesResponse}
  (hterm : resp.term ≤ n.state.currentTerm)
include h hterm

lemma Leads.appendReply_success (hsuccess : resp.success = true) (prev sent : ℕ) :
    (n.appendReply cb peer n.state.currentTerm prev sent resp).1 =
      n.acknowledged peer (max (prev + sent) ((n.matchIndex.find peer).getD 0)) := by
  unfold appendReply
  simp only [lost_free h.free]
  rw [if_neg h.not_isNone, if_neg (by omega), if_neg h.not_stale,
    if_pos hsuccess]
  exact congrArg Prod.fst (h.noted _ _).maybeAdvance

lemma Leads.appendReply_refused (hrefused : resp.success = false)
    (hnext : n.nextIndex.find peer = some next) (hpos : 1 < next) (prev sent : ℕ) :
    (n.appendReply cb peer n.state.currentTerm prev sent resp).1 =
      { n with nextIndex := n.nextIndex.insert peer (next - 1) } := by
  unfold appendReply
  simp only [lost_free h.free, hnext]
  rw [if_neg h.not_isNone, if_neg (by omega), if_neg h.not_stale,
    if_neg (by rw [hrefused]; decide)]
  simp only [Option.getD_some, if_pos hpos]

end

lemma Leads.snapshotReply (h : Leads m peer n) {resp : InstallSnapshotResponse}
    (hterm : resp.term ≤ n.state.currentTerm) (i : ℕ) :
    n.snapshotReply peer n.state.currentTerm i resp = n.acknowledged peer i := by
  unfold Node.snapshotReply
  simp only [lost_free h.free]
  rw [if_neg h.not_isNone, if_neg (by omega), if_neg h.not_stale]
  rfl

lemma Leads.elsewhere (h : Leads m peer n) {e : Event}
    (he : Elsewhere peer n.state.currentTerm e) : ∃ nextIndex matchIndex inFlight,
    handle cb ⟨n, .none⟩ e = some ⟨{ n with
      nextIndex := nextIndex
      matchIndex := matchIndex
      replicationInFlight := inFlight }, .none⟩ ∧
    nextIndex.find peer = n.nextIndex.find peer ∧
      matchIndex.find peer = n.matchIndex.find peer ∧ peer ∉ inFlight := by
  have hlost : ∀ p, peer ∉ n.replicationInFlight.erase p :=
    fun p hp => h.free (Finset.mem_of_mem_erase hp)
  cases e with
  | replicate p =>
    have hp : p ≠ peer := he
    by_cases hbusy : n.role ≠ .kLeader ∨ p ∈ n.replicationInFlight
    · refine ⟨n.nextIndex, n.matchIndex, n.replicationInFlight, ?_, rfl, rfl, h.free⟩
      simp only [handle, replicateTo, if_pos hbusy]
    · refine ⟨n.nextIndex.emplace p 0, n.matchIndex, insert p n.replicationInFlight, ?_, ?_, rfl,
        ?_⟩
      · simp only [handle, replicateTo, if_neg hbusy]
        split <;> rfl
      · rw [OrdMap.find_emplace, if_neg hp.symm]
      · rw [Finset.mem_insert, not_or]
        exact ⟨hp.symm, h.free⟩
  | replicationLost p =>
    exact ⟨n.nextIndex, n.matchIndex, n.replicationInFlight.erase p, rfl, rfl, rfl, hlost p⟩
  | send p term =>
    by_cases hstale : n.role ≠ .kLeader ∨ term ≠ n.state.currentTerm
    · refine ⟨n.nextIndex, n.matchIndex, n.replicationInFlight.erase p, ?_, rfl, rfl, hlost p⟩
      simp only [handle, sendInstallSnapshot, if_pos hstale, replicationLost]
    · refine ⟨n.nextIndex, n.matchIndex, n.replicationInFlight, ?_, rfl, rfl, h.free⟩
      simp only [handle, sendInstallSnapshot, if_neg hstale]
  | appendReply p term prev sent resp =>
    obtain ⟨hp, hterm⟩ : p ≠ peer ∧ resp.term ≤ n.state.currentTerm := he
    have hlater : ¬ resp.term > n.state.currentTerm := Nat.not_lt.mpr hterm
    by_cases hgone : (n.peers.find p).isNone
    · refine ⟨n.nextIndex, n.matchIndex, n.replicationInFlight.erase p, ?_, rfl, rfl, hlost p⟩
      show some (⟨(n.appendReply cb p term prev sent resp).1, .none⟩ : Sys σ) = _
      unfold appendReply
      dsimp only [replicationLost]
      rw [if_pos hgone]
    by_cases hstale : n.role ≠ .kLeader ∨ term ≠ n.state.currentTerm
    · refine ⟨n.nextIndex, n.matchIndex, n.replicationInFlight.erase p, ?_, rfl, rfl, hlost p⟩
      show some (⟨(n.appendReply cb p term prev sent resp).1, .none⟩ : Sys σ) = _
      unfold appendReply
      dsimp only [replicationLost]
      rw [if_neg hgone, if_neg hlater, if_pos hstale]
    by_cases hsuccess : resp.success
    · obtain ⟨i, hi⟩ : ∃ i, i = max (prev + sent)
        ((n.matchIndex.find p).getD 0) := ⟨_, rfl⟩
      have hnoted : Leads m peer { n with
          nextIndex := n.nextIndex.insert p (i + 1)
          matchIndex := n.matchIndex.insert p i
          replicationInFlight := n.replicationInFlight.erase p } :=
        ⟨h.role, h.holds, h.snapshot_le, h.applied, h.applied_le, h.positive, h.earlier, h.known,
          hlost p⟩
      refine ⟨n.nextIndex.insert p (i + 1), n.matchIndex.insert p i,
        n.replicationInFlight.erase p, ?_, ?_, ?_, hlost p⟩
      · simp only [handle, appendReply, replicationLost, if_neg hgone, if_neg hlater,
          if_neg hstale, if_pos hsuccess, ← hi, hnoted.maybeAdvance]
      · rw [OrdMap.find_insert, if_neg hp.symm]
      · rw [OrdMap.find_insert, if_neg hp.symm]
    · obtain ⟨i, hi⟩ : ∃ i, i = (n.nextIndex.find p).getD 0 := ⟨_, rfl⟩
      refine ⟨n.nextIndex.insert p (if i > 1 then i - 1 else i), n.matchIndex,
        n.replicationInFlight.erase p, ?_, ?_, rfl, hlost p⟩
      · simp only [handle, appendReply, replicationLost, if_neg hgone, if_neg hlater,
          if_neg hstale, if_neg hsuccess, ← hi]
      · rw [OrdMap.find_insert, if_neg hp.symm]
  | snapshotReply p term i resp =>
    obtain ⟨hp, hterm⟩ : p ≠ peer ∧ resp.term ≤ n.state.currentTerm := he
    rcases n.snapshotReply_cases p term i resp with heq | ⟨hlater, -⟩ | ⟨-, -, -, -, heq⟩
    · refine ⟨n.nextIndex, n.matchIndex, n.replicationInFlight.erase p, ?_, rfl, rfl, hlost p⟩
      simp only [handle, heq, replicationLost]
    · exact absurd hterm (Nat.not_le.mpr hlater)
    · refine ⟨n.nextIndex.insert p (i + 1), n.matchIndex.insert p i,
        n.replicationInFlight.erase p, ?_, ?_, ?_, hlost p⟩
      · simp only [handle, heq, replicationLost, acknowledged]
      · rw [OrdMap.find_insert, if_neg hp.symm]
      · rw [OrdMap.find_insert, if_neg hp.symm]
  | _ => exact he.elim

/-! ### The follower -/

/-- The terms of the log that the loop of `AppendEntriesFrom` leaves: those of the entries, and
in front of them, and of what is compacted, the old ones. -/
lemma putAll_terms (h : Holds log l) {idx : ℕ} (hpos : 0 < idx) (hidx : idx ≤ l.length + 1)
    (es : List LogEntry) :
    (log.putAll idx es).snapshotIndex = log.snapshotIndex ∧ ∃ l',
      Holds (log.putAll idx es) l' ∧ idx + es.length ≤ l'.length + 1 ∧
      (∀ i, i < idx ∨ i ≤ log.snapshotIndex → termOf l' i = termOf l i) ∧
      ∀ k e, es[k]? = some e → log.snapshotIndex < idx + k →
        termOf l' (idx + k) = e.term := by
  induction es generalizing log l idx with
  | nil => exact ⟨rfl, l, h, hidx, fun _ _ => rfl, fun k e hk => by simp at hk⟩
  | cons e es ih =>
    rw [RaftLog.putAll]
    obtain ⟨hsnap, hput⟩ := h.put hpos hidx e
    have hle := h.snapshot_le
    obtain ⟨l₁, hl₁, hlen, hold, hnew⟩ : ∃ l₁, Holds (log.put idx e) l₁ ∧
        idx ≤ l₁.length ∧ (∀ i, i < idx ∨ i ≤ log.snapshotIndex →
          termOf l₁ i = termOf l i) ∧
        (log.snapshotIndex < idx → termOf l₁ idx = e.term) := by
      refine ⟨_, hput, ?_⟩
      split_ifs with hkeep
      · exact ⟨by omega, fun _ _ => rfl, fun hlt => (hkeep.resolve_left (by omega)).2⟩
      · rw [not_or] at hkeep
        have htake : (l.take (idx - 1)).length = idx - 1 := by simp; omega
        refine ⟨by simp; omega, fun i hi => ?_, fun _ => ?_⟩
        · rw [termOf_append_left (by omega), termOf_take (by omega)]
        · have hterm := termOf_concat (l.take (idx - 1)) { e with index := idx }
          rwa [htake, show idx - 1 + 1 = idx by omega] at hterm
    obtain ⟨hsnap', l', hl', hlen', hold', hnew'⟩ := ih hl₁ (Nat.succ_pos idx) (by omega)
    refine ⟨hsnap'.trans hsnap, l', hl', by simp; omega, fun i hi => ?_, fun k e' hk hlt => ?_⟩
    · rw [hold' i (by omega), hold i hi]
    · cases k with
      | zero =>
        cases hk
        rw [Nat.add_zero, hold' idx (by omega), hnew hlt]
      | succ k =>
        rw [show idx + (k + 1) = idx.succ + k by omega]
        exact hnew' k e' hk (by omega)

lemma putAll_drop (h : Holds log l) {prev : ℕ} (hprev : prev ≤ l.length)
    (hle : prev ≤ m.length) :
    (log.putAll (prev + 1) (m.drop prev)).snapshotIndex = log.snapshotIndex ∧ ∃ l',
      Holds (log.putAll (prev + 1) (m.drop prev)) l' ∧ m.length ≤ l'.length ∧
      (∀ i, i ≤ prev ∨ i ≤ log.snapshotIndex → termOf l' i = termOf l i) ∧
      ∀ i, prev < i → log.snapshotIndex < i → i ≤ m.length →
        termOf l' i = termOf m i := by
  obtain ⟨hsnap, l', hl', hlen, hold, hnew⟩ :=
    putAll_terms h (Nat.succ_pos prev) (Nat.succ_le_succ hprev) (m.drop prev)
  rw [List.length_drop] at hlen
  refine ⟨hsnap, l', hl', by omega, fun i hi => hold i (hi.imp_left Nat.lt_succ_of_le), ?_⟩
  intro i hi hlt him
  have hget : m[i - 1]? = some m[i - 1] := List.getElem?_eq_getElem (by omega)
  have hdrop : (m.drop prev)[i - (prev + 1)]? = some m[i - 1] := by
    rw [List.getElem?_drop, show prev + (i - (prev + 1)) = i - 1 by omega]
    exact hget
  have hterm := hnew _ _ hdrop (by omega)
  have hlast := termOf_eq_of_getElem? hget
  rw [show i - 1 + 1 = i by omega] at hlast
  rw [show prev.succ + (i - (prev + 1)) = i by omega] at hterm
  exact hterm.trans hlast.symm

/-- A follower whose indices are in order, and whose term is not ahead. -/
structure Hears (l : List LogEntry) (term : ℕ) (f : Node σ) : Prop where
  sane : Sane l f
  snapshot_le : f.log.snapshotIndex ≤ f.lastApplied
  term_le : f.state.currentTerm ≤ term

lemma Hears.snapshot_commit {term : ℕ} (h : Hears l term f) :
    f.log.snapshotIndex ≤ f.commitIndex := h.snapshot_le.trans h.sane.last_le

lemma Hears.heardFrom {term : ℕ} (h : Hears l term f) (now : ℕ) (leaderId : NodeId) :
    Hears l term (f.heardFrom now term leaderId) where
  sane := h.sane.quiet (.heardFrom f now term leaderId)
  snapshot_le := by simpa using h.snapshot_le
  term_le := (heardFrom_currentTerm f now term leaderId h.term_le).le

/-- A follower that settles keeps its whole log; its boundary only moves up, and its commit index
no further than it is told. -/
lemma keeps_settles {leaderCommit : ℕ} (h : Keeps l n)
    (hsettles : Settles cb (Follows leaderCommit l.length) n f) :
    Keeps l f ∧ n.log.snapshotIndex ≤ f.log.snapshotIndex ∧
      f.commitIndex ≤ max n.commitIndex leaderCommit ∧ f.state = n.state := by
  refine hsettles.keeps
    (P := fun a => Keeps l a ∧ n.log.snapshotIndex ≤ a.log.snapshotIndex ∧
      a.commitIndex ≤ max n.commitIndex leaderCommit ∧ a.state = n.state)
    ⟨h, le_rfl, le_max_left _ _, rfl⟩ fun a b ha hmove => ?_
  obtain ⟨hkeeps, hsnap, hmax, hstate⟩ := ha
  cases hmove with
  | refresh =>
    refine ⟨hkeeps.congr (by simp) (by simp) (by simp), by simpa, ?_, by simpa⟩
    rwa [refreshMembership_commitIndex]
  | commit i hi =>
    obtain ⟨hlt, rfl⟩ := hi
    have hcommit : Keeps l (a.withCommitIndex (min leaderCommit l.length)) :=
      ⟨hkeeps.holds, hkeeps.snapshot_le,
        hkeeps.applied_le.trans (le_min hlt.le hkeeps.commit_le), min_le_right _ _⟩
    obtain ⟨hkeeps', hsnap', -⟩ := @Keeps.applyCommitted σ cb l _ hcommit
    refine ⟨hkeeps', hsnap.trans hsnap', ?_, by simpa using hstate⟩
    rw [applyCommitted_commitIndex, withCommitIndex_commitIndex]
    omega
  | note => exact ⟨⟨hkeeps.holds, hkeeps.snapshot_le, hkeeps.applied_le, hkeeps.commit_le⟩,
      hsnap, hmax, hstate⟩
  | stepDown => exact ⟨⟨hkeeps.holds, hkeeps.snapshot_le, hkeeps.applied_le,
      hkeeps.commit_le⟩, hsnap, hmax, hstate⟩

/-- What a follower becomes when it takes the entries of `m` behind an index. -/
structure Taken (term : ℕ) (l l' m : List LogEntry) (prev leaderCommit : ℕ) (f f' : Node σ) :
    Prop where
  starts : prev = 0 ∨ (f.log.snapshotIndex ≤ prev ∧ termOf l prev = termOf m prev)
  hears : Hears l' term f'
  snapshot : f.log.snapshotIndex ≤ f'.log.snapshotIndex
  commit : f'.commitIndex ≤ max f.commitIndex leaderCommit
  old : ∀ i, i ≤ prev ∨ i ≤ f.log.snapshotIndex → termOf l' i = termOf l i
  new : ∀ i, prev < i → f.log.snapshotIndex < i → i ≤ m.length → termOf l' i = termOf m i

/-- **What a follower makes of the leader's entries**: it refuses them where its log has another
term, or none, in front of them. -/
theorem taken (hn : Leads m peer n) (hf : Hears l n.state.currentTerm f)
    (hcommit : f.commitIndex ≤ m.length) (hlt : n.log.snapshotIndex < next)
    (hnext : next ≤ m.length + 1) :
    (1 < next ∧ ¬ (f.log.snapshotIndex ≤ next - 1 ∧ termOf l (next - 1) = termOf m
      (next - 1)) ∧
      ∃ f', f'.log = f.log ∧ f'.commitIndex = f.commitIndex ∧
        Hears l n.state.currentTerm f' ∧
      f.handleAppendEntries cb now (request n m next) =
        (f', .ok ⟨n.state.currentTerm, false, 0⟩)) ∨
    (∃ l', Taken n.state.currentTerm l l' m (next - 1) n.commitIndex f
        (f.handleAppendEntries cb now (request n m next)).1) ∧
      ∀ resp, (f.handleAppendEntries cb now (request n m next)).2 = .ok resp →
        resp.success = true ∧ resp.term = n.state.currentTerm := by
  have hsnap := hf.snapshot_commit
  rcases @handleAppendEntries_cases σ cb now f (request n m next) with
    ⟨hbehind, -⟩ | ⟨-, hnone, heq⟩ | ⟨hle, log, hlog, hsettles, hresp⟩
  · exact absurd hf.term_le (Nat.not_le.mpr hbehind)
  · left
    have hterm := heardFrom_currentTerm f now _ (request n m next).leaderId hf.term_le
    unfold RaftLog.appendEntriesFrom at hnone
    split_ifs at hnone with hcheck
    obtain ⟨hpos, hdiffers⟩ := hcheck
    refine ⟨by simp only [request] at hpos; omega, fun ⟨hge, hsame⟩ => hdiffers ?_, _, ?_, ?_,
      hf.heardFrom now (request n m next).leaderId, ?_⟩
    · exact (hf.sane.holds.termAt hge).trans hsame
    · simp
    · simp
    · rw [heq]
      simp only [request] at hterm ⊢
      rw [hterm]
  · right
    have hpositive : 0 < (request n m next).prevLogIndex → 0 < (request n m next).prevLogTerm :=
      fun hpos => hn.positive (next - 1) hpos (by omega)
    -- the entries are taken, and those in front of them stay
    obtain ⟨rfl, hstarts⟩ := hf.sane.holds.appendEntriesFrom_some hpositive hlog
    have hprev : next - 1 ≤ l.length := by
      rcases hstarts with hzero | ⟨-, hle, -⟩
      · have hzero : next - 1 = 0 := hzero
        omega
      · exact hle
    obtain ⟨hsame, l', hl', hlen', hold, hnew⟩ :=
      putAll_drop (m := m) hf.sane.holds hprev (by omega)
    have hheard := hf.heardFrom now (request n m next).leaderId
    have hwith : Sane l' ((f.heardFrom now (request n m next).term
        (request n m next).leaderId).withLog
          (f.log.putAll ((request n m next).prevLogIndex + 1) (request n m next).entries)) := by
      refine hheard.sane.withLog hl' ?_
      rw [heardFrom_commitIndex]
      exact hcommit.trans hlen'
    have hsame : (f.log.putAll ((request n m next).prevLogIndex + 1)
        (request n m next).entries).snapshotIndex = f.log.snapshotIndex := hsame
    have hlast : (f.log.putAll ((request n m next).prevLogIndex + 1)
        (request n m next).entries).lastIndex = l'.length := hl'.lastIndex
    rw [hlast] at hsettles
    have hkeep : Keeps l' ((f.heardFrom now (request n m next).term
        (request n m next).leaderId).withLog
          (f.log.putAll ((request n m next).prevLogIndex + 1) (request n m next).entries)) := by
      refine ⟨hl', ?_, hwith.last_le, hwith.commit_le⟩
      rw [withLog_log, hsame, withLog_lastApplied, heardFrom_lastApplied]
      exact hf.snapshot_le
    obtain ⟨hkeeps, hsnap', hmax, hstate⟩ := keeps_settles hkeep hsettles
    rw [withLog_state] at hstate
    have hterm := heardFrom_currentTerm f now _ (request n m next).leaderId hf.term_le
    refine ⟨⟨l', ?_, ⟨hwith.follows hsettles, hkeeps.snapshot_le, ?_⟩, ?_,
      ?_, ?_, ?_⟩, ?_⟩
    · rcases hstarts with hzero | ⟨hge, -, hterm⟩
      · exact .inl hzero
      · exact .inr ⟨hge, hterm⟩
    · rw [hstate]
      exact hterm.le
    · simpa [hsame] using hsnap'
    · simpa [request] using hmax
    · exact hold
    · exact hnew
    · intro resp hok
      rw [hresp resp hok, hstate]
      exact ⟨rfl, hterm⟩

lemma installAdopt_term {req : InstallSnapshotRequest} {resp : InstallSnapshotResponse}
    (h : (f.installAdopt req).2 = .ok resp) :
    resp.term = (f.installAdopt req).1.state.currentTerm := by
  unfold installAdopt Outcome.andThen at h ⊢
  dsimp only at h ⊢
  split at h
  · cases h
  · cases h
    rfl

lemma adopted_boundary {req : InstallSnapshotRequest}
    (hlt : f.log.snapshotIndex < req.lastIncludedIndex) :
    (f.adopted req).log.snapshotIndex = req.lastIncludedIndex ∧
      (f.adopted req).log.snapshotTerm = req.lastIncludedTerm := by
  have hcut : (f.log.compactTo req.lastIncludedIndex req.lastIncludedTerm).snapshotIndex =
        req.lastIncludedIndex ∧
      (f.log.compactTo req.lastIncludedIndex req.lastIncludedTerm).snapshotTerm =
        req.lastIncludedTerm := by
    unfold RaftLog.compactTo
    rw [if_neg (by omega)]
    exact ⟨rfl, rfl⟩
  rw [adopted_log]
  split
  · exact hcut
  · exact hcut

/-- What a follower is where the snapshot ends. -/
structure At (term : ℕ) (l : List LogEntry) (index indexTerm : ℕ) (f : Node σ) : Prop where
  hears : Hears l term f
  commit : f.commitIndex = index
  boundary : f.log.snapshotIndex = index
  indexTerm : termOf l index = indexTerm

lemma Hears.installAdopt {term : ℕ} {req : InstallSnapshotRequest} (h : Hears l term f)
    (hlt : f.log.snapshotIndex < req.lastIncludedIndex)
    (hcommit : f.commitIndex ≤ req.lastIncludedIndex)
    (hagree : f.commitIndex = req.lastIncludedIndex →
      termOf l req.lastIncludedIndex = req.lastIncludedTerm) :
    (∃ l', At term l' req.lastIncludedIndex req.lastIncludedTerm (f.installAdopt req).1) ∧
      (f.installAdopt req).1.state = f.state := by
  rcases f.installAdopt_cases req with ⟨hle, -⟩ | ⟨-, heq⟩
  · omega
  obtain ⟨l', hl'⟩ := h.sane.adopted hlt fun hge =>
    (h.sane.holds.termAt hlt.le).trans (hagree (by omega))
  obtain ⟨hsnap, hterm⟩ := adopted_boundary hlt
  have hnode := hl'.quiet (.refresh _)
  rw [heq]
  refine ⟨⟨l', ⟨hnode, ?_, by simpa using h.term_le⟩, ?_, by simpa using hsnap,
    ?_⟩, by simp⟩
  · rw [refreshMembership_log, hsnap, refreshMembership_lastApplied, adopted_lastApplied]
    exact le_max_left _ _
  · rw [refreshMembership_commitIndex, adopted_commitIndex]
    exact max_eq_left hcommit
  · rw [← hterm, hl'.holds.snapshotTerm, hsnap]

/-- **What a follower makes of the leader's snapshot**, when it has committed no more: it is
where the snapshot ends, whether it has adopted it or was there already. -/
theorem adopts (hf : Hears l n.state.currentTerm f)
    (hcommit : f.commitIndex ≤ n.lastApplied)
    (hagree : f.commitIndex = n.lastApplied →
      termOf l n.lastApplied = termOf m n.lastApplied) :
    (∃ l', At n.state.currentTerm l' n.lastApplied (termOf m n.lastApplied)
        (handleInstallSnapshot cb now f (snapshotRequest cb n m)).1) ∧
      ∀ resp, (handleInstallSnapshot cb now f (snapshotRequest cb n m)).2 = .ok resp →
        resp.term = n.state.currentTerm := by
  have hsnap := hf.snapshot_commit
  have hheard := hf.heardFrom now n.id
  have hterm := heardFrom_currentTerm f now _ n.id hf.term_le
  rcases f.installCheck_cases now (snapshotRequest cb n m) with
    ⟨hbehind, -⟩ | ⟨-, hnode, hresp⟩
  · exact absurd hf.term_le (Nat.not_le.mpr hbehind)
  unfold handleInstallSnapshot
  rcases hcheck : f.installCheck now (snapshotRequest cb n m) with ⟨g, resp⟩
  rw [hcheck] at hnode hresp
  obtain rfl : g = f.heardFrom now n.state.currentTerm n.id := hnode
  by_cases hle : (snapshotRequest cb n m).lastIncludedIndex ≤ f.log.snapshotIndex
  · rw [if_pos hle] at hresp
    obtain rfl := hresp
    have hle' : n.lastApplied ≤ f.log.snapshotIndex := hle
    have hcommit' : f.commitIndex = n.lastApplied := by omega
    refine ⟨⟨l, hheard, by simpa using hcommit', by simp; omega, hagree hcommit'⟩, ?_⟩
    rintro resp ⟨⟩
    exact hterm
  · rw [if_neg hle] at hresp
    obtain rfl := hresp
    have hrestored : Hears l n.state.currentTerm
        ((f.heardFrom now n.state.currentTerm n.id).installRestore cb (snapshotRequest cb n m)) :=
      ⟨⟨hheard.sane.holds, hheard.sane.last_le, hheard.sane.commit_le, hheard.sane.term⟩,
        hheard.snapshot_le, hheard.term_le⟩
    have hlog : ((f.heardFrom now n.state.currentTerm n.id).installRestore cb
        (snapshotRequest cb n m)).log = f.log := heardFrom_log f now _ n.id
    have hsame : ((f.heardFrom now n.state.currentTerm n.id).installRestore cb
        (snapshotRequest cb n m)).commitIndex = f.commitIndex := heardFrom_commitIndex f now _ n.id
    obtain ⟨hat, hstate⟩ := hrestored.installAdopt (by rw [hlog]; exact Nat.lt_of_not_le hle)
      (by rw [hsame]; exact hcommit) (by rw [hsame]; exact hagree)
    refine ⟨hat, fun resp hok => ?_⟩
    rw [installAdopt_term hok, hstate]
    exact hterm

end DistDB.Exchange
