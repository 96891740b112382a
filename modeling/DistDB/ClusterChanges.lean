import DistDB.ClusterTears

/-!
What holds of a cluster whose members change with care: what a leader has committed is in the
log of every later leader (`committed_kept`), a member derives the members that its whole log
puts in force (`members_known`), and snapshots come with the members at their index
(`snapshots_match`). Without the care, each of these fails.
-/

namespace DistDB.ClusterModel

open NodeModel NodeModel.Node Elections Agreement Config FullLog TermLog
open Consensus (Goes Committed)

variable {σ : Type} {base : Finset NodeId} {cb : Callbacks σ} {own : NodeId → PeerAddress}
  {peers : NodeId → OrdMap NodeId PeerAddress} {machine : NodeId → σ}
  {s s₁ s₂ : Cluster σ}
  {v w : NodeId} {i : ℕ} {e : LogEntry}

lemma tracks_careful {a : History} (hcb : cb.Total) (h : Tracks base (fun _ _ => True) a s₁)
    (hvotes : Elections.Inv s₁.group) (hrun : CarefulRun cb s₁ s₂) :
    ∃ a', Grows base a a' ∧ Tracks base (fun _ _ => True) a' s₂ ∧
      Elections.Inv s₂.group :=
  tracks_from hcb (watches_nothing base cb) h hvotes
    (hrun.plain.mono fun _ _ hok => ⟨hok, fun _ _ _ _ _ => trivial⟩)

lemma tracks_first (hcb : cb.Total) (hpeers : ∀ v ∈ base, (peers v).keys = base.erase v)
    (hrun : CarefulRun cb (.boot base own peers machine) s) :
    ∃ a, Tracks base (fun _ _ => True) a s ∧ Elections.Inv s.group :=
  let ⟨a, _, htracks, hinv⟩ := tracks_careful hcb (tracks_boot hpeers fun _ => trivial)
    (votes_boot hpeers) hrun
  ⟨a, htracks, hinv⟩

/-! ### What leaders have committed -/

/-- The node has the entry at the index: in its log, unless that has been compacted away. -/
def Cluster.Has (s : Cluster σ) (v : NodeId) (i : ℕ) (e : LogEntry) : Prop :=
  (s.whole v)[i - 1]? = some e ∧
    ((s.node v).log.snapshotIndex < i → (s.node v).log.get i = some e)

lemma Tracks.has {Q : History → σ → Prop} {a : History} (h : Tracks base Q a s)
    (he : (s.whole v)[i - 1]? = some e) : s.Has v i e :=
  ⟨he, fun hlt => ((h.server v).agrees.holds.get hlt).trans he⟩

/-- **Leader completeness**: in runs whose members change with care, what a leader, or any node,
takes for committed is in the log of every node that leads in a later term. -/
theorem committed_kept (hcb : cb.Total) (hpeers : ∀ v ∈ base, (peers v).keys = base.erase v)
    (hrun₁ : CarefulRun cb (.boot base own peers machine) s₁)
    (hrun₂ : CarefulRun cb (.boot base own peers machine) s₂)
    (horder : CarefulRun cb s₁ s₂ ∨ CarefulRun cb s₂ s₁)
    (hw : (s₂.node w).role = .kLeader)
    (hterm : (s₁.node v).state.currentTerm < (s₂.node w).state.currentTerm) (hpos : 0 < i)
    (hi : i ≤ (s₁.node v).commitIndex) : ∃ e, s₁.Has v i e ∧ s₂.Has w i e := by
  suffices hpre : (s₁.whole v).take i <+: s₂.whole w ∧ i ≤ (s₁.whole v).length by
    obtain ⟨a₁, htracks₁, -⟩ := tracks_first hcb hpeers hrun₁
    obtain ⟨a₂, htracks₂, -⟩ := tracks_first hcb hpeers hrun₂
    obtain ⟨⟨r, hr⟩, hlen⟩ := hpre
    obtain ⟨e, he⟩ : ∃ e, (s₁.whole v)[i - 1]? = some e :=
      ⟨_, List.getElem?_eq_getElem (by omega)⟩
    refine ⟨e, htracks₁.has he, htracks₂.has ?_⟩
    rw [← hr, List.getElem?_append_left (by simp; omega), List.getElem?_take,
      if_pos (by omega), he]
  rcases horder with hrun | hrun
  · obtain ⟨a₁, htracks₁, hvotes₁⟩ := tracks_first hcb hpeers hrun₁
    obtain ⟨a₂, hgrows, htracks₂, -⟩ := tracks_careful hcb htracks₁ hvotes₁ hrun
    obtain ⟨E, hE, -, hlead⟩ := (htracks₂.server w).leading htracks₂.inv hw
    obtain ⟨hle, hzero | ⟨t, k, m, hcommit, ht, hpre⟩⟩ :=
      hgrows.committed ((htracks₁.server v).agrees.committed.le hi)
    · omega
    · rw [hlead]
      exact ⟨hpre.trans (htracks₂.inv.prefix_lead hcommit hE (by omega)), hle⟩
  · obtain ⟨a₂, htracks₂, hvotes₂⟩ := tracks_first hcb hpeers hrun₂
    obtain ⟨a₁, hgrows, htracks₁, -⟩ := tracks_careful hcb htracks₂ hvotes₂ hrun
    obtain ⟨E, hE, -, hlead⟩ := (htracks₂.server w).leading htracks₂.inv hw
    obtain ⟨hle, hzero | ⟨t, k, m, hcommit, ht, hpre⟩⟩ :=
      (htracks₁.server v).agrees.committed.le hi
    · omega
    · rw [hlead]
      refine ⟨?_, hle⟩
      calc (s₁.whole v).take i <+: (a₁.lead t).take k := hpre
        _ <+: E.log := htracks₁.inv.complete hcommit (hgrows.election hE) (by omega)
        _ <+: a₂.lead _ := htracks₂.inv.lead_start hE

lemma total_noCallbacks : noCallbacks.Total := fun _ _ _ => ⟨[], rfl⟩

def confAdd (v : NodeId) : Bytes := encodeConfChange ⟨kAddServer, v, [], 0⟩

def confRemove (v : NodeId) : Bytes := encodeConfChange ⟨kRemoveServer, v, [], 0⟩

/-- Server 1 of three commits [7] and adds server 4, which it gives a snapshot of both. Server 4
wins term 2, commits [8] and removes server 1; then server 2 wins term 3 with 3. -/
def twoChanges : List (Event Unit) :=
  [.election (.startElection 1), .election (.callVote 1 2), .election (.requestVote 0 0),
    .election (.voteReply 0 0), .propose 1 [7], .replicateToAll 1, .replicateTo 1 2,
    .appendEntries 0 0, .appendReply 0 0, .propose 1 (confAdd 4), .replicateToAll 1,
    .replicateTo 1 2, .appendEntries 1 0, .appendReply 1 1, .replicateTo 1 3,
    .appendEntries 2 0, .appendReply 2 2, .compact 1, .replicateTo 1 4,
    .sendInstallSnapshot 1 4 1, .installCheck 3 0, .installRestore 4, .installAdopt 4,
    .snapshotReply 3 3, .election (.startElection 4), .election (.callVote 4 2),
    .election (.callVote 4 3), .election (.requestVote 1 9000), .election (.requestVote 2 9000),
    .election (.voteReply 1 1), .election (.voteReply 2 2), .propose 4 [8], .replicateToAll 4,
    .replicateTo 4 2, .appendEntries 4 9000, .appendReply 4 4, .replicateTo 4 3,
    .appendEntries 5 9000, .appendReply 5 5, .propose 4 (confRemove 1), .replicateToAll 4,
    .replicateTo 4 2, .appendEntries 6 9000, .appendReply 6 6, .election (.startElection 2),
    .election (.callVote 2 3), .election (.requestVote 3 20000), .election (.voteReply 3 3)]

/-- The state that the two changes lead to. -/
def changedTwice : Option (Cluster Unit) :=
  runIf? (Cluster.tornStep? noCallbacks) (fun s e => whole? careful? s e = true) (trioCluster ())
    (twoChanges.map .whole)

theorem committed_kept_changedTwice : ∃ s, changedTwice = some s ∧
    (s.node 4).state.currentTerm = 2 ∧ (s.node 4).commitIndex = 4 ∧
    (s.node 4).log.get 4 = some ⟨4, 2, confRemove 1⟩ ∧
    (s.node 2).role = .kLeader ∧ (s.node 2).state.currentTerm = 3 ∧
    ∀ i, 0 < i → i ≤ 4 → ∃ e, s.Has 4 i e ∧ s.Has 2 i e := by
  obtain ⟨s, hs, hterm, hcommit, hget, hrole, hterm'⟩ := exists_of_any (x := changedTwice)
    (P := fun s => (s.node 4).state.currentTerm = 2 ∧ (s.node 4).commitIndex = 4 ∧
      (s.node 4).log.get 4 = some ⟨4, 2, confRemove 1⟩ ∧ (s.node 2).role = .kLeader ∧
      (s.node 2).state.currentTerm = 3) (by decide +kernel)
  have hrun := whole_of_run (fun _ _ => careful_of_check) hs
  refine ⟨s, hs, hterm, hcommit, hget, hrole, hterm', fun i hpos hi => ?_⟩
  exact committed_kept total_noCallbacks (fun v _ => keys_others v) hrun hrun (.inl .refl) hrole
    (by omega) hpos (by omega)

/-- The servers of a cluster, but for one of them. -/
def othersOf (servers : List NodeId) (v : NodeId) : OrdMap NodeId PeerAddress :=
  OrdMap.insertAll .empty ((servers.filter (· ≠ v)).map (·, ⟨[], 0⟩))

def fourServers : Cluster Unit :=
  .boot {1, 2, 3, 4} (fun _ => ⟨[], 0⟩) (othersOf [1, 2, 3, 4]) fun _ => ()

/-- Server 1 leads term 1 and removes 4, which nobody else hears of. Server 2 leads term 2,
removes 3 and commits that with 4. Then 1 starts again and wins term 3 with 3. -/
def twoRemovals : List (Event Unit) :=
  [.election (.startElection 1), .election (.callVote 1 2), .election (.callVote 1 3),
    .election (.requestVote 0 0), .election (.requestVote 1 0), .election (.voteReply 0 0),
    .election (.voteReply 1 1), .propose 1 (confRemove 4),
    .election (.startElection 2), .election (.callVote 2 3), .election (.callVote 2 4),
    .election (.requestVote 2 0), .election (.requestVote 3 0), .election (.voteReply 2 2),
    .election (.voteReply 3 3), .propose 2 (confRemove 3),
    .replicateToAll 2, .replicateTo 2 4, .appendEntries 0 0, .appendReply 0 0,
    .restart 1 (), .election (.startElection 1), .election (.startElection 1),
    .election (.callVote 1 3), .election (.requestVote 4 0), .election (.voteReply 4 4)]

/-- Server 2 has committed an entry that the leader of a later term does not have. -/
theorem commit_lost : ∃ s, runOf? (Cluster.step? noCallbacks) fourServers twoRemovals = some s ∧
    (s.node 2).role = .kLeader ∧ 1 ≤ (s.node 2).commitIndex ∧ (s.node 1).role = .kLeader ∧
    (s.node 2).state.currentTerm < (s.node 1).state.currentTerm ∧
    (s.node 2).log.get 1 = some ⟨1, 2, confRemove 3⟩ ∧
    (s.node 1).log.get 1 = some ⟨1, 1, confRemove 4⟩ := exists_of_any (by decide)

def fiveServers : Cluster Unit :=
  .boot {1, 2, 3, 4, 5} (fun _ => ⟨[], 0⟩) (othersOf [1, 2, 3, 4, 5]) fun _ => ()

/-- Server 1 commits [7] and the removal of 3 with 4 and 5, and gives server 2 the snapshot behind
them. -/
def beforeTear : List (Event Unit) :=
  [.election (.startElection 1), .election (.callVote 1 4), .election (.callVote 1 5),
    .election (.requestVote 0 0), .election (.requestVote 1 0), .election (.voteReply 0 0),
    .election (.voteReply 1 1), .propose 1 [7], .replicateToAll 1, .replicateTo 1 4,
    .appendEntries 0 0, .appendReply 0 0, .replicateTo 1 5, .appendEntries 1 0, .appendReply 1 1,
    .propose 1 (confRemove 3), .replicateToAll 1, .replicateTo 1 4, .appendEntries 2 0,
    .appendReply 2 2, .replicateTo 1 5, .appendEntries 3 0, .appendReply 3 3, .compact 1,
    .replicateTo 1 2, .sendInstallSnapshot 1 2 1, .installCheck 4 0, .installRestore 2]

/-- Server 1 removes 2, and commits that with 4. Server 2 wins term 2 with 3 and 5. -/
def afterTear : List (Event Unit) :=
  [.propose 1 (confRemove 2), .replicateToAll 1, .replicateTo 1 4, .appendEntries 5 0,
    .appendReply 5 4, .election (.startElection 2), .election (.callVote 2 3),
    .election (.callVote 2 5), .election (.requestVote 2 9000), .election (.requestVote 3 9000),
    .election (.voteReply 2 2), .election (.voteReply 3 3)]

/-- **A torn adoption**: server 2 stops behind the second save of the log, and starts again with
all five servers for members. -/
theorem torn_commit_lost : ∃ s, runIf? (Cluster.tornStep? noCallbacks)
      (fun s e => carefulTorn? s e = true) fiveServers
      (beforeTear.map .whole ++ .tear 2 1 () :: afterTear.map .whole) = some s ∧
    (s.node 1).role = .kLeader ∧ (s.node 1).commitIndex = 3 ∧ (s.node 2).role = .kLeader ∧
    (s.node 1).state.currentTerm < (s.node 2).state.currentTerm ∧
    (s.node 1).log.get 3 = some ⟨3, 1, confRemove 2⟩ ∧ (s.node 2).log.lastIndex = 2 :=
  exists_of_any (by decide +kernel)

/-- **Every member knows the configuration**: what RefreshMembership derives is what the whole
log puts in force, but for a leader's own removal that is pending. A leader was elected by a
majority of what was in force in its log. -/
theorem members_known (hcb : cb.Total) (hpeers : ∀ v ∈ base, (peers v).keys = base.erase v)
    (hrun : CarefulRun cb (.boot base own peers machine) s) :
    ((s.node v).refreshMembership.1.selfIsMember = true →
      (s.node v).refreshMembership.1.peers.keys = (config base (s.whole v)).erase v ∧
      (v ∈ config base (s.whole v) ∨ ((s.node v).role = .kLeader ∧
        (s.node v).refreshMembership.1.pendingSelfRemovalIndex ≠ 0))) ∧
    ((s.node v).role = .kLeader → ∃ l q, l <+: s.whole v ∧ Majority q (config base l) ∧
      ∀ x ∈ q, Voted s.group x (s.node v).state.currentTerm v) := by
  obtain ⟨a, htracks, -⟩ := tracks_first hcb hpeers hrun
  have hagrees := (htracks.server v).agrees
  refine ⟨fun hself => ?_, fun hrole => ?_⟩
  · obtain ⟨b, rfl | ⟨rfl, hnil, hfollower⟩, hs⟩ := hagrees.sound
    · refine ⟨hs.knows.peers, ?_⟩
      by_cases hpending : (s.node v).refreshMembership.1.pendingSelfRemovalIndex = 0
      · exact .inl (hs.knows.self.mp ⟨hself, hpending⟩)
      · refine .inr ⟨?_, hpending⟩
        by_contra hrole
        exact hpending (refreshMembership_pending hrole)
    · -- a server that still joins is no member
      have hpending : (s.node v).refreshMembership.1.pendingSelfRemovalIndex = 0 :=
        refreshMembership_pending (by rw [hfollower]; decide)
      have hin := hs.knows.self.mp ⟨hself, hpending⟩
      rw [hnil, config_nil] at hin
      cases hin
  · obtain ⟨E, hE, hwinner, hlead⟩ := (htracks.server v).leading htracks.inv hrole
    refine ⟨E.log, E.voters, hlead ▸ htracks.inv.lead_start hE, htracks.inv.elected_majority hE,
      fun x hx => ?_⟩
    obtain ⟨m, hm⟩ := htracks.inv.elected_votes hE hx
    exact htracks.voted (hwinner ▸ hm)

/-- Server 4, which has joined, leads and knows the members that are left. -/
theorem members_known_changedTwice : ∃ s, changedTwice = some s ∧ (s.node 4).role = .kLeader ∧
    (s.node 4).refreshMembership.1.peers.keys = {2, 3} ∧
    (s.node 4).refreshMembership.1.peers.keys =
      (config ({1, 2, 3} : Finset NodeId) (s.whole 4)).erase 4 ∧
    ∃ l q, l <+: s.whole 4 ∧ Majority q (config ({1, 2, 3} : Finset NodeId) l) ∧
      ∀ x ∈ q, Voted s.group x (s.node 4).state.currentTerm 4 := by
  obtain ⟨s, hs, hrole, hself, hkeys⟩ := exists_of_any (x := changedTwice)
    (P := fun s => (s.node 4).role = .kLeader ∧
      (s.node 4).refreshMembership.1.selfIsMember = true ∧
      (s.node 4).refreshMembership.1.peers.keys = {2, 3}) (by decide +kernel)
  have hknown := members_known (v := 4) total_noCallbacks (fun v _ => keys_others v)
    (whole_of_run (fun _ _ => careful_of_check) hs)
  exact ⟨s, hs, hrole, hkeys, (hknown.1 hself).1, hknown.2 hrole⟩

/-- Server 1, alone, adds server 2, which gets the entry that says so, and no snapshot. -/
def joinsByReplay : List (Event Unit) :=
  [.election (.startElection 1), .propose 1 (confAdd 2), .replicateToAll 1, .replicateTo 1 2,
    .appendEntries 0 0, .election (.startElection 2)]

def oneServer : Cluster Unit := .boot {1} (fun _ => ⟨[], 0⟩) (fun _ => .empty) fun _ => ()

/-- Server 2 takes itself for a member, does not know of server 1, and elects itself. -/
theorem members_unknown :
    ∃ s, runOf? (Cluster.step? noCallbacks) oneServer joinsByReplay = some s ∧
      config {1} (s.whole 2) = ({1, 2} : Finset NodeId) ∧
    (s.node 2).refreshMembership.1.selfIsMember = true ∧
    (s.node 2).refreshMembership.1.peers.keys = ∅ ∧ (s.node 2).role = .kLeader :=
  exists_of_any (by decide)

/-- **Snapshots match their index**: a request comes with the members that the entries it covers
put in force, and these entries are what every node has that has committed as many. What a node
stores with its boundary are the members at the boundary, and it derives those at its end. -/
theorem snapshots_match (hcb : cb.Total) (hpeers : ∀ v ∈ base, (peers v).keys = base.erase v)
    (hrun : CarefulRun cb (.boot base own peers machine) s) :
    (∀ c ∈ s.calls, ∀ req covered, c.rpc = .snapshot req covered →
      req.membership.keys = config base covered ∧ covered.length = req.lastIncludedIndex ∧
      ∀ w, req.lastIncludedIndex ≤ (s.node w).commitIndex →
        (s.whole w).take req.lastIncludedIndex = covered) ∧
    ∀ v, 0 < (s.node v).log.snapshotIndex →
      Stored v (s.node v) (config base ((s.whole v).take (s.node v).log.snapshotIndex)) ∧
      Knows v (s.node v).refreshMembership.1 (config base (s.whole v)) := by
  obtain ⟨a, htracks, -⟩ := tracks_first hcb hpeers hrun
  refine ⟨fun c hc req covered hrpc => ?_, fun v hpos => ?_⟩
  · have hcovers := (htracks.call hc).covers req covered hrpc
    refine ⟨hcovers.members, hcovers.index, fun w hw => ?_⟩
    have hcommitted := (htracks.server w).agrees.committed.le hw
    have hlen : ((s.whole w).take req.lastIncludedIndex).length = req.lastIncludedIndex := by
      simpa using hcommitted.1
    have htotal := hcommitted.total htracks.inv hcovers.committed
    rw [List.take_length] at htotal
    rcases htotal with hpre | hpre
    · exact hpre.eq_of_length_le (by rw [hlen, hcovers.index])
    · exact (hpre.eq_of_length_le (by rw [hlen, hcovers.index])).symm
  · have hs : Sound base v (s.whole v) (s.node v) := by
      obtain ⟨b, rfl | ⟨rfl, hnil, -⟩, hs⟩ := (htracks.server v).agrees.sound
      · exact hs
      · have := hs.holds.snapshot_le
        rw [hnil] at this
        exact absurd this (by simp; omega)
    exact ⟨hs.stored, hs.knows⟩

/-- The snapshot of the first two entries comes with the server that the second adds, and server 4
stores its members with it. -/
theorem snapshots_match_changedTwice : ∃ s, changedTwice = some s ∧
    (∃ c ∈ s.calls, ∃ req covered, c.rpc = .snapshot req covered ∧
      covered = [⟨1, 1, [7]⟩, ⟨2, 1, confAdd 4⟩] ∧
      req.membership.keys = config ({1, 2, 3} : Finset NodeId) covered) ∧
    (s.node 4).log.snapshotIndex = 2 ∧
    Stored 4 (s.node 4) (config ({1, 2, 3} : Finset NodeId) ((s.whole 4).take 2)) := by
  obtain ⟨s, hs, ⟨c, hc, hrpc⟩, hsnap⟩ := exists_of_any (x := changedTwice)
    (P := fun s => (∃ c ∈ s.calls, c.rpc = .snapshot ⟨1, 1, 2, 1, [],
        (othersOf [1, 2, 3, 4] 1).insert 1 ⟨[], 0⟩⟩
        [⟨1, 1, [7]⟩, ⟨2, 1, confAdd 4⟩]) ∧
      (s.node 4).log.snapshotIndex = 2) (by decide +kernel)
  obtain ⟨hcalls, hstored⟩ := snapshots_match total_noCallbacks (fun v _ => keys_others v)
    (whole_of_run (fun _ _ => careful_of_check) hs)
  have hown := (hstored 4 (by omega)).1
  rw [hsnap] at hown
  exact ⟨s, hs, ⟨c, hc, _, _, hrpc, rfl, (hcalls c hc _ _ hrpc).1⟩, hsnap, hown⟩

/-- Server 1, alone, commits five entries, adds server 2, and sends it a snapshot. -/
def addsBehindSnapshot : List (Event Unit) :=
  [.election (.startElection 1), .propose 1 [7], .propose 1 [7], .propose 1 [7], .propose 1 [7],
    .propose 1 [7], .propose 1 (confAdd 2), .replicateToAll 1, .replicateTo 1 2,
    .sendInstallSnapshot 1 2 1]

/-- The snapshot of the first five entries comes with the server that the sixth adds. -/
theorem snapshot_ahead : ∃ s,
    runOf? (Cluster.step? noCallbacks) oneServer addsBehindSnapshot = some s ∧
    (∃ c ∈ s.calls, c.rpc = .snapshot ⟨1, 1, 5, 1, [], (others 3).insert 1 ⟨[], 0⟩⟩
      ((s.whole 1).take 5)) ∧
    config {1} ((s.whole 1).take 5) = ({1} : Finset NodeId) ∧ 2 ∈ (others 3).keys :=
  exists_of_any (by decide)

end DistDB.ClusterModel
