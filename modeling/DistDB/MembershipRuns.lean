import DistDB.Elections
import DistDB.Dispatch
import DistDB.MembershipFile
import DistDB.NodeHandlers

/-!
A node that starts again from its membership file, and the hosts that get into the file.

A host comes from the first run, from an `add-server` in the log, or from a snapshot, and nobody
checks it. While none of them has a separator in it, each start finds the membership as the node
has saved it (`membership_survives`). An IPv6 address has (`colon_throws`).
-/

namespace DistDB.MembershipRuns

open NodeModel NodeModel.Node NodeCrash FormattedInput PeerSpec MembershipFile Checks
open NodeInstall (Sys Install)

variable {σ : Type}

/-- The node starts again from what it has saved, the members from their file; `none` if the
constructor throws. -/
def restarted (p : Platform) (port : ℕ) (n : Node σ) : Option (Sys σ) :=
  match load p port (some (contents n.membershipState)) with
  | .error _ => none
  | .ok (m, _) => some ⟨construct n.id n.state n.log m n.machine, .none⟩

def step (p : Platform) (port : ℕ) (cb : Callbacks σ) (s : Sys σ) : Action → Option (Sys σ)
  | .handle e => NodeCrash.handle cb s e
  | .crash => restarted p port s.node
  | .crashIn e k => (writes cb s e)[k]?.bind (restarted p port)

/-- `iss >> new_id_raw >> host >> new_port_raw` behind the word `add-server`. -/
def readAddServer (p : Platform) (args : Bytes) : Option ConfChangeCommand := do
  let (newId, args) ← unsigned p.ulong args
  let (host, args) ← word args
  let (newPort, _) ← unsigned p.ulong args
  pure ⟨kAddServer, newId % 2 ^ 32, host, newPort % 2 ^ 16⟩

/-- An address of another server that the file can hold. -/
def GoodPeer (peer : NodeId × PeerAddress) : Prop :=
  Fits peer ∧ Clean peer.2.host ∧ chr '\n' ∉ peer.2.host

/-- An address of the node itself that the file can hold. -/
def GoodOwn (own : PeerAddress) : Prop :=
  own.port < 2 ^ 16 ∧ chr ':' ∉ own.host ∧ chr '\n' ∉ own.host

/-- If the command adds another server, the file can hold its host. -/
def Harmless (id : NodeId) (command : Bytes) : Prop :=
  ∀ cc, tryDecodeConfChange command = .ok (some cc) → cc.type = kAddServer →
    cc.serverId ≠ id → Clean cc.host ∧ chr '\n' ∉ cc.host

/-- A membership dump with addresses that the file can hold. -/
def GoodDump (id : NodeId) (membership : OrdMap NodeId PeerAddress) : Prop :=
  (∀ peer ∈ (membership.erase id).entries, GoodPeer peer) ∧
    ∀ own, membership.find id = some own → GoodOwn own

/-- What the node is told has no separators in its hosts. -/
def Told (s : Sys σ) : Event → Prop
  | .append _ req => ∀ e ∈ req.entries, Harmless s.node.id e.command
  | .propose command => s.node.refusal command = .ok none → Harmless s.node.id command
  | .check _ req => GoodDump s.node.id req.membership
  | _ => True

def ToldIn (s : Sys σ) : Action → Prop
  | .handle e | .crashIn e _ => Told s e
  | .crash => True

/-- The file can hold what the node knows and what its log may add. -/
structure Hosts (id : NodeId) (n : Node σ) : Prop where
  node : n.id = id
  base : ∀ peer ∈ n.membershipState.basePeers.entries, GoodPeer peer
  stored : GoodOwn n.membershipState.ownAddress
  own : GoodOwn n.ownAddress
  log : ∀ e ∈ n.log.entries, Harmless id e.command

/-- A first run from the routing file brings hosts that the file can hold. -/
theorem good_of_parse {p : Platform} {spec : Bytes} {peers : OrdMap NodeId PeerAddress}
    (h : parsePeerSpec p spec = .ok peers) (hspec : chr '\n' ∉ spec) :
    ∀ peer ∈ peers.entries, GoodPeer peer ∧ GoodOwn peer.2 := by
  intro peer hpeer
  obtain ⟨hfits, hclean, hmem⟩ := parse_clean h hpeer
  have hline : chr '\n' ∉ peer.2.host := fun hc => hspec (hmem _ hc)
  exact ⟨⟨hfits, hclean, hline⟩, hfits.2, hclean.2, hline⟩

section

variable {P : Bytes → Prop} {log : RaftLog}

lemma forall_append (h : ∀ e ∈ log.entries, P e.command) {command : Bytes}
    (hcommand : P command) (term : ℕ) :
    ∀ e ∈ (log.append term command).1.entries, P e.command := by
  intro e he
  rcases List.mem_append.mp he with he | he
  · exact h e he
  · rwa [List.mem_singleton.mp he]

lemma forall_put (h : ∀ e ∈ log.entries, P e.command) {entry : LogEntry}
    (hentry : P entry.command) (idx : ℕ) :
    ∀ e ∈ (log.put idx entry).entries, P e.command := by
  intro e he
  have hlast : ∀ {l : List LogEntry}, l ⊆ log.entries →
      e ∈ l ++ [{ entry with index := idx }] → P e.command := fun hsub he => by
    rcases List.mem_append.mp he with he | he
    · exact h e (hsub he)
    · rwa [List.mem_singleton.mp he]
  unfold RaftLog.put at he
  split at he
  · exact h e he
  · dsimp only at he
    split at he
    · split at he
      · exact h e he
      · exact hlast (List.take_subset _ _) he
    · exact hlast (List.Subset.refl _) he

lemma forall_putAll {entries : List LogEntry} (h : ∀ e ∈ log.entries, P e.command)
    (hentries : ∀ e ∈ entries, P e.command) (idx : ℕ) :
    ∀ e ∈ (log.putAll idx entries).entries, P e.command := by
  induction entries generalizing log idx with
  | nil => exact h
  | cons entry entries ih =>
    obtain ⟨hentry, hentries⟩ := List.forall_mem_cons.mp hentries
    exact ih (forall_put h hentry idx) hentries (idx + 1)

lemma compactTo_subset (log : RaftLog) (index term : ℕ) :
    (log.compactTo index term).entries ⊆ log.entries := by
  unfold RaftLog.compactTo
  split
  · exact List.Subset.refl _
  · dsimp only
    split
    · exact List.drop_subset _ _
    · exact List.nil_subset _

end

lemma fits_of_decode {command : Bytes} {cc : ConfChangeCommand}
    (h : tryDecodeConfChange command = .ok (some cc)) :
    Fits (cc.serverId, ⟨cc.host, cc.port⟩) := by
  unfold tryDecodeConfChange at h
  split at h
  · rcases hrun : Codec.run readConfChange command with e | cc'
    · rw [hrun] at h
      cases h
    rw [hrun] at h
    cases h
    obtain ⟨rest, hread⟩ := Codec.run_eq_ok.mp hrun
    obtain ⟨tag, s₁, -, hread⟩ := state_bind_eq_ok.mp hread
    obtain ⟨type, s₂, -, hread⟩ := state_bind_eq_ok.mp hread
    obtain ⟨serverId, s₃, hid, hread⟩ := state_bind_eq_ok.mp hread
    obtain ⟨host, s₄, -, hread⟩ := state_bind_eq_ok.mp hread
    obtain ⟨port, s₅, hport, hread⟩ := state_bind_eq_ok.mp hread
    obtain ⟨rfl, -⟩ := state_pure_eq_ok.mp hread
    exact ⟨((Codec.decodes_num 4 _ _ _).mp hid).2, ((Codec.decodes_num 2 _ _ _).mp hport).2⟩
  · cases h

lemma decoded_of_confChanges {log : RaftLog} {lo hi : ℕ} {cs : List (ℕ × ConfChangeCommand)}
    (h : confChanges log lo hi = .ok cs) {c : ℕ × ConfChangeCommand} (hc : c ∈ cs) :
    ∃ e ∈ log.entries, tryDecodeConfChange e.command = .ok (some c.2) := by
  obtain ⟨i, -, hfound⟩ := mem_filterMapM h c hc
  cases hget : log.get i with
  | none =>
    rw [hget] at hfound
    cases hfound
  | some entry =>
    rw [hget] at hfound
    rcases hcc : tryDecodeConfChange entry.command with e | _ | cc
    · simp only [hcc] at hfound
      cases hfound
    · simp only [hcc] at hfound
      cases hfound
    · simp only [hcc] at hfound
      cases hfound
      exact ⟨entry, RaftLog.get_mem hget, hcc⟩

variable {cb : Callbacks σ} {n n' : Node σ} {s s' : Sys σ} {p : Platform}
  {port : ℕ} {id : NodeId}

lemma goodPeer_insert {peers : OrdMap NodeId PeerAddress} {peer : NodeId × PeerAddress}
    (h : ∀ q ∈ peers.entries, GoodPeer q) (hpeer : GoodPeer peer) :
    ∀ q ∈ (peers.insert peer.1 peer.2).entries, GoodPeer q := by
  rintro ⟨id, address⟩ hq
  rw [OrdMap.mem_entries, OrdMap.find_insert] at hq
  split_ifs at hq with hid
  · cases hq
    exact hid ▸ hpeer
  · exact h _ (peers.mem_entries.mpr hq)

lemma goodPeer_erase {peers : OrdMap NodeId PeerAddress} (h : ∀ q ∈ peers.entries, GoodPeer q)
    (id : NodeId) : ∀ q ∈ (peers.erase id).entries, GoodPeer q :=
  fun q hq => h q (List.mem_filter.mp hq).1

lemma goodPeer_fold {id : NodeId} {cs : List ConfChangeCommand}
    {base : OrdMap NodeId PeerAddress × Bool} (h : ∀ q ∈ base.1.entries, GoodPeer q)
    (hcs : ∀ cc ∈ cs, cc.type = kAddServer → cc.serverId ≠ id →
      GoodPeer (cc.serverId, ⟨cc.host, cc.port⟩)) :
    ∀ q ∈ (cs.foldl (baseStep id) base).1.entries, GoodPeer q := by
  induction cs generalizing base with
  | nil => exact h
  | cons cc cs ih =>
    obtain ⟨hcc, hcs⟩ := List.forall_mem_cons.mp hcs
    refine ih ?_ hcs
    unfold baseStep
    split_ifs with hadd hself hself
    · exact h
    · exact goodPeer_insert h (hcc hadd hself)
    · exact h
    · exact goodPeer_erase h _

namespace Hosts

lemma congr (h : Hosts id n) (hid : n'.id = n.id) (hown : n'.ownAddress = n.ownAddress)
    (hms : n'.membershipState = n.membershipState)
    (hlog : n'.log.entries ⊆ n.log.entries) : Hosts id n' where
  node := hid.trans h.node
  base := hms ▸ h.base
  stored := hms ▸ h.stored
  own := hown ▸ h.own
  log := fun e he => h.log e (hlog he)

lemma folded (h : Hosts id n) :
    Hosts id { n with membershipState := n.compact.1.membershipState } := by
  rcases n.compact_eq with heq | ⟨changes, errors, hchanges, heq⟩
  · rw [heq]
    exact h.congr rfl rfl rfl (List.Subset.refl _)
  · rw [heq]
    dsimp only
    split
    · exact h.congr rfl rfl rfl (List.Subset.refl _)
    · refine ⟨h.node, goodPeer_fold h.base fun cc hcc hadd hne => ?_, h.own, h.own, h.log⟩
      obtain ⟨c, hc, rfl⟩ := List.mem_map.mp hcc
      obtain ⟨e, he, hdecode⟩ := decoded_of_confChanges hchanges hc
      exact ⟨fits_of_decode hdecode, h.log e he c.2 hdecode hadd (h.node ▸ hne)⟩

lemma compact (h : Hosts id n) : Hosts id n.compact.1 := by
  have hsaved := h.folded
  rcases n.compact_eq with heq | ⟨changes, errors, -, heq⟩
  · rwa [heq]
  · rw [heq] at hsaved ⊢
    exact hsaved.congr rfl rfl rfl (compactTo_subset _ _ _)

lemma kept : Elections.Kept (@Hosts σ id) where
  congr := fun h hid hown _ hms hlog => h.congr hid hown hms (hlog ▸ List.Subset.refl _)
  refresh := fun h => by
    refine h.congr (by simp) ?_ (by simp) (by simp)
    unfold refreshMembership
    split <;> rfl
  compact := compact

lemma withLog (h : Hosts id n) {log : RaftLog}
    (hlog : ∀ e ∈ log.entries, Harmless id e.command) :
    Hosts id (n.withLog log) :=
  ⟨h.node, h.base, h.stored, h.own, hlog⟩

lemma taken (h : Hosts id n) {req : AppendEntriesRequest}
    (hreq : ∀ e ∈ req.entries, Harmless id e.command) {log : RaftLog}
    (hlog : n.log.appendEntriesFrom req.prevLogIndex req.prevLogTerm req.entries = some log) :
    Hosts id (n.withLog log) := by
  unfold RaftLog.appendEntriesFrom at hlog
  split at hlog
  · cases hlog
  · cases hlog
    exact h.withLog (forall_putAll h.log hreq _)

lemma logged (h : Hosts id n) {command : Bytes} (hcommand : Harmless id command) :
    Hosts id (n.withLog (n.log.append n.state.currentTerm command).1) :=
  h.withLog (forall_append h.log hcommand _)

lemma adopted (h : Hosts id n) {req : InstallSnapshotRequest} (hreq : GoodDump id req.membership) :
    Hosts id (n.adopted req) := by
  rw [← h.node] at hreq
  have hown : GoodOwn ((req.membership.find n.id).getD n.ownAddress) := by
    cases hfind : req.membership.find n.id with
    | none => exact h.own
    | some own => exact hreq.2 own hfind
  refine ⟨h.node, hreq.1, hown, hown, fun e he => h.log e ?_⟩
  rw [adopted_log] at he
  split at he <;> exact compactTo_subset _ _ _ he

/-! ### Crashes -/

lemma applyLoopWrites (h : Hosts id n) {k : ℕ} :
    ∀ m ∈ n.applyLoopWrites cb k, Hosts id m := by
  induction k generalizing n with
  | zero => exact fun m hm => absurd hm List.not_mem_nil
  | succ k ih =>
    have hnext : Hosts id (n.applyNext cb).1 := by
      obtain ⟨errors, log, heq, hlog⟩ := @applyNext_eq σ cb n
      rw [heq]
      exact h.congr rfl rfl rfl (by rcases hlog with rfl | rfl <;> exact List.Subset.refl _)
    have heffect : Hosts id (n.applyEffect cb) := by
      unfold applyEffect
      dsimp only
      split
      · exact h.congr rfl rfl rfl (List.Subset.refl _)
      · unfold applyEntry
        split
        · exact h.congr rfl rfl rfl (List.Subset.refl _)
        · exact h.congr rfl rfl rfl (List.Subset.refl _)
        · split <;> exact h.congr rfl rfl rfl (List.Subset.refl _)
    intro m hm
    unfold Node.applyLoopWrites at hm
    rcases List.mem_cons.mp hm with rfl | hm
    · exact heffect
    rcases List.mem_cons.mp hm with rfl | hm
    · exact hnext
    split at hm
    · cases hm
    · exact ih hnext m hm

lemma applyCommittedWrites (h : Hosts id n) : ∀ m ∈ n.applyCommittedWrites cb, Hosts id m := by
  intro m hm
  rcases List.mem_append.mp hm with hm | hm
  · exact h.applyLoopWrites m hm
  · have hloop : Hosts id (n.applyLoop cb (n.commitIndex - n.lastApplied)).1 :=
      applyLoop_induct h fun n' hn' _ _ => (@applyLoopWrites σ cb _ id hn' 1) _
        (by simp [Node.applyLoopWrites])
    split at hm
    · cases hm
    · split_ifs at hm
      · rcases List.mem_cons.mp hm with rfl | hm
        · exact hloop.folded
        · rw [List.mem_singleton.mp hm]
          exact hloop.compact
      · cases hm

/-- **Every write of a handler** leaves hosts that the file can hold. -/
theorem writes (h : Hosts id s.node) {e : Event} (htold : Told s e) :
    ∀ m ∈ NodeCrash.writes cb s e, Hosts id m := by
  have happly : ∀ {x : Option (Node σ)} {m : Node σ}, (∀ n ∈ x, Hosts id n) →
      m ∈ x.toList.flatMap (Node.applyCommittedWrites cb) → Hosts id m := fun hx hm => by
    obtain ⟨n, hn, hm⟩ := List.mem_flatMap.mp hm
    exact (hx n (Option.mem_toList.mp hn)).applyCommittedWrites _ hm
  have hadvance : ∀ {n m : Node σ}, Hosts id n → m ∈ n.advanceApplies → Hosts id m := by
    intro n m hn hm
    unfold advanceApplies at hm
    split_ifs at hm
    · cases hm
      exact hn.congr rfl rfl rfl (List.Subset.refl _)
    · cases hm
  intro m hm
  cases e with
  | vote now req =>
    simp only [NodeCrash.writes] at hm
    split_ifs at hm
    · cases hm
    · rw [List.mem_singleton.mp hm]
      unfold atTerm
      split
      · exact kept.becomeFollower h _
      · exact h
  | append now req =>
    simp only [NodeCrash.writes, appendWrites] at hm
    split_ifs at hm
    · cases hm
    have hheard := kept.heardFrom h now req.term req.leaderId
    rcases List.mem_cons.mp hm with rfl | hm
    · exact hheard
    have htaken : ∀ log, s.node.log.appendEntriesFrom req.prevLogIndex req.prevLogTerm
        req.entries = some log → Hosts id
          ((s.node.heardFrom now req.term req.leaderId).withLog log) := by
      intro log hlog
      have htaken := kept.heardFrom (h.taken (h.node ▸ htold) hlog) now req.term req.leaderId
      rwa [Elections.Kept.heardFrom_withLog] at htaken
    rcases List.mem_append.mp hm with hm | hm
    · obtain ⟨log, hlog, rfl⟩ := List.mem_map.mp hm
      exact htaken log (Option.mem_toList.mp hlog)
    · refine happly (fun n hn => ?_) hm
      unfold appendApplies at hn
      split_ifs at hn
      obtain ⟨log, hlog, hn⟩ := Option.bind_eq_some_iff.mp hn
      obtain ⟨u, -, hn⟩ := Option.bind_eq_some_iff.mp hn
      unfold followApplies at hn
      split_ifs at hn
      cases hn
      exact (kept.refresh (htaken log hlog)).congr rfl rfl rfl (List.Subset.refl _)
  | appendReply peer term prevLogIndex sentCount resp =>
    refine happly (fun n hn => ?_) hm
    unfold replyApplies at hn
    dsimp only at hn
    split_ifs at hn
    · cases hn
    have hacked : Hosts id ((s.node.replicationLost peer).acknowledged peer
        (max (prevLogIndex + sentCount)
          (((s.node.replicationLost peer).matchIndex.find peer).getD 0))) :=
      h.congr rfl rfl rfl (List.Subset.refl _)
    exact hadvance hacked hn
  | propose command =>
    simp only [NodeCrash.writes, proposeWrites] at hm
    split at hm
    · rename_i hrefusal
      have hlogged := h.logged (h.node ▸ htold hrefusal)
      rcases List.mem_cons.mp hm with rfl | hm
      · exact hlogged
      · refine happly (fun n hn => ?_) hm
        unfold proposeApplies at hn
        rw [hrefusal] at hn
        obtain ⟨u, -, hn⟩ := Option.bind_eq_some_iff.mp hn
        exact hadvance (kept.refresh hlogged) hn
    · cases hm
  | adopt =>
    simp only [NodeCrash.writes] at hm
    split at hm
    · unfold adoptWrites at hm
      split_ifs at hm
      · rcases List.mem_cons.mp hm with rfl | hm
        · exact h.congr rfl rfl rfl (compactTo_subset _ _ _)
        · rw [List.mem_singleton.mp hm]
          exact h.congr rfl rfl rfl (compactTo_subset _ _ _)
      · rw [List.mem_singleton.mp hm]
        exact h.congr rfl rfl rfl (compactTo_subset _ _ _)
      · cases hm
    · cases hm
  | _ => cases hm

end Hosts

/-! ### Runs -/

/-- The file can hold what the node has, and what an install under way brings. -/
structure Inv (id : NodeId) (s : Sys σ) : Prop where
  hosts : Hosts id s.node
  checked : ∀ req, s.install = .checked req → GoodDump id req.membership
  restored : ∀ req, s.install = .restored req → GoodDump id req.membership

lemma Inv.handle (h : Inv id s) {e : Event} (htold : Told s e)
    (hstep : NodeCrash.handle cb s e = some s') : Inv id s' := by
  have hn := h.hosts
  have hkeep : ∀ {n : Node σ}, Hosts id n → Inv id ⟨n, s.install⟩ := fun hn =>
    ⟨hn, h.checked, h.restored⟩
  -- only a request, an adoption and a proposal bring in members that the node did not have
  have hquiet : ∀ x : Elections.Handler, (∀ now req, x ≠ .appendEntries now req) →
      (∀ req, x ≠ .installAdopt req) → (∀ command, x ≠ .propose command) →
      Hosts id (x.run cb s.node) := fun x happend hadopt hpropose =>
    Hosts.kept.run hn x (fun now req log heq => absurd heq (happend now req))
      (fun req heq => absurd heq (hadopt req)) fun command heq => absurd heq (hpropose command)
  cases e with
  | vote now req => cases hstep; exact hkeep (Hosts.kept.handleRequestVote hn now req)
  | elect => cases hstep; exact hkeep (Hosts.kept.startElection hn)
  | voteReply electionTerm resp => cases hstep; exact hkeep (Hosts.kept.voteReply hn _ resp)
  | append now req =>
    cases hstep
    refine hkeep (Hosts.kept.run hn (.appendEntries now req) (fun now req log heq hlog => ?_)
      (fun req heq => by cases heq) fun command heq => by cases heq)
    cases heq
    exact h.hosts.taken (h.hosts.node ▸ htold) hlog
  | replicate peer =>
    cases hstep
    exact hkeep (hquiet (.replicateTo peer) (by simp) (by simp) (by simp))
  | replicationLost peer =>
    cases hstep
    exact hkeep (hquiet (.replicationLost peer) (by simp) (by simp) (by simp))
  | appendReply peer term prevLogIndex sentCount resp =>
    cases hstep
    exact hkeep (hquiet (.appendReply peer term prevLogIndex sentCount resp) (by simp) (by simp)
      (by simp))
  | propose command =>
    cases hstep
    refine hkeep (Hosts.kept.run hn (.propose command) (fun now req log heq => by cases heq)
      (fun req heq => by cases heq) fun command' heq hrefusal => ?_)
    cases heq
    exact h.hosts.logged (h.hosts.node ▸ htold hrefusal)
  | send peer term =>
    cases hstep
    exact hkeep (hquiet (.sendInstallSnapshot peer term) (by simp) (by simp) (by simp))
  | snapshotReply peer term snapshotIndex resp =>
    cases hstep
    exact hkeep (hquiet (.snapshotReply peer term snapshotIndex resp) (by simp) (by simp) (by simp))
  | check now req =>
    have hnode := hquiet (.installCheck now req) (by simp) (by simp) (by simp)
    have hreq : GoodDump id req.membership := h.hosts.node ▸ htold
    unfold NodeCrash.handle at hstep
    dsimp only [Elections.Handler.run] at hnode
    cases hinstall : s.install with
    | none =>
      rw [hinstall] at hstep
      rcases hresult : s.node.installCheck now req with ⟨m, _ | resp⟩
      · simp only [hresult] at hstep hnode
        cases hstep
        exact ⟨hnode, (fun r hr => by cases hr; exact hreq), fun r hr => by cases hr⟩
      · simp only [hresult] at hstep hnode
        cases hstep
        exact ⟨hnode, (fun r hr => by cases hr), fun r hr => by cases hr⟩
    | checked req =>
      rw [hinstall] at hstep
      cases hstep
    | restored req =>
      rw [hinstall] at hstep
      cases hstep
  | restore =>
    obtain ⟨n, install⟩ := s
    cases install with
    | checked req =>
      cases hstep
      have hnode := hquiet (.installRestore req) (by simp) (by simp) (by simp)
      refine ⟨hnode, (fun r hr => by cases hr), fun r hr => ?_⟩
      cases hr
      exact h.checked req rfl
    | none => cases hstep
    | restored req => cases hstep
  | adopt =>
    obtain ⟨n, install⟩ := s
    cases install with
    | restored req =>
      cases hstep
      have hdump := h.restored req rfl
      have hnode : Hosts id ((Elections.Handler.installAdopt req).run cb n) :=
        Hosts.kept.run hn (.installAdopt req) (fun now req log heq => by cases heq)
          (fun req' heq => by
            cases heq
            exact h.hosts.adopted hdump)
          fun command heq => by cases heq
      exact ⟨hnode, (fun r hr => by cases hr), fun r hr => by cases hr⟩
    | none => cases hstep
    | checked req => cases hstep

lemma Hosts.restorable (h : Hosts id n) : Typed n.membershipState ∧
    Restorable n.membershipState :=
  ⟨⟨fun peer hpeer => (h.base peer hpeer).1, h.stored.1⟩,
    fun peer hpeer => (h.base peer hpeer).2, h.stored.2⟩

lemma load_hosts (h : Hosts id n) :
    load p port (some (contents n.membershipState)) = .ok (n.membershipState, true) :=
  (load_contents h.restorable.1).mpr h.restorable.2

lemma Inv.restart (h : Hosts id n) (hstep : restarted p port n = some s') :
    Inv id s' := by
  rw [restarted, load_hosts h] at hstep
  cases hstep
  exact ⟨⟨h.node, h.base, h.stored, h.stored, h.log⟩, (fun r hr => by cases hr),
    fun r hr => by cases hr⟩

lemma Inv.step (h : Inv id s) {a : Action} (htold : ToldIn s a)
    (hstep : MembershipRuns.step p port cb s a = some s') : Inv id s' := by
  cases a with
  | handle e => exact h.handle htold hstep
  | crash => exact Inv.restart h.hosts hstep
  | crashIn e k =>
    obtain ⟨n, hn, hstep⟩ := Option.bind_eq_some_iff.mp hstep
    have hmem := List.mem_of_getElem? hn
    exact Inv.restart (h.hosts.writes htold n hmem) hstep

abbrev Step (p : Platform) (port : ℕ) (cb : Callbacks σ) :=
  StepOf? (MembershipRuns.step p port cb)

/-- **Membership and restarts**: the file gives a membership back exactly if no host has a
separator in it; and in every run that begins with such a membership, and in which no host with a
separator comes into the log or a snapshot, with restarts from the file anywhere, it does so in
each state. -/
theorem membership_survives (p : Platform) (port : ℕ) (cb : Callbacks σ) :
    (∀ m, Typed m → (load p port (some (contents m)) = .ok (m, true) ↔ Restorable m)) ∧
    ∀ (id : NodeId) (ownAddress : PeerAddress) (peers : OrdMap NodeId PeerAddress)
      (joining : Bool) (start : σ) (s : Sys σ), GoodOwn ownAddress →
      (∀ peer ∈ peers.entries, GoodPeer peer) →
      Reach (Step p port cb) ToldIn (NodeInstall.begin id ownAddress peers joining start) s →
        load p port (some (contents s.node.membershipState)) =
          .ok (s.node.membershipState, true) := by
  refine ⟨fun m htyped => load_contents htyped,
    fun id ownAddress peers joining start s hown hpeers hrun => ?_⟩
  have hinv : Inv id s := by
    refine hrun.invariant ?_ fun s a s' hinv hok hstep => hinv.step hok hstep
    exact ⟨⟨rfl, hpeers, hown, hown, fun e he => absurd he List.not_mem_nil⟩,
      (fun req hreq => by cases hreq), fun req hreq => by cases hreq⟩
  exact load_hosts hinv.hosts

def longLong : Platform := ⟨64, thirtyTwo_le⟩

def idle : Callbacks Unit := ⟨fun s _ _ => (s, .ok []), fun _ => [], fun s _ => s⟩

def routed : OrdMap NodeId PeerAddress := OrdMap.empty.insert 2 ⟨text "b", 7002⟩

/-- The leader of two servers adds a third one, and the next entries take the change out of the
log and into the file. Then it starts again. -/
def addsServer : List Action :=
  [.handle .elect, .handle (.voteReply 1 ⟨1, true⟩)] ++
    ([encodeConfChange ⟨kAddServer, 4, text "c", 7004⟩, [7], [7], [7],
      [7]].zipIdx.flatMap fun c =>
      [.handle (.propose c.1), .handle (.appendReply 2 1 c.2 1 ⟨1, true, 0⟩)]) ++ [.crash]

lemma addsServer_told : ∀ a ∈ addsServer, ∀ s : Sys Unit, ToldIn s a := by
  have hserver : ∀ id, Harmless id (encodeConfChange ⟨kAddServer, 4, text "c", 7004⟩) := by
    intro id cc h _ _
    have hdecode : tryDecodeConfChange (encodeConfChange ⟨kAddServer, 4, text "c", 7004⟩) =
      .ok (some ⟨kAddServer, 4, text "c", 7004⟩) := by rfl
    rw [hdecode] at h
    cases h
    exact ⟨⟨by decide, by decide⟩, by decide⟩
  have hother : ∀ id, Harmless id [7] := fun id cc h => by cases h
  intro a ha s
  simp only [addsServer, List.zipIdx_cons, List.zipIdx_nil, List.flatMap_cons, List.flatMap_nil,
    List.mem_cons, List.mem_append, List.not_mem_nil, or_false] at ha
  rcases ha with
    ((rfl | rfl) | (rfl | rfl) | (rfl | rfl) | (rfl | rfl) | (rfl | rfl) | rfl | rfl) | rfl
  all_goals first | exact trivial | exact fun _ => hserver _ | exact fun _ => hother _

theorem membership_survives_addedServer : ∃ s,
    runOf? (step longLong 0 idle) (NodeInstall.begin 1 ⟨text "a", 7001⟩ routed false ())
      addsServer = some s ∧
    contents s.node.membershipState = text "1\n2=b:7002,4=c:7004\na:7001\n" ∧
    load longLong 0 (some (contents s.node.membershipState)) =
      .ok (s.node.membershipState, true) := by
  obtain ⟨s, hs, hcontents⟩ := exists_of_any (x := runOf? (step longLong 0 idle)
    (NodeInstall.begin 1 ⟨text "a", 7001⟩ routed false ()) addsServer) (P := fun s =>
      contents s.node.membershipState = text "1\n2=b:7002,4=c:7004\na:7001\n") (by decide +kernel)
  have hparse : parsePeerSpec longLong (text "2=b:7002") = .ok routed := by rfl
  have hpeers := good_of_parse hparse (by decide)
  refine ⟨s, hs, hcontents, (membership_survives longLong 0 idle).2 1
    ⟨text "a", 7001⟩ routed false () s ⟨by decide, by decide, by decide⟩
    (fun peer hpeer => (hpeers peer hpeer).1) ?_⟩
  exact (reach_runOf?_of addsServer_told hs).mono fun s a h => h s

/-- The conf changes that a node proposes are those that its prompt has read. -/
def FromPrompt (p : Platform) : Action → Prop
  | .handle (.propose command) => ∀ cc, tryDecodeConfChange command = .ok (some cc) →
      cc.type = kAddServer → ∃ args, readAddServer p args = some cc
  | _ => True

def alone : Sys Unit := NodeInstall.begin 1 ⟨text "h", 7001⟩ .empty false ()

def colonServer : ConfChangeCommand := ⟨kAddServer, 4, text "::1", 7004⟩

/-- A node alone adds server 4 with an IPv6 address, and the next entries take the change out of
the log and into the file. -/
def addsColon : List Action :=
  .handle .elect :: ([encodeConfChange colonServer, [7], [7], [7], [7]].zipIdx.flatMap fun c =>
    [.handle (.propose c.1), .handle (.appendReply 4 1 c.2 1 ⟨1, true, 0⟩)])

lemma addsColon_fromPrompt : ∀ a ∈ addsColon, FromPrompt longLong a := by
  have hcolon : ∀ cc, tryDecodeConfChange (encodeConfChange colonServer) = .ok (some cc) →
      cc.type = kAddServer → ∃ args, readAddServer longLong args = some cc := fun cc h _ => by
    obtain rfl : cc = colonServer := by simpa [eq_comm] using h.symm.trans (by rfl :
      tryDecodeConfChange (encodeConfChange colonServer) = .ok (some colonServer))
    exact ⟨text "4 ::1 7004", by rfl⟩
  have hother : ∀ cc, tryDecodeConfChange [7] = .ok (some cc) → cc.type = kAddServer →
      ∃ args, readAddServer longLong args = some cc := fun cc h => by cases h
  intro a ha
  simp only [addsColon, List.zipIdx_cons, List.zipIdx_nil, List.flatMap_cons, List.flatMap_nil,
    List.mem_cons, List.mem_append, List.not_mem_nil, or_false] at ha
  rcases ha with rfl | (rfl | rfl) | (rfl | rfl) | (rfl | rfl) | (rfl | rfl) | rfl | rfl
  all_goals first | exact trivial | exact hcolon | exact hother

/-- **A host with a colon** is taken, committed and saved, and the next start throws. -/
theorem colon_throws : ¬ ∀ s : Sys Unit,
    Reach (Step longLong 0 idle) (fun _ => FromPrompt longLong) alone s →
      load longLong 0 (some (contents s.node.membershipState)) =
        .ok (s.node.membershipState, true) := by
  intro h
  obtain ⟨s, hs, hload⟩ : ∃ s, runOf? (step longLong 0 idle) alone addsColon = some s ∧
      contents s.node.membershipState = text "1\n4=::1:7004\nh:7001\n" := exists_of_any (by decide)
  have hthrown : load longLong 0 (some (text "1\n4=::1:7004\nh:7001\n")) =
    .error .invalidArgument := by rfl
  have hfound := h s (reach_runOf?_of addsColon_fromPrompt hs)
  rw [hload, hthrown] at hfound
  cases hfound

end DistDB.MembershipRuns
