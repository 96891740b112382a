import DistDB.ClusterAgrees

/-!
Every event of a cluster is a few steps of the agreement, if the members change with care
(`Careful`, `Tracks.step`).

The conditions are about changes of the members alone: a cluster whose members do not change
meets them all.
-/

namespace DistDB.ClusterModel

open NodeModel NodeModel.Node Elections Agreement Config FullLog TermLog
open Consensus (Goes Committed)

variable {σ : Type}

/-- The node is or was a member, or has been told of members. -/
def Joined (n : Node σ) : Prop :=
  n.membershipState.selfIsMember = true ∨ n.membershipState.basePeers.entries ≠ []

instance (n : Node σ) : Decidable (Joined n) := inferInstanceAs (Decidable (_ ∨ _))

/-- The node takes itself for a member, and has no removal of itself pending. -/
def Stays (n : Node σ) : Prop := n.selfIsMember = true ∧ n.pendingSelfRemovalIndex = 0

instance (n : Node σ) : Decidable (Stays n) := inferInstanceAs (Decidable (_ ∧ _))

/-- What the code does not check when members change. -/
def Careful (s : Cluster σ) : Event σ → Prop
  /- A leader whose own removal is pending starts no election. -/
  | .election (.startElection v) => (s.node v).role = .kLeader →
    (s.node v).refreshMembership.1.pendingSelfRemovalIndex = 0
  /- A snapshot is sent by a member whose log has no change behind what it has applied. -/
  | .sendInstallSnapshot v _ _ => (s.node v).role = .kLeader →
    confChanges (s.node v).log (s.node v).lastApplied (s.node v).log.lastIndex = .ok [] ∧
      Stays (s.node v)
  /- A server that joins takes no entries before a snapshot. -/
  | .appendEntries call _ => ∀ c req, s.calls[call]? = some c → c.rpc = .append req →
    Joined (s.node c.target) ∨ req.entries = []
  /- A snapshot that a candidate adopts is in its log, or has the same members. -/
  | .installAdopt v => ∀ i, s.installs v = some i → (s.node v).role = .kCandidate →
    (s.node v).log.termAt i.request.lastIncludedIndex = i.request.lastIncludedTerm ∨
      i.request.membership.keys = insert v (s.node v).peers.keys
  /- A change is accepted by a member that has committed an entry of its own term. -/
  | .propose v command => ∀ cc, tryDecodeConfChange command = .ok (some cc) →
    (s.node v).log.termAt (s.node v).commitIndex = (s.node v).state.currentTerm ∧ Stays (s.node v)
  | _ => True

/-- The check of a condition on a concrete state. -/
def careful? (s : Cluster σ) : Event σ → Bool
  | .election (.startElection v) => decide ((s.node v).role ≠ .kLeader ∨
      (s.node v).refreshMembership.1.pendingSelfRemovalIndex = 0)
  | .sendInstallSnapshot v _ _ => decide ((s.node v).role ≠ .kLeader) ||
      match confChanges (s.node v).log (s.node v).lastApplied (s.node v).log.lastIndex with
      | .ok [] => decide (Stays (s.node v))
      | _ => false
  | .appendEntries call _ =>
    match s.calls[call]? with
    | some ⟨_, target, .append req, _⟩ => decide (Joined (s.node target)) || req.entries.isEmpty
    | _ => true
  | .installAdopt v =>
    match s.installs v with
    | some i => decide ((s.node v).role ≠ .kCandidate ∨
        (s.node v).log.termAt i.request.lastIncludedIndex = i.request.lastIncludedTerm ∨
        i.request.membership.keys = insert v (s.node v).peers.keys)
    | none => true
  | .propose v command =>
    match tryDecodeConfChange command with
    | .ok (some _) => decide ((s.node v).log.termAt (s.node v).commitIndex =
        (s.node v).state.currentTerm ∧ Stays (s.node v))
    | _ => true
  | _ => true

lemma careful_of_check {s : Cluster σ} {e : Event σ} (h : careful? s e = true) : Careful s e := by
  cases e with
  | election e =>
    cases e with
    | startElection v =>
      intro hrole
      exact (of_decide_eq_true h).resolve_left fun hne => hne hrole
    | _ => trivial
  | sendInstallSnapshot v peer term =>
    intro hrole
    unfold careful? at h
    rcases (Bool.or_eq_true _ _).mp h with hother | hchecked
    · exact absurd hrole (of_decide_eq_true hother)
    · split at hchecked
      · rename_i hchanges
        exact ⟨hchanges, of_decide_eq_true hchecked⟩
      · cases hchecked
  | appendEntries call now =>
    rintro ⟨caller, target, rpc, waiting⟩ req hc rfl
    simp only [careful?, hc, Bool.or_eq_true, decide_eq_true_eq, List.isEmpty_iff] at h
    exact h
  | installAdopt v =>
    intro i hi hrole
    simp only [careful?, hi, decide_eq_true_eq] at h
    exact h.resolve_left fun hne => hne hrole
  | propose v command =>
    intro cc hcc
    simp only [careful?, hcc, decide_eq_true_eq] at h
    exact h
  | _ => trivial

variable {base : Finset NodeId} {Q : History → σ → Prop} {cb : Callbacks σ} {a : History}
  {s s' : Cluster σ} {v : NodeId}

/-! ### Votes -/

/-- What an event is for the group: nothing, an event of an election, a function of one node, or a
start of one. -/
inductive GroupStep (cb : Callbacks σ) (s : Cluster σ) : Event σ → RaftGroup σ → Prop
  | same {e : Event σ} : GroupStep cb s e s.group
  | election {e : Elections.Event σ} {group : RaftGroup σ} : OfElection e = true →
      s.group.step? cb e = some group → GroupStep cb s (.election e) group
  | handler {e : Event σ} (v : NodeId) (handler : Handler) :
      GroupStep cb s e (s.group.setNode v (handler.run cb (s.node v)))
  | compact {v : NodeId} :
      GroupStep cb s (.compact v) (s.group.setNode v (s.node v).compact.1)
  | restart {v : NodeId} {machine : σ} {group : RaftGroup σ} :
      s.group.step? cb (.crash v ⟨(s.node v).state, (s.node v).log, (s.node v).membershipState⟩
        machine) = some group → GroupStep cb s (.restart v machine) group

theorem group_step {e : Event σ} (hs : s.step? cb e = some s') : GroupStep cb s e s'.group := by
  cases e with
  | election e =>
    simp only [Cluster.step?] at hs
    split_ifs at hs with hof
    obtain ⟨group, hgroup, rfl⟩ := Option.map_eq_some_iff.mp hs
    exact .election hof hgroup
  | replicateToAll v =>
    simp only [Cluster.step?] at hs
    split_ifs at hs
    cases hs
    exact .same
  | replicateTo v peer =>
    simp only [Cluster.step?] at hs
    split_ifs at hs
    cases hs
    split <;> exact .handler v (.replicateTo peer)
  | sendInstallSnapshot v peer term =>
    simp only [Cluster.step?] at hs
    split_ifs at hs
    cases hs
    split <;> exact .handler v (.sendInstallSnapshot peer term)
  | appendEntries call now =>
    simp only [Cluster.step?] at hs
    split at hs
    · rename_i caller target req waiting hc
      cases hs
      exact .handler target (.appendEntries now req)
    · cases hs
  | appendReply call answer =>
    simp only [Cluster.step?] at hs
    split at hs
    · rename_i caller target req call' resp hc hans
      split_ifs at hs
      cases hs
      exact .handler caller
        (.appendReply target req.term req.prevLogIndex req.entries.length resp)
    · cases hs
  | installCheck call now =>
    simp only [Cluster.step?] at hs
    split at hs
    · rename_i caller target req covered waiting hc
      split_ifs at hs
      cases hs
      split <;> exact .handler target (.installCheck now req)
    · cases hs
  | installRestore v =>
    simp only [Cluster.step?] at hs
    split at hs
    · rename_i call req covered hi
      cases hs
      exact .handler v (.installRestore req)
    · cases hs
  | installAdopt v =>
    simp only [Cluster.step?] at hs
    split at hs
    · rename_i call req covered hi
      cases hs
      exact .handler v (.installAdopt req)
    · cases hs
  | snapshotReply call answer =>
    simp only [Cluster.step?] at hs
    split at hs
    · rename_i caller target req covered call' resp hc hans
      split_ifs at hs
      cases hs
      exact .handler caller (.snapshotReply target req.term req.lastIncludedIndex resp)
    · cases hs
  | lost call =>
    simp only [Cluster.step?] at hs
    split at hs
    · rename_i caller target rpc hc
      cases hs
      exact .handler caller (.replicationLost target)
    · cases hs
  | propose v command =>
    simp only [Cluster.step?] at hs
    split_ifs at hs <;> cases hs <;> exact .handler v (.propose command)
  | finish proposal =>
    simp only [Cluster.step?] at hs
    split at hs
    · split_ifs at hs
      cases hs
      exact .same
    · cases hs
  | compact v =>
    cases hs
    exact .compact
  | restart v machine =>
    simp only [Cluster.step?] at hs
    obtain ⟨group, hgroup, rfl⟩ := Option.map_eq_some_iff.mp hs
    exact .restart hgroup

/-- **Votes** are counted as in a group of which only the elections are known. -/
theorem votes_step (h : Elections.Inv s.group) {e : Event σ} (hs : s.step? cb e = some s') :
    Elections.Inv s'.group := by
  have hgroup := group_step hs
  generalize s'.group = group at hgroup ⊢
  cases hgroup with
  | same => exact h
  | @election e _ hof hgroup =>
    refine h.step ?_ hgroup
    cases e with
    | crash v disk machine => cases hof
    | _ => trivial
  | handler v handler =>
    exact h.step (e := .handle v handler) trivial (rfl : s.group.step? cb (.handle v handler) = _)
  | @compact v =>
    refine h.setNode_quiet ((stable_apart v).compact (h.apart v)) ?_
    obtain ⟨errors, log, membership, heq⟩ := (s.node v).compact_frame
    rw [heq]
    exact .of_eq rfl rfl rfl rfl
  | @restart v machine _ hgroup =>
    exact h.step (e := .crash v ⟨_, _, _⟩ machine) (h.apart v).base hgroup

/-! ### Elections -/

namespace Tracks

variable {a' : History} {n : Node σ} {l : List LogEntry}

lemma setNode_same (s : Cluster σ) (v : NodeId) (n : Node σ) :
    s.setNode v n (s.whole v) = { s with group := s.group.setNode v n } := by
  unfold Cluster.setNode
  rw [Function.update_eq_self]

lemma setNode_newTerm (h : Tracks base Q a s) (hvotes : Elections.Inv s.group)
    (hw : Watches base cb Q) (hd : Does base Q a a' v (s.whole v) n)
    (hterm : n.state.currentTerm = (s.node v).state.currentTerm + 1) :
    Tracks base Q a' { s with group := s.group.setNode v n } := by
  rw [← setNode_same]
  refine h.setNode hw hd (h.inv.steps hd.goes.steps)
    (fun _ hsame => ?_) fun _ c hc hcaller hsame => ?_
  · omega
  · have hold := (hvotes.call hc).2.2
    rw [hcaller, hsame, hterm] at hold
    exact absurd hold (Nat.not_succ_le_self _)

lemma setCampaign (h : Tracks base Q a s) {k : Option Campaign}
    (hk : ∀ k', k = some k' → Stood a v k'.request) :
    Tracks base Q a { s with group := { s.group with
      campaigns := Function.update s.group.campaigns v k } } := by
  refine h.setVotes (fun w k' hw => ?_) fun c hc => ⟨h.voteCall hc, h.asked hc⟩
  rcases Elections.Inv.of_update hw with ⟨rfl, hnew⟩ | ⟨-, hold⟩
  · exact hk k' hnew
  · exact h.campaign hold

theorem startElection (h : Tracks base Q a s) (hvotes : Elections.Inv s.group)
    (hw : Watches base cb Q) (hok : Careful s (.election (.startElection v))) :
    ∃ a', Goes base v a a' ∧ Tracks base Q a' { s with group :=
      { s.group.setNode v (s.node v).startElection.1 with
        campaigns := Function.update s.group.campaigns v
          (Campaign.begun (s.node v).startElection.2) } } := by
  have hserver := h.server v
  have hrefreshed : Does base Q a a v (s.whole v) (s.node v).refreshMembership.1 :=
    hserver.refl.of_agrees hserver.agrees.refreshMembership (refreshMembership_state _)
  -- a node that stands is a member by its own log
  have hmember : (s.node v).refreshMembership.1.selfIsMember = true →
      Sound base v (s.whole v) (s.node v).refreshMembership.1 ∧
      Knows v (s.node v).refreshMembership.1 (config base (s.whole v)) ∧
      v ∈ config base (s.whole v) := by
    intro hself
    have hpending : (s.node v).refreshMembership.1.pendingSelfRemovalIndex = 0 := by
      by_cases hrole : (s.node v).role = .kLeader
      · exact hok hrole
      · exact refreshMembership_pending hrole
    obtain ⟨b, rfl | ⟨rfl, hnil, -⟩, hs⟩ := hserver.agrees.sound
    · exact ⟨hs.refreshMembership, hs.knows, hs.knows.self.mp ⟨hself, hpending⟩⟩
    · have hin := hs.knows.self.mp ⟨hself, hpending⟩
      rw [hnil, config_nil] at hin
      cases hin
  rcases (s.node v).startElection_cases with
    ⟨heq, hnone⟩ | ⟨hself, heq⟩ | ⟨hself, hmajority, heq, hnone⟩
  · rw [begun_eq_none hnone, heq]
    refine ⟨a, .refl a, ?_⟩
    have hnext := h.setNode_quiet hw hrefreshed h.inv (.refreshMembership _) fun _ => rfl
    rw [setNode_same] at hnext
    exact hnext.setCampaign fun k hk => by cases hk
  · obtain ⟨hsound, hknows, hin⟩ := hmember hself
    obtain ⟨a', hd, hballot, -⟩ := hrefreshed.server.standing hw h.inv hsound hknows hin
    rw [refreshMembership_state] at hballot
    rw [heq]
    refine ⟨a', hd.goes, ?_⟩
    have hnext := h.setNode_newTerm hvotes hw hd
      (congrArg (fun st : PersistentState => st.currentTerm + 1) (refreshMembership_state _))
    refine hnext.setCampaign fun k hk => ?_
    cases hk
    exact ⟨_, hballot, hserver.agrees.holds.lastIndex, hserver.agrees.holds.lastTerm⟩
  · obtain ⟨hsound, hknows, hin⟩ := hmember hself
    obtain ⟨a₁, hd, hballot, hvote⟩ := hrefreshed.server.standing hw h.inv hsound hknows hin
    have hids := hknows.ids hin
    have hempty : (s.node v).refreshMembership.1.peers.keys = ∅ := by
      have hcard := OrdMap.card_keys (s.node v).refreshMembership.1.peers
      have hlt : 1 * 2 > (s.node v).refreshMembership.1.peers.size + 1 := hmajority
      exact Finset.card_eq_zero.mp (by omega)
    have halone : config base (s.whole v) = {v} := by
      rw [← hids, hempty]
      rfl
    obtain ⟨a', hd'⟩ := hd.server.becomeLeader hw (h.inv.steps hd.goes.steps) rfl (q := {v})
      (by rw [halone]; exact ⟨le_rfl, by simp⟩) fun x hx => by
        rw [Finset.mem_singleton.mp hx]
        exact ⟨_, hvote⟩
    have hstate := (becomeLeader_keeps (s.node v).refreshMembership.1.standing).1
    have hd'' := hd.trans hd' fun t c hc => hstate.trans hc
    rw [begun_eq_none hnone, heq]
    refine ⟨a', hd''.goes, ?_⟩
    have hnext := h.setNode_newTerm hvotes hw hd''
      ((congrArg PersistentState.currentTerm hstate).trans
        (congrArg (fun st : PersistentState => st.currentTerm + 1) (refreshMembership_state _)))
    exact hnext.setCampaign fun k hk => by cases hk

lemma callVote (h : Tracks base Q a s) {peer : NodeId} {k : Campaign}
    (hk : s.group.campaigns v = some k) (hpeer : peer ∈ (s.node v).peers.keys) :
    Tracks base Q a { s with group := { s.group with
      campaigns := Function.update s.group.campaigns v
        (some { k with called := insert peer k.called })
      voteCalls := s.group.voteCalls ++ [⟨v, peer, k.request, true⟩] } } := by
  refine h.setVotes (fun w k' hw => ?_) fun c hc => ?_
  · rcases Elections.Inv.of_update hw with ⟨rfl, hnew⟩ | ⟨-, hold⟩
    · cases hnew
      show Stood a w k.request
      exact h.campaign hk
    · exact h.campaign hold
  · rcases List.mem_append.mp hc with hc | hc
    · exact ⟨h.voteCall hc, h.asked hc⟩
    · obtain rfl := List.mem_singleton.mp hc
      exact ⟨h.campaign hk, fun _ _ => hpeer⟩

lemma vote_once (h : Tracks base Q a s) (hvotes : Elections.Inv s.group) {w candidate t : NodeId}
    (hle : (s.node w).state.currentTerm ≤ t)
    (hfree : ∀ c, ((s.node w).atTerm t).state.votedFor = some c → c = candidate) {d : NodeId}
    {m : List LogEntry} (hvote : a.vote w t d m) : d = candidate := by
  obtain ⟨r, hmem⟩ := h.voted hvote
  rcases hvotes.later hmem with hlt | ⟨hterm, hnone | hsame⟩
  · exact absurd (hlt.trans_le hle) (lt_irrefl _)
  · cases hnone
  · refine hfree d ?_
    have hstay : ((s.node w).atTerm t).state = (s.node w).state := by
      unfold Node.atTerm
      rw [if_neg (show ¬ t > (s.node w).state.currentTerm from hterm.le.not_gt)]
    rw [hstay]
    exact hsame

theorem requestVote (h : Tracks base Q a s) (hvotes : Elections.Inv s.group)
    (hw : Watches base cb Q) {call : ℕ} {c : VoteCall} (hc : s.group.voteCalls[call]? = some c)
    (now : ℕ) : ∃ a', Goes base c.target a a' ∧ Tracks base Q a' { s with group :=
      { s.group.setNode c.target ((s.node c.target).handleRequestVote now c.request).1 with
        voteAnswers := s.group.voteAnswers ++
          [(call, ((s.node c.target).handleRequestVote now c.request).2)] } } := by
  obtain ⟨l, hballot, hindex, hterm⟩ := h.voteCall (List.mem_of_getElem? hc)
  obtain ⟨-, hcandidate, -⟩ := hvotes.call (List.mem_of_getElem? hc)
  have hserver := h.server c.target
  have haddAnswer : ∀ {a' : History} {n : Node σ},
      Tracks base Q a' (s.setNode c.target n (s.whole c.target)) → ∀ resp,
      Tracks base Q a' { s with group := { s.group.setNode c.target n with
        voteAnswers := s.group.voteAnswers ++ [(call, resp)] } } := by
    intro a' n hnext resp
    rw [setNode_same] at hnext
    exact hnext.setVotes (fun w k => hnext.campaign) fun c hc =>
      ⟨hnext.voteCall hc, hnext.asked hc⟩
  obtain ⟨a₁, hd₁⟩ := hserver.atTerm hw h.inv c.request.term
  have hquiet := quiet_atTerm (s.node c.target) c.request.term
  have hinv₁ := h.inv.steps hd₁.goes.steps
  rcases handleRequestVote_cases now (s.node c.target) c.request with
    ⟨-, heq | ⟨-, heq⟩⟩ | ⟨hle, hfree, hlog, heq⟩ <;> rw [heq]
  · exact ⟨a, .refl a, haddAnswer
      (h.setNode_quiet hw hserver.refl h.inv (.refl _) fun _ => rfl) _⟩
  · exact ⟨a₁, hd₁.goes, haddAnswer
      (h.setNode_quiet hw hd₁ hinv₁ hquiet fun _ => rfl) _⟩
  · have hnow := atTerm_currentTerm hle
    have hd₂ : Does base Q a₁ (a₁.grant c.target c.request.candidateId) c.target
        (s.whole c.target) (((s.node c.target).atTerm c.request.term).votingFor
          c.request.candidateId) := by
      refine hd₁.server.votingFor hw hinv₁ (b := l) ?_ ?_ fun d m hm => ?_
      · rw [hnow, hcandidate]
        exact hd₁.goes.ballot hballot
      · unfold candidateLogOk at hlog
        rw [hserver.agrees.holds.lastIndex, hserver.agrees.holds.lastTerm, hindex, hterm] at hlog
        exact hlog.imp id fun hlog => ⟨hlog.1.symm, hlog.2⟩
      · rw [hnow] at hm
        rcases hd₁.voted hm with hold | hstate
        · exact h.vote_once hvotes hle hfree hold
        · exact hfree d (by rw [hstate])
    have hd := hd₁.trans hd₂ fun t d hstate => by
      have hsame := hfree d (by rw [hstate])
      rw [votingFor, hstate, hsame]
    refine ⟨_, hd.goes, haddAnswer ?_ _⟩
    refine h.setNode hw hd (h.inv.steps hd.goes.steps) (fun hcompetes _ => ?_)
      fun hrole c' hc' hcaller hsame => ?_
    · obtain ⟨-, ⟨-, hfollower | ⟨hrole, -⟩⟩ | ⟨-, -, hfollower⟩⟩ := hquiet
      · exact absurd hfollower hcompetes
      · exact hrole ▸ hcompetes
      · exact absurd hfollower hcompetes
    · -- a candidate that votes for itself again
      have hstay : (s.node c.target).atTerm c.request.term = s.node c.target := by
        unfold Node.atTerm at hrole ⊢
        split at hrole
        · cases hrole
        · rename_i hnot
          rw [if_neg hnot]
      rw [hstay, ← hcaller] at hrole hsame ⊢
      exact h.asked hc' hrole hsame

lemma mem_stopCall {group : RaftGroup σ} {c : VoteCall} {call : ℕ}
    (hc : c ∈ (group.stopCall call).voteCalls) :
    ∃ c₀ ∈ group.voteCalls, c₀.caller = c.caller ∧ c₀.target = c.target ∧
      c₀.request = c.request := by
  obtain ⟨k, hk⟩ := List.mem_iff_getElem?.mp hc
  rw [RaftGroup.stopCall, List.getElem?_modify] at hk
  obtain ⟨c₀, hc₀, heq⟩ := Option.map_eq_some_iff.mp hk
  refine ⟨c₀, List.mem_of_getElem? hc₀, ?_⟩
  split at heq <;> cases heq <;> exact ⟨rfl, rfl, rfl⟩

lemma endVoteCalls (h : Tracks base Q a s) {calls : List VoteCall}
    (hcalls : ∀ c ∈ calls, ∃ c₀ ∈ s.group.voteCalls,
      c₀.caller = c.caller ∧ c₀.target = c.target ∧ c₀.request = c.request) :
    Tracks base Q a { s with group := { s.group with voteCalls := calls } } := by
  refine h.setVotes (fun w k => h.campaign) fun c hc => ?_
  obtain ⟨c₀, hc₀, hcaller, htarget, hrequest⟩ := hcalls c hc
  rw [← hcaller, ← htarget, ← hrequest]
  exact ⟨h.voteCall hc₀, h.asked hc₀⟩

theorem voteReply (h : Tracks base Q a s) (hvotes : Elections.Inv s.group)
    (hw : Watches base cb Q) {call answer : ℕ} {c : VoteCall} {resp : RequestVoteResponse}
    (hc : s.group.voteCalls[call]? = some c) (hwaiting : c.waiting)
    (hanswer : s.group.voteAnswers[answer]? = some (call, resp)) :
    ∃ a', Goes base c.caller a a' ∧ Tracks base Q a' { s with group := (s.group.setNode c.caller
      ((s.node c.caller).voteReply c.request.term resp).1).stopCall call } := by
  obtain ⟨v, hv⟩ : ∃ v, c.caller = v := ⟨_, rfl⟩
  have hserver := h.server v
  have hend : ∀ {a' : History} {n : Node σ}, Tracks base Q a' (s.setNode v n (s.whole v)) →
      Tracks base Q a' { s with group := (s.group.setNode v n).stopCall call } := by
    intro a' n hnext
    rw [setNode_same] at hnext
    exact hnext.endVoteCalls fun c hc => mem_stopCall hc
  -- whom it counts behind the reply has voted for it
  have hcounted := (hvotes.voteReply hc hwaiting hanswer).counted (v := v)
  rw [hv] at hcounted ⊢
  rcases (s.node v).voteReply_cases c.request.term resp with
    heq | ⟨-, heq⟩ | ⟨-, hrole, hterm, hcounting⟩
  · rw [heq]
    exact ⟨a, .refl a, hend (h.setNode_quiet hw hserver.refl h.inv (.refl _) fun _ => rfl)⟩
  · rw [heq]
    obtain ⟨a', hd⟩ := hserver.becomeFollower hw h.inv resp.term
    exact ⟨a', hd.goes, hend (h.setNode_quiet hw hd (h.inv.steps hd.goes.steps)
      (.becomeFollower _ _) fun _ => rfl)⟩
  have hd₁ : Does base Q a a v (s.whole v) (s.node v).counting :=
    hserver.refl.of_agrees
      (hserver.agrees.revote (s.node v).state.votedFor ((s.node v).votesReceived + 1)) rfl
  have hasked : ∀ {x : NodeId} {c' : VoteCall}, c' ∈ s.group.voteCalls → c'.caller = v →
      c'.request.term = (s.node v).state.currentTerm → c'.target ∈ (s.node v).peers.keys := by
    intro x c' hc' hcaller hsame
    subst hcaller
    exact h.asked hc' hrole hsame
  rcases hcounting with ⟨-, heq⟩ | ⟨hmajority, heq⟩
  · rw [heq]
    refine ⟨a, .refl a, hend (h.setNode hw hd₁ h.inv (fun _ _ => ?_)
      fun _ c' hc' hcaller hsame => ?_)⟩
    · rw [hrole]
      decide
    · exact hasked (x := v) hc' hcaller hsame
  · rw [heq] at hcounted ⊢
    obtain ⟨hstate, hreceived⟩ := becomeLeader_keeps (s.node v).counting
    have hcompetes : (s.node v).counting.becomeLeader.1.role ≠ .kFollower := by
      rcases (s.node v).counting.becomeLeader_cases with heq | ⟨-, heq⟩ <;> rw [heq]
      · rw [refreshMembership_role, counting_role, hrole]
        decide
      · rw [leading_role]
        decide
    have hself : ((s.group.setNode v (s.node v).counting.becomeLeader.1).stopCall call).nodes v =
        (s.node v).counting.becomeLeader.1 := Function.update_self ..
    obtain ⟨q, hq⟩ := hcounted (by rw [hself]; exact hcompetes)
    have hcard := hq.card
    have hvoted := hq.voted
    have hcalled := hq.asked
    rw [hself] at hcard hvoted hcalled
    have hmember := (hserver.agrees.stands hrole).member
    have hknows := hserver.agrees.knows (by rw [hrole]; decide)
    have hids := hknows.ids hmember
    have hpeers : v ∉ (s.node v).peers.keys := (hvotes.apart v).peers
    -- the counted votes are a majority of what its log puts in force, as it knows these members
    obtain ⟨a', hd₂⟩ := hd₁.server.becomeLeader hw h.inv hrole (q := q) (by
      refine ⟨fun x hx => ?_, ?_⟩
      · rw [← hids]
        by_cases hxv : x = v
        · exact hxv ▸ Finset.mem_insert_self _ _
        · obtain ⟨c', hc', hcaller, htarget, hsame, -⟩ := hcalled x hx hxv
          obtain ⟨c₀, hc₀, hcaller₀, htarget₀, hrequest₀⟩ := mem_stopCall hc'
          refine Finset.mem_insert_of_mem ?_
          rw [← htarget, ← htarget₀]
          refine hasked (x := v) hc₀ (hcaller₀.trans hcaller) ?_
          rw [hrequest₀, hsame, hstate]
          rfl
      · have hsize : ((s.node v).votesReceived + 1) * 2 > (s.node v).peers.size + 1 := hmajority
        rw [← hids, Finset.card_insert_of_notMem hpeers, OrdMap.card_keys, hcard, hreceived]
        show _ < 2 * ((s.node v).votesReceived + 1)
        omega) fun x hx => by
      obtain ⟨r, hmem⟩ := hvoted x hx
      rw [hstate] at hmem
      rcases List.mem_cons.mp hmem with heq' | hold
      · simp only [Prod.mk.injEq] at heq'
        obtain ⟨rfl, hvote, -⟩ := heq'
        exact hserver.kept x (congrArg PersistentState.votedFor (hvote.trans hstate)).symm
      · have hcast := h.saved hold rfl
        exact hcast
    have hd := hd₁.trans hd₂ fun t c hc => hstate.trans hc
    refine ⟨a', hd.goes, hend (h.setNode hw hd (h.inv.steps hd.goes.steps) (fun _ _ => ?_)
      fun hcandidate c' hc' hcaller hsame => ?_)⟩
    · rw [hrole]
      decide
    · rw [(hd.server.agrees.knows hcompetes).peers, ← hknows.peers]
      exact hasked (x := v) hc' hcaller (by rw [hsame, hstate]; rfl)

end Tracks

end DistDB.ClusterModel
